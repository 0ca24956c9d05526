import Sequitur.Proofs.Tableau.Ancestry
import Sequitur.Proofs.Tableau.Soundness
import Sequitur.Proofs.Tableau.Traversals

/-!
# Captured constants

A tableau may be put together child by child before it is expanded. A child takes over the constants
of its parent as they are recorded there, so that only those of the root are recorded at the leaves. A
constant that has come with a child passes for a fresh one, and an existential may be instantiated
with it. Then a tableau can close although one of its branches was true in a structure
(`Context.closes_by_capture`).

This is the only way in which it can. The constants that a branch has and does not record are kept
apart as those of which `K` holds (`Path.FormedBut`): as long as none of them is taken for a witness,
some branch stays true (`Expansion.Advances.survives`). So if an expansion closes every branch, either
a branch was true in no structure, or a constant has been captured below it
(`Context.unsatisfiable_or_captures`).
-/

namespace Sequitur

open Tableau Expand Expansion

universe u

variable {t t' : Tableau} {L : List Nat} {k l : Nat} {n : Node}

/-! ## Tableaux put together by hand -/

namespace Tableau

/-- Whether only children have been added to a root with the given constants, and what stands at the
nodes is as `P` asks. -/
structure Handmade (constants : Symbols) (P : Formula → Prop) (t : Tableau) : Prop where
  tree : t.IsTree
  unmarked : ∀ k n, t.node? k = some n → n.closed = false
  recorded : ∀ k n, t.node? k = some n → n.constants = constants
  formula : ∀ k n, t.node? k = some n → P n.formula

/-- Whether the change asks for a child whose formula is as `P` asks. -/
def Edit.Adds (P : Formula → Prop) : Edit → Prop
  | .child _ f _ _ => P f
  | .closing _ => False

instance Edit.decidableAdds {P : Formula → Prop} [DecidablePred P] : DecidablePred (Edit.Adds P)
  | .child _ f _ _ => inferInstanceAs (Decidable (P f))
  | .closing _ => .isFalse id

namespace Handmade

variable {constants : Symbols} {P : Formula → Prop}

theorem start {w : Formula} (hw : P w.unrooted) : (start w).Handmade w.unrooted.constants P where
  tree := isTree_start w
  unmarked := by
    intro k n hn
    rw [(node?_start hn).2]
    rfl
  recorded := by
    intro k n hn
    rw [(node?_start hn).2]
    rfl
  formula := by
    intro k n hn
    rw [(node?_start hn).2]
    exact hw

theorem mono {Q : Formula → Prop} (h : t.Handmade constants P) (hPQ : ∀ f, P f → Q f) :
    t.Handmade constants Q :=
  { h with formula := fun k n hn => hPQ _ (h.formula k n hn) }

theorem edit (h : t.Handmade constants P) {e : Edit} (he : e.Adds P) :
    (t.edit e).Handmade constants P := by
  cases e with
  | closing key => exact he.elim
  | child p f source side =>
    rcases t.addChild_cases p f source side with ⟨above, hp, ho, hok⟩ | ⟨cause, herror⟩
    · simp only [Tableau.edit, hok]
      -- the new node, its parent, or another
      have hcases : ∀ {Q : Node → Prop},
          Q (.new t.nextId f (p :: above.ancestors) source above.constants) →
          Q (above.attach side t.size) → (∀ k n, t.node? k = some n → Q n) →
          ∀ k n, (t.extend p above f source side).node? k = some n → Q n := by
        intro Q hnew hparent hold k n hn
        rcases (node?_extend_eq_some hp).1 hn with ⟨-, rfl⟩ | ⟨-, rfl⟩ | ⟨-, hn⟩
        · exact hnew
        · exact hparent
        · exact hold k n hn
      refine ⟨h.tree.extend hp ho, hcases rfl ?_ h.unmarked, hcases ?_ ?_ h.recorded,
        hcases he ?_ h.formula⟩
      · cases side <;> exact h.unmarked p above hp
      · exact h.recorded p above hp
      · cases side <;> exact h.recorded p above hp
      · cases side <;> exact h.formula p above hp
    · simp only [Tableau.edit, herror]
      exact h

theorem edits (h : t.Handmade constants P) {es : List Edit} (hes : ∀ e ∈ es, e.Adds P) :
    (t.edits es).Handmade constants P := by
  induction es generalizing t with
  | nil => exact h
  | cons e es ih =>
    obtain ⟨he, hes⟩ := List.forall_mem_cons.1 hes
    exact ih (h.edit he) hes

end Handmade

/-! ## The beginning of an expansion -/

/-- The tableau with nodes checked one after another. -/
def checkedAll (t : Tableau) (L : List Nat) : Tableau := L.foldl checked t

theorem isLeaf_checked {key : Nat} : (t.checked key).IsLeaf k ↔ t.IsLeaf k := by
  rw [checked]
  split
  · exact isLeaf_modify
  · exact Iff.rfl

theorem IsTree.checkedAll (ht : t.IsTree) (L : List Nat) : (t.checkedAll L).IsTree := by
  induction L generalizing t with
  | nil => exact ht
  | cons key L ih => exact ih ht.checked

theorem path_checkedAll (L : List Nat) (k : Nat) : (t.checkedAll L).path k = t.path k := by
  induction L generalizing t with
  | nil => rfl
  | cons key L ih => exact ih.trans (path_checked k)

theorem isLeaf_checkedAll (L : List Nat) : (t.checkedAll L).IsLeaf k ↔ t.IsLeaf k := by
  induction L generalizing t with
  | nil => exact Iff.rfl
  | cons key L ih => exact ih.trans isLeaf_checked

theorem node?_checkedAll_of_not_mem (hk : k ∉ L) : (t.checkedAll L).node? k = t.node? k := by
  induction L generalizing t with
  | nil => rfl
  | cons key L ih =>
    exact (ih (List.not_mem_of_not_mem_cons hk)).trans
      (node?_checked_of_ne (Ne.symm (List.ne_of_not_mem_cons hk)))

/-- A node that is checked once is marked exactly if its branch is contradictory. -/
theorem node?_checkedAll (hL : L.Nodup) (hk : k ∈ L) (hn : t.node? k = some n)
    (hopen : n.closed = false) :
    (t.checkedAll L).node? k = some { n with closed := (t.path k).isClosed } := by
  induction L generalizing t with
  | nil => exact absurd hk List.not_mem_nil
  | cons key L ih =>
    obtain ⟨hkey, hL⟩ := List.nodup_cons.1 hL
    by_cases hne : key = k
    · subst hne
      exact (node?_checkedAll_of_not_mem hkey).trans (node?_checked_self hn hopen)
    · have hn' : (t.checked key).node? k = some n := (node?_checked_of_ne hne).trans hn
      have hrest := ih hL ((List.mem_cons.1 hk).resolve_left (Ne.symm hne)) hn'
      rwa [path_checked] at hrest

theorem leavesMarked_checkedAll (ht : t.IsTree)
    (hunmarked : ∀ k n, t.node? k = some n → n.closed = false) :
    (t.checkedAll (t.leavesBelow root)).LeavesMarked := by
  intro k n' hn' hleaf
  have hl : t.IsLeaf k := (isLeaf_checkedAll _).1 ⟨n', hn', hleaf⟩
  have hk : k ∈ t.leavesBelow root :=
    ht.mem_leavesBelow.2 ⟨hl, ht.root_mem_branch hl.lt_size⟩
  obtain ⟨n, hn, -⟩ := hl
  rw [node?_checkedAll (ht.nodup_leavesBelow root) hk hn (hunmarked k n hn),
    Option.some.injEq] at hn'
  rw [path_checkedAll, ← hn']

end Tableau

theorem Expand.enqueueLeaves_ok {s : Expansion} (hL : L.Nodup)
    (hopen : ∀ k ∈ L, ∃ n, s.tableau.node? k = some n ∧ n.closed = false) :
    ∃ agenda trace, enqueueLeaves L s =
      .ok () { s with tableau := s.tableau.checkedAll L, agenda := agenda, trace := trace } := by
  induction L generalizing s with
  | nil => exact ⟨_, _, rfl⟩
  | cons key L ih =>
    obtain ⟨⟨n, hn, hclosed⟩, hopen⟩ := List.forall_mem_cons.1 hopen
    obtain ⟨hkey, hL⟩ := List.nodup_cons.1 hL
    have hn' := node?_checked_self hn hclosed
    rw [enqueueLeaves, bind_ok (checkClosure_ok hn hclosed), bind_ok (enqueue_ok (by exact hn'))]
    refine ih hL fun k hk => ?_
    obtain ⟨m, hm, hmclosed⟩ := hopen k hk
    have hne : key ≠ k := fun he => hkey (he ▸ hk)
    exact ⟨m, (node?_checked_of_ne hne).trans hm, hmclosed⟩

/-- An expansion can begin with any tree of unmarked nodes, and first marks its leaves. -/
theorem Expand.seed_valid (ht : t.IsTree)
    (hunmarked : ∀ k n, t.node? k = some n → n.closed = false) (requeues : Bool) :
    ∃ s, seed (.start t requeues) = .ok () s ∧ s.Valid ∧
      s.tableau = t.checkedAll (t.leavesBelow root) := by
  obtain ⟨agenda, trace, hok⟩ := enqueueLeaves_ok (s := Expansion.start t requeues)
    (ht.nodup_leavesBelow root) fun k hk => by
      obtain ⟨n, hn, -⟩ := (ht.mem_leavesBelow.1 hk).1
      exact ⟨n, hn, hunmarked k n hn⟩
  refine ⟨_, (bind_ok (tableau_ok _)).trans hok, ?_, rfl⟩
  refine ⟨⟨ht.checkedAll _, leavesMarked_checkedAll ht hunmarked⟩, fun k hk => ?_⟩
  exact absurd hk List.not_mem_nil

/-! ## True branches -/

namespace Path

variable {D : Type u} {v : Char → D} {K : Char → Prop} {p : Path}

/-- Whether the branch is true in some structure over the domain, and has all constants recorded but
those of which `K` holds. -/
structure Survives (K : Char → Prop) (v : Char → D) (p : Path) : Prop where
  formed : p.FormedBut K
  isTrue : ∃ I : Interpretation D, I.same = Eq ∧ p.IsTrue I v

theorem Survives.grow {f : Formula} {c : Char} {others : List Formula} (hp : p.Survives K v)
    (ha : p.Admits f c others)
    (hK : ∀ x body, f.decompose = .witness x body → K c →
      p.contains (body.substitute x c .const)) :
    ∃ q ∈ p.grow c others f.decompose, q.Survives K v := by
  obtain ⟨I, hI, htrue⟩ := hp.isTrue
  by_cases hcaptured : ∃ x body, f.decompose = .witness x body ∧ K c
  · -- the branch has the instance already and stays what it is
    obtain ⟨x, body, hd, hc⟩ := hcaptured
    refine ⟨p, ?_, hp⟩
    rw [hd, Path.grow, Path.witness, if_pos (hK x body hd hc)]
    exact List.mem_singleton_self p
  · obtain ⟨q, hq, J, hJ, htrue'⟩ := exists_true_of_grow hp.formed ha
      (fun x body hd hc => hcaptured ⟨x, body, hd, hc⟩) hI htrue
    exact ⟨q, hq, hp.formed.grow ha hq, J, hJ, htrue'⟩

end Path

/-! ## One dispatch and a whole run -/

/-- Whether below the node `l` an existential has been instantiated with a constant of which `K` holds.
-/
def Tableau.Captures (t : Tableau) (l : Nat) (K : Char → Prop) : Prop :=
  ∃ k n j m x c body, t.node? k = some n ∧ l ∈ n.ancestors ∧ n.source = some j ∧
    t.node? j = some m ∧ m.formula = .ex x body ∧ body.mentions x ∧
    n.formula = body.substitute x c .const ∧ K c

theorem Tableau.Captures.of_extends {K : Char → Prop} (h : t.Captures l K) (hext : t.Extends t' L) :
    t'.Captures l K := by
  obtain ⟨k, n, j, m, x, c, body, hn, hl, hsource, hm, hex, hx, hinstance, hc⟩ := h
  obtain ⟨n', hn', hstays, -⟩ := hext.kept k n hn
  obtain ⟨m', hm', hstays', -⟩ := hext.kept j m hm
  exact ⟨k, n', j, m', x, c, body, hn', hstays.ancestors ▸ hl, hstays.source.trans hsource, hm',
    hstays'.formula.trans hex, hx, hstays.formula.trans hinstance, hc⟩

/-- A leaf below an old one whose branch has the instance first is the node of that instance. -/
theorem Tableau.captures_of_formulas {K : Char → Prop} {key leaf last : Nat} {m : Node} {x c : Char}
    {body : Formula} (hext : t.Extends t' L) (ht : t.IsTree) (hsourced : Sourced key t t')
    (hm : t.node? key = some m) (hd : m.formula.decompose = .witness x body)
    (hleaf : t.IsLeaf leaf) (hl : l ∈ t.branch leaf) (hlast : leaf ∈ t'.branch last)
    (hformulas : (t'.path last).formulas = body.substitute x c .const :: (t.path leaf).formulas)
    (hc : K c) : t'.Captures l K := by
  have hne : leaf ≠ last := by
    rintro rfl
    rw [hext.formulas ht hleaf.lt_size] at hformulas
    exact List.cons_ne_self _ _ hformulas.symm
  have hnew : t.size ≤ last := by
    by_contra hlt
    rw [hext.branch (Nat.lt_of_not_le hlt)] at hlast
    exact hne (ht.eq_of_mem_branch_leaf hleaf hlast)
  have hroot : last ≠ root := by
    have := ht.size_pos
    omega
  obtain ⟨n, hn⟩ := node?_eq_some_of_lt (lt_size_of_mem_branch hlast)
  obtain ⟨p, above, hp, -, hbranch⟩ := hext.tree.parent last (lt_size_of_node? hn) hroot
  rw [path_formulas_cons hn hbranch, List.cons.injEq] at hformulas
  have hbelow : l ∈ t'.branch last := by
    rw [← hext.branch hleaf.lt_size] at hl
    exact hext.tree.mem_branch_trans hl hlast
  have habove : l ∈ n.ancestors := by
    rw [branch_of_node? hn] at hbelow
    refine (List.mem_cons.1 hbelow).resolve_left fun he => ?_
    have := ht.le_of_mem_branch hl
    have := hleaf.lt_size
    omega
  obtain ⟨m', hm', hstays, -⟩ := hext.kept key m hm
  obtain ⟨hex, hx⟩ := Formula.eq_of_decompose_witness hd
  exact ⟨last, n, key, m', x, c, body, hn, habove, hsourced last n hn hnew, hm',
    hstays.formula.trans hex, hx, hformulas.1, hc⟩

namespace Expansion

variable {D : Type u} {v : Char → D} {K : Char → Prop} {s s' : Expansion}

/-- Whether some branch through the node `l` survives. -/
def Survives (s : Expansion) (l : Nat) (K : Char → Prop) (v : Char → D) : Prop :=
  ∃ l', s.tableau.IsLeaf l' ∧ l ∈ s.tableau.branch l' ∧ (s.tableau.path l').Survives K v

/-- A dispatch leaves some branch true, unless it takes one of the constants for a witness. -/
theorem Advances.survives (h : Advances s s') (hs : s.Valid) (hsurvives : s.Survives l K v) :
    s'.Survives l K v ∨ s'.tableau.Captures l K := by
  obtain ⟨leaf, hleaf, hl, hp⟩ := hsurvives
  cases h.step hs with
  | idle ha _ => exact .inl ⟨leaf, hleaf, hl, hp⟩
  | @applied e rest m c n _ ha hne hm hd hc happlies =>
    have hext := happlies.tableau
    have hl' : l ∈ s'.tableau.branch leaf := by
      rw [hext.branch hleaf.lt_size]
      exact hl
    by_cases hL : leaf ∈ s.tableau.openLeavesBelow e.key
    · have hadmits := admits_of_mem hs.toCoherent hm hc hL
      by_cases hcaptured : ∃ x body, m.formula.decompose = .witness x body ∧ K c ∧
          ¬(s.tableau.path leaf).contains (body.substitute x c .const)
      · obtain ⟨x, body, hd, hK, hnew⟩ := hcaptured
        have hgrow : ((s.tableau.path leaf).push (body.substitute x c .const)).addConstant c ∈
            (s.tableau.path leaf).grow c (closableOn s.tableau e.key leaf) m.formula.decompose := by
          rw [hd, Path.grow, Path.witness, if_neg hnew]
          exact List.mem_singleton_self _
        obtain ⟨last, -, hbelow, hpath⟩ := happlies.reaches hL hgrow
        exact .inr (captures_of_formulas hext hs.tree (h.sourced hs.toCoherent ha) hm hd hleaf hl
          hbelow (congrArg Path.formulas hpath) hK)
      · obtain ⟨q, hq, hsurvives⟩ := hp.grow hadmits fun x body hd hK =>
          by_contra fun hnew => hcaptured ⟨x, body, hd, hK, hnew⟩
        obtain ⟨last, hlast, hbelow, rfl⟩ := happlies.reaches hL hq
        exact .inl ⟨last, hlast, hext.tree.mem_branch_trans hl' hbelow, hsurvives⟩
    · refine .inl ⟨leaf, hext.isLeaf_of_not_mem hleaf hL, hl', ?_⟩
      rw [hext.path_of_not_mem hs.tree hleaf.lt_size hL]
      exact hp

theorem Runs.survives (h : Runs s s') (hs : s.Valid) (hsurvives : s.Survives l K v) :
    s'.Survives l K v ∨ s'.tableau.Captures l K := by
  induction h with
  | refl => exact .inl hsurvives
  | tail hruns hadvances ih =>
    have hvalid := (Runs.steps hruns hs).valid hs
    rcases ih with ih | ih
    · exact hadvances.survives hvalid ih
    · cases hadvances.step hvalid with
      | idle _ _ => exact .inr ih
      | applied _ _ _ _ _ happlies => exact .inr (ih.of_extends happlies.tableau)

theorem Survives.not_allClosed (h : s.Survives l K v) : ¬s.AllClosed := by
  obtain ⟨leaf, hleaf, -, hp⟩ := h
  obtain ⟨I, hI, htrue⟩ := hp.isTrue
  intro hall
  have hopen := Path.isClosed_eq_false hp.formed.sentence hI htrue
  exact Bool.false_ne_true (hopen ▸ hall leaf hleaf)

end Expansion

/-! ## Verdicts -/

/-- A branch that is true at the beginning survives as long as none of the constants that it does not
record is captured. -/
theorem Tableau.Handmade.survives {constants : Symbols} {D : Type u}
    (ht : t.Handmade constants Formula.Sentence) (hsymbol : ∀ c ∈ constants, isConstantSymbol c)
    (hl : t.IsLeaf l) (S : Structure D) (v : Char → D)
    (htrue : ∀ f ∈ (t.path l).formulas, S.reading.Reads ∅ v f) :
    (t.path l).Survives (fun c => c ∉ constants ∧ ∃ f ∈ (t.path l).formulas, c ∈ f.constants) v := by
  have hconstants : (t.path l).constants = constants := by
    obtain ⟨n, hn, -⟩ := hl
    rw [path_of_node? hn, ht.recorded l n hn]
  refine ⟨⟨fun f hf => ?_, fun f hf c hc => ?_, ?_⟩, S.reading, rfl, htrue⟩
  · obtain ⟨k, -, n, hn, rfl⟩ := exists_node_of_mem_path hf
    exact ht.formula k n hn
  · rw [hconstants]
    exact (em (c ∈ constants)).imp_right fun hnot => ⟨hnot, f, hf, hc⟩
  · rw [hconstants]
    exact hsymbol

/-- If every branch is closed after the expansion of a tableau that was put together by hand, then no
structure makes one of its branches true unless a constant has been captured below that branch. -/
theorem Context.captures_of_expand {constants : Symbols} {ctx ctx' : Context} {D : Type u}
    (ht : t.Handmade constants Formula.Sentence) (hsymbol : ∀ c ∈ constants, isConstantSymbol c)
    (h : ctx.expand t = (ctx', t', .ok .closed)) (hl : t.IsLeaf l) (S : Structure D) (v : Char → D)
    (htrue : ∀ f ∈ (t.path l).formulas, S.reading.Reads ∅ v f) :
    t'.Captures l fun c => c ∉ constants ∧ ∃ f ∈ (t.path l).formulas, c ∈ f.constants := by
  obtain ⟨s₀, hseed, hs₀, htableau⟩ :=
    seed_valid ht.tree ht.unmarked ctx.settings.requeueUniversals.value
  have hl₀ : s₀.tableau.IsLeaf l := by
    rw [htableau, isLeaf_checkedAll]
    exact hl
  have hsurvives : s₀.Survives l
      (fun c => c ∉ constants ∧ ∃ f ∈ (t.path l).formulas, c ∈ f.constants) v := by
    refine ⟨l, hl₀, mem_branch_self hl₀.lt_size, ?_⟩
    rw [htableau, path_checkedAll]
    exact ht.survives hsymbol hl S v htrue
  obtain ⟨s, hruns, ⟨e, herror⟩ | ⟨c', status, hexpand, hreport, -⟩⟩ :=
    exists_runs_of_seed hseed hs₀
  · rw [h] at herror
    cases herror
  · rw [h] at hexpand
    obtain ⟨rfl, rfl, hclosed⟩ : ctx' = c' ∧ _ ∧ Report.closed = c'.report := by simpa using hexpand
    have hs := (hruns.steps hs₀).valid hs₀
    have hall : s.AllClosed :=
      (verdict_eq_closed_iff hs.toCoherent status).1 (hreport ▸ hclosed.symm)
    exact (hruns.survives hs₀ hsurvives).resolve_left fun hleft => hleft.not_allClosed hall

/-- If the expansion of a tableau that was put together by hand closes every branch, each of its branches
is true in no structure, unless an existential below it has been instantiated with a constant that came
to the branch with a child and is not in the formula at the root. -/
theorem Context.unsatisfiable_or_captures {w : Formula} {es : List Edit} (hw : w.Standard)
    (hes : ∀ e ∈ es, e.Adds Formula.Standard) {ctx ctx' : Context} (ht : (start w).edits es = t)
    (h : ctx.expand t = (ctx', t', .ok .closed)) (hl : t.IsLeaf l) :
    (∀ (D : Type u) (S : Structure D) (v : Char → D), ¬∀ f ∈ (t.path l).formulas, S.Holds v f) ∨
      t'.Captures l fun c => c ∉ w.constants ∧ ∃ f ∈ (t.path l).formulas, c ∈ f.constants := by
  subst ht
  have hmade := (Handmade.start hw.unrooted).edits hes
  rw [or_iff_not_imp_left]
  intro hsatisfiable
  push Not at hsatisfiable
  obtain ⟨D, S, v, htrue⟩ := hsatisfiable
  have hcaptures := captures_of_expand (hmade.mono fun f hf => hf.1)
    (fun c => hw.1.unrooted.isConstantSymbol) h hl S v fun f hf => by
      obtain ⟨k, -, n, hn, rfl⟩ := exists_node_of_mem_path hf
      exact (Interpretation.reads_iff_holds _ (hmade.formula k n hn).2 v).2 (htrue _ hf)
  simpa only [Formula.mem_constants_unrooted] using hcaptures

/-- Below `Ra` stands its denial on one side, and on the other that something is both `P` and not. The
tableau closes, and neither of its branches is true in any structure. -/
theorem Context.unsatisfiable_or_captures_sides :
    let w : Formula := .predicate 'R' [.const 'a']
    let t := (start w).edits [.child 0 (.not w) none .left, .child 0 (.ex 'x' (.and
      (.predicate 'P' [.var 'x']) (.not (.predicate 'P' [.var 'x'])))) none .right]
    (({} : Context).expand t).2.2 = .ok .closed ∧ ∀ l ∈ [1, 2], t.IsLeaf l ∧
      ∀ (D : Type) (S : Structure D) (v : Char → D), ¬∀ f ∈ (t.path l).formulas, S.Holds v f := by
  intro w t
  have hclosed : (({} : Context).expand t).2.2 = .ok .closed := by decide +kernel
  refine ⟨hclosed, fun l hl => ?_⟩
  have hleaf : t.IsLeaf l := by
    rcases List.mem_cons.1 hl with rfl | hl
    · exact ⟨_, rfl, rfl⟩
    · obtain rfl := List.mem_singleton.1 hl
      exact ⟨_, rfl, rfl⟩
  refine ⟨hleaf, ?_⟩
  refine (unsatisfiable_or_captures (w := w) (by decide) ?_ rfl
    (Prod.ext rfl (Prod.ext rfl hclosed)) hleaf).resolve_right ?_
  · decide
  · rintro ⟨_, _, _, _, _, c, _, -, -, -, -, -, -, -, hnew, f, hf, hc⟩
    have hrecorded : ∀ l ∈ [1, 2], ∀ f ∈ (t.path l).formulas,
        f.constants.members ⊆ w.constants.members := by decide +kernel
    exact hnew (hrecorded l hl f hf hc)

/-- A tableau can close although one of its branches is true in a structure. The constant `a` came with
the child `¬Pa` of `Q` and is not recorded, so that `(∃x)Px` below it is instantiated with `a`. -/
theorem Context.closes_by_capture :
    ¬∀ (w : Formula) (es : List Edit), w.Standard → (∀ e ∈ es, e.Adds Formula.Standard) →
      ∀ ctx : Context, (ctx.expand ((start w).edits es)).2.2 = .ok .closed →
      ∀ l, ((start w).edits es).IsLeaf l → ∀ (D : Type) (S : Structure D) (v : Char → D),
        ¬∀ f ∈ (((start w).edits es).path l).formulas, S.Holds v f := by
  intro hall
  let es : List Edit := [.child 0 (.not (.predicate 'P' [.const 'a'])) none .center,
    .child 1 (.ex 'x' (.predicate 'P' [.var 'x'])) none .center]
  have hformulas : (((start (.atom 'Q')).edits es).path 2).formulas =
      [.ex 'x' (.predicate 'P' [.var 'x']), .not (.predicate 'P' [.const 'a']), .atom 'Q'] := rfl
  -- every constant denotes `true`, and only `false` is `P`
  refine hall (.atom 'Q') es (by decide) (by decide) {} (by decide +kernel) 2 ⟨_, rfl, rfl⟩ Bool
    ⟨fun _ => true, fun _ args => args ≠ [true]⟩ (fun _ => true) ?_
  rw [hformulas]
  refine List.forall_mem_cons.2 ⟨⟨false, ?_⟩, List.forall_mem_cons.2 ⟨?_, ?_⟩⟩
  · show [false] ≠ [true]
    decide
  · exact fun h => h rfl
  · exact List.forall_mem_singleton.2 (List.cons_ne_nil _ _).symm

end Sequitur
