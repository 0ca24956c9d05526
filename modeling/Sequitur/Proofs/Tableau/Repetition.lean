import Sequitur.Proofs.Tableau.Idleness
import Sequitur.Proofs.Tableau.Record

/-!
# Expanding a tableau again

A node of a finished tableau that has no children was dispatched as a leaf and had nothing to add. If
the tableau is expanded again all its leaves are dispatched once more, and again have nothing to add,
but for one case. An existential may have found its instance with the first constant on a branch
without constants, and the branch may have been given that constant for a universal later. Then the
existential is stale (`Path.Stale`), and is instantiated anew.

So a second expansion changes nothing exactly if no leaf is stale. If the formula at the root is over
the usual symbols then what is printed with a constant has it on record (`Path.Recorded`), so that no
existential finds its instance before it is given one (`Runs.idles`), and nothing is stale.
-/

namespace Sequitur

open Tableau Expand Expansion

variable {s s' : Expansion} {t t' : Tableau}

/-! ## Branches that are given a constant -/

namespace Path

variable {p q : Path} {c : Char} {others : List Formula} {d : Decomposition}

/-- Whether a branch is the same but that it may have been given the first constant. -/
structure Seeds (p q : Path) : Prop where
  formulas : q.formulas = p.formulas
  constants : q.constants = p.constants ∨
    p.constants = ∅ ∧ q.constants = Symbols.insert ∅ firstConstant

theorem Seeds.refl (p : Path) : p.Seeds p := ⟨rfl, .inl rfl⟩

theorem Seeds.contains (h : p.Seeds q) (f : Formula) : q.contains f = p.contains f := by
  rw [Path.contains, Path.contains, h.formulas]

theorem seeds_of_grow_eq (hgrow : p.grow c others d = [q]) (hformulas : q.formulas = p.formulas) :
    p.Seeds q := by
  refine ⟨hformulas, ?_⟩
  cases d with
  | nothing => exact .inl (congrArg Path.constants (List.head_eq_of_cons_eq hgrow)).symm
  | unexpected => exact .inl (congrArg Path.constants (List.head_eq_of_cons_eq hgrow)).symm
  | split left lefts right rights => cases hgrow
  | stack fs =>
    obtain rfl : p.stack fs = q := List.head_eq_of_cons_eq hgrow
    exact .inl (constants_stack fs p)
  | witness x body =>
    obtain rfl : p.witness (body.substitute x c .const) c = q := List.head_eq_of_cons_eq hgrow
    rw [witness] at hformulas ⊢
    split at hformulas
    · next hcontains =>
      rw [if_pos hcontains]
      exact .inl rfl
    · exact absurd hformulas (List.cons_ne_self _ _)
  | instances x body =>
    obtain rfl : p.seed.instantiateEach x body p.seed.constants.members = q :=
      List.head_eq_of_cons_eq hgrow
    rw [constants_instantiateEach, seed]
    split
    · next hempty =>
      have hnone : p.constants = ∅ := by
        ext e
        simpa using Symbols.isEmpty_iff.1 hempty e
      exact .inr ⟨hnone, by rw [addConstant, hnone]⟩
    · exact .inl rfl
  | replace a b =>
    obtain rfl : p.replaceEach a b others = q := List.head_eq_of_cons_eq hgrow
    exact .inl (constants_replaceEach p)

/-- Whether the rule is that for an existential which has its instance with the first constant on the
branch, but not the one that it would be given now. -/
def Stale (p : Path) (d : Decomposition) : Prop :=
  ∃ x body, d = .witness x body ∧ p.constants = Symbols.insert ∅ firstConstant ∧
    p.contains (body.substitute x firstConstant .const) ∧
    ¬p.contains (body.substitute x 'b' .const)

theorem fresh?_first : fresh? (Symbols.insert ∅ firstConstant) = some 'b' := by decide

theorem Idle.not_stale (h : p.Idle others d) : ¬p.Stale d := by
  rintro ⟨x, body, rfl, hconstants, -, hnot⟩
  obtain ⟨c, hc, hcontains⟩ := h
  rw [hconstants, fresh?_first] at hc
  obtain rfl : 'b' = c := Option.some.inj hc
  exact hnot hcontains

theorem Stale.seeds (h : p.Stale d) (hpq : p.Seeds q) : q.Stale d := by
  obtain ⟨x, body, rfl, hconstants, hfirst, hnot⟩ := h
  refine ⟨x, body, rfl, ?_, (hpq.contains _).trans hfirst, by rwa [hpq.contains]⟩
  rcases hpq.constants with hsame | ⟨-, hfirst⟩
  · exact hsame.trans hconstants
  · exact hfirst

theorem Idle.seeds (h : p.Idle others d) (hpq : p.Seeds q) : q.Idle others d ∨ q.Stale d := by
  rcases hpq.constants with hsame | ⟨hnone, hfirst⟩
  · obtain rfl : q = p := Path.ext hpq.formulas hsame
    exact .inl h
  cases d with
  | nothing => exact .inl trivial
  | unexpected => exact h.elim
  | split left lefts right rights => exact h.elim
  | stack fs => exact .inl fun f hf => (hpq.contains f).trans (h f hf)
  | witness x body =>
    obtain ⟨c, hc, hcontains⟩ := h
    rw [hnone] at hc
    obtain rfl : firstConstant = c := Option.some.inj hc
    by_cases hsecond : q.contains (body.substitute x 'b' .const)
    · exact .inl ⟨'b', hfirst ▸ fresh?_first, hsecond⟩
    · exact .inr ⟨x, body, rfl, hfirst, (hpq.contains _).trans hcontains, hsecond⟩
  | instances x body =>
    obtain ⟨⟨c, hc⟩, -⟩ := h
    exact absurd (hnone ▸ hc) (Symbols.not_mem_empty c)
  | replace a b =>
    refine .inl fun f hf target replacement hr => ?_
    rw [hpq.contains]
    exact h f hf target replacement hr

theorem exists_mem_grow (p : Path) (c : Char) (others : List Formula) (d : Decomposition) :
    ∃ q, q ∈ p.grow c others d := by
  cases d with
  | split left lefts right rights => exact ⟨_, List.mem_cons_self⟩
  | _ => exact ⟨_, List.mem_singleton_self _⟩

end Path

/-! ## Dispatches at leaves -/

namespace Expand

/-- The constant for a witness is the first that is fresh to all open leaves below the node. -/
theorem dispatch_witness {key n : Nat} {m : Node} {x : Char} {body : Formula} (hs : s.Coherent)
    (hdormant : ∀ k ∈ s.dormant, k < s.tableau.size) (hL : s.tableau.openLeavesBelow key ≠ [])
    (hm : s.tableau.node? key = some m) (hd : m.formula.decompose = .witness x body)
    (h : dispatch key s = .ok (.added n) s') :
    ∃ c u, fresh? u = some c ∧
      (∀ a, a ∈ u ↔ ∃ l ∈ s.tableau.openLeavesBelow key, a ∈ (s.tableau.path l).constants) ∧
      Applies s s' key (.witness x body) c n := by
  have hleaf : ∀ l ∈ s.tableau.openLeavesBelow key, s.tableau.IsLeaf l := fun l hl =>
    ((mem_openLeavesBelow hs).1 hl).1
  obtain ⟨u, hu, hmem⟩ := constantsOf_ok
    (s := { s with trace := s.trace.push (.dispatched m.formula
      (s.tableau.openLeavesBelow key).length) }) ⟨hs.tree, hs.marked⟩ hleaf
  rw [dispatch, bind_ok (tableau_ok s), if_neg (by rwa [List.isEmpty_iff]), bind_ok (node_ok hm),
    bind_ok (emit_ok _ s)] at h
  simp only [hd] at h
  rw [existential, bind_ok hu] at h
  cases hfresh : fresh? u with
  | none =>
    rw [hfresh] at h
    cases h
  | some c =>
    rw [hfresh] at h
    obtain ⟨k, s₁, hok, happlies⟩ := witnessAll_applies key (s.trace.push (.dispatched m.formula
      (s.tableau.openLeavesBelow key).length)) hs hdormant m.formula x body c
    cases hok.symm.trans h
    exact ⟨c, u, hfresh, hmem, happlies⟩

end Expand

namespace Expansion

/-- Whether the rule of the first node `m` of the agenda has been applied, with the constant `c` for a
witness. -/
structure Fires (s s' : Expansion) (e : Entry) (rest : Agenda) (m : Node) (c : Char) (n : Nat) :
    Prop where
  agenda : s.agenda = e :: rest
  node : s.tableau.node? e.key = some m
  expected : m.formula.decompose ≠ .unexpected
  applies : Applies { s with agenda := rest } s' e.key m.formula.decompose c n
  fresh : ∀ x body, m.formula.decompose = .witness x body → ∃ u, fresh? u = some c ∧
    ∀ a, a ∈ u ↔ ∃ l ∈ s.tableau.openLeavesBelow e.key, a ∈ (s.tableau.path l).constants

theorem Advances.cases (h : Advances s s') (hs : s.Valid) :
    (∃ e rest trace, s.agenda = e :: rest ∧ s.tableau.openLeavesBelow e.key = [] ∧
      s' = { s with agenda := rest, trace := trace }) ∨
    ∃ e rest m c n, Fires s s' e rest m c n := by
  have hstep := h.step hs
  obtain ⟨e, rest, ha, hadvance⟩ := h
  cases hstep with
  | @idle e' rest' trace ha' hempty =>
    exact .inl ⟨e', rest', trace, ha', hempty, rfl⟩
  | @applied e' rest' m c n _ ha' hL hm hd hc happlies =>
    obtain ⟨rfl, rfl⟩ := List.cons.inj (ha.symm.trans ha')
    refine .inr ⟨e, rest, m, ?_⟩
    by_cases hw : ∃ x body, m.formula.decompose = .witness x body
    swap
    · exact ⟨c, n, ha, hm, hd, happlies, fun x body hd' => absurd ⟨x, body, hd'⟩ hw⟩
    obtain ⟨x, body, hw⟩ := hw
    have hfires : ∀ {k s₁}, dispatch e.key { s with agenda := rest } = .ok (.added k) s₁ →
        ∃ c, Fires s s₁ e rest m c k := by
      intro k s₁ hr
      obtain ⟨c, u, hfresh, hmem, happlies⟩ :=
        dispatch_witness (s := { s with agenda := rest }) ⟨hs.tree, hs.marked⟩ hs.dormant hL hm hw hr
      exact ⟨c, ha, hm, hd, hw ▸ happlies, fun _ _ _ => ⟨u, hfresh, hmem⟩⟩
    rw [advance] at hadvance
    cases hr : dispatch e.key { s with agenda := rest } with
    | error cause r =>
      rw [bind_error hr] at hadvance
      cases hadvance
    | ok a s₁ =>
      rw [bind_ok hr] at hadvance
      cases a with
      | constantsExhausted => cases hadvance
      | added k =>
        obtain ⟨c, h⟩ := hfires hr
        cases k with
        | zero =>
          cases hadvance
          exact ⟨c, 0, h⟩
        | succ k =>
          cases hadvance
          exact ⟨c, k + 1, { h with applies := h.applies.of_trace _ }⟩

theorem Advances.size_le (h : Advances s s') (hs : s.Valid) :
    s.tableau.size ≤ s'.tableau.size := by
  rcases h.cases hs with ⟨e, rest, trace, -, -, rfl⟩ | ⟨e, rest, m, c, k, hfires⟩
  · exact Nat.le_refl _
  · rw [hfires.applies.size]
    exact Nat.le_add_right _ _

/-- An open leaf goes on waiting while a node is dispatched that has none below it. -/
theorem mem_keys_of_closed {e : Entry} {rest : Agenda} {l : Nat} {n : Node}
    (ha : s.agenda = e :: rest) (hempty : s.tableau.openLeavesBelow e.key = [])
    (hl : s.tableau.IsOpenLeaf l n) (hkey : l ∈ s.keys) : l ∈ rest.map (·.key) := by
  rw [keys, ha, List.map_cons] at hkey
  refine List.mem_of_ne_of_mem ?_ hkey
  rintro rfl
  exact List.cons_ne_nil _ _ (hl.openLeavesBelow.symm.trans hempty)

namespace Fires

variable {e : Entry} {rest : Agenda} {m n : Node} {c : Char} {k l : Nat}

/-- An open leaf that stays one is given no formula, and if it was dispatched its rule is idle. -/
theorem at_leaf (h : Fires s s' e rest m c k) (hs : s.Valid) (hl : s.tableau.IsOpenLeaf l n)
    (hl' : s'.tableau.IsLeaf l) : (s.tableau.path l).Seeds (s'.tableau.path l) ∧
      (l = e.key → (s'.tableau.path l).Idle (closableOn s.tableau l l) n.formula.decompose) := by
  have hformulas := h.applies.tableau.formulas hs.tree hl.isLeaf.lt_size
  by_cases hL : l ∈ s.tableau.openLeavesBelow e.key
  swap
  · have hpath : s'.tableau.path l = s.tableau.path l :=
      h.applies.tableau.path_of_not_mem hs.tree hl.isLeaf.lt_size hL
    refine ⟨hpath ▸ .refl _, ?_⟩
    rintro rfl
    exact absurd (hl.openLeavesBelow ▸ List.mem_singleton_self _) hL
  have hgrow := h.applies.paths l hL
  obtain ⟨n', hn', hleaf'⟩ := hl'
  rw [leavesBelow_of_isLeaf hn' hleaf', List.map_singleton] at hgrow
  refine ⟨Path.seeds_of_grow_eq hgrow.symm hformulas, ?_⟩
  rintro rfl
  obtain rfl : n = m := Option.some.inj (hl.node.symm.trans h.node)
  refine Path.idle_of_grow_eq (hl.path hs.marked) h.expected (fun x body hd => ?_) hgrow.symm
    hformulas
  -- the leaf is the only one below itself, so that the constant is fresh to its branch
  obtain ⟨u, hfresh, hmem⟩ := h.fresh x body hd
  have hsame : u = (s.tableau.path e.key).constants := by
    ext a
    rw [hmem, hl.openLeavesBelow]
    simp
  rwa [← hsame]

theorem mem_keys (h : Fires s s' e rest m c k) (hl : l ∈ s.keys) (hne : l ≠ e.key) :
    l ∈ s'.keys := by
  rw [keys, h.agenda, List.map_cons] at hl
  exact mem_keys_of_applies h.applies (.inr (.inr (List.mem_of_ne_of_mem hne hl)))

end Fires

end Expansion

theorem Tableau.IsOpenLeaf.not_allClosed {l : Nat} {n : Node} (h : s.tableau.IsOpenLeaf l n)
    (hs : s.Coherent) : ¬s.AllClosed := fun hclosed =>
  Bool.false_ne_true ((h.path hs.marked).symm.trans (hclosed l h.isLeaf))

/-- An open leaf that is no new node was an open leaf before. -/
theorem Tableau.Extends.exists_isOpenLeaf {L : List Nat} {l : Nat} {n : Node} (h : t.Extends t' L)
    (hL : ∀ k ∈ L, t.IsLeaf k) (hl : t'.IsOpenLeaf l n) (hlt : l < t.size) :
    ∃ n₀, t.IsOpenLeaf l n₀ ∧ n₀.Stays n := by
  obtain ⟨n₀, hn₀⟩ := node?_eq_some_of_lt hlt
  obtain ⟨n', hn', hstays, hrests⟩ := h.kept l n₀ hn₀
  obtain rfl : n' = n := Option.some.inj (hn'.symm.trans hl.node)
  refine ⟨n₀, ⟨hn₀, ?_, hstays.closed.symm.trans hl.isOpen⟩, hstays⟩
  by_cases hmem : l ∈ L
  · obtain ⟨n₁, hn₁, hleaf⟩ := hL l hmem
    obtain rfl : n₁ = n₀ := Option.some.inj (hn₁.symm.trans hn₀)
    exact hleaf
  · have hleaf := hl.leaf
    rwa [isLeaf_iff, (hrests hmem).children, ← isLeaf_iff] at hleaf

namespace Expansion

/-! ## Leaves that have been dispatched -/

/-- Whether every open leaf waits, or `G` holds of its branch, the literals on it and its rule. -/
def Spent (G : Path → List Formula → Decomposition → Prop) (s : Expansion) : Prop :=
  ∀ l n, s.tableau.IsOpenLeaf l n →
    l ∈ s.keys ∨ G (s.tableau.path l) (closableOn s.tableau l l) n.formula.decompose

variable {G : Path → List Formula → Decomposition → Prop}
  (hG : ∀ p q others d, G p others d → p.Seeds q → G q others d)

include hG

/-- What holds of leaves whose rule is idle, and is kept when a branch is given a constant, holds of
every open leaf that does not wait. -/
theorem Advances.spent (h : Advances s s') (hs : s.Valid)
    (hidle : ∀ l n, s'.tableau.IsOpenLeaf l n → s'.tableau.Idles l n →
      G (s'.tableau.path l) (closableOn s'.tableau l l) n.formula.decompose)
    (hspent : s.Spent G) : s'.Spent G := by
  intro l n hl
  rcases h.cases hs with ⟨e, rest, trace, ha, hempty, rfl⟩ | ⟨e, rest, m, c, k, hfires⟩
  · exact (hspent l n hl).imp_left (mem_keys_of_closed ha hempty hl)
  by_cases hlt : l < s.tableau.size
  swap
  · have hsize := hl.isLeaf.lt_size
    rw [hfires.applies.size] at hsize
    exact .inl (mem_keys_of_applies hfires.applies
      (.inr (.inl (List.mem_range'_1.2 ⟨Nat.le_of_not_lt hlt, hsize⟩))))
  have hleaves : ∀ j ∈ s.tableau.openLeavesBelow e.key, s.tableau.IsLeaf j := fun j hj =>
    ((mem_openLeavesBelow hs.toCoherent).1 hj).1
  have hext : s.tableau.Extends s'.tableau (s.tableau.openLeavesBelow e.key) :=
    hfires.applies.tableau
  obtain ⟨n₀, hl₀, hstays⟩ := hext.exists_isOpenLeaf hleaves hl hlt
  obtain ⟨hseeds, hself⟩ := hfires.at_leaf hs hl₀ hl.isLeaf
  have hothers := hext.closableOn hs.tree hlt l
  by_cases hkey : l = e.key
  · refine .inr (hidle l n hl ?_)
    rw [Idles, hothers, hstays.formula]
    exact hself hkey
  · rcases hspent l n₀ hl₀ with hmem | hold
    · exact .inl (hfires.mem_keys hmem hkey)
    · rw [hothers, hstays.formula]
      exact .inr (hG _ _ _ _ hold hseeds)

theorem Runs.spent {f : Formula} {requeues : Bool} (h : Runs s s') (h₀ : Begins s f requeues)
    (hidle : ∀ s₁, Runs s s₁ → ∀ l n, s₁.tableau.IsOpenLeaf l n → s₁.tableau.Idles l n →
      G (s₁.tableau.path l) (closableOn s₁.tableau l l) n.formula.decompose) : s'.Spent G := by
  induction h with
  | refl =>
    intro l n hl
    rw [h₀.eq_root hl.isLeaf.lt_size, h₀.keys]
    exact .inl (List.mem_singleton_self _)
  | tail hruns hstep ih =>
    exact hstep.spent hG ((Runs.steps hruns h₀.valid).valid h₀.valid)
      (hidle _ (hruns.tail hstep)) ih

omit hG in
theorem Spent.of_agenda (h : s.Spent G) (hagenda : s.agenda = []) {l : Nat} {n : Node}
    (hl : s.tableau.IsOpenLeaf l n) :
    G (s.tableau.path l) (closableOn s.tableau l l) n.formula.decompose := by
  refine (h l n hl).resolve_left fun hmem => ?_
  rw [keys, hagenda] at hmem
  exact List.not_mem_nil hmem

omit hG

section Ended

variable {f : Formula} {requeues : Bool} {l : Nat} {n : Node} (h : Runs s s')
  (h₀ : Begins s f requeues) (hagenda : s'.agenda = []) (hl : s'.tableau.IsOpenLeaf l n)

include h h₀ hagenda hl

/-- At the end of a run all open leaves have been dispatched in vain, and are idle if they have not
become stale. -/
theorem Runs.idles_or_stale :
    s'.tableau.Idles l n ∨ (s'.tableau.path l).Stale n.formula.decompose := by
  have hkept : ∀ p q others d, Path.Idle p others d ∨ p.Stale d → p.Seeds q →
      q.Idle others d ∨ q.Stale d := fun p q others d hp hpq =>
    hp.elim (fun hidle => hidle.seeds hpq) fun hstale => .inr (hstale.seeds hpq)
  exact (h.spent hkept h₀ fun _ _ _ _ _ hidle => .inl hidle).of_agenda hagenda hl

/-- Over the usual symbols no existential is dispatched in vain, and so no leaf becomes stale. -/
theorem Runs.idles (hf : f.unrooted.Lettered) : s'.tableau.Idles l n := by
  have hkept : ∀ p q others d, (Path.Idle p others d ∧ ∀ x body, d ≠ .witness x body) →
      p.Seeds q → q.Idle others d ∧ ∀ x body, d ≠ .witness x body := by
    rintro p q others d ⟨hidle, hd⟩ hpq
    refine ⟨(hidle.seeds hpq).resolve_right ?_, hd⟩
    rintro ⟨x, body, hwitness, -⟩
    exact hd x body hwitness
  refine ((h.spent hkept h₀ fun s₁ hruns k m hk hidle => ⟨hidle, fun x body hd => ?_⟩).of_agenda
    hagenda hl).1
  -- the fresh instance would have its constant on record
  obtain ⟨hm, hx⟩ := Formula.eq_of_decompose_witness hd
  rw [Idles, hd] at hidle
  obtain ⟨c, hc, hcontains⟩ := hidle
  have hmem := formula_mem_path (mem_branch_self hk.isLeaf.lt_size) hk.node
  rw [hm] at hmem
  have hrecorded := (hruns.steps h₀.valid).recorded h₀ hf k hk.isLeaf
  exact not_mem_of_fresh? hc (hrecorded.mem_constants_of_contains hmem hx
    (isConstantSymbol_of_mem (mem_constantSymbols_of_fresh? hc)) hcontains)

end Ended

/-! ## Stale leaves -/

/-- Whether the leaf `l` waits, and is stale. -/
def StaleAt (s : Expansion) (l : Nat) : Prop :=
  l ∈ s.keys ∧ ∃ n, s.tableau.IsOpenLeaf l n ∧ (s.tableau.path l).Stale n.formula.decompose

/-- A stale leaf goes on waiting and stays stale, unless the tableau grows. -/
theorem Advances.staleAt {l : Nat} (h : Advances s s') (hs : s.Valid) (hl : s.StaleAt l) :
    s.tableau.size < s'.tableau.size ∨ s.tableau.size = s'.tableau.size ∧ s'.StaleAt l := by
  obtain ⟨hkey, n, hl, hstale⟩ := hl
  rcases h.cases hs with ⟨e, rest, trace, ha, hempty, rfl⟩ | ⟨e, rest, m, c, k, hfires⟩
  · exact .inr ⟨rfl, mem_keys_of_closed ha hempty hl hkey, n, hl, hstale⟩
  have hsize : s'.tableau.size = s.tableau.size + k := hfires.applies.size
  by_cases hk : k = 0
  swap
  · rw [hsize]
    exact .inl (Nat.lt_add_of_pos_right (Nat.pos_of_ne_zero hk))
  -- without a new node the leaf is still one
  have hleaf : s'.tableau.IsLeaf l := by
    by_cases hL : l ∈ s.tableau.openLeavesBelow e.key
    · obtain ⟨q, hq⟩ := Path.exists_mem_grow (s.tableau.path l) c
        (closableOn s.tableau e.key l) m.formula.decompose
      obtain ⟨l', hl', hbranch, -⟩ := hfires.applies.reaches hL hq
      exact hfires.applies.leaf_eq hs.tree hl.isLeaf hl' hbranch hk ▸ hl'
    · exact hfires.applies.tableau.isLeaf_of_not_mem hl.isLeaf hL
  obtain ⟨hseeds, hself⟩ := hfires.at_leaf hs hl hleaf
  obtain ⟨n', hn', hstays, -⟩ := hfires.applies.tableau.kept l n hl.node
  have hstale' := hstale.seeds hseeds
  have hne : l ≠ e.key := fun he => (hself he).not_stale hstale'
  obtain ⟨n₁, hn₁, hleaf⟩ := hleaf
  obtain rfl : n₁ = n' := Option.some.inj (hn₁.symm.trans hn')
  refine .inr ⟨by rw [hsize, hk, Nat.add_zero], hfires.mem_keys hkey hne, n₁,
    ⟨hn₁, hleaf, hstays.closed.trans hl.isOpen⟩, ?_⟩
  rwa [hstays.formula]

theorem Runs.staleAt {l : Nat} (h : Runs s s') (hs : s.Valid) (hl : s.StaleAt l) :
    s.tableau.size < s'.tableau.size ∨ s.tableau.size = s'.tableau.size ∧ s'.StaleAt l := by
  induction h with
  | refl => exact .inr ⟨rfl, hl⟩
  | tail hruns hstep ih =>
    have hvalid := (Runs.steps hruns hs).valid hs
    rcases ih with hlt | ⟨heq, hl⟩
    · exact .inl (Nat.lt_of_lt_of_le hlt (hstep.size_le hvalid))
    · rw [heq]
      exact hstep.staleAt hvalid hl

/-- A run does not end at a stale leaf. -/
theorem StaleAt.not_ended {l : Nat} (hl : s.StaleAt l) (hs : s.Coherent) :
    ¬(s.AllClosed ∨ s.agenda = []) := by
  obtain ⟨hkey, n, hl, -⟩ := hl
  rintro (hclosed | hagenda)
  · exact hl.not_allClosed hs hclosed
  · rw [keys, hagenda] at hkey
    exact List.not_mem_nil hkey

end Expansion

/-! ## Tableaux that are expanded again -/

namespace Context

variable {c c' d : Context} {f : Formula}

/-- The run behind a complete tableau, and what is reported of it. -/
theorem exists_runs_of_complete (h : c.buildTableau f = (c', .ok t))
    (hcomplete : t.status = .complete) :
    ∃ s₀ s, Begins s₀ f c.settings.requeueUniversals.value ∧ Runs s₀ s ∧
      t = { s.tableau with status := .complete } ∧ c'.report = verdict t ∧
      (s.AllClosed ∨ s.agenda = []) := by
  have hexpand := expand_of_buildTableau h
  obtain ⟨s₀, hseed, h₀⟩ := seed_ok f c.reset.settings.requeueUniversals.value
  obtain ⟨s, hruns, ⟨e, herror⟩ | ⟨c₁, status, hexpand₁, hreport, hend⟩⟩ :=
    exists_runs_of_seed hseed h₀.valid
  · rw [hexpand] at herror
    cases herror
  · cases hexpand.symm.trans hexpand₁
    obtain rfl : status = .complete := hcomplete
    exact ⟨s₀, s, h₀, hruns, rfl, hreport, hend rfl⟩

theorem expand_ne_of_stale {l : Nat} {n : Node} (ht : t.IsTree) (hm : t.LeavesMarked)
    (hcomplete : t.status = .complete) (hl : t.IsOpenLeaf l n)
    (hstale : (t.path l).Stale n.formula.decompose) (r : Report) : (d.expand t).2 ≠ (t, .ok r) := by
  intro h
  obtain ⟨agenda, hseed, hperm⟩ := seed_marked ht hm d.settings.requeueUniversals.value
  generalize hs₀ : ({ Expansion.start t d.settings.requeueUniversals.value with agenda := agenda } :
    Expansion) = s₀ at hseed
  have hvalid : s₀.Valid := by
    rw [← hs₀]
    exact ⟨⟨ht, hm⟩, fun k hk => absurd hk List.not_mem_nil⟩
  have hstale₀ : s₀.StaleAt l := by
    rw [← hs₀]
    refine ⟨hperm.mem_iff.2 (ht.mem_leavesBelow.2 ⟨hl.isLeaf, ?_⟩), n, hl, hstale⟩
    exact ht.root_mem_branch hl.isLeaf.lt_size
  have hsize : s₀.tableau.size = t.size := by rw [← hs₀]; rfl
  obtain ⟨s, hruns, ⟨e, herror⟩ | ⟨c', status, hexpand, -, hend⟩⟩ :=
    exists_runs_of_seed hseed hvalid
  · rw [h] at herror
    cases herror
  rw [hexpand] at h
  obtain ⟨htableau, -⟩ := Prod.mk.inj h
  have hstatus : status = .complete := (congrArg Tableau.status htableau).trans hcomplete
  have hnodes : s.tableau.size = t.size := by
    rw [← htableau]
    rfl
  rcases hruns.staleAt hvalid hstale₀ with hlt | ⟨-, hl⟩
  · rw [hsize, hnodes] at hlt
    exact Nat.lt_irrefl _ hlt
  · exact hl.not_ended ((hruns.steps hvalid).valid hvalid).toCoherent (hend hstatus)

/-- Expanding a complete tableau again, within the limit, returns it as it was with the same report
exactly if no leaf of it is stale; and none is if the formula at the root is over the usual symbols. -/
theorem expand_again (h : c.buildTableau f = (c', .ok t)) (hcomplete : t.status = .complete)
    (hlimit : (t.leavesBelow root).length ≤ d.settings.tableauLimit.value) :
    ((d.reset.expand t).2 = (t, .ok c'.report) ↔
      ∀ l n, t.IsOpenLeaf l n → ¬(t.path l).Stale n.formula.decompose) ∧
    (f.Lettered → (d.reset.expand t).2 = (t, .ok c'.report)) := by
  obtain ⟨s₀, s, h₀, hruns, rfl, hreport, hend⟩ := exists_runs_of_complete h hcomplete
  have hs := ((hruns.steps h₀.valid).valid h₀.valid).toCoherent
  have ht : IsTree { s.tableau with status := .complete } :=
    ⟨hs.tree.root, hs.tree.parent, hs.tree.child, hs.tree.distinct⟩
  have hagenda : ∀ l n, s.tableau.IsOpenLeaf l n → s.agenda = [] := fun l n hl =>
    hend.resolve_left (hl.not_allClosed hs)
  have hsame : (∀ l n, s.tableau.IsOpenLeaf l n → s.tableau.Idles l n) →
      (d.reset.expand { s.tableau with status := .complete }).2 =
        ({ s.tableau with status := .complete }, .ok c'.report) := fun hidle => by
    rw [expand_of_idle d.reset ht hs.marked (fun l n hl => hidle l n ⟨hl.node, hl.leaf, hl.isOpen⟩)
      hlimit, hreport]
  refine ⟨⟨fun heq l n hl hstale => ?_, fun hfresh => hsame fun l n hl => ?_⟩,
    fun hf => hsame fun l n hl => ?_⟩
  · exact expand_ne_of_stale ht hs.marked rfl hl hstale _ heq
  · exact (hruns.idles_or_stale h₀ (hagenda l n hl) hl).resolve_right
      (hfresh l n ⟨hl.node, hl.leaf, hl.isOpen⟩)
  · exact hruns.idles h₀ (hagenda l n hl) hl hf.unrooted

/-- The two branches of `(Pa ∧ (Pb ∧ (∀x)Px)) ∨ a = b` end at the universal and at the identity, which
have nothing to add there, either time. -/
theorem expand_again_disjunction :
    let w : Formula := .or
      (.and (.predicate 'P' [.const 'a'])
        (.and (.predicate 'P' [.const 'b']) (.all 'x' (.predicate 'P' [.var 'x']))))
      (.identity (.const 'a') (.const 'b'))
    ∃ t c', ({} : Context).buildTableau w = (c', .ok t) ∧ t.status = .complete ∧
      (t.leavesBelow root).length ≤ c'.settings.tableauLimit.value ∧
      (t.leavesBelow root).map (fun l => (t.node? l).map (·.formula)) =
        [some (.all 'x' (.predicate 'P' [.var 'x'])),
          some (.identity (.const 'a') (.const 'b'))] ∧
      (c'.reset.expand t).2 = (t, .ok c'.report) := by
  intro w
  obtain ⟨t, hok, hcomplete, hlimit, hleaves⟩ :=
    exists_of_any_buildTableau (c := {}) (w := w) (P := fun t => t.status = .complete ∧
      (t.leavesBelow root).length ≤
        (({} : Context).buildTableau w).1.settings.tableauLimit.value ∧
      (t.leavesBelow root).map (fun l => (t.node? l).map (·.formula)) =
        [some (.all 'x' (.predicate 'P' [.var 'x'])),
          some (.identity (.const 'a') (.const 'b'))]) (by decide +kernel)
  have hbuild : ({} : Context).buildTableau w = ((({} : Context).buildTableau w).1, .ok t) :=
    Prod.ext rfl hok
  have hw : w.Sentence := by decide
  exact ⟨t, _, hbuild, hcomplete, hlimit, hleaves,
    (expand_again hbuild hcomplete hlimit).2 hw.lettered⟩

/-- An existential can be instantiated anew. In `Pa ∧ ((∀x)Px ∧ (∃x)Px)` with a variable called `a`, no
constant is on record when `Pa` passes for the instance of the existential. -/
theorem existential_instantiated_again :
    ¬∀ (c c' : Context) (w : Formula) (t : Tableau), c.buildTableau w = (c', .ok t) →
      t.status = .complete → (t.leavesBelow root).length ≤ c'.settings.tableauLimit.value →
      (c'.reset.expand t).2 = (t, .ok c'.report) := by
  intro hall
  let w : Formula := .and (.predicate 'P' [.var 'a'])
    (.and (.all 'x' (.predicate 'P' [.var 'x'])) (.ex 'x' (.predicate 'P' [.var 'x'])))
  obtain ⟨t, hok, hcomplete, hlimit, hsize, hsize'⟩ :=
    exists_of_any_buildTableau (c := {}) (w := w) (P := fun t => t.status = .complete ∧
      (t.leavesBelow root).length ≤
        (({} : Context).buildTableau w).1.settings.tableauLimit.value ∧ t.size = 5 ∧
      ((({} : Context).buildTableau w).1.reset.expand t).2.1.size = 6) (by decide +kernel)
  rw [hall {} _ w t (Prod.ext rfl hok) hcomplete hlimit, hsize] at hsize'
  exact absurd hsize' (by decide)

end Context

end Sequitur
