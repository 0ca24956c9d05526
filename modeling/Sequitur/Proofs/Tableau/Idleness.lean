import Sequitur.Proofs.Tableau.Replacement

/-!
# Rules that have nothing to add

A rule is idle on a branch that has all it could add (`Path.Idle`). An idle dispatch leaves the tableau
as it is (`Expand.dispatch_idle`), and if the rules of all open leaves are idle then so does a whole
expansion that begins with the leaves (`Context.expand_of_idle`).
-/

namespace Sequitur

open Tableau Expand Expansion

variable {s s' : Expansion} {t : Tableau}

namespace Path

variable {p q : Path} {c : Char} {others : List Formula} {d : Decomposition}

/-- Whether the rule has nothing to add to a branch that ends at its formula. -/
def Idle (p : Path) (others : List Formula) : Decomposition → Prop
  | .nothing => True
  | .stack fs => ∀ f ∈ fs, p.contains f
  | .witness x body =>
    ∃ c, fresh? p.constants = some c ∧ p.contains (body.substitute x c .const)
  | .instances x body =>
    (∃ c, c ∈ p.constants) ∧ ∀ c ∈ p.constants, p.contains (body.substitute x c .const)
  | .replace a b => ∀ f ∈ others, p.Replaced a b f
  | .split _ _ _ _ | .unexpected => False

/-- A rule that has made one branch without adding to it is idle on that branch. -/
theorem idle_of_grow_eq (hopen : p.isClosed = false) (hd : d ≠ .unexpected)
    (hfresh : ∀ x body, d = .witness x body → fresh? p.constants = some c)
    (hgrow : p.grow c others d = [q]) (hformulas : q.formulas = p.formulas) :
    q.Idle others d := by
  have hopen' : ¬q.isClosed := by
    rw [isClosed, hformulas]
    exact Bool.eq_false_iff.1 hopen
  cases d with
  | nothing => exact trivial
  | unexpected => exact absurd rfl hd
  | split left lefts right rights => cases hgrow
  | stack fs =>
    obtain rfl : p.stack fs = q := List.head_eq_of_cons_eq hgrow
    exact fun f hf => contains_stack hopen' hf
  | witness x body =>
    obtain rfl : p.witness (body.substitute x c .const) c = q := List.head_eq_of_cons_eq hgrow
    rw [witness] at hformulas ⊢
    split at hformulas
    · next hcontains =>
      rw [if_pos hcontains]
      exact ⟨c, hfresh x body rfl, hcontains⟩
    · exact absurd hformulas (List.cons_ne_self _ _)
  | instances x body =>
    obtain rfl : p.seed.instantiateEach x body p.seed.constants.members = q :=
      List.head_eq_of_cons_eq hgrow
    refine ⟨?_, fun e he => contains_instantiateEach hopen' ?_⟩
    · rw [constants_instantiateEach]
      exact exists_mem_constants_seed p
    · rwa [constants_instantiateEach] at he
  | replace a b =>
    obtain rfl : p.replaceEach a b others = q := List.head_eq_of_cons_eq hgrow
    exact fun f hf => replaced_replaceEach hopen' hf

end Path

namespace Tableau

/-- Whether `n` is a leaf, found at the key `l`, that ends an open branch. -/
structure IsOpenLeaf (t : Tableau) (l : Nat) (n : Node) : Prop where
  node : t.node? l = some n
  leaf : n.isLeaf
  isOpen : n.closed = false

theorem IsOpenLeaf.isLeaf {l : Nat} {n : Node} (h : t.IsOpenLeaf l n) : t.IsLeaf l :=
  ⟨n, h.node, h.leaf⟩

theorem IsOpenLeaf.path {l : Nat} {n : Node} (h : t.IsOpenLeaf l n) (hm : t.LeavesMarked) :
    (t.path l).isClosed = false :=
  (hm l n h.node h.leaf).symm.trans h.isOpen

theorem IsOpenLeaf.openLeavesBelow {l : Nat} {n : Node} (h : t.IsOpenLeaf l n) :
    t.openLeavesBelow l = [l] := by
  rw [Tableau.openLeavesBelow, leavesBelow_of_isLeaf h.node h.leaf, List.filter_singleton, h.node,
    Option.any_some, h.isOpen]
  rfl

/-- Whether the rule of the leaf `n`, found at the key `l`, has nothing to add to its branch. -/
def Idles (t : Tableau) (l : Nat) (n : Node) : Prop :=
  (t.path l).Idle (closableOn t l l) n.formula.decompose

end Tableau

/-! ## An idle dispatch -/

namespace Expand

variable {leaf source : Nat} {f : Formula}

theorem witness_idle {c : Char} (h : (s.tableau.path leaf).contains f) : (do
    if (← tableau).branchContains leaf f then
      return 0
    else
      let child ← place leaf f source .center
      update (·.addConstant child c)
      return 1 : Expand Nat) s = .ok 0 s := by
  rw [bind_ok (tableau_ok s), branchContains_eq, if_pos h]
  rfl

theorem replaceEach_idle {a b : Char} {fs : List Formula}
    (h : ∀ g ∈ fs, (s.tableau.path leaf).Replaced a b g) :
    replaceEach source f a b leaf fs s = .ok 0 s := by
  induction fs with
  | nil => rfl
  | cons g fs ih =>
    obtain ⟨hg, hfs⟩ := List.forall_mem_cons.1 h
    rw [replaceEach]
    cases hr : replacement? a b g with
    | none => exact ih hfs
    | some r =>
      obtain ⟨target, replacement⟩ := r
      simp only
      rw [bind_ok (tableau_ok s), branchContains_eq, if_pos]
      · exact ih hfs
      · exact Bool.or_eq_true_iff.2 (hg target replacement hr)

section Steps

variable (hs : s.Coherent) (hl : s.tableau.IsLeaf leaf)

include hs hl

theorem stack_idle {fs : List Formula} (h : ∀ g ∈ fs, (s.tableau.path leaf).contains g) :
    stack source leaf fs s = .ok (leaf, 0) s := by
  obtain ⟨n, hn, -, -⟩ := node_leaf_ok hs hl
  induction fs with
  | nil => rfl
  | cons g fs ih =>
    obtain ⟨hg, hfs⟩ := List.forall_mem_cons.1 h
    rw [stack, bind_ok hn]
    split
    · rfl
    · rw [bind_ok (tableau_ok s), branchContains_eq, if_pos hg]
      exact ih hfs

theorem instantiateEach_idle {x : Char} {body : Formula} {cs : List Char}
    (h : ∀ c ∈ cs, (s.tableau.path leaf).contains (body.substitute x c .const)) :
    instantiateEach source f x body leaf cs s = .ok 0 s := by
  obtain ⟨n, hn, -, -⟩ := node_leaf_ok hs hl
  induction cs with
  | nil => rfl
  | cons c cs ih =>
    obtain ⟨hc, hcs⟩ := List.forall_mem_cons.1 h
    have hstack : stack source leaf [body.substitute x c .const] s = .ok (leaf, 0) s :=
      stack_idle hs hl (List.forall_mem_singleton.2 hc)
    rw [instantiateEach, bind_ok hstack]
    simp only [Nat.lt_irrefl, if_false]
    refine (bind_ok hn).trans ?_
    split
    · rfl
    · exact bind_ok (ih hcs)

theorem seedConstants_idle (h : ∃ c, c ∈ (s.tableau.path leaf).constants) :
    seedConstants leaf s = .ok (s.tableau.path leaf).constants s := by
  obtain ⟨n, hn, -, hconstants⟩ := node_leaf_ok hs hl
  have hne : ¬n.constants.isEmpty := by
    rw [hconstants, Symbols.isEmpty_iff]
    exact not_forall_not.2 h
  rw [seedConstants, bind_ok hn, if_neg hne]
  refine (bind_ok hn).trans ?_
  rw [hconstants]
  rfl

end Steps

theorem total_idle {step : Nat → Expand Nat} (h : step leaf s = .ok 0 s) :
    total step [leaf] s = .ok 0 s := by
  rw [total, bind_ok h]
  rfl

/-- A universal or an identity that adds nothing lies dormant, if it is to be tried again. -/
theorem settle_idle (key : Nat) (s : Expansion) : ∃ s', settle key 0 s = .ok () s' ∧
    s'.tableau = s.tableau ∧ s'.agenda = s.agenda := by
  rw [settle, bind_ok (get_ok s)]
  by_cases hr : s.requeues
  · rw [if_pos hr, if_pos rfl]
    exact ⟨_, rfl, rfl, rfl⟩
  · rw [if_neg hr]
    exact ⟨s, rfl, rfl, rfl⟩

theorem constantsOf_leaf (hs : s.Coherent) (hl : s.tableau.IsLeaf leaf) :
    constantsOf [leaf] s = .ok (s.tableau.path leaf).constants s := by
  have hleaf : ∀ l ∈ [leaf], s.tableau.IsLeaf l := List.forall_mem_singleton.2 hl
  obtain ⟨u, hu, hmem⟩ := constantsOf_ok hs hleaf
  have hsame : u = (s.tableau.path leaf).constants := by
    ext c
    rw [hmem]
    simp
  rwa [hsame] at hu

/-! ### The rules that are dispatched at a leaf -/

section Rules

variable (hs : s.Coherent) (hl : s.tableau.IsLeaf leaf) {x : Char} {body : Formula}

include hs hl

theorem stackAll_idle {fs : List Formula} (h : ∀ g ∈ fs, (s.tableau.path leaf).contains g) :
    stackAll source [leaf] fs s = .ok 0 s :=
  total_idle (bind_ok (stack_idle hs hl h))

theorem existential_idle {c : Char} (hc : fresh? (s.tableau.path leaf).constants = some c)
    (h : (s.tableau.path leaf).contains (body.substitute x c .const)) :
    ∃ s', existential source f x body [leaf] s = .ok (.added 0) s' ∧ s'.tableau = s.tableau ∧
      s'.agenda = s.agenda := by
  refine ⟨{ s with trace := s.trace.push (.instantiatedTo f (body.substitute x c .const)) }, ?_,
    rfl, rfl⟩
  rw [existential, bind_ok (constantsOf_leaf hs hl)]
  simp only [hc]
  rw [bind_ok (emit_ok _ s), witnessAll, bind_ok (total_idle (witness_idle (by exact h))),
    bind_ok (get_ok _), if_neg fun hwake => Nat.lt_irrefl 0 hwake.1]
  rfl

theorem universal_idle (h : (s.tableau.path leaf).Idle [] (.instances x body)) :
    ∃ s', universal source f x body [leaf] s = .ok (.added 0) s' ∧ s'.tableau = s.tableau ∧
      s'.agenda = s.agenda := by
  have hone : (do
      let constants ← seedConstants leaf
      instantiateEach source f x body leaf constants.members : Expand Nat) s = .ok 0 s :=
    (bind_ok (seedConstants_idle hs hl h.1)).trans (instantiateEach_idle hs hl h.2)
  obtain ⟨s', hsettle, hs'⟩ := settle_idle source s
  refine ⟨s', ?_, hs'⟩
  rw [universal, bind_ok (total_idle hone), bind_ok hsettle]
  rfl

omit hs hl in
theorem identity_idle {a b : Char}
    (h : ∀ g ∈ closableOn s.tableau source leaf, (s.tableau.path leaf).Replaced a b g) :
    ∃ s', identity source f a b [leaf] s = .ok (.added 0) s' ∧ s'.tableau = s.tableau ∧
      s'.agenda = s.agenda := by
  have hone : (do
      let formulas := closableOn (← tableau) source leaf
      replaceEach source f a b leaf formulas : Expand Nat) s = .ok 0 s :=
    (bind_ok (tableau_ok s)).trans (replaceEach_idle h)
  obtain ⟨s', hsettle, hs'⟩ := settle_idle source s
  refine ⟨s', ?_, hs'⟩
  rw [identity, bind_ok (total_idle hone), bind_ok hsettle]
  rfl

/-- An idle dispatch of an open leaf leaves the tableau as it is. -/
theorem dispatch_idle {m : Node} (hm : s.tableau.IsOpenLeaf leaf m) (h : s.tableau.Idles leaf m) :
    ∃ s', dispatch leaf s = .ok (.added 0) s' ∧ s'.tableau = s.tableau ∧ s'.agenda = s.agenda := by
  rw [dispatch, bind_ok (tableau_ok s), hm.openLeavesBelow,
    if_neg (by exact Bool.false_ne_true), bind_ok (node_ok hm.node), bind_ok (emit_ok _ s)]
  generalize hs₁ : ({ s with trace := s.trace.push (.dispatched m.formula [leaf].length) } :
    Expansion) = s₁
  have htableau : s₁.tableau = s.tableau := by rw [← hs₁]
  have hagenda : s₁.agenda = s.agenda := by rw [← hs₁]
  have hcoherent : s₁.Coherent := by
    rw [← hs₁]
    exact ⟨hs.tree, hs.marked⟩
  rw [← htableau] at hl h ⊢
  rw [← hagenda]
  rw [Idles] at h
  generalize m.formula.decompose = d at h ⊢
  cases d with
  | nothing => exact ⟨s₁, rfl, rfl, rfl⟩
  | stack fs => exact ⟨s₁, bind_ok (stackAll_idle hcoherent hl h), rfl, rfl⟩
  | split left lefts right rights => exact h.elim
  | witness x body =>
    obtain ⟨c, hc, hcontains⟩ := h
    exact existential_idle hcoherent hl hc hcontains
  | instances x body => exact universal_idle hcoherent hl h
  | replace a b => exact identity_idle h
  | unexpected => exact h.elim

end Rules

/-- A leaf whose rule is idle, or whose branch is closed, is dispatched in vain. -/
theorem advance_idle (hs : s.Coherent) (hl : s.tableau.IsLeaf leaf)
    (h : ∀ n, s.tableau.IsOpenLeaf leaf n → s.tableau.Idles leaf n) :
    ∃ s', advance leaf s = .ok false s' ∧ s'.tableau = s.tableau ∧ s'.agenda = s.agenda := by
  obtain ⟨n, hn, hleaf⟩ := hl
  cases hclosed : n.closed with
  | false =>
    have hm : s.tableau.IsOpenLeaf leaf n := ⟨hn, hleaf, hclosed⟩
    obtain ⟨s', hdispatch, hs'⟩ := dispatch_idle hs hm.isLeaf hm (h n hm)
    exact ⟨s', bind_ok hdispatch, hs'⟩
  | true =>
    have hempty : s.tableau.openLeavesBelow leaf = [] := by
      rw [openLeavesBelow, leavesBelow_of_isLeaf hn hleaf, List.filter_singleton, hn,
        Option.any_some, hclosed]
      rfl
    have hdispatch : dispatch leaf s = .ok (.added 0) s := by
      rw [dispatch, bind_ok (tableau_ok s), hempty]
      rfl
    exact ⟨s, bind_ok hdispatch, rfl, rfl⟩

/-! ## The beginning -/

/-- Where the right leaves are marked, checking one again changes nothing. -/
theorem checkClosure_marked (hm : s.tableau.LeavesMarked) (hl : s.tableau.IsLeaf leaf) :
    checkClosure leaf s = .ok () s := by
  obtain ⟨n, hn, hleaf⟩ := hl
  rw [checkClosure, bind_ok (node_ok hn)]
  cases hclosed : n.closed with
  | true => rfl
  | false =>
    rw [if_neg Bool.false_ne_true, bind_ok (tableau_ok s), branchIsContradictory_eq,
      ← hm leaf n hn hleaf, hclosed]
    rfl

theorem enqueueLeaves_marked {L : List Nat} (hm : s.tableau.LeavesMarked)
    (hL : ∀ k ∈ L, s.tableau.IsLeaf k) : ∃ agenda,
      enqueueLeaves L s = .ok () { s with agenda := agenda } ∧
        (agenda.map (·.key)).Perm (L ++ s.keys) := by
  induction L generalizing s with
  | nil => exact ⟨s.agenda, rfl, .refl _⟩
  | cons k L ih =>
    obtain ⟨hk, hL⟩ := List.forall_mem_cons.1 hL
    obtain ⟨n, hn⟩ := node?_eq_some_of_lt hk.lt_size
    obtain ⟨agenda, hrest, hperm⟩ :=
      ih (s := { s with agenda := s.agenda.push ⟨n.precedence, n.id, k⟩ }) hm hL
    refine ⟨agenda, ?_, hperm.trans ?_⟩
    · rw [enqueueLeaves, bind_ok (checkClosure_marked hm hk), bind_ok (enqueue_ok hn)]
      exact hrest
    · exact (((Agenda.push_perm _ _).map _).append_left L).trans List.perm_middle

theorem seed_marked (ht : t.IsTree) (hm : t.LeavesMarked) (requeues : Bool) :
    ∃ agenda, seed (.start t requeues) = .ok () { Expansion.start t requeues with agenda := agenda } ∧
      (agenda.map (·.key)).Perm (t.leavesBelow root) := by
  obtain ⟨agenda, hok, hperm⟩ := enqueueLeaves_marked (s := Expansion.start t requeues)
    (L := t.leavesBelow root) hm fun k hk => (ht.mem_leavesBelow.1 hk).1
  exact ⟨agenda, (bind_ok (tableau_ok _)).trans hok, hperm.trans (by exact .of_eq (List.append_nil _))⟩

end Expand

/-! ## An idle run -/

/-- Leaves whose rules are idle are dispatched one after another in vain. -/
theorem Expansion.run_idle (hs : s.Coherent) (hagenda : ∀ e ∈ s.agenda, s.tableau.IsLeaf e.key)
    (h : ∀ l n, s.tableau.IsOpenLeaf l n → s.tableau.Idles l n) {remaining : Nat}
    (hlimit : s.agenda.length ≤ remaining) (made : Nat) :
    (s.run made remaining).outcome = .ok .complete ∧
      (s.run made remaining).expansion.tableau = s.tableau := by
  induction remaining generalizing s made with
  | zero =>
    have hnil : s.agenda = [] := List.eq_nil_of_length_eq_zero (Nat.le_zero.1 hlimit)
    rw [run]
    split
    · exact ⟨rfl, rfl⟩
    · rw [hnil]
      exact ⟨rfl, rfl⟩
  | succ remaining ih =>
    rw [run]
    split
    · exact ⟨rfl, rfl⟩
    cases ha : s.agenda with
    | nil => exact ⟨rfl, rfl⟩
    | cons e rest =>
      rw [ha] at hagenda hlimit
      obtain ⟨he, hrest⟩ := List.forall_mem_cons.1 hagenda
      obtain ⟨s', hadvance, htableau, hagenda'⟩ :=
        advance_idle (s := { s with agenda := rest }) ⟨hs.tree, hs.marked⟩ he fun n => h e.key n
      simp only at htableau hagenda'
      simp only [hadvance]
      have hs' : s'.Coherent := ⟨htableau ▸ hs.tree, htableau ▸ hs.marked⟩
      rw [← htableau] at hrest h ⊢
      rw [← hagenda'] at hrest
      refine ih hs' hrest h ?_ (made + 1)
      rw [hagenda']
      exact Nat.le_of_succ_le_succ hlimit

/-- An expansion changes nothing where the rules of all open leaves are idle, if it may dispatch every
leaf. -/
theorem Context.expand_of_idle (c : Context) (ht : t.IsTree) (hm : t.LeavesMarked)
    (h : ∀ l n, t.IsOpenLeaf l n → t.Idles l n)
    (hlimit : (t.leavesBelow root).length ≤
      c.settings.tableauLimit.value - c.counters.dispatches) :
    (c.expand t).2 =
      ({ t with status := .complete }, .ok (verdict { t with status := .complete })) := by
  obtain ⟨agenda, hseed, hperm⟩ := seed_marked ht hm c.settings.requeueUniversals.value
  have hagenda : ∀ e ∈ agenda, t.IsLeaf e.key := fun e he =>
    (ht.mem_leavesBelow.1 (hperm.mem_iff.1 (List.mem_map_of_mem he))).1
  have hlength : agenda.length ≤ c.settings.tableauLimit.value - c.counters.dispatches := by
    rw [← hperm.length_eq, List.length_map] at hlimit
    exact hlimit
  obtain ⟨houtcome, htableau⟩ := run_idle
    (s := { Expansion.start t c.settings.requeueUniversals.value with agenda := agenda })
    ⟨ht, hm⟩ hagenda h hlength c.counters.dispatches
  obtain ⟨c', hexpand, hreport⟩ := (expand_of_seed hseed rfl).2 _ houtcome
  rw [hexpand, hreport]
  simp only [htableau]
  rfl

end Sequitur
