import Sequitur.Proofs.Tableau.Growth

/-!
# The rules carried out

Each step of an expansion succeeds, and does to the branches of a tableau what the rules of
`Sequitur.Path` say: at one leaf for the steps here, and for every leaf of a list in `total_grows`.
-/

namespace Sequitur

open Tableau Expansion

variable {s s' : Expansion} {t : Tableau}

theorem Expand.bind_ok {α β : Type} {m : Expand α} {f : α → Expand β} {s s' : Expansion} {a : α}
    (h : m s = .ok a s') : (m >>= f) s = f a s' := by
  show EStateM.bind m f s = _
  rw [EStateM.bind, h]

theorem Expand.bind_error {α β : Type} {m : Expand α} {f : α → Expand β} {cause : TableauError}
    (h : m s = .error cause s') : (m >>= f) s = .error cause s' := by
  show EStateM.bind m f s = _
  rw [EStateM.bind, h]

namespace Tableau

/-! ## A change to one node -/

section Modify

variable {u : Tableau} {L : List Nat} {key : Nat} {g : Node → Node}
  {hg : ∀ n, (g n).children = n.children}

/-- A change to a node is within the growth if the node is new, or the change is one that the growth
may make. -/
theorem Extends.modify (h : t.Extends u L) (ha : ∀ n, (g n).ancestors = n.ancestors)
    (hold : key < t.size → ∀ n : Node, n.Stays (g n) ∧ (key ∉ L → n.Rests (g n))) :
    t.Extends (u.modify key g hg) L := by
  refine ⟨h.tree.modify ha, fun k n hn => ?_⟩
  obtain ⟨n', hn', hstays, hrests⟩ := h.kept k n hn
  refine ⟨_, node?_modify_eq_some.2 ⟨n', hn', rfl⟩, ?_⟩
  by_cases hk : key = k
  · subst hk
    obtain ⟨hstays', hrests'⟩ := hold (lt_size_of_node? hn) n'
    rw [if_pos rfl]
    exact ⟨hstays.trans hstays', fun hL => (hrests hL).trans (hrests' hL)⟩
  · rw [if_neg hk]
    exact ⟨hstays, hrests⟩

theorem entries_modify (hc : ∀ n, (g n).content = n.content)
    (ha : ∀ n, (g n).ancestors = n.ancestors) (k : Nat) :
    (t.modify key g hg).entries k = t.entries k := by
  rw [entries, entries, branch_modify ha]
  refine List.filterMap_congr fun j _ => ?_
  rw [node?_modify]
  split
  · cases t.node? j <;> simp [Node.formula, hc]
  · rfl

theorem formulas_modify (hc : ∀ n, (g n).content = n.content)
    (ha : ∀ n, (g n).ancestors = n.ancestors) (k : Nat) :
    ((t.modify key g hg).path k).formulas = (t.path k).formulas := by
  rw [formulas_path, formulas_path, entries_modify hc ha]

theorem path_modify (hc : ∀ n, (g n).content = n.content)
    (ha : ∀ n, (g n).ancestors = n.ancestors) (hconst : ∀ n, (g n).constants = n.constants)
    (k : Nat) : (t.modify key g hg).path k = t.path k := by
  have hconstants : ((t.modify key g hg).path k).constants = (t.path k).constants := by
    rw [path, path, node?_modify]
    split
    · cases t.node? k <;> simp [hconst]
    · rfl
  exact Path.ext (formulas_modify hc ha k) hconstants

theorem path_close (key k : Nat) : (t.close key).path k = t.path k := by
  refine path_modify ?_ ?_ ?_ k <;> exact fun _ => rfl

theorem path_addConstant (hk : key < t.size) (c : Char) :
    (t.addConstant key c).path key = (t.path key).addConstant c := by
  obtain ⟨n, hn⟩ := node?_eq_some_of_lt hk
  have hnew : (t.addConstant key c).node? key = some { n with constants := n.constants.insert c } :=
    node?_modify_eq_some.2 ⟨n, hn, (if_pos rfl).symm⟩
  refine Path.ext ?_ ?_
  · refine formulas_modify ?_ ?_ key <;> exact fun _ => rfl
  · rw [path_of_node? hnew, Path.addConstant, path_of_node? hn]

theorem isLeaf_modify {k : Nat} : (t.modify key g hg).IsLeaf k ↔ t.IsLeaf k := by
  have hchildren : ∀ n, (if key = k then g n else n).children = n.children := by
    intro n
    split
    · exact hg n
    · rfl
  constructor
  · rintro ⟨n', hn', hleaf⟩
    obtain ⟨n, hn, rfl⟩ := node?_modify_eq_some.1 hn'
    rw [isLeaf_iff, hchildren, ← isLeaf_iff] at hleaf
    exact ⟨n, hn, hleaf⟩
  · rintro ⟨n, hn, hleaf⟩
    refine ⟨_, node?_modify_eq_some.2 ⟨n, hn, rfl⟩, ?_⟩
    rwa [isLeaf_iff, hchildren, ← isLeaf_iff]

theorem leavesBelow_modify {k : Nat} (h : t.IsLeaf k) :
    (t.modify key g hg).leavesBelow k = [k] := by
  have hleaf : (t.modify key g hg).IsLeaf k := isLeaf_modify.2 h
  obtain ⟨n, hn, hn'⟩ := hleaf
  exact leavesBelow_of_isLeaf hn hn'

/-- A node keeps its mark, and its branch what it marks. -/
theorem exists_node?_of_modify (hstays : ∀ n : Node, n.Stays (g n)) {k : Nat} {n' : Node}
    (hn' : (t.modify key g hg).node? k = some n') : ∃ n, t.node? k = some n ∧
      n'.children = n.children ∧ n'.closed = n.closed ∧
      ((t.modify key g hg).path k).isClosed = (t.path k).isClosed := by
  obtain ⟨n, hn, rfl⟩ := node?_modify_eq_some.1 hn'
  have hpath : ((t.modify key g hg).path k).isClosed = (t.path k).isClosed := by
    rw [Path.isClosed, formulas_modify (fun n => (hstays n).content) fun n => (hstays n).ancestors,
      Path.isClosed]
  refine ⟨n, hn, ?_, ?_, hpath⟩
  · split
    · exact hg n
    · rfl
  · split
    · exact (hstays n).closed
    · rfl

theorem Marked.modify (hm : t.Marked) (hstays : ∀ n : Node, n.Stays (g n)) :
    (t.modify key g hg).Marked := by
  intro k n' hn'
  obtain ⟨n, hn, -, hclosed, hpath⟩ := exists_node?_of_modify hstays hn'
  rw [hclosed, hpath]
  exact hm k n hn

theorem LeavesMarked.modify (hm : t.LeavesMarked) (hstays : ∀ n : Node, n.Stays (g n)) :
    (t.modify key g hg).LeavesMarked := by
  intro k n' hn' hleaf
  obtain ⟨n, hn, hchildren, hclosed, hpath⟩ := exists_node?_of_modify hstays hn'
  rw [isLeaf_iff, hchildren, ← isLeaf_iff] at hleaf
  rw [hclosed, hpath]
  exact hm k n hn hleaf

theorem Dated.modify (h : t.Dated) (hid : ∀ n, (g n).id = n.id) :
    (t.modify key g hg).Dated := by
  have hold : ∀ k n', (t.modify key g hg).node? k = some n' →
      ∃ n, t.node? k = some n ∧ n'.id = n.id := by
    intro k n' hn'
    obtain ⟨n, hn, rfl⟩ := node?_modify_eq_some.1 hn'
    refine ⟨n, hn, ?_⟩
    split
    · exact hid n
    · rfl
  constructor
  · intro k n' hn'
    obtain ⟨n, hn, hsame⟩ := hold k n' hn'
    rw [hsame]
    exact h.id_lt k n hn
  · intro j k m' n' hjk hm' hn'
    obtain ⟨m, hm, hsame⟩ := hold j m' hm'
    obtain ⟨n, hn, hsame'⟩ := hold k n' hn'
    rw [hsame, hsame']
    exact h.increasing j k m n hjk hm hn

end Modify

theorem Extends.marked {t' : Tableau} {L : List Nat} (h : t.Extends t' L) (ht : t.IsTree)
    (hm : t.Marked) (hnew : ∀ k n, t.size ≤ k → t'.node? k = some n →
      n.closed = (t'.path k).isClosed) : t'.Marked := by
  intro k n' hn'
  by_cases hk : k < t.size
  · obtain ⟨n, hn⟩ := node?_eq_some_of_lt hk
    obtain ⟨m, hmk, hstays, -⟩ := h.kept k n hn
    obtain rfl : m = n' := Option.some.inj (hmk.symm.trans hn')
    rw [hstays.closed, hm k n hn, h.isClosed ht hk]
  · exact hnew k n' (Nat.le_of_not_lt hk) hn'

/-! ## Closing a branch -/

/-- The tableau with a node marked as closed if its branch is contradictory. -/
def checked (t : Tableau) (key : Nat) : Tableau :=
  if t.branchIsContradictory key then t.close key else t

section Checked

variable {key : Nat}

@[simp]
theorem size_checked : (t.checked key).size = t.size := by
  rw [checked]
  split
  · exact size_modify _
  · rfl

theorem path_checked (k : Nat) : (t.checked key).path k = t.path k := by
  rw [checked]
  split
  · exact path_close key k
  · rfl

theorem node?_checked_self {n : Node} (hn : t.node? key = some n) (hc : n.closed = false) :
    (t.checked key).node? key = some { n with closed := (t.path key).isClosed } := by
  rw [checked, ← branchIsContradictory_eq]
  split
  · next hclosed =>
    rw [hclosed]
    exact node?_modify_eq_some.2 ⟨n, hn, (if_pos rfl).symm⟩
  · next hopen =>
    rw [Bool.eq_false_iff.2 hopen, ← hc]
    exact hn

theorem node?_checked_of_ne {k : Nat} (hk : key ≠ k) : (t.checked key).node? k = t.node? k := by
  rw [checked]
  split
  · exact (node?_modify _ k).trans (if_neg hk)
  · rfl

theorem Dated.checked (h : t.Dated) : (t.checked key).Dated := by
  rw [Tableau.checked]
  split
  · exact h.modify fun _ => rfl
  · exact h

theorem IsTree.checked (ht : t.IsTree) : (t.checked key).IsTree := by
  rw [Tableau.checked]
  split
  · exact ht.modify fun _ => rfl
  · exact ht

end Checked

/-! ## A child on the tableau -/

section Child

variable {parent : Nat} {above : Node} {f : Formula} {source : Option Nat} {side : Side}

/-- The tableau with a child placed below a node, marked as closed if it ends a contradictory branch.
-/
def placed (t : Tableau) (parent : Nat) (above : Node) (f : Formula) (source : Option Nat)
    (side : Side) : Tableau :=
  (t.extend parent above f source side).checked t.size

theorem size_placed : (t.placed parent above f source side).size = t.size + 1 := by
  rw [placed, size_checked, size_extend]

theorem nextId_placed : (t.placed parent above f source side).nextId = t.nextId + 1 := by
  unfold placed checked
  split <;> rfl

variable (ht : t.IsTree) (hp : t.node? parent = some above) (ho : obstacle? above side = none)

include hp

theorem node?_placed_parent : (t.placed parent above f source side).node? parent =
    some (above.attach side t.size) := by
  rw [placed, node?_checked_of_ne (Nat.ne_of_gt (lt_size_of_node? hp))]
  exact (node?_extend_eq_some hp).2 (.inr (.inl ⟨rfl, rfl⟩))

include ht ho

theorem extends_extend : t.Extends (t.extend parent above f source side) [parent] := by
  refine ⟨ht.extend hp ho, fun k n hn => ?_⟩
  by_cases hk : k = parent
  · subst hk
    obtain rfl : n = above := Option.some.inj (hn.symm.trans hp)
    refine ⟨_, (node?_extend_eq_some hp).2 (.inr (.inl ⟨rfl, rfl⟩)), ?_⟩
    cases side <;> exact ⟨⟨rfl, rfl, rfl, rfl, rfl⟩, fun h => absurd (List.mem_singleton_self k) h⟩
  · exact ⟨n, (node?_extend_eq_some hp).2 (.inr (.inr ⟨hk, hn⟩)), .refl n, fun _ => .refl n⟩

theorem extends_placed : t.Extends (t.placed parent above f source side) [parent] := by
  have h : t.Extends (t.extend parent above f source side) [parent] := extends_extend ht hp ho
  refine ⟨h.tree.checked, fun k n hn => ?_⟩
  rw [placed, node?_checked_of_ne (Nat.ne_of_gt (lt_size_of_node? hn))]
  exact h.kept k n hn

theorem path_placed :
    (t.placed parent above f source side).path t.size = (t.path parent).push f := by
  have hlt := lt_size_of_node? hp
  have hnew : (t.extend parent above f source side).node? t.size = some _ :=
    (node?_extend_eq_some hp).2 (.inl ⟨rfl, rfl⟩)
  have hbranch : (t.extend parent above f source side).branch t.size =
      t.size :: (t.extend parent above f source side).branch parent := by
    rw [branch_extend_size hp, branch_extend hp hlt]
  rw [placed, path_checked]
  refine Path.ext ?_ ?_
  · rw [path_formulas_cons hnew hbranch, (extends_extend ht hp ho).formulas ht hlt]
    rfl
  · rw [path_of_node? hnew, Path.push, path_of_node? hp]
    rfl

theorem node?_placed_size : (t.placed parent above f source side).node? t.size =
    some { Node.new t.nextId f (parent :: above.ancestors) source above.constants with
      closed := ((t.path parent).push f).isClosed } := by
  have hnew : (t.extend parent above f source side).node? t.size = some _ :=
    (node?_extend_eq_some hp).2 (.inl ⟨rfl, rfl⟩)
  have hpath : (t.extend parent above f source side).path t.size = (t.path parent).push f := by
    rw [← path_placed ht hp ho, placed, path_checked]
  rw [← hpath]
  exact node?_checked_self hnew rfl

theorem marked_placed (hm : t.Marked) : (t.placed parent above f source side).Marked := by
  refine (extends_placed ht hp ho).marked ht hm fun k n' hk hn => ?_
  have hlt := lt_size_of_node? hn
  rw [size_placed] at hlt
  obtain rfl : k = t.size := by omega
  rw [node?_placed_size ht hp ho, Option.some.injEq] at hn
  rw [← hn, path_placed ht hp ho]

/-- The node that gets the child is no leaf any more, and the others are as they were. -/
theorem leavesMarked_placed (hm : t.LeavesMarked) :
    (t.placed parent above f source side).LeavesMarked := by
  intro k n' hn hleaf
  by_cases hk : k < t.size
  · by_cases hkp : k = parent
    · subst hkp
      rw [node?_placed_parent hp, Option.some.injEq] at hn
      have hchildren := children_attach ho t.size
      rw [hn, isLeaf_iff.1 hleaf] at hchildren
      exact absurd hchildren (List.not_perm_nil_cons _ _)
    · obtain ⟨n, hold⟩ := node?_eq_some_of_lt hk
      obtain ⟨m, hmk, hstays, hrests⟩ := (extends_placed ht hp ho).kept k n hold
      obtain rfl : m = n' := Option.some.inj (hmk.symm.trans hn)
      rw [isLeaf_iff, (hrests fun hmem => hkp (List.mem_singleton.1 hmem)).children,
        ← isLeaf_iff] at hleaf
      rw [hstays.closed, hm k n hold hleaf, (extends_placed ht hp ho).isClosed ht hk]
  · have hlt := lt_size_of_node? hn
    rw [size_placed] at hlt
    obtain rfl : k = t.size := by omega
    rw [node?_placed_size ht hp ho, Option.some.injEq] at hn
    rw [← hn, path_placed ht hp ho]

theorem dated_placed (h : t.Dated) : (t.placed parent above f source side).Dated := by
  refine h.of_extends (extends_placed ht hp ho) ?_ (Nat.le_of_eq size_placed) fun n hn => ?_
  · rw [nextId_placed]
    exact Nat.le_succ _
  · rw [node?_placed_size ht hp ho, Option.some.injEq] at hn
    rw [nextId_placed, ← hn]
    exact ⟨Nat.le_refl _, Nat.lt_succ_self _⟩

theorem isLeaf_placed : (t.placed parent above f source side).IsLeaf t.size :=
  ⟨_, node?_placed_size ht hp ho, rfl⟩

end Child

end Tableau

namespace Expand

/-! ## Placing -/

/-- Whether a child with the formula `f` was placed on a side of a node. -/
structure Places (s s' : Expansion) (parent : Nat) (above : Node) (f : Formula) (side : Side) : Prop
    extends Grows s s' [parent] 1 where
  path : s'.tableau.path s.tableau.size = (s.tableau.path parent).push f
  leaf : s'.tableau.IsLeaf s.tableau.size
  node : s'.tableau.node? parent = some (above.attach side s.tableau.size)

theorem emit_ok (e : Event) (s : Expansion) :
    emit e s = .ok () { s with trace := s.trace.push e } := rfl

theorem tableau_ok (s : Expansion) : tableau s = .ok s.tableau s := rfl

theorem update_ok (g : Tableau → Tableau) (s : Expansion) :
    update g s = .ok () { s with tableau := g s.tableau } := rfl

theorem node_ok {key : Nat} {n : Node} (h : s.tableau.node? key = some n) :
    node key s = .ok n s := by
  rw [node, h]

theorem addChild_ok {parent source : Nat} {above : Node} {f : Formula} {side : Side}
    (h : s.tableau.host parent side = .ok above) : addChild parent f source side s =
      .ok s.tableau.size { s with
        tableau := s.tableau.extend parent above f (some source) side } := by
  rw [addChild, h]

theorem enqueue_ok {key : Nat} {n : Node} (h : s.tableau.node? key = some n) :
    enqueue key s = .ok () { s with agenda := s.agenda.push ⟨n.precedence, n.id, key⟩ } := by
  rw [enqueue, bind_ok (node_ok h)]
  rfl

/-- Whether a branch closes goes into the tableau, and what was seen into the trace. -/
theorem checkClosure_ok {key : Nat} {n : Node} (h : s.tableau.node? key = some n)
    (hn : n.closed = false) : checkClosure key s = .ok () { s with
      tableau := s.tableau.checked key
      trace := if s.tableau.branchIsContradictory key then s.trace.push (.closed n.formula)
        else s.trace } := by
  rw [checkClosure, bind_ok (node_ok h), hn, if_neg Bool.false_ne_true, bind_ok (tableau_ok s),
    checked]
  split
  · rw [bind_ok (emit_ok _ s), update_ok]
  · rfl

/-- The new node is put on the tableau and on the agenda. -/
theorem place_eq {parent : Nat} {above : Node} {side : Side} (source : Nat) (f : Formula)
    (hp : s.tableau.node? parent = some above) (ho : obstacle? above side = none) :
    ∃ trace, place parent f source side s = .ok s.tableau.size
      { s with
        tableau := s.tableau.placed parent above f (some source) side
        agenda := s.agenda.push ⟨f.precedence, s.tableau.nextId, s.tableau.size⟩
        trace := trace } := by
  have hhost : s.tableau.host parent side = .ok above := by
    rw [host, hp]
    simp only [ho]
  have hnew : (s.tableau.extend parent above f (some source) side).node? s.tableau.size = some _ :=
    (node?_extend_eq_some hp).2 (.inl ⟨rfl, rfl⟩)
  refine ⟨?_, (bind_ok (emit_ok _ s)).trans ?_⟩
  rotate_left
  · refine (bind_ok (addChild_ok (by exact hhost))).trans ?_
    refine (bind_ok (enqueue_ok (by exact hnew))).trans ?_
    refine (bind_ok (checkClosure_ok (by exact hnew) rfl)).trans ?_
    rfl

theorem place_ok {parent : Nat} {above : Node} {side : Side} (source : Nat) (f : Formula)
    (hs : s.Coherent) (hp : s.tableau.node? parent = some above)
    (ho : obstacle? above side = none) : ∃ s', place parent f source side s = .ok s.tableau.size s' ∧
      Places s s' parent above f side := by
  obtain ⟨trace, hplace⟩ := place_eq source f hp ho
  refine ⟨_, hplace, ⟨?_, ?_, ?_, ?_, ?_, ?_, ?_⟩, ?_, ?_, ?_⟩
  · exact extends_placed hs.tree hp ho
  · exact leavesMarked_placed hs.tree hp ho hs.marked
  · exact size_placed
  · exact (Agenda.push_perm _ _).map _
  · intro hordered
    have hkept : { s with tableau := s.tableau.placed parent above f (some source) side }.Ordered :=
      hordered.of_extends rfl (extends_placed hs.tree hp ho)
        (dated_placed hs.tree hp ho hordered.dated)
    have hpushed := hkept.push (e := ⟨f.precedence, s.tableau.nextId, s.tableau.size⟩)
      (node?_placed_size hs.tree hp ho) ⟨rfl, Nat.le_refl _, fun _ => rfl⟩
    exact hpushed.congr rfl rfl
  · rfl
  · rfl
  · exact path_placed hs.tree hp ho
  · exact isLeaf_placed hs.tree hp ho
  · exact node?_placed_parent hp

theorem obstacle?_of_isLeaf {n : Node} (h : n.isLeaf) (side : Side) : obstacle? n side = none := by
  obtain ⟨hl, hr⟩ : n.left = none ∧ n.right = none := by simpa [Node.isLeaf] using h
  cases side <;> simp [obstacle?, hl, hr]

theorem Places.lengthens {parent : Nat} {above : Node} {f : Formula} {side : Side}
    (h : Places s s' parent above f side) (hleaf : above.isLeaf) :
    Lengthens s s' parent s.tableau.size 1 ((s.tableau.path parent).push f) where
  toGrows := h.toGrows
  below := by
    have hchildren := children_attach (obstacle?_of_isLeaf hleaf side) s.tableau.size
    rw [isLeaf_iff.1 hleaf, List.perm_singleton] at hchildren
    have hnot : ¬(above.attach side s.tableau.size).isLeaf := by
      rw [isLeaf_iff, hchildren]
      exact List.cons_ne_nil _ _
    obtain ⟨n, hn, hn'⟩ := h.leaf
    rw [leavesBelow_of_not_isLeaf h.node hnot, hchildren, List.flatMap_singleton,
      leavesBelow_of_isLeaf hn hn']
  path := h.path

/-- A formula can be placed below every leaf, on any side. -/
theorem place_leaf_ok {leaf : Nat} (source : Nat) (f : Formula) (side : Side) (hs : s.Coherent)
    (hl : s.tableau.IsLeaf leaf) : ∃ s', place leaf f source side s = .ok s.tableau.size s' ∧
      Lengthens s s' leaf s.tableau.size 1 ((s.tableau.path leaf).push f) := by
  obtain ⟨above, hp, hleaf⟩ := hl
  obtain ⟨s', hplace, h⟩ := place_ok source f hs hp (obstacle?_of_isLeaf hleaf side)
  exact ⟨s', hplace, h.lengthens hleaf⟩

/-! ## Stacking -/

theorem node_leaf_ok {leaf : Nat} (hs : s.Coherent) (hl : s.tableau.IsLeaf leaf) :
    ∃ n, node leaf s = .ok n s ∧ n.closed = (s.tableau.path leaf).isClosed ∧
      n.constants = (s.tableau.path leaf).constants := by
  obtain ⟨n, hn, hleaf⟩ := hl
  exact ⟨n, node_ok hn, hs.marked leaf n hn hleaf, (path_of_node? hn).symm⟩

theorem stack_ok {tip : Nat} (source : Nat) (fs : List Formula) (hs : s.Coherent)
    (hl : s.tableau.IsLeaf tip) : ∃ last n s', stack source tip fs s = .ok (last, n) s' ∧
      Lengthens s s' tip last n ((s.tableau.path tip).stack fs) := by
  induction fs generalizing s tip with
  | nil => exact ⟨tip, 0, s, rfl, .refl hs hl⟩
  | cons f fs ih =>
    obtain ⟨n, hn, hclosed, -⟩ := node_leaf_ok hs hl
    rw [stack, bind_ok hn, hclosed, Path.stack]
    split
    · exact ⟨tip, 0, s, rfl, .refl hs hl⟩
    · rw [bind_ok (tableau_ok s), branchContains_eq]
      split
      · exact ih hs hl
      · obtain ⟨s₁, hplace, hlong⟩ := place_leaf_ok source f .center hs hl
        obtain ⟨last, m, s₂, hstack, hrest⟩ := ih hlong.coherent hlong.isLeaf
        rw [hlong.path] at hrest
        rw [bind_ok hplace, bind_ok hstack]
        exact ⟨last, m + 1, s₂, rfl, Nat.add_comm 1 m ▸ hlong.trans hs hl hrest⟩

/-! ## Splitting -/

/-- Whether a branch that ends at the leaf `last` was made on one side of the node `leaf`. -/
structure Offshoot (s s' : Expansion) (leaf : Nat) (above : Node) (side : Side) (last n : Nat)
    (p : Path) : Prop extends Grows s s' [leaf] n where
  below : s'.tableau.leavesBelow s.tableau.size = [last]
  path : s'.tableau.path last = p
  node : ∃ n', s'.tableau.node? leaf = some n' ∧ (above.attach side s.tableau.size).Rests n'

theorem branchOff_ok {leaf : Nat} {above : Node} {side : Side} (source : Nat) (f : Formula)
    (fs : List Formula) (hs : s.Coherent) (hp : s.tableau.node? leaf = some above)
    (ho : obstacle? above side = none) : ∃ last n s', branchOff source leaf side f fs s = .ok n s' ∧
      Offshoot s s' leaf above side last n (((s.tableau.path leaf).push f).stack fs) := by
  have hlt := lt_size_of_node? hp
  obtain ⟨s₁, hplace, h₁⟩ := place_ok source f hs hp ho
  obtain ⟨last, m, s₂, hstack, h₂⟩ := stack_ok source fs h₁.coherent h₁.leaf
  rw [branchOff, bind_ok hplace, bind_ok hstack]
  refine ⟨last, m + 1, s₂, rfl, Nat.add_comm 1 m ▸ h₁.toGrows.trans h₂.toGrows ?_, h₂.below, ?_, ?_⟩
  · intro k hk hkt
    rw [List.mem_singleton.1 hk] at hkt
    exact absurd hkt (Nat.lt_irrefl _)
  · rw [h₂.path, h₁.path]
  · obtain ⟨n', hn', -, hrests⟩ := h₂.tableau.kept leaf _ h₁.node
    exact ⟨n', hn', hrests fun hmem => Nat.ne_of_lt hlt (List.mem_singleton.1 hmem)⟩

namespace Offshoot

variable {leaf last n : Nat} {above : Node} {side : Side} {p : Path}

theorem isLeaf (h : Offshoot s s' leaf above side last n p) : s'.tableau.IsLeaf last :=
  (h.tableau.tree.mem_leavesBelow.1 (h.below ▸ List.mem_singleton_self last)).1

theorem le (h : Offshoot s s' leaf above side last n p) : s.tableau.size ≤ last :=
  h.tableau.tree.le_of_mem_branch
    (h.tableau.tree.mem_leavesBelow.1 (h.below ▸ List.mem_singleton_self last)).2

theorem path_leaf (h : Offshoot s s' leaf above side last n p) (hs : s.Coherent)
    (hp : s.tableau.node? leaf = some above) : s'.tableau.path leaf = s.tableau.path leaf := by
  obtain ⟨n', hn', hrests⟩ := h.node
  refine Path.ext (h.tableau.formulas hs.tree (lt_size_of_node? hp)) ?_
  rw [path_of_node? hn', path_of_node? hp, hrests.constants]
  cases side <;> rfl

/-- A branch does not grow with the one on the other side. -/
theorem kept {s'' : Expansion} {above' : Node} {side' : Side} {last' m : Nat} {q : Path}
    (h : Offshoot s s' leaf above side last n p) (h' : Offshoot s' s'' leaf above' side' last' m q)
    (hlt : leaf < s.tableau.size) :
    s''.tableau.leavesBelow s.tableau.size = [last] ∧ s''.tableau.path last = p := by
  have hle := h.le
  have hlast : last ∉ [leaf] := fun hmem => by
    have := List.mem_singleton.1 hmem
    omega
  refine ⟨?_, (h'.tableau.path_of_not_mem h.tableau.tree h.isLeaf.lt_size hlast).trans h.path⟩
  have hsize := Nat.lt_of_le_of_lt hle h.isLeaf.lt_size
  rw [h'.tableau.leavesBelow h.tableau.tree hsize, h.below, List.flatMap_singleton,
    h'.tableau.leavesBelow_of_not_mem h.isLeaf hlast]
  intro l hmem hbranch
  have := h.tableau.tree.le_of_mem_branch hbranch
  have := List.mem_singleton.1 hmem
  omega

end Offshoot

/-- A leaf is split in two, one branch on each side. -/
theorem split_ok {leaf : Nat} (source : Nat) (left : Formula) (lefts : List Formula)
    (right : Formula) (rights : List Formula) (hs : s.Coherent) (hl : s.tableau.IsLeaf leaf) :
    ∃ n s', (do
        let n ← branchOff source leaf .left left lefts
        let m ← branchOff source leaf .right right rights
        return n + m : Expand Nat) s = .ok n s' ∧
      Grows s s' [leaf] n ∧
      (s'.tableau.leavesBelow leaf).map s'.tableau.path =
        [((s.tableau.path leaf).push left).stack lefts,
          ((s.tableau.path leaf).push right).stack rights] := by
  have hlt := hl.lt_size
  obtain ⟨above, hp, hleaf⟩ := hl
  obtain ⟨lastL, n, s₁, hleft, h₁⟩ :=
    branchOff_ok source left lefts hs hp (obstacle?_of_isLeaf hleaf .left)
  obtain ⟨above', hp', hrests⟩ := h₁.node
  have hright : above'.right = none := by
    rw [hrests.right]
    obtain ⟨-, hr⟩ : above.left = none ∧ above.right = none := by simpa [Node.isLeaf] using hleaf
    exact hr
  have ho : obstacle? above' .right = none := by simp [obstacle?, hright]
  obtain ⟨lastR, m, s₂, hrightOk, h₂⟩ := branchOff_ok source right rights h₁.coherent hp' ho
  rw [h₁.path_leaf hs hp] at h₂
  rw [bind_ok hleft, bind_ok hrightOk]
  refine ⟨n + m, s₂, rfl, h₁.toGrows.trans h₂.toGrows fun k hk _ => hk, ?_⟩
  obtain ⟨hbelow, hpath⟩ := h₁.kept h₂ hlt
  obtain ⟨n', hn', hrests'⟩ := h₂.node
  have hchildren : n'.children = [s.tableau.size, s₁.tableau.size] := by
    rw [hrests'.children, Node.children, Node.attach, hrests.left]
    rfl
  have hnot : ¬n'.isLeaf := by
    rw [isLeaf_iff, hchildren]
    exact List.cons_ne_nil _ _
  rw [leavesBelow_of_not_isLeaf hn' hnot, hchildren]
  simp only [List.flatMap_cons, List.flatMap_nil, hbelow, h₂.below, List.append_nil,
    List.cons_append, List.nil_append, List.map_cons, List.map_nil, hpath, h₂.path]

end Expand

end Sequitur
