import Sequitur.Proofs.Tableau.Traversals

/-!
# The slots of a node

A left child and a center child share a slot, and a node does not say which of them fills it. So a
center child is refused where there is a right one, but a right child is refused only where there is
another: the first that is asked for below a center child is added, and makes of that child the left
side of a split. Which slots are filled after any changes is told by the requests alone
(`Tableau.exists_node?_edits`).
-/

namespace Sequitur

open Tableau

/-- Whether the children of a node are still in their slots, next to others perhaps. -/
structure Node.Keeps (n n' : Node) : Prop where
  left : ∀ k, n.left = some k → n'.left = some k
  right : ∀ k, n.right = some k → n'.right = some k

theorem Node.Keeps.refl (n : Node) : n.Keeps n := ⟨fun _ h => h, fun _ h => h⟩

theorem Node.Keeps.trans {n n' n'' : Node} (h : n.Keeps n') (h' : n'.Keeps n'') : n.Keeps n'' :=
  ⟨fun k hk => h'.left k (h.left k hk), fun k hk => h'.right k (h.right k hk)⟩

namespace Tableau

/-! ## Free slots -/

@[simp] theorem obstacle?_left {n : Node} : obstacle? n .left = none ↔ n.left = none := by
  simp [obstacle?]

@[simp] theorem obstacle?_right {n : Node} : obstacle? n .right = none ↔ n.right = none := by
  simp [obstacle?]

@[simp] theorem obstacle?_center {n : Node} :
    obstacle? n .center = none ↔ n.left = none ∧ n.right = none := by
  cases hr : n.right <;> simp [obstacle?, hr]

end Tableau

theorem Node.keeps_attach {n : Node} {side : Side} (ho : obstacle? n side = none) (k : Nat) :
    n.Keeps (n.attach side k) := by
  cases side <;> constructor <;> simp_all [Node.attach]

namespace Tableau

variable {t t' : Tableau} {p k : Nat} {n n' : Node} {f : Formula} {source : Option Nat} {side : Side}

/-! ## One request -/

/-- Whether the change asks for a child of the node `p` on the given side. -/
def Edit.Asks (p : Nat) (side : Side) (e : Edit) : Prop :=
  ∃ f source, e = .child p f source side

theorem Edit.asks_child {q : Nat} {side' : Side} :
    (Edit.child q f source side').Asks p side ↔ q = p ∧ side' = side := by
  simp [Edit.Asks]

/-- The slots of the node alone decide the answer. -/
theorem addChild_of_node? (hn : t.node? p = some n) (f : Formula) (source : Option Nat)
    (side : Side) :
    t.addChild p f source side = match obstacle? n side with
      | some e => .error e
      | none => .ok (t.size, t.extend p n f source side) := by
  unfold addChild host
  simp only [hn]
  cases obstacle? n side <;> rfl

/-- The node that a child was added to has it in a slot that was free. -/
theorem node?_of_addChild (h : t.addChild p f source side = .ok (k, t')) :
    ∃ n, t.node? p = some n ∧ obstacle? n side = none ∧ t'.node? p = some (n.attach side k) := by
  rcases t.addChild_cases p f source side with ⟨n, hn, ho, hok⟩ | ⟨e, herror⟩
  · rw [hok] at h
    cases h
    exact ⟨n, hn, ho, (node?_extend_eq_some hn).2 (.inr (.inl ⟨rfl, rfl⟩))⟩
  · rw [herror] at h
    cases h

/-! ## One change and all changes -/

/-- A change moves no child. The right slot of a node is filled if it was, or if a right child of
the node is asked for: such a request is refused only where the slot is filled. -/
theorem exists_node?_edit (hn : t.node? p = some n) (e : Edit) :
    ∃ n', (t.edit e).node? p = some n' ∧ n.Keeps n' ∧
      (n'.right.isSome ↔ n.right.isSome ∨ e.Asks p .right) := by
  cases e with
  | closing key =>
    have hclose : (t.close key).node? p = some (if key = p then { n with closed := true } else n) :=
      node?_modify_eq_some.2 ⟨n, hn, rfl⟩
    refine ⟨_, hclose, ?_⟩
    have hslots : n.Keeps (if key = p then { n with closed := true } else n) ∧
        (if key = p then { n with closed := true } else n).right = n.right := by
      split
      · exact ⟨⟨fun _ h => h, fun _ h => h⟩, rfl⟩
      · exact ⟨.refl n, rfl⟩
    exact ⟨hslots.1, by simp [hslots.2, Edit.Asks]⟩
  | child q f source side =>
    rw [Edit.asks_child]
    by_cases hq : q = p
    · subst hq
      cases ho : obstacle? n side with
      | none =>
        refine ⟨n.attach side t.size, ?_, Node.keeps_attach ho t.size, ?_⟩
        · simp only [edit, addChild_of_node? hn, ho]
          exact (node?_extend_eq_some hn).2 (.inr (.inl ⟨rfl, rfl⟩))
        · cases side <;> simp [Node.attach]
      | some e =>
        refine ⟨n, ?_, .refl n, ?_⟩
        · simp only [edit, addChild_of_node? hn, ho, hn]
        · cases side <;> simp [obstacle?] at ho ⊢
          exact ho.1
    · refine ⟨n, ?_, .refl n, by simp [hq]⟩
      rcases t.addChild_cases q f source side with ⟨m, hm, -, hok⟩ | ⟨e, herror⟩
      · simp only [edit, hok]
        exact (node?_extend_eq_some hm).2 (.inr (.inr ⟨Ne.symm hq, hn⟩))
      · simp only [edit, herror, hn]

theorem exists_node?_edits (hn : t.node? p = some n) (es : List Edit) :
    ∃ n', (t.edits es).node? p = some n' ∧ n.Keeps n' ∧
      (n'.right.isSome ↔ n.right.isSome ∨ ∃ e ∈ es, e.Asks p .right) := by
  induction es generalizing t n with
  | nil => exact ⟨n, hn, .refl n, by simp⟩
  | cons e es ih =>
    obtain ⟨n₁, hn₁, hkeeps₁, hright₁⟩ := exists_node?_edit hn e
    obtain ⟨n', hn', hkeeps, hright⟩ := ih hn₁
    refine ⟨n', hn', hkeeps₁.trans hkeeps, ?_⟩
    rw [hright, hright₁, or_assoc]
    simp only [List.mem_cons, exists_eq_or_imp]

/-! ## Center and right children -/

/-- Below a right child's parent no center child is ever added. Below a center child's parent the
first right child that is asked for is added all the same, and no other: the center child is then
the left side of a split. -/
theorem center_then_right (t : Tableau) (p : Nat) (f : Formula) (source : Option Nat) (k : Nat)
    (t' : Tableau) (es : List Edit) (g : Formula) (origin : Option Nat) :
    (t.addChild p f source .right = .ok (k, t') →
      (t'.edits es).addChild p g origin .center = .error .centerAfterRight) ∧
    (t.addChild p f source .center = .ok (k, t') →
      ((∃ j t'', (t'.edits es).addChild p g origin .right = .ok (j, t'')) ↔
        ∀ e ∈ es, ¬e.Asks p .right) ∧
      ∀ j t'', (t'.edits es).addChild p g origin .right = .ok (j, t'') →
        ∃ n, t''.node? p = some n ∧ n.left = some k ∧ n.right = some j ∧ n.center = none) := by
  refine ⟨fun h => ?_, fun h => ?_⟩
  · obtain ⟨n, -, -, hn⟩ := node?_of_addChild h
    obtain ⟨n', hn', hkeeps, -⟩ := exists_node?_edits hn es
    have hright : n'.right = some k := hkeeps.right k rfl
    rw [addChild_of_node? hn']
    simp [obstacle?, hright]
  · obtain ⟨n, -, ho, hn⟩ := node?_of_addChild h
    obtain ⟨n', hn', hkeeps, hright⟩ := exists_node?_edits hn es
    have hfree : n.right = none := (obstacle?_center.1 ho).2
    have hleft : n'.left = some k := hkeeps.left k rfl
    constructor
    · have hasked : (∀ e ∈ es, ¬e.Asks p .right) ↔ n'.right = none := by
        rw [← Option.not_isSome_iff_eq_none, hright]
        simp [Node.attach, hfree]
      rw [hasked, addChild_of_node? hn', ← obstacle?_right]
      cases obstacle? n' .right <;> simp
    · intro j t'' hj
      obtain ⟨m, hm, -, hm'⟩ := node?_of_addChild hj
      rw [hn', Option.some.injEq] at hm
      subst hm
      exact ⟨_, hm', hleft, rfl, rfl⟩

/-- The root has a center child. A left child of the root is refused, a right child of that child is
added, and then the first right child of the root that is asked for. -/
theorem center_then_right_third :
    ∃ t₁ j t₂, (start (.atom 'P')).addChild 0 (.atom 'Q') none .center = .ok (1, t₁) ∧
      (t₁.edits [.child 0 (.atom 'S') none .left, .child 1 (.atom 'S') none .right]).addChild 0
        (.atom 'R') none .right = .ok (j, t₂) ∧
      (∃ n, t₂.node? 0 = some n ∧ n.left = some 1 ∧ n.right = some j ∧ n.center = none) ∧
      t₂.addChild 0 (.atom 'R') none .center = .error .centerAfterRight := by
  obtain ⟨hfirst, hsplit⟩ := (center_then_right (start (.atom 'P')) 0 (.atom 'Q') none 1 _
    [.child 0 (.atom 'S') none .left, .child 1 (.atom 'S') none .right] (.atom 'R') none).2 rfl
  obtain ⟨j, t₂, hj⟩ := hfirst.2 (by simp [Edit.asks_child])
  exact ⟨_, j, t₂, rfl, hj, hsplit j t₂ hj,
    (center_then_right _ 0 (.atom 'R') none j t₂ [] (.atom 'R') none).1 hj⟩

/-- A right child is added below a node that has a center child. -/
theorem right_beside_center :
    ∃ t₁ t₂ n, (start (.atom 'P')).addChild 0 (.atom 'Q') none .center = .ok (1, t₁) ∧
      t₁.addChild 0 (.atom 'R') none .right = .ok (2, t₂) ∧
      t₂.node? 0 = some n ∧ n.children = [1, 2] ∧ n.shape = .branch :=
  ⟨_, _, _, rfl, rfl, rfl, rfl, rfl⟩

end Tableau

end Sequitur
