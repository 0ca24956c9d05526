import Sequitur.Proofs.Tableau.Ancestry

/-!
# Closed branches

A node is marked as closed exactly if it is a leaf and its branch is contradictory, and what is above
a node is never contradictory: the first contradiction ends a branch. Contradiction is stated for the
formulas of a branch two by two here, and not through the canonical forms that the program collects.
-/

namespace Sequitur

open Tableau Expansion

namespace Tableau

variable {t : Tableau} {k : Nat} {n : Node} {f : Formula}

/-- Whether the formula stands on the branch of a node. -/
def Bears (t : Tableau) (k : Nat) (f : Formula) : Prop :=
  ∃ j ∈ t.branch k, ∃ m, t.node? j = some m ∧ m.formula = f

/-- Whether the branch of a node has falsum, or denies an identity of one symbol with itself, or denies
what it also affirms. -/
def Contradictory (t : Tableau) (k : Nat) : Prop :=
  t.Bears k .falsum ∨
  (∃ p q, t.Bears k (.not (.identity p q)) ∧ p.symbol = q.symbol) ∨
  ∃ x z, t.Bears k x ∧ x.isClosable ∧ ¬x.isNegation ∧
    t.Bears k (.not z) ∧ (Formula.not z).isClosable ∧ z.structurallyEquals x

theorem bears_iff : t.Bears k f ↔ f ∈ (t.path k).formulas := by
  constructor
  · rintro ⟨j, hj, m, hm, rfl⟩
    exact formula_mem_path hj hm
  · exact exists_node_of_mem_path

theorem isAtomic_iff : f.isAtomic ↔ f.isClosable ∧ ¬f.isNegation := by
  cases f with
  | not p => simp [Formula.isAtomic, Formula.isNegation]
  | _ => simp [Formula.isAtomic, Formula.isClosable, Formula.isNegation]

theorem contradictory_iff : t.Contradictory k ↔ (t.path k).isClosed := by
  have htrivial : (∃ p q, t.Bears k (.not (.identity p q)) ∧ p.symbol = q.symbol) ↔
      ∃ g, .not g ∈ (t.path k).formulas ∧ g.isTrivialIdentity := by
    constructor
    · rintro ⟨p, q, hbears, hsymbol⟩
      exact ⟨_, bears_iff.1 hbears, decide_eq_true hsymbol⟩
    · rintro ⟨g, hg, htriv⟩
      cases g with
      | identity p q => exact ⟨p, q, bears_iff.2 hg, of_decide_eq_true htriv⟩
      | _ => cases htriv
  rw [Contradictory, Path.isClosed_iff, htrivial, bears_iff]
  refine or_congr_right (or_congr_right ?_)
  constructor
  · rintro ⟨x, z, hx, hclosable, hneg, hz, hatomic, heq⟩
    exact ⟨x, z, bears_iff.1 hx, bears_iff.1 hz, isAtomic_iff.2 ⟨hclosable, hneg⟩, hatomic, heq⟩
  · rintro ⟨x, z, hx, hz, hxatomic, hzatomic, heq⟩
    obtain ⟨hclosable, hneg⟩ := isAtomic_iff.1 hxatomic
    exact ⟨x, z, bears_iff.2 hx, hclosable, hneg, bears_iff.2 hz, hzatomic, heq⟩

theorem IsTree.lt_of_mem_ancestors (ht : t.IsTree) (hn : t.node? k = some n) {j : Nat}
    (hj : j ∈ n.ancestors) : j < k := by
  have hbranch := branch_of_node? hn
  by_cases hk : k = Tableau.root
  · subst hk
    rw [ht.root, List.cons.injEq] at hbranch
    rw [← hbranch.2] at hj
    exact absurd hj List.not_mem_nil
  · obtain ⟨p, m, hm, hchild, hk⟩ := ht.parent k (lt_size_of_node? hn) hk
    rw [hbranch, List.cons.injEq] at hk
    rw [hk.2] at hj
    have := ht.le_of_mem_branch hj
    have := (t.descends p m hm k hchild).1
    omega

/-- What is above a node has a child. -/
theorem IsTree.not_isLeaf_of_mem_ancestors (ht : t.IsTree) (hn : t.node? k = some n) {j : Nat}
    {m : Node} (hj : j ∈ n.ancestors) (hm : t.node? j = some m) : ¬m.isLeaf := by
  intro hleaf
  have hbranch : j ∈ t.branch k := by
    rw [branch_of_node? hn]
    exact List.mem_cons_of_mem k hj
  have hlt := ht.lt_of_mem_ancestors hn hj
  have heq := ht.eq_of_mem_branch_leaf ⟨m, hm, hleaf⟩ hbranch
  omega

/-! ## Inner nodes -/

/-- No change undoes the mark of a node, and none comes below a node that is marked. -/
theorem Grafts.marked {t' : Tableau} {source : Nat} {d : Decomposition} (h : Grafts source d t t')
    (ht : t.IsTree) (hm : t.Marked) : t'.Marked := by
  induction h with
  | refl t => exact hm
  | trans h h' ih ih' =>
    obtain ⟨L, hL⟩ := h.extends ht
    exact ih' hL.tree (ih ht hm)
  | place hp _ _ _ => exact marked_placed ht hp.node (Expand.obstacle?_of_isLeaf hp.leaf _) hm
  | witness hp _ _ _ _ =>
    exact (marked_placed ht hp.node (Expand.obstacle?_of_isLeaf hp.leaf _) hm).modify
      fun _ => ⟨rfl, rfl, rfl, rfl, rfl⟩
  | @split t t' p above above' left right lefts rights hp _ hleft hp' _ hrests ih =>
    have hfree := Expand.obstacle?_of_isLeaf hp.leaf .left
    have hext : t.Extends (t.placed p above left (some source) .left) [p] :=
      extends_placed ht hp.node hfree
    obtain ⟨L, hL⟩ := hleft.extends hext.tree
    exact marked_placed hL.tree hp' (hp.obstacle?_right hrests)
      (ih hext.tree (marked_placed ht hp.node hfree hm))
  | seed _ _ _ => exact hm.modify fun _ => ⟨rfl, rfl, rfl, rfl, rfl⟩
  | record _ _ => exact hm.modify fun _ => ⟨rfl, rfl, rfl, rfl, rfl⟩
  | skip => exact hm

theorem Grown.marked {t' : Tableau} (h : t.Grown t') (ht : t.Accounted []) (hm : t.Marked) :
    t'.Marked := by
  induction h with
  | refl => exact hm
  | dispatch hgrown _ hg ih => exact hg.marked (hgrown.accounted ht).tree ih

theorem marked_start (f : Formula) : ((start f).checked root).Marked := by
  intro k n hn
  have hk := lt_size_of_node? hn
  rw [size_checked] at hk
  obtain rfl : k = root := Nat.lt_one_iff.1 hk
  have hroot : (start f).node? root = some (.new 0 f.unrooted [] none f.unrooted.constants) := rfl
  rw [node?_checked_self hroot rfl, Option.some.injEq] at hn
  rw [path_checked, ← hn]

end Tableau

theorem Context.marked_of_buildTableau {ctx : Context} {w : Formula} {t : Tableau}
    (h : (ctx.buildTableau w).2 = .ok t) : t.Marked := by
  obtain ⟨s₀, s, status, h₀, -, hgrown, rfl⟩ := exists_of_buildTableau h
  rw [h₀.tableau] at hgrown
  exact hgrown.marked (accounted_start w) (marked_start w)

/-- In the tableau of a formula the nodes marked as closed are the leaves of contradictory branches,
and neither an inner node nor any node above another ends a contradictory branch. -/
theorem Context.buildTableau_closed (ctx : Context) (w : Formula) (t : Tableau)
    (h : (ctx.buildTableau w).2 = .ok t) (k : Nat) (n : Node) (hn : t.node? k = some n) :
    (n.closed ↔ n.isLeaf ∧ t.Contradictory k) ∧ (¬n.isLeaf → ¬t.Contradictory k) ∧
      ∀ j ∈ n.ancestors, ¬t.Contradictory j := by
  have haccounted := accounted_of_buildTableau h
  have hmarked : ∀ j m, t.node? j = some m → (m.closed ↔ t.Contradictory j) := by
    intro j m hm
    rw [contradictory_iff, marked_of_buildTableau h j m hm]
  have hinner : ∀ j m, t.node? j = some m → ¬m.isLeaf → ¬t.Contradictory j := by
    intro j m hm hleaf hcontra
    exact hleaf ((haccounted.node j m hm).ended ((hmarked j m hm).2 hcontra))
  refine ⟨⟨fun hclosed => ?_, fun hleaf => ?_⟩, hinner k n hn, fun j hj => ?_⟩
  · exact ⟨(haccounted.node k n hn).ended hclosed, (hmarked k n hn).1 hclosed⟩
  · exact (hmarked k n hn).2 hleaf.2
  · have hlt := haccounted.tree.lt_of_mem_ancestors hn hj
    obtain ⟨m, hm⟩ := node?_eq_some_of_lt (Nat.lt_trans hlt (lt_size_of_node? hn))
    exact hinner j m hm (haccounted.tree.not_isLeaf_of_mem_ancestors hn hj hm)

/-- The denial of `A` closes the branch that has `A`, and `B` between them does not. -/
theorem Context.buildTableau_closed_denial :
    let w : Formula := .and (.atom 'A') (.and (.atom 'B') (.not (.atom 'A')))
    ∃ t n, (({} : Context).buildTableau w).2 = .ok t ∧ t.node? 4 = some n ∧ n.closed ∧ n.isLeaf ∧
      t.Contradictory 4 ∧ ¬t.Contradictory 3 := by
  intro w
  obtain ⟨t, hbuild⟩ :=
    exists_of_isOk_buildTableau (c := ({} : Context)) (f := w) (by decide +kernel)
  have hok : (({} : Context).buildTableau w).2 = .ok t := by rw [hbuild]
  have hlast : ((({} : Context).buildTableau w).2.toOption.bind (·.node? 4)).map
      (fun n => (n.closed, n.ancestors)) = some (true, [3, 2, 1, 0]) := by decide +kernel
  rw [hok] at hlast
  obtain ⟨n, hn, hdata⟩ := Option.map_eq_some_iff.1 hlast
  obtain ⟨hclosed, hancestors⟩ : n.closed = true ∧ n.ancestors = [3, 2, 1, 0] := by
    simpa using hdata
  obtain ⟨hiff, -, habove⟩ := ({} : Context).buildTableau_closed w t hok 4 n hn
  obtain ⟨hleaf, hcontra⟩ := hiff.1 hclosed
  exact ⟨t, n, hok, hn, hclosed, hleaf, hcontra, habove 3 (by simp [hancestors])⟩

end Sequitur
