import Mathlib.Data.List.Basic
import Sequitur.Tableau.Traversal

/-!
# The nodes of a tableau form a tree

Each node but the root is the child of one node, and its branch is its key before the branch of that
node. Under this invariant the ways through a tableau can be described by branches: the leaves below a
node are the leaves whose branch it is on (`mem_leavesBelow`), each found once (`nodup_leavesBelow`),
and going level by level misses none of them (`mem_levelLeaves`).
-/

namespace Sequitur.Tableau

/-- Whether links and branches agree. -/
structure IsTree (t : Tableau) : Prop where
  root : t.branch root = [root]
  parent : ∀ k < t.size, k ≠ Tableau.root →
    ∃ p m, t.node? p = some m ∧ k ∈ m.children ∧ t.branch k = k :: t.branch p
  child : ∀ p m, t.node? p = some m → ∀ c ∈ m.children, t.branch c = c :: t.branch p
  distinct : ∀ k n, t.node? k = some n → n.children.Nodup

/-- Whether the key is that of a node without children. -/
def IsLeaf (t : Tableau) (k : Nat) : Prop := ∃ n, t.node? k = some n ∧ n.isLeaf

variable {t : Tableau}

/-! ## Keys -/

theorem node?_eq_some_of_lt {k : Nat} (h : k < t.size) : ∃ n, t.node? k = some n :=
  ⟨_, Array.getElem?_eq_getElem h⟩

theorem lt_size_of_node? {k : Nat} {n : Node} (h : t.node? k = some n) : k < t.size :=
  (Array.getElem?_eq_some_iff.1 h).1

theorem branch_of_node? {k : Nat} {n : Node} (h : t.node? k = some n) :
    t.branch k = k :: n.ancestors := by
  rw [branch, h]

theorem lt_size_of_mem_branch {j k : Nat} (h : j ∈ t.branch k) : k < t.size := by
  rw [branch] at h
  split at h
  · next hn => exact lt_size_of_node? hn
  · exact absurd h List.not_mem_nil

theorem mem_branch_self {k : Nat} (h : k < t.size) : k ∈ t.branch k := by
  obtain ⟨n, hn⟩ := node?_eq_some_of_lt h
  rw [branch_of_node? hn]
  exact List.mem_cons_self

theorem IsLeaf.lt_size {k : Nat} (h : t.IsLeaf k) : k < t.size := by
  obtain ⟨n, hn, -⟩ := h
  exact lt_size_of_node? hn

theorem isLeaf_iff {n : Node} : n.isLeaf ↔ n.children = [] := by
  rw [Node.isLeaf, Node.children]
  cases n.left <;> cases n.right <;> simp

/-! ## Leaves below a node -/

/-- Induction up from the leaves. -/
@[elab_as_elim]
theorem ascent (t : Tableau) {motive : Nat → Prop}
    (step : ∀ k, (∀ n c, t.node? k = some n → c ∈ n.children → motive c) → motive k) (k : Nat) :
    motive k := by
  induction hd : t.size - k using Nat.strongRecOn generalizing k with
  | _ d ih => exact step k fun n c hn hc => ih _ (hd ▸ lt_of_mem_children hn hc) c rfl

theorem leavesBelow_of_none {k : Nat} (h : t.node? k = none) : t.leavesBelow k = [] := by
  rw [leavesBelow]
  split
  · rfl
  · next hn => rw [h] at hn; simp at hn

theorem leavesBelow_of_isLeaf {k : Nat} {n : Node} (hn : t.node? k = some n) (h : n.isLeaf) :
    t.leavesBelow k = [k] := by
  rw [isLeaf_iff, Node.children] at h
  rw [leavesBelow]
  split
  · next hn' => rw [hn] at hn'; simp at hn'
  · next m hm =>
    obtain rfl : n = m := Option.some.inj (hn.symm.trans hm)
    split <;> simp_all

theorem leavesBelow_of_not_isLeaf {k : Nat} {n : Node} (hn : t.node? k = some n) (h : ¬n.isLeaf) :
    t.leavesBelow k = n.children.flatMap t.leavesBelow := by
  rw [isLeaf_iff, Node.children] at h
  rw [leavesBelow, Node.children]
  split
  · next hn' => rw [hn] at hn'; simp at hn'
  · next m hm =>
    obtain rfl : n = m := Option.some.inj (hn.symm.trans hm)
    split <;> simp_all

/-! ## Levels -/

theorem levels_nil (d : Nat) : t.levels d [] = [] := by
  cases d <;> simp [levels]

theorem levels_succ (d : Nat) (ks : List Nat) : t.levels (d + 1) ks =
    ks.filterMap t.node? ++ t.levels d ((ks.filterMap t.node?).flatMap (·.children)) := by
  rw [levels]
  split
  · next h =>
    rw [List.isEmpty_iff.1 h, List.flatMap_nil, levels_nil]
    rfl
  · rfl

theorem exists_node?_of_mem_levels {d : Nat} {ks : List Nat} {n : Node} (h : n ∈ t.levels d ks) :
    ∃ k, t.node? k = some n := by
  induction d generalizing ks with
  | zero => exact absurd h List.not_mem_nil
  | succ d ih =>
    rw [levels_succ] at h
    rcases List.mem_append.1 h with h | h
    · obtain ⟨k, -, hk⟩ := List.mem_filterMap.1 h
      exact ⟨k, hk⟩
    · exact ih h

/-! ## Branches -/

namespace IsTree

variable (ht : t.IsTree)

include ht

theorem size_pos : Tableau.root < t.size :=
  lt_size_of_mem_branch (ht.root ▸ List.mem_singleton_self Tableau.root)

/-- Induction down the tree. -/
@[elab_as_elim]
theorem induction {motive : (k : Nat) → k < t.size → Prop}
    (root : motive Tableau.root ht.size_pos)
    (step : ∀ p m k hp hk, t.node? p = some m → k ∈ m.children → t.branch k = k :: t.branch p →
      motive p hp → motive k hk)
    (k : Nat) (hk : k < t.size) : motive k hk := by
  induction k using Nat.strongRecOn with
  | _ k ih =>
    by_cases hne : k = Tableau.root
    · subst hne
      exact root
    · obtain ⟨p, m, hm, hc, hb⟩ := ht.parent k hk hne
      have hp := lt_size_of_node? hm
      exact step p m k hp hk hm hc hb (ih p (t.descends p m hm k hc).1 hp)

/-- The branch of a node on a branch is the rest of that branch. -/
theorem suffix_of_mem_branch {j k : Nat} (h : j ∈ t.branch k) : t.branch j <:+ t.branch k := by
  have hk := lt_size_of_mem_branch h
  induction k, hk using ht.induction with
  | root =>
    rw [ht.root, List.mem_singleton] at h
    exact h ▸ List.suffix_refl _
  | step p m k hp hk hm hc hb ih =>
    rw [hb] at h
    rcases List.mem_cons.1 h with rfl | h
    · exact List.suffix_refl _
    · rw [hb]
      exact (ih h).trans (List.suffix_cons k _)

theorem mem_branch_trans {i j k : Nat} (hij : i ∈ t.branch j) (hjk : j ∈ t.branch k) :
    i ∈ t.branch k :=
  (ht.suffix_of_mem_branch hjk).subset hij

theorem root_mem_branch {k : Nat} (hk : k < t.size) : Tableau.root ∈ t.branch k := by
  induction k, hk using ht.induction with
  | root =>
    rw [ht.root]
    exact List.mem_singleton_self _
  | step p m k hp hk hm hc hb ih =>
    rw [hb]
    exact List.mem_cons_of_mem k ih

/-- Up a branch keys descend, so it has no more nodes than there are keys. -/
theorem length_branch_le {k : Nat} (hk : k < t.size) : (t.branch k).length ≤ k + 1 := by
  induction k, hk using ht.induction with
  | root =>
    rw [ht.root]
    exact Nat.le_refl 1
  | step p m k hp hk hm hc hb ih =>
    have hlt := (t.descends p m hm k hc).1
    rw [hb, List.length_cons]
    omega

theorem le_of_mem_branch {j k : Nat} (h : j ∈ t.branch k) : j ≤ k := by
  have hk := lt_size_of_mem_branch h
  induction k, hk using ht.induction with
  | root =>
    rw [ht.root, List.mem_singleton] at h
    exact Nat.le_of_eq h
  | step p m k hp hk hm hc hb ih =>
    have hlt := (t.descends p m hm k hc).1
    rw [hb] at h
    rcases List.mem_cons.1 h with rfl | h
    · exact Nat.le_refl _
    · exact Nat.le_trans (ih h) (Nat.le_of_lt hlt)

/-- Only nodes are on branches. -/
theorem exists_node_of_mem_branch {j k : Nat} (h : j ∈ t.branch k) : ∃ n, t.node? j = some n :=
  node?_eq_some_of_lt (Nat.lt_of_le_of_lt (ht.le_of_mem_branch h) (lt_size_of_mem_branch h))

theorem not_mem_branch_of_none {j : Nat} (h : t.node? j = none) (k : Nat) : j ∉ t.branch k := by
  intro hmem
  obtain ⟨n, hn⟩ := ht.exists_node_of_mem_branch hmem
  rw [h] at hn
  cases hn

/-- A branch that goes on below a node goes on through one of its children. -/
theorem exists_child_of_mem_branch {j k : Nat} (h : j ∈ t.branch k) (hne : j ≠ k) :
    ∃ m c, t.node? j = some m ∧ c ∈ m.children ∧ c ∈ t.branch k := by
  have hk := lt_size_of_mem_branch h
  induction k, hk using ht.induction with
  | root =>
    rw [ht.root, List.mem_singleton] at h
    exact absurd h hne
  | step p m k hp hk hm hc hb ih =>
    rw [hb] at h ⊢
    have hj : j ∈ t.branch p := (List.mem_cons.1 h).resolve_left hne
    by_cases hjp : j = p
    · subst hjp
      exact ⟨m, k, hm, hc, List.mem_cons_self⟩
    · obtain ⟨n, c, hn, hcn, hcp⟩ := ih hj hjp
      exact ⟨n, c, hn, hcn, List.mem_cons_of_mem k hcp⟩

/-- Of two nodes on a branch one is on the branch of the other. -/
theorem mem_branch_or_mem_branch {i j k : Nat} (hi : i ∈ t.branch k) (hj : j ∈ t.branch k) :
    i ∈ t.branch j ∨ j ∈ t.branch i := by
  have hk := lt_size_of_mem_branch hi
  have mem_self : ∀ {l}, l ∈ t.branch k → l ∈ t.branch l := fun hl =>
    mem_branch_self (Nat.lt_of_le_of_lt (ht.le_of_mem_branch hl) hk)
  rcases List.suffix_or_suffix_of_suffix (ht.suffix_of_mem_branch hi)
      (ht.suffix_of_mem_branch hj) with h | h
  · exact .inl (h.subset (mem_self hi))
  · exact .inr (h.subset (mem_self hj))

theorem mem_branch_child {p c : Nat} {m : Node} (hm : t.node? p = some m) (hc : c ∈ m.children) :
    p ∈ t.branch c := by
  rw [ht.child p m hm c hc]
  exact List.mem_cons_of_mem c (mem_branch_self (lt_size_of_node? hm))

/-- Two children of a node are on no common branch, unless they are one. -/
theorem child_unique {p c d k : Nat} {m : Node} (hm : t.node? p = some m) (hc : c ∈ m.children)
    (hd : d ∈ m.children) (hck : c ∈ t.branch k) (hdk : d ∈ t.branch k) : c = d := by
  have hbc := ht.child p m hm c hc
  have hbd := ht.child p m hm d hd
  have hsuffix := List.suffix_of_suffix_length_le (ht.suffix_of_mem_branch hck)
    (ht.suffix_of_mem_branch hdk) (by rw [hbc, hbd]; simp)
  have heq := hsuffix.eq_of_length (by rw [hbc, hbd]; simp)
  rw [hbc, hbd] at heq
  exact (List.cons.inj heq).1

/-- A leaf is only on its own branch. -/
theorem eq_of_mem_branch_leaf {j k : Nat} (hj : t.IsLeaf j) (h : j ∈ t.branch k) : j = k := by
  by_contra hne
  obtain ⟨m, c, hm, hc, -⟩ := ht.exists_child_of_mem_branch h hne
  obtain ⟨n, hn, hleaf⟩ := hj
  rw [hm, Option.some.injEq] at hn
  rw [isLeaf_iff, ← hn] at hleaf
  rw [hleaf] at hc
  exact List.not_mem_nil hc

/-! ## Leaves -/

/-- The leaves below a node are the leaf it is, or those on branches through it. -/
theorem mem_leavesBelow {k l : Nat} : l ∈ t.leavesBelow k ↔ t.IsLeaf l ∧ k ∈ t.branch l := by
  induction k using Tableau.ascent t with
  | _ k ih =>
    cases hn : t.node? k with
    | none =>
      rw [leavesBelow_of_none hn]
      exact iff_of_false List.not_mem_nil fun h => ht.not_mem_branch_of_none hn l h.2
    | some n =>
      by_cases hleaf : n.isLeaf
      · rw [leavesBelow_of_isLeaf hn hleaf, List.mem_singleton]
        have hk : t.IsLeaf k := ⟨n, hn, hleaf⟩
        constructor
        · rintro rfl
          exact ⟨hk, mem_branch_self hk.lt_size⟩
        · exact fun h => (ht.eq_of_mem_branch_leaf hk h.2).symm
      · rw [leavesBelow_of_not_isLeaf hn hleaf, List.mem_flatMap]
        constructor
        · rintro ⟨c, hc, hl⟩
          obtain ⟨hl, hcl⟩ := (ih n c hn hc).1 hl
          exact ⟨hl, ht.mem_branch_trans (ht.mem_branch_child hn hc) hcl⟩
        · rintro ⟨hl, hkl⟩
          have hne : k ≠ l := by
            rintro rfl
            obtain ⟨m, hm, hleaf'⟩ := hl
            rw [hn, Option.some.injEq] at hm
            exact hleaf (hm ▸ hleaf')
          obtain ⟨m, c, hm, hc, hcl⟩ := ht.exists_child_of_mem_branch hkl hne
          rw [hn, Option.some.injEq] at hm
          subst hm
          exact ⟨c, hc, (ih n c hn hc).2 ⟨hl, hcl⟩⟩

/-- Every node is on the branch of a leaf. -/
theorem exists_leaf {k : Nat} (hk : k < t.size) : ∃ l, t.IsLeaf l ∧ k ∈ t.branch l := by
  induction k using Tableau.ascent t with
  | _ k ih =>
    obtain ⟨n, hn⟩ := node?_eq_some_of_lt hk
    by_cases hleaf : n.isLeaf
    · exact ⟨k, ⟨n, hn, hleaf⟩, mem_branch_self hk⟩
    · obtain ⟨c, hc⟩ := List.exists_mem_of_ne_nil _ fun he => hleaf (isLeaf_iff.2 he)
      obtain ⟨l, hl, hcl⟩ := ih n c hn hc (t.descends k n hn c hc).2
      exact ⟨l, hl, ht.mem_branch_trans (ht.mem_branch_child hn hc) hcl⟩

theorem nodup_leavesBelow (k : Nat) : (t.leavesBelow k).Nodup := by
  induction k using Tableau.ascent t with
  | _ k ih =>
    cases hn : t.node? k with
    | none =>
      rw [leavesBelow_of_none hn]
      exact List.nodup_nil
    | some n =>
      by_cases hleaf : n.isLeaf
      · rw [leavesBelow_of_isLeaf hn hleaf]
        exact List.pairwise_singleton _ k
      · rw [leavesBelow_of_not_isLeaf hn hleaf, List.Nodup, List.pairwise_flatMap]
        refine ⟨fun c hc => ih n c hn hc, ?_⟩
        refine (ht.distinct k n hn).imp_of_mem fun hc hd hne => ?_
        rintro l hlc _ hld rfl
        exact hne (ht.child_unique hn hc hd (ht.mem_leavesBelow.1 hlc).2 (ht.mem_leavesBelow.1 hld).2)

/-! ## Level by level -/

/-- A node is found from any node of its branch that is fewer than `d` levels above it. -/
theorem mem_levels {d j k : Nat} {ks : List Nat} {n : Node} (hn : t.node? k = some n) (hj : j ∈ ks)
    (hjk : j ∈ t.branch k) (hd : (t.branch k).length < (t.branch j).length + d) :
    n ∈ t.levels d ks := by
  induction d generalizing j ks with
  | zero =>
    have := (ht.suffix_of_mem_branch hjk).length_le
    omega
  | succ d ih =>
    by_cases hne : j = k
    · subst hne
      have hmem : n ∈ ks.filterMap t.node? := List.mem_filterMap.2 ⟨j, hj, hn⟩
      rw [levels_succ]
      exact List.mem_append_left _ hmem
    · obtain ⟨m, c, hm, hc, hck⟩ := ht.exists_child_of_mem_branch hjk hne
      have hmem : m ∈ ks.filterMap t.node? := List.mem_filterMap.2 ⟨j, hj, hm⟩
      rw [levels_succ]
      refine List.mem_append_right _ (ih (List.mem_flatMap.2 ⟨m, hmem, hc⟩) hck ?_)
      rw [ht.child j m hm c hc, List.length_cons]
      omega

theorem mem_levelLeaves {n : Node} :
    n ∈ t.levelLeaves ↔ n.isLeaf ∧ ∃ k, t.node? k = some n := by
  rw [levelLeaves, List.mem_filter, and_comm]
  refine and_congr_right fun _ => ⟨exists_node?_of_mem_levels, ?_⟩
  rintro ⟨k, hn⟩
  have hk := lt_size_of_node? hn
  refine ht.mem_levels hn (List.mem_singleton_self _) (ht.root_mem_branch hk) ?_
  have := ht.length_branch_le hk
  rw [ht.root, List.length_singleton]
  omega

theorem hasAllClosed_iff : t.hasAllClosed ↔ ∀ k, t.IsLeaf k → t.isClosed k := by
  rw [hasAllClosed, List.all_eq_true]
  constructor
  · rintro h k ⟨n, hn, hleaf⟩
    rw [isClosed, hn]
    exact h n (ht.mem_levelLeaves.2 ⟨hleaf, k, hn⟩)
  · intro h n hn
    obtain ⟨hleaf, k, hk⟩ := ht.mem_levelLeaves.1 hn
    have := h k ⟨n, hk, hleaf⟩
    rwa [isClosed, hk] at this

theorem hasSomeClosed_iff : t.hasSomeClosed ↔ ∃ k, t.IsLeaf k ∧ t.isClosed k := by
  rw [hasSomeClosed, List.any_eq_true]
  constructor
  · rintro ⟨n, hn, hclosed⟩
    obtain ⟨hleaf, k, hk⟩ := ht.mem_levelLeaves.1 hn
    refine ⟨k, ⟨n, hk, hleaf⟩, ?_⟩
    rwa [isClosed, hk]
  · rintro ⟨k, ⟨n, hn, hleaf⟩, hclosed⟩
    rw [isClosed, hn] at hclosed
    exact ⟨n, ht.mem_levelLeaves.2 ⟨hleaf, k, hn⟩, hclosed⟩

end IsTree

/-! ## Trees after a change -/

theorem node?_start {f : Formula} {k : Nat} {n : Node} (h : (start f).node? k = some n) :
    k = root ∧ n = .new 0 f.unrooted [] none f.unrooted.constants := by
  have hk : k = 0 := Nat.lt_one_iff.1 (lt_size_of_node? h)
  subst hk
  exact ⟨rfl, (Option.some.inj h).symm⟩

theorem isTree_start (f : Formula) : (start f).IsTree where
  root := rfl
  parent := fun k hk hne => absurd (Nat.lt_one_iff.1 hk) hne
  child := by
    intro p m hm c hc
    rw [(node?_start hm).2] at hc
    exact absurd hc List.not_mem_nil
  distinct := by
    intro k n hn
    rw [(node?_start hn).2]
    exact List.nodup_nil

section Modify

variable {key : Nat} {f : Node → Node} {hf : ∀ n, (f n).children = n.children}

theorem node?_modify_eq_some {k : Nat} {n' : Node} :
    (t.modify key f hf).node? k = some n' ↔
      ∃ n, t.node? k = some n ∧ n' = if key = k then f n else n := by
  rw [node?_modify]
  split
  · rw [Option.map_eq_some_iff]
    simp only [eq_comm]
  · simp

theorem branch_modify (ha : ∀ n, (f n).ancestors = n.ancestors) (k : Nat) :
    (t.modify key f hf).branch k = t.branch k := by
  cases hn : t.node? k with
  | none => rw [branch, branch, node?_modify, hn, Option.map_none, ite_self]
  | some n =>
    rw [branch_of_node? hn, branch_of_node? (node?_modify_eq_some.2 ⟨n, hn, rfl⟩)]
    split
    · rw [ha]
    · rfl

theorem IsTree.modify (ht : t.IsTree) (ha : ∀ n, (f n).ancestors = n.ancestors) :
    (t.modify key f hf).IsTree := by
  have hchildren : ∀ k n, (if key = k then f n else n).children = n.children := by
    intro k n
    split
    · exact hf n
    · rfl
  refine ⟨?_, ?_, ?_, ?_⟩
  · rw [branch_modify ha]
    exact ht.root
  · intro k hk hne
    rw [size_modify] at hk
    obtain ⟨p, m, hm, hc, hb⟩ := ht.parent k hk hne
    refine ⟨p, _, node?_modify_eq_some.2 ⟨m, hm, rfl⟩, ?_, ?_⟩
    · rwa [hchildren]
    · rw [branch_modify ha, branch_modify ha, hb]
  · intro p m' hm c hc
    obtain ⟨m, hold, rfl⟩ := node?_modify_eq_some.1 hm
    rw [hchildren] at hc
    rw [branch_modify ha, branch_modify ha]
    exact ht.child p m hold c hc
  · intro k n' hn
    obtain ⟨n, hold, rfl⟩ := node?_modify_eq_some.1 hn
    rw [hchildren]
    exact ht.distinct k n hold

end Modify

section Extend

variable {p : Nat} {above : Node} {f : Formula} {source : Option Nat} {side : Side}

/-- With a free slot, a child joins the others. -/
theorem children_attach (h : obstacle? above side = none) (child : Nat) :
    (above.attach side child).children.Perm (child :: above.children) := by
  unfold Node.children
  cases side with
  | left =>
    obtain hl : above.left = none := by simpa [obstacle?] using h
    simp [Node.attach, hl]
  | right =>
    obtain hr : above.right = none := by simpa [obstacle?] using h
    simp [Node.attach, hr]
  | center =>
    have hr : above.right = none := by
      by_contra hr
      simp [obstacle?, Option.isSome_iff_ne_none, hr] at h
    have hl : above.left = none := by simpa [obstacle?, hr] using h
    simp [Node.attach, hl, hr]

variable (hp : t.node? p = some above)

include hp

theorem node?_extend_eq_some {k : Nat} {n' : Node} :
    (t.extend p above f source side).node? k = some n' ↔
      k = t.size ∧ n' = .new t.nextId f (p :: above.ancestors) source above.constants ∨
      k = p ∧ n' = above.attach side t.size ∨ k ≠ p ∧ t.node? k = some n' := by
  have hlt := lt_size_of_node? hp
  rw [node?_extend]
  by_cases hk : k = t.size
  · subst hk
    have hnone : t.node? t.size = none := by simp [node?, size]
    simp [hnone, Nat.ne_of_gt hlt, eq_comm]
  · by_cases hkp : k = p
    · subst hkp
      simp [hk, hp, eq_comm]
    · simp [hk, hkp, Ne.symm hkp]

theorem branch_extend {k : Nat} (hk : k < t.size) :
    (t.extend p above f source side).branch k = t.branch k := by
  by_cases hkp : k = p
  · subst hkp
    rw [branch_of_node? ((node?_extend_eq_some hp).2 (.inr (.inl ⟨rfl, rfl⟩))), branch_of_node? hp]
    cases side <;> rfl
  · obtain ⟨n, hn⟩ := node?_eq_some_of_lt hk
    rw [branch_of_node? ((node?_extend_eq_some hp).2 (.inr (.inr ⟨hkp, hn⟩))), branch_of_node? hn]

theorem branch_extend_size :
    (t.extend p above f source side).branch t.size = t.size :: t.branch p := by
  rw [branch_of_node? ((node?_extend_eq_some hp).2 (.inl ⟨rfl, rfl⟩)), branch_of_node? hp]
  rfl

theorem IsTree.extend (ht : t.IsTree) (ho : obstacle? above side = none) :
    (t.extend p above f source side).IsTree := by
  have hlt := lt_size_of_node? hp
  have hchildren := children_attach ho t.size
  refine ⟨?_, ?_, ?_, ?_⟩
  · rw [branch_extend hp ht.size_pos]
    exact ht.root
  · intro k hk hne
    rw [size_extend] at hk
    by_cases hnew : k = t.size
    · subst hnew
      refine ⟨p, _, (node?_extend_eq_some hp).2 (.inr (.inl ⟨rfl, rfl⟩)), ?_, ?_⟩
      · exact hchildren.mem_iff.2 List.mem_cons_self
      · rw [branch_extend_size hp, branch_extend hp hlt]
    · have hk : k < t.size := by omega
      obtain ⟨q, m, hm, hc, hb⟩ := ht.parent k hk hne
      by_cases hqp : q = p
      · subst hqp
        obtain rfl : above = m := Option.some.inj (hp.symm.trans hm)
        refine ⟨q, _, (node?_extend_eq_some hp).2 (.inr (.inl ⟨rfl, rfl⟩)), ?_, ?_⟩
        · exact hchildren.mem_iff.2 (List.mem_cons_of_mem _ hc)
        · rw [branch_extend hp hk, branch_extend hp hlt, hb]
      · refine ⟨q, m, (node?_extend_eq_some hp).2 (.inr (.inr ⟨hqp, hm⟩)), hc, ?_⟩
        rw [branch_extend hp hk, branch_extend hp (lt_size_of_node? hm), hb]
  · intro q m' hm c hc
    rcases (node?_extend_eq_some hp).1 hm with ⟨-, rfl⟩ | ⟨rfl, rfl⟩ | ⟨-, hold⟩
    · exact absurd hc List.not_mem_nil
    · rcases List.mem_cons.1 (hchildren.mem_iff.1 hc) with rfl | hc
      · rw [branch_extend_size hp, branch_extend hp hlt]
      · rw [branch_extend hp (t.descends q above hp c hc).2, branch_extend hp hlt]
        exact ht.child q above hp c hc
    · rw [branch_extend hp (t.descends q m' hold c hc).2, branch_extend hp (lt_size_of_node? hold)]
      exact ht.child q m' hold c hc
  · intro k n' hn
    rcases (node?_extend_eq_some hp).1 hn with ⟨-, rfl⟩ | ⟨rfl, rfl⟩ | ⟨-, hold⟩
    · exact List.nodup_nil
    · refine hchildren.nodup_iff.2 (List.nodup_cons.2 ⟨fun hc => ?_, ht.distinct k above hp⟩)
      exact Nat.lt_irrefl _ (t.descends k above hp _ hc).2
    · exact ht.distinct k n' hold

end Extend

end Sequitur.Tableau
