import Mathlib.Data.List.Nodup
import Sequitur.Proofs.Tableau.Tree
import Sequitur.Tableau.Expansion

/-!
# All ways through a tableau agree

A tableau can be grown by asking for children of any keys and by closing any nodes. Whatever is
asked, the nodes stay a tree (`isTree_edits`), and then every way through it can be told from the
branches: the preorder of a node holds what has the node on its branch (`mem_preorder`), each once
(`nodup_preorder`), and the preorder of a node on a branch is one block of those above it
(`preorder_infix`). So the walk, the leaves below a node and the levels find the same nodes
(`navigable_edits`).
-/

namespace Sequitur.Tableau

variable {t : Tableau}

/-! ## Growing a tableau -/

/-- A change to a tableau. A child may be asked of any key, and any key may be closed. -/
inductive Edit where
  | child (parent : Nat) (f : Formula) (source : Option Nat) (side : Side)
  | closing (key : Nat)

/-- The tableau after a change. A child that cannot be added is not. -/
def edit (t : Tableau) : Edit → Tableau
  | .child parent f source side =>
    match t.addChild parent f source side with
    | .ok (_, t') => t'
    | .error _ => t
  | .closing key => t.close key

/-- The tableau after all the changes, one after another. -/
def edits (t : Tableau) (es : List Edit) : Tableau := es.foldl edit t

/-- Whether nodes are numbered by the order of their creation, with no number left out. -/
def Numbered (t : Tableau) : Prop :=
  t.nextId = t.size ∧ ∀ k n, t.node? k = some n → n.id = k

/-- A child is added, at a free slot of a node, or there is an error. -/
theorem addChild_cases (t : Tableau) (parent : Nat) (f : Formula) (source : Option Nat)
    (side : Side) :
    (∃ above, t.node? parent = some above ∧ obstacle? above side = none ∧
      t.addChild parent f source side = .ok (t.size, t.extend parent above f source side)) ∨
    ∃ e, t.addChild parent f source side = .error e := by
  unfold addChild host
  cases hn : t.node? parent with
  | none => exact .inr ⟨_, rfl⟩
  | some above =>
    cases ho : obstacle? above side with
    | none => exact .inl ⟨above, rfl, ho, by simp only [ho]⟩
    | some e => exact .inr ⟨e, by simp only [ho]⟩

/-- A change closes a node, adds one at a free slot, or does nothing. -/
theorem edit_cases (t : Tableau) (e : Edit) :
    (∃ key, t.edit e = t.close key) ∨
    (∃ p above f source side, t.node? p = some above ∧ obstacle? above side = none ∧
      t.edit e = t.extend p above f source side) ∨
    t.edit e = t := by
  cases e with
  | closing key => exact .inl ⟨key, rfl⟩
  | child p f source side =>
    rcases t.addChild_cases p f source side with ⟨above, hp, ho, hadd⟩ | ⟨e, hadd⟩
    · exact .inr (.inl ⟨p, above, f, source, side, hp, ho, by simp only [edit, hadd]⟩)
    · exact .inr (.inr (by simp only [edit, hadd]))

theorem IsTree.edit (ht : t.IsTree) (e : Edit) : (t.edit e).IsTree := by
  rcases t.edit_cases e with ⟨key, h⟩ | ⟨p, above, f, source, side, hp, ho, h⟩ | h
  · rw [h]
    exact ht.modify fun _ => rfl
  · rw [h]
    exact ht.extend hp ho
  · rwa [h]

theorem Numbered.edit (hnum : t.Numbered) (e : Edit) : (t.edit e).Numbered := by
  obtain ⟨hnext, hid⟩ := hnum
  rcases t.edit_cases e with ⟨key, h⟩ | ⟨p, above, f, source, side, hp, -, h⟩ | h
  · rw [h]
    refine ⟨hnext.trans (size_modify _).symm, fun k n hn => ?_⟩
    obtain ⟨m, hm, rfl⟩ := node?_modify_eq_some.1 hn
    rw [← hid k m hm]
    split <;> rfl
  · rw [h]
    refine ⟨by rw [size_extend, ← hnext]; rfl, fun k n hn => ?_⟩
    rcases (node?_extend_eq_some hp).1 hn with ⟨rfl, rfl⟩ | ⟨rfl, rfl⟩ | ⟨-, hold⟩
    · exact hnext
    · rw [← hid k above hp]
      cases side <;> rfl
    · exact hid k n hold
  · rw [h]
    exact ⟨hnext, hid⟩

theorem isTree_edits (ht : t.IsTree) (es : List Edit) : (t.edits es).IsTree := by
  induction es generalizing t with
  | nil => exact ht
  | cons e es ih => exact ih (ht.edit e)

theorem numbered_edits (hnum : t.Numbered) (es : List Edit) : (t.edits es).Numbered := by
  induction es generalizing t with
  | nil => exact hnum
  | cons e es ih => exact ih (hnum.edit e)

theorem numbered_start (f : Formula) : (start f).Numbered := by
  refine ⟨rfl, fun k n hn => ?_⟩
  obtain ⟨rfl, rfl⟩ := node?_start hn
  rfl

/-! ## Preorder -/

theorem preorder_of_none {k : Nat} (h : t.node? k = none) (d : Nat) : t.preorder k d = [] := by
  rw [preorder]
  split
  · rfl
  · next hn => rw [h] at hn; simp at hn

theorem preorder_of_node? {k : Nat} {n : Node} (hn : t.node? k = some n) (d : Nat) :
    t.preorder k d = (k, d) :: n.children.flatMap fun c => t.preorder c (d + 1) := by
  rw [preorder, Node.children]
  split
  · next hn' => rw [hn] at hn'; simp at hn'
  · next m hm =>
    obtain rfl : n = m := Option.some.inj (hn.symm.trans hm)
    split <;> simp_all

/-- The leaves below a node are those of its preorder. -/
theorem leavesBelow_eq_filter (k d : Nat) :
    t.leavesBelow k =
      ((t.preorder k d).map Prod.fst).filter fun j => (t.node? j).any (·.isLeaf) := by
  induction k using Tableau.ascent t generalizing d with
  | _ k ih =>
    cases hn : t.node? k with
    | none =>
      rw [leavesBelow_of_none hn, preorder_of_none hn]
      rfl
    | some n =>
      rw [preorder_of_node? hn, List.map_cons]
      by_cases hleaf : n.isLeaf
      · rw [leavesBelow_of_isLeaf hn hleaf, isLeaf_iff.1 hleaf, List.filter_cons_of_pos]
        · rfl
        · rw [hn]
          exact hleaf
      · rw [leavesBelow_of_not_isLeaf hn hleaf, List.filter_cons_of_neg, List.map_flatMap,
          List.filter_flatMap]
        · exact List.flatMap_congr fun c hc => ih n c hn hc (d + 1)
        · rw [hn]
          exact hleaf

/-- Whether `j` is the key of a leaf with `k` on its branch. -/
def isLeafBelow (t : Tableau) (k j : Nat) : Bool :=
  (t.node? j).any (·.isLeaf) && decide (k ∈ t.branch j)

theorem isLeafBelow_iff {k j : Nat} : t.isLeafBelow k j ↔ t.IsLeaf j ∧ k ∈ t.branch j := by
  simp [isLeafBelow, IsLeaf, Option.any_eq_true]

/-- Whether the walk comes to `j`, and then to `k`. -/
def Precedes (t : Tableau) (j k : Nat) : Prop := List.Sublist [j, k] (t.walk.map Visit.key)

namespace IsTree

variable (ht : t.IsTree)

include ht

/-- The preorder of a node holds what has the node on its branch, as deep below the node as it
comes after it on the branch. -/
theorem mem_preorder {j e k d : Nat} : (j, e) ∈ t.preorder k d ↔
    k ∈ t.branch j ∧ (t.branch j).length + d = (t.branch k).length + e := by
  induction k using Tableau.ascent t generalizing d with
  | _ k ih =>
    cases hn : t.node? k with
    | none =>
      rw [preorder_of_none hn]
      exact iff_of_false List.not_mem_nil fun h => ht.not_mem_branch_of_none hn j h.1
    | some n =>
      rw [preorder_of_node? hn, List.mem_cons, List.mem_flatMap]
      have hlength : ∀ c ∈ n.children, (t.branch c).length = (t.branch k).length + 1 := by
        intro c hc
        rw [ht.child k n hn c hc, List.length_cons]
      constructor
      · rintro (h | ⟨c, hc, h⟩)
        · obtain ⟨rfl, rfl⟩ := Prod.mk.inj h
          exact ⟨mem_branch_self (lt_size_of_node? hn), rfl⟩
        · obtain ⟨hcj, hdepth⟩ := (ih n c hn hc).1 h
          have := hlength c hc
          exact ⟨ht.mem_branch_trans (ht.mem_branch_child hn hc) hcj, by omega⟩
      · rintro ⟨hkj, hdepth⟩
        by_cases hne : k = j
        · subst hne
          obtain rfl : d = e := by omega
          exact .inl rfl
        · obtain ⟨m, c, hm, hc, hcj⟩ := ht.exists_child_of_mem_branch hkj hne
          obtain rfl : n = m := Option.some.inj (hn.symm.trans hm)
          have := hlength c hc
          exact .inr ⟨c, hc, (ih n c hn hc).2 ⟨hcj, by omega⟩⟩

theorem mem_map_preorder {j k d : Nat} :
    j ∈ (t.preorder k d).map Prod.fst ↔ k ∈ t.branch j := by
  constructor
  · intro h
    obtain ⟨⟨i, e⟩, hmem, rfl⟩ := List.mem_map.1 h
    exact (ht.mem_preorder.1 hmem).1
  · intro h
    have := (ht.suffix_of_mem_branch h).length_le
    refine List.mem_map.2 ⟨(j, (t.branch j).length + d - (t.branch k).length), ?_, rfl⟩
    exact ht.mem_preorder.2 ⟨h, by omega⟩

theorem nodup_preorder (k d : Nat) : ((t.preorder k d).map Prod.fst).Nodup := by
  induction k using Tableau.ascent t generalizing d with
  | _ k ih =>
    cases hn : t.node? k with
    | none =>
      rw [preorder_of_none hn]
      exact List.nodup_nil
    | some n =>
      rw [preorder_of_node? hn, List.map_cons, List.map_flatMap]
      refine List.nodup_cons.2 ⟨fun h => ?_, List.pairwise_flatMap.2 ⟨?_, ?_⟩⟩
      · obtain ⟨c, hc, hk⟩ := List.mem_flatMap.1 h
        have hle := ht.le_of_mem_branch (ht.mem_map_preorder.1 hk)
        have hlt := (t.descends k n hn c hc).1
        omega
      · exact fun c hc => ih n c hn hc (d + 1)
      · refine (ht.distinct k n hn).imp_of_mem fun hb hc hne => ?_
        rintro j hjb _ hjc rfl
        exact hne (ht.child_unique hn hb hc (ht.mem_map_preorder.1 hjb)
          (ht.mem_map_preorder.1 hjc))

/-- The preorder of a node is one block in that of any node above it. -/
theorem preorder_infix {j k : Nat} (h : k ∈ t.branch j) (d : Nat) :
    ∃ e, t.preorder j e <:+: t.preorder k d := by
  induction k using Tableau.ascent t generalizing d with
  | _ k ih =>
    by_cases hne : k = j
    · subst hne
      exact ⟨d, List.infix_refl _⟩
    · obtain ⟨n, c, hn, hc, hcj⟩ := ht.exists_child_of_mem_branch h hne
      obtain ⟨e, he⟩ := ih n c hn hc hcj (d + 1)
      have hblock : t.preorder c (d + 1) <:+: n.children.flatMap (t.preorder · (d + 1)) :=
        List.infix_of_mem_flatten (List.mem_map.2 ⟨c, hc, rfl⟩)
      rw [preorder_of_node? hn]
      exact ⟨e, he.trans (hblock.trans (List.suffix_cons _ _).isInfix)⟩

/-! ## The walk -/

theorem map_key_walk : t.walk.map Visit.key = (t.preorder Tableau.root 0).map Prod.fst := by
  rw [walk, List.map_filterMap, ← List.filterMap_eq_map]
  refine List.filterMap_congr ?_
  rintro ⟨k, d⟩ hmem
  obtain ⟨n, hn⟩ := node?_eq_some_of_lt (lt_size_of_mem_branch (ht.mem_preorder.1 hmem).1)
  simp [hn]

theorem mem_map_key_walk {k : Nat} : k ∈ t.walk.map Visit.key ↔ k < t.size := by
  rw [ht.map_key_walk, ht.mem_map_preorder]
  exact ⟨lt_size_of_mem_branch, ht.root_mem_branch⟩

theorem nodup_walk : (t.walk.map Visit.key).Nodup := by
  rw [ht.map_key_walk]
  exact ht.nodup_preorder Tableau.root 0

theorem walk_perm : (t.walk.map Visit.key).Perm (List.range t.size) := by
  rw [List.perm_ext_iff_of_nodup ht.nodup_walk List.nodup_range]
  intro k
  rw [ht.mem_map_key_walk, List.mem_range]

/-- What the walk says of a node is so: it has as many nodes above it as it is deep, and it is
closed when the leaves below it are. -/
theorem of_mem_walk {v : Visit} (h : v ∈ t.walk) :
    t.node? v.key = some v.node ∧ (t.branch v.key).length = v.depth + 1 ∧
      v.closed = t.allClosedBelow v.key := by
  obtain ⟨⟨k, d⟩, hmem, hv⟩ := List.mem_filterMap.1 h
  obtain ⟨n, hn, rfl⟩ := Option.map_eq_some_iff.1 hv
  have hdepth := (ht.mem_preorder.1 hmem).2
  rw [ht.root, List.length_singleton] at hdepth
  refine ⟨hn, by simpa [Nat.add_comm] using hdepth, ?_⟩
  show (if n.isLeaf then n.closed else t.allClosedBelow k) = t.allClosedBelow k
  split
  · next hleaf =>
    rw [allClosedBelow_eq, leavesBelow_of_isLeaf hn hleaf, List.all_cons, List.all_nil,
      Bool.and_true, isClosed, hn, Option.any_some]
  · rfl

/-- The preorder of every node is one block of the walk. -/
theorem preorder_infix_walk {k : Nat} (hk : k < t.size) :
    ∃ e, (t.preorder k e).map Prod.fst <:+: t.walk.map Visit.key := by
  obtain ⟨e, he⟩ := ht.preorder_infix (ht.root_mem_branch hk) 0
  rw [ht.map_key_walk]
  exact ⟨e, he.map _⟩

/-- The walk comes to a node after all nodes above it. -/
theorem ancestor_first {j k : Nat} (h : j ∈ t.branch k) (hne : j ≠ k) :
    t.Precedes j k := by
  obtain ⟨n, c, hn, hc, hck⟩ := ht.exists_child_of_mem_branch h hne
  obtain ⟨e, he⟩ := ht.preorder_infix_walk (lt_size_of_node? hn)
  rw [preorder_of_node? hn, List.map_cons, List.map_flatMap] at he
  refine List.Sublist.trans (List.Sublist.cons_cons j ?_) he.sublist
  exact List.singleton_sublist.2 (List.mem_flatMap.2 ⟨c, hc, ht.mem_map_preorder.2 hck⟩)

/-- The walk comes to all below the left child of a node before it comes to the right child. -/
theorem left_first {p l r j k : Nat} {n : Node} (hn : t.node? p = some n) (hl : n.left = some l)
    (hr : n.right = some r) (hj : l ∈ t.branch j) (hk : r ∈ t.branch k) :
    t.Precedes j k := by
  obtain ⟨e, he⟩ := ht.preorder_infix_walk (lt_size_of_node? hn)
  have hchildren : n.children = [l, r] := by simp [Node.children, hl, hr]
  rw [preorder_of_node? hn, hchildren, List.flatMap_cons, List.flatMap_singleton, List.map_cons,
    List.map_append] at he
  refine List.Sublist.trans (List.Sublist.cons p ?_) he.sublist
  exact (List.singleton_sublist.2 (ht.mem_map_preorder.2 hj)).append
    (List.singleton_sublist.2 (ht.mem_map_preorder.2 hk))

theorem leavesBelow_sublist_walk (k : Nat) :
    (t.leavesBelow k).Sublist (t.walk.map Visit.key) := by
  cases hn : t.node? k with
  | none =>
    rw [leavesBelow_of_none hn]
    exact List.nil_sublist _
  | some n =>
    obtain ⟨e, he⟩ := ht.preorder_infix_walk (lt_size_of_node? hn)
    rw [leavesBelow_eq_filter k e]
    exact List.filter_sublist.trans he.sublist

/-- The leaves below a node come in the order of the walk. Both sides hold the same keys, each once,
and in the order of the walk, so they are equal. -/
theorem leavesBelow_eq_walk (k : Nat) :
    t.leavesBelow k = (t.walk.map Visit.key).filter (t.isLeafBelow k) := by
  have hleaves : ∀ j ∈ t.leavesBelow k, t.isLeafBelow k j :=
    fun j hj => isLeafBelow_iff.2 (ht.mem_leavesBelow.1 hj)
  have hsub := (ht.leavesBelow_sublist_walk k).filter (t.isLeafBelow k)
  rw [List.filter_eq_self.2 hleaves] at hsub
  refine hsub.eq_of_length (List.Perm.length_eq ?_)
  rw [List.perm_ext_iff_of_nodup (ht.nodup_leavesBelow k) (ht.nodup_walk.filter _)]
  intro j
  rw [ht.mem_leavesBelow, List.mem_filter, isLeafBelow_iff, ht.mem_map_key_walk]
  exact ⟨fun h => ⟨h.1.lt_size, h⟩, fun h => h.2⟩

/-! ## Closed leaves -/

theorem hasAllClosed_eq : t.hasAllClosed = t.allClosedBelow Tableau.root := by
  rw [Bool.eq_iff_iff, ht.hasAllClosed_iff, allClosedBelow_eq, List.all_eq_true]
  refine forall_congr' fun k => ?_
  rw [ht.mem_leavesBelow]
  exact ⟨fun h hk => h hk.1, fun h hk => h ⟨hk, ht.root_mem_branch hk.lt_size⟩⟩

theorem hasSomeClosed_eq : t.hasSomeClosed = (t.leavesBelow Tableau.root).any t.isClosed := by
  rw [Bool.eq_iff_iff, ht.hasSomeClosed_iff, List.any_eq_true]
  refine exists_congr fun k => ?_
  rw [ht.mem_leavesBelow]
  exact ⟨fun h => ⟨⟨h.1, ht.root_mem_branch h.1.lt_size⟩, h.2⟩, fun h => ⟨h.1.1, h.2⟩⟩

/-- The walk begins at the root. -/
theorem exists_walk_eq_cons : ∃ v rest, t.walk = v :: rest ∧ v.key = Tableau.root := by
  obtain ⟨n, hn⟩ := node?_eq_some_of_lt ht.size_pos
  have hkeys := ht.map_key_walk
  rw [preorder_of_node? hn, List.map_cons] at hkeys
  obtain ⟨v, rest, hwalk, hkey, -⟩ := List.map_eq_cons_iff.1 hkeys
  exact ⟨v, rest, hwalk, hkey⟩

theorem closed_head_walk : t.walk.head?.map Visit.closed = some t.hasAllClosed := by
  obtain ⟨v, rest, hwalk, hkey⟩ := ht.exists_walk_eq_cons
  have hv : v ∈ t.walk := hwalk ▸ List.mem_cons_self
  rw [hwalk, List.head?_cons, Option.map_some, (ht.of_mem_walk hv).2.2, hkey, ht.hasAllClosed_eq]

/-! ## Links up -/

/-- The parent of a node is what it is a child of. -/
theorem parent_eq_some_iff {k p : Nat} {n : Node} (hn : t.node? k = some n) :
    n.parent = some p ↔ ∃ m, t.node? p = some m ∧ k ∈ m.children := by
  have hbranch := branch_of_node? hn
  constructor
  · intro hp
    obtain ⟨rest, hrest⟩ := List.head?_eq_some_iff.1 hp
    have hk : k ≠ Tableau.root := by
      rintro rfl
      rw [ht.root, hrest] at hbranch
      simp at hbranch
    obtain ⟨q, m, hm, hc, hb⟩ := ht.parent k (lt_size_of_node? hn) hk
    rw [hbranch, hrest, branch_of_node? hm] at hb
    obtain rfl : p = q := by simpa using And.left (List.cons.inj (List.cons.inj hb).2)
    exact ⟨m, hm, hc⟩
  · rintro ⟨m, hm, hc⟩
    have hb := ht.child p m hm k hc
    rw [hbranch, branch_of_node? hm] at hb
    rw [Node.parent, (List.cons.inj hb).2, List.head?_cons]

/-- The branch of a node follows the links up. -/
theorem branch_eq {k : Nat} {n : Node} (hn : t.node? k = some n) :
    t.branch k = k :: n.parent.elim [] t.branch := by
  cases hp : n.parent with
  | none =>
    rw [branch_of_node? hn, List.head?_eq_none_iff.1 hp]
    rfl
  | some p =>
    obtain ⟨m, hm, hc⟩ := (ht.parent_eq_some_iff hn).1 hp
    exact ht.child p m hm k hc

end IsTree

/-! ## Agreement -/

/-- Whether the links make a tree and all ways through it agree. -/
structure Navigable (t : Tableau) : Prop where
  numbered : t.Numbered
  tree : t.IsTree
  /-- Links up and down are the same links. -/
  parent : ∀ k n p, t.node? k = some n →
    (n.parent = some p ↔ ∃ m, t.node? p = some m ∧ k ∈ m.children)
  branch : ∀ k n, t.node? k = some n → t.branch k = k :: n.parent.elim [] t.branch
  /-- The walk comes to every node, once. -/
  once : (t.walk.map Visit.key).Perm (List.range t.size)
  visit : ∀ v ∈ t.walk, t.node? v.key = some v.node ∧ (t.branch v.key).length = v.depth + 1 ∧
    v.closed = t.allClosedBelow v.key
  parentFirst : ∀ j k, j ∈ t.branch k → j ≠ k → t.Precedes j k
  leftFirst : ∀ p n l r, t.node? p = some n → n.left = some l → n.right = some r →
    ∀ j k, l ∈ t.branch j → r ∈ t.branch k → t.Precedes j k
  leaves : ∀ k, t.leavesBelow k = (t.walk.map Visit.key).filter (t.isLeafBelow k)
  allClosed : t.hasAllClosed = t.allClosedBelow root
  allClosedWalk : t.walk.head?.map Visit.closed = some t.hasAllClosed
  someClosed : t.hasSomeClosed = (t.leavesBelow root).any t.isClosed

theorem IsTree.navigable (ht : t.IsTree) (hnum : t.Numbered) : t.Navigable where
  numbered := hnum
  tree := ht
  parent := fun _ _ _ hn => ht.parent_eq_some_iff hn
  branch := fun _ _ hn => ht.branch_eq hn
  once := ht.walk_perm
  visit := fun _ hv => ht.of_mem_walk hv
  parentFirst := fun _ _ h hne => ht.ancestor_first h hne
  leftFirst := fun _ _ _ _ hn hl hr _ _ hj hk => ht.left_first hn hl hr hj hk
  leaves := ht.leavesBelow_eq_walk
  allClosed := ht.hasAllClosed_eq
  allClosedWalk := ht.closed_head_walk
  someClosed := ht.hasSomeClosed_eq

/-- A child that cannot be added leaves the expansion as it was. -/
theorem eq_of_addChild_error {s s' : Expansion} {parent source : Nat} {g : Formula} {side : Side}
    {e : TableauError} (h : Expand.addChild parent g source side s = .error e s') :
    s.tableau.addChild parent g (some source) side = .error e ∧ s' = s := by
  unfold Expand.addChild at h
  split at h
  · next hhost =>
    obtain ⟨rfl, rfl⟩ := EStateM.Result.error.inj h
    exact ⟨by rw [addChild, hhost], rfl⟩
  · simp at h

/-- Whatever children were asked for and whatever nodes were closed, the tableau is a tree through
which all ways agree, and asking for a child that cannot be added changes nothing. -/
theorem navigable_edits (f : Formula) (es : List Edit) :
    ((start f).edits es).Navigable ∧
      ∀ (s s' : Expansion) (parent source : Nat) (g : Formula) (side : Side) (e : TableauError),
        s.tableau = (start f).edits es → Expand.addChild parent g source side s = .error e s' →
        s.tableau.addChild parent g (some source) side = .error e ∧ s' = s := by
  refine ⟨?_, fun s s' parent source g side e _ h => eq_of_addChild_error h⟩
  have ht := isTree_edits (isTree_start f) es
  exact ht.navigable (numbered_edits (numbered_start f) es)

/-- Of the children asked for, one has no parent and one no room. The node 1 has a right child and
no left one, and the child on the left of the root is the last but one to be added. -/
theorem navigable_edits_right_only :
    let t := (start (.atom 'A')).edits
      [.child 0 (.atom 'B') none .right, .child 0 (.atom 'C') none .center,
        .child 7 (.atom 'C') none .left, .child 0 (.atom 'D') (some 1) .left,
        .child 1 (.atom 'E') none .right, .closing 3]
    t.Navigable ∧ t.walk.map (fun v => (v.key, v.depth)) = [(0, 0), (2, 1), (1, 1), (3, 2)] ∧
      t.leavesBelow root = [2, 3] ∧ t.hasAllClosed = false ∧ t.hasSomeClosed = true ∧
      t.addChild 0 (.atom 'C') (some 1) .center = .error .centerAfterRight := by
  intro t
  have h := navigable_edits (.atom 'A') [.child 0 (.atom 'B') none .right,
    .child 0 (.atom 'C') none .center, .child 7 (.atom 'C') none .left,
    .child 0 (.atom 'D') (some 1) .left, .child 1 (.atom 'E') none .right, .closing 3]
  refine ⟨h.1, by decide +kernel, by decide +kernel, by decide +kernel, by decide +kernel, ?_⟩
  exact (h.2 (.start t true) (.start t true) 0 1 (.atom 'C') .center .centerAfterRight rfl rfl).1

end Sequitur.Tableau
