import Sequitur.Proofs.Tableau.Path
import Sequitur.Proofs.Tableau.Tree

/-!
# How a tableau grows

A rule adds nodes below some leaves and leaves the rest of the tableau as it is (`Tableau.Extends`).
The leaves after such a step are the leaves found below those before it (`Extends.leavesBelow`), and
every other leaf ends the branch it ended (`Extends.path_of_not_mem`). The nodes that wait stay in the
order of their precedence and, among equals, of their age (`Expansion.Ordered`).
-/

namespace Sequitur

theorem Keyed.of_formula (k : Keyed) : Keyed.of k.formula = k := by
  obtain ⟨f, form, commutedForm, rfl, rfl⟩ := k
  rfl

namespace Node

/-- Whether a node has kept its number, its formula, its place, its origin and its mark. -/
structure Stays (n n' : Node) : Prop where
  id : n'.id = n.id
  content : n'.content = n.content
  ancestors : n'.ancestors = n.ancestors
  source : n'.source = n.source
  closed : n'.closed = n.closed

/-- Whether a node has kept its children and its constants. -/
structure Rests (n n' : Node) : Prop where
  left : n'.left = n.left
  right : n'.right = n.right
  constants : n'.constants = n.constants

variable {n n' n'' : Node}

theorem Stays.refl (n : Node) : n.Stays n := ⟨rfl, rfl, rfl, rfl, rfl⟩

theorem Stays.trans (h : n.Stays n') (h' : n'.Stays n'') : n.Stays n'' where
  id := h'.id.trans h.id
  content := h'.content.trans h.content
  ancestors := h'.ancestors.trans h.ancestors
  source := h'.source.trans h.source
  closed := h'.closed.trans h.closed

theorem Stays.formula (h : n.Stays n') : n'.formula = n.formula :=
  congrArg Keyed.formula h.content

theorem Rests.refl (n : Node) : n.Rests n := ⟨rfl, rfl, rfl⟩

theorem Rests.trans (h : n.Rests n') (h' : n'.Rests n'') : n.Rests n'' :=
  ⟨h'.left.trans h.left, h'.right.trans h.right, h'.constants.trans h.constants⟩

theorem Rests.children (h : n.Rests n') : n'.children = n.children := by
  rw [Node.children, Node.children, h.left, h.right]

end Node

namespace Tableau

variable {t t' t'' : Tableau} {L M : List Nat} {k l : Nat}

/-- What stands on the branch of a node. -/
def path (t : Tableau) (key : Nat) : Path where
  formulas := (t.branchNodes key).map (·.2.formula)
  constants := (t.node? key).elim ∅ (·.constants)

/-- Whether the nodes that end a contradictory branch are those marked as closed. -/
def Marked (t : Tableau) : Prop :=
  ∀ k n, t.node? k = some n → n.closed = (t.path k).isClosed

/-- Whether the leaves that end a contradictory branch are those marked as closed. -/
def LeavesMarked (t : Tableau) : Prop :=
  ∀ k n, t.node? k = some n → n.isLeaf → n.closed = (t.path k).isClosed

theorem branchIsContradictory_eq (t : Tableau) (key : Nat) :
    t.branchIsContradictory key = (t.path key).isClosed := by
  rw [branchIsContradictory, Path.isClosed, path, List.map_map]
  refine congrArg contradictory (List.map_congr_left fun n _ => ?_)
  exact (Keyed.of_formula _).symm

theorem branchContains_eq (t : Tableau) (key : Nat) (f : Formula) :
    t.branchContains key f = (t.path key).contains f := by
  rw [branchContains, Path.contains, path, List.any_map]
  refine congrArg (List.any _) (funext fun n => ?_)
  exact Keyed.reads_canonical _ _

/-- The formulas of a branch, each with the key of its node. -/
def entries (t : Tableau) (key : Nat) : List (Nat × Formula) :=
  (t.branch key).filterMap fun k => (t.node? k).map fun n => (k, n.formula)

theorem mem_entries {t : Tableau} {key k : Nat} {f : Formula} :
    (k, f) ∈ t.entries key ↔ k ∈ t.branch key ∧ ∃ n, t.node? k = some n ∧ n.formula = f := by
  rw [entries, List.mem_filterMap]
  constructor
  · rintro ⟨j, hj, he⟩
    obtain ⟨n, hn, hf⟩ := Option.map_eq_some_iff.1 he
    cases hf
    exact ⟨hj, n, hn, rfl⟩
  · rintro ⟨hk, n, hn, rfl⟩
    exact ⟨k, hk, by rw [hn, Option.map_some]⟩

theorem formulas_path (t : Tableau) (key : Nat) :
    (t.path key).formulas = (t.entries key).map (·.2) := by
  simp [path, branchNodes, entries, List.map_filterMap, Function.comp_def]

theorem closableOn_eq (t : Tableau) (key leaf : Nat) :
    Expand.closableOn t key leaf =
      ((t.entries leaf).filter fun e => e.1 != key && e.2.isClosable).map (·.2) := by
  have h : t.entries leaf = (t.branchNodes leaf).map fun e => (e.1, e.2.formula) := by
    simp [branchNodes, entries, List.map_filterMap, Function.comp_def]
  rw [h, List.filter_map, List.map_map]
  rfl

theorem path_of_node? {n : Node} (h : t.node? k = some n) :
    (t.path k).constants = n.constants := by
  rw [path, h]
  rfl

theorem path_formulas_cons {p : Nat} {n : Node} (hn : t.node? k = some n)
    (hb : t.branch k = k :: t.branch p) :
    (t.path k).formulas = n.formula :: (t.path p).formulas := by
  simp [path, branchNodes, hb, hn]

/-! ## Growth below some leaves -/

/-- Whether `t'` comes from `t` by changes below the nodes `L` and no others. -/
structure Extends (t t' : Tableau) (L : List Nat) : Prop where
  tree : t'.IsTree
  kept : ∀ k n, t.node? k = some n →
    ∃ n', t'.node? k = some n' ∧ n.Stays n' ∧ (k ∉ L → n.Rests n')

namespace Extends

theorem refl (ht : t.IsTree) (L : List Nat) : Extends t t L :=
  ⟨ht, fun _ n hn => ⟨n, hn, .refl n, fun _ => .refl n⟩⟩

theorem lt_size (h : Extends t t' L) (hk : k < t.size) : k < t'.size := by
  obtain ⟨n, hn⟩ := node?_eq_some_of_lt hk
  obtain ⟨n', hn', -⟩ := h.kept k n hn
  exact lt_size_of_node? hn'

/-- Of what the second step changes only the old nodes matter. -/
theorem trans (h : Extends t t' L) (h' : Extends t' t'' M)
    (hM : ∀ k ∈ M, k < t.size → k ∈ L) : Extends t t'' L := by
  refine ⟨h'.tree, fun k n hn => ?_⟩
  obtain ⟨n', hn', hstays, hrests⟩ := h.kept k n hn
  obtain ⟨n'', hn'', hstays', hrests'⟩ := h'.kept k n' hn'
  refine ⟨n'', hn'', hstays.trans hstays', fun hk => (hrests hk).trans (hrests' fun hmem => ?_)⟩
  exact hk (hM k hmem (lt_size_of_node? hn))

theorem mono (h : Extends t t' L) (hLM : ∀ k ∈ L, k ∈ M) : Extends t t' M := by
  refine ⟨h.tree, fun k n hn => ?_⟩
  obtain ⟨n', hn', hstays, hrests⟩ := h.kept k n hn
  exact ⟨n', hn', hstays, fun hk => hrests fun hL => hk (hLM k hL)⟩

theorem branch (h : Extends t t' L) (hk : k < t.size) : t'.branch k = t.branch k := by
  obtain ⟨n, hn⟩ := node?_eq_some_of_lt hk
  obtain ⟨n', hn', hstays, -⟩ := h.kept k n hn
  rw [branch_of_node? hn, branch_of_node? hn', hstays.ancestors]

theorem formula_eq (h : Extends t t' L) {n n' : Node} (hn : t.node? k = some n)
    (hn' : t'.node? k = some n') : n'.formula = n.formula := by
  obtain ⟨m, hm, hstays, -⟩ := h.kept k n hn
  rw [hn', Option.some.injEq] at hm
  rw [hm, Node.formula, Node.formula, hstays.content]

theorem entries (h : Extends t t' L) (ht : t.IsTree) (hk : k < t.size) :
    t'.entries k = t.entries k := by
  rw [Tableau.entries, Tableau.entries, h.branch hk]
  refine List.filterMap_congr fun j hj => ?_
  obtain ⟨n, hn⟩ := node?_eq_some_of_lt (Nat.lt_of_le_of_lt (ht.le_of_mem_branch hj) hk)
  obtain ⟨n', hn', hstays, -⟩ := h.kept j n hn
  rw [hn, hn', Option.map_some, Option.map_some, Node.formula, Node.formula, hstays.content]

theorem formulas (h : Extends t t' L) (ht : t.IsTree) (hk : k < t.size) :
    (t'.path k).formulas = (t.path k).formulas := by
  rw [formulas_path, formulas_path, h.entries ht hk]

theorem closableOn (h : Extends t t' L) (ht : t.IsTree) (hk : k < t.size) (key : Nat) :
    Expand.closableOn t' key k = Expand.closableOn t key k := by
  rw [closableOn_eq, closableOn_eq, h.entries ht hk]

theorem isClosed (h : Extends t t' L) (ht : t.IsTree) (hk : k < t.size) :
    (t'.path k).isClosed = (t.path k).isClosed := by
  rw [Path.isClosed, Path.isClosed, h.formulas ht hk]

theorem path_of_not_mem (h : Extends t t' L) (ht : t.IsTree) (hk : k < t.size) (hL : k ∉ L) :
    t'.path k = t.path k := by
  obtain ⟨n, hn⟩ := node?_eq_some_of_lt hk
  obtain ⟨n', hn', -, hrests⟩ := h.kept k n hn
  refine Path.ext (h.formulas ht hk) ?_
  rw [path_of_node? hn, path_of_node? hn', (hrests hL).constants]

theorem isLeaf_of_not_mem (h : Extends t t' L) (hk : t.IsLeaf k) (hL : k ∉ L) : t'.IsLeaf k := by
  obtain ⟨n, hn, hleaf⟩ := hk
  obtain ⟨n', hn', -, hrests⟩ := h.kept k n hn
  rw [isLeaf_iff] at hleaf
  exact ⟨n', hn', isLeaf_iff.2 ((hrests hL).children.trans hleaf)⟩

theorem leavesBelow_of_not_mem (h : Extends t t' L) (hk : t.IsLeaf k) (hL : k ∉ L) :
    t'.leavesBelow k = [k] := by
  obtain ⟨n, hn, hleaf⟩ := h.isLeaf_of_not_mem hk hL
  exact leavesBelow_of_isLeaf hn hleaf

/-- The leaves below a node are found below the leaves that were there, if nothing else below the node
has grown. -/
theorem leavesBelow (h : Extends t t' L) (ht : t.IsTree) (hk : k < t.size)
    (hL : ∀ l ∈ L, k ∈ t.branch l → t.IsLeaf l) :
    t'.leavesBelow k = (t.leavesBelow k).flatMap t'.leavesBelow := by
  induction k using Tableau.ascent t with
  | _ k ih =>
    obtain ⟨n, hn⟩ := node?_eq_some_of_lt hk
    obtain ⟨n', hn', -, hrests⟩ := h.kept k n hn
    by_cases hleaf : n.isLeaf
    · rw [leavesBelow_of_isLeaf hn hleaf, List.flatMap_singleton]
    · have hkL : k ∉ L := by
        intro hmem
        obtain ⟨m, hm, hmleaf⟩ := hL k hmem (mem_branch_self hk)
        rw [hn, Option.some.injEq] at hm
        exact hleaf (hm ▸ hmleaf)
      have hchildren := (hrests hkL).children
      have hleaf' : ¬n'.isLeaf := by rwa [isLeaf_iff, hchildren, ← isLeaf_iff]
      rw [leavesBelow_of_not_isLeaf hn hleaf, leavesBelow_of_not_isLeaf hn' hleaf', hchildren,
        List.flatMap_assoc]
      refine List.flatMap_congr fun c hc => ih n c hn hc (t.descends k n hn c hc).2 ?_
      exact fun l hl hcl => hL l hl (ht.mem_branch_trans (ht.mem_branch_child hn hc) hcl)

/-- Nothing changes below a node if no leaf below it grows. -/
theorem leavesBelow_eq (h : Extends t t' L) (ht : t.IsTree) (hk : k < t.size)
    (hL : ∀ l ∈ L, t.IsLeaf l) (hout : ∀ l ∈ t.leavesBelow k, l ∉ L) :
    t'.leavesBelow k = t.leavesBelow k := by
  rw [h.leavesBelow ht hk fun l hl _ => hL l hl]
  calc (t.leavesBelow k).flatMap t'.leavesBelow = (t.leavesBelow k).flatMap fun l => [l] := by
        refine List.flatMap_congr fun l hl => ?_
        exact h.leavesBelow_of_not_mem (ht.mem_leavesBelow.1 hl).1 (hout l hl)
    _ = t.leavesBelow k := List.flatMap_pure_eq_map id _ |>.trans (List.map_id _)

/-- The nodes of a branch below an old leaf are new. -/
theorem mem_branch_or_le (h : Extends t t' L) (ht : t.IsTree) {j : Nat} (hl : t.IsLeaf l)
    (hk : l ∈ t'.branch k) (hj : j ∈ t'.branch k) : j ∈ t.branch l ∨ t.size ≤ j := by
  by_contra hne
  obtain ⟨hjl, hlt⟩ : j ∉ t.branch l ∧ j < t.size := by simpa using hne
  rcases h.tree.mem_branch_or_mem_branch hk hj with hlj | hjl'
  · rw [h.branch hlt] at hlj
    obtain rfl := ht.eq_of_mem_branch_leaf hl hlj
    exact hjl (mem_branch_self hlt)
  · rw [h.branch hl.lt_size] at hjl'
    exact hjl hjl'

/-- The entries of a branch below an old leaf are new ones and then those that the leaf had. -/
theorem exists_entries (h : Extends t t' L) (ht : t.IsTree) (hl : t.IsLeaf l)
    (hk : l ∈ t'.branch k) : ∃ new, t'.entries k = new ++ t.entries l := by
  obtain ⟨front, hfront⟩ := h.tree.suffix_of_mem_branch hk
  refine ⟨front.filterMap fun j => (t'.node? j).map fun n => (j, n.formula), ?_⟩
  rw [← h.entries ht hl.lt_size, Tableau.entries, ← hfront, List.filterMap_append, Tableau.entries]

end Extends

/-! ## The numbers of the nodes -/

/-- Whether the numbers of the nodes grow with their creation. -/
structure Dated (t : Tableau) : Prop where
  id_lt : ∀ k n, t.node? k = some n → n.id < t.nextId
  increasing : ∀ j k m n, j < k → t.node? j = some m → t.node? k = some n → m.id < n.id

/-- The numbers still do so if at most one node is added and has the next number. -/
theorem Dated.of_extends (h : t.Dated) (hext : t.Extends t' L) (hid : t.nextId ≤ t'.nextId)
    (hsize : t'.size ≤ t.size + 1)
    (hnew : ∀ n, t'.node? t.size = some n → t.nextId ≤ n.id ∧ n.id < t'.nextId) : t'.Dated := by
  have hcases : ∀ k n, t'.node? k = some n →
      (∃ n₀, t.node? k = some n₀ ∧ n.id = n₀.id) ∨ k = t.size := by
    intro k n hn
    by_cases hk : k < t.size
    · obtain ⟨n₀, hn₀⟩ := node?_eq_some_of_lt hk
      obtain ⟨n', hn', hstays, -⟩ := hext.kept k n₀ hn₀
      obtain rfl : n = n' := Option.some.inj (hn.symm.trans hn')
      exact .inl ⟨n₀, hn₀, hstays.id⟩
    · have hlt := lt_size_of_node? hn
      exact .inr (by omega)
  constructor
  · intro k n hn
    rcases hcases k n hn with ⟨n₀, hn₀, hsame⟩ | rfl
    · rw [hsame]
      exact (h.id_lt k n₀ hn₀).trans_le hid
    · exact (hnew n hn).2
  · intro j k m n hjk hm hn
    rcases hcases j m hm with ⟨m₀, hm₀, hsame⟩ | rfl
    · rw [hsame]
      rcases hcases k n hn with ⟨n₀, hn₀, hsame'⟩ | rfl
      · rw [hsame']
        exact h.increasing j k m₀ n₀ hjk hm₀ hn₀
      · exact (h.id_lt j m₀ hm₀).trans_le (hnew n hn).1
    · have hlt := lt_size_of_node? hn
      omega

theorem dated_start (f : Formula) : (start f).Dated where
  id_lt k n hn := by
    obtain ⟨rfl, rfl⟩ := node?_start hn
    exact Nat.zero_lt_one
  increasing j k m n hjk _ hn := by
    obtain ⟨rfl, -⟩ := node?_start hn
    exact absurd hjk (Nat.not_lt_zero j)

theorem Dated.skipId (h : t.Dated) : t.skipId.Dated :=
  ⟨fun k n hn => Nat.lt_succ_of_lt (h.id_lt k n hn), h.increasing⟩

/-- Whether the rule for a node may have more to add later. -/
def Repeats (t : Tableau) (k : Nat) : Prop := ∃ n, t.node? k = some n ∧ n.isRepeatable

end Tableau

/-! ## Growth of an expansion -/

theorem Agenda.push_perm (e : Entry) (a : Agenda) : (a.push e).Perm (e :: a) := by
  induction a with
  | nil => exact .refl _
  | cons d rest ih =>
    rw [push]
    split
    · exact .refl _
    · exact (ih.cons d).trans (.swap e d rest)

theorem Entry.before_iff {a b : Entry} : a.before b ↔
    a.precedence < b.precedence ∨ a.precedence = b.precedence ∧ a.id < b.id := by
  simp [before]

/-- Whether no entry stands behind one that comes before it. -/
def Agenda.Sorted (a : Agenda) : Prop := a.Pairwise fun d e => ¬e.before d

theorem Agenda.Sorted.push {a : Agenda} (h : a.Sorted) (e : Entry) : (a.push e).Sorted := by
  induction a with
  | nil => exact List.pairwise_singleton _ _
  | cons d rest ih =>
    obtain ⟨hd, hrest⟩ := List.pairwise_cons.1 h
    rw [Agenda.push]
    split
    · next hbefore =>
      refine List.pairwise_cons.2 ⟨fun x hx => ?_, h⟩
      have hxd : ¬x.before d := by
        rcases List.mem_cons.1 hx with rfl | hx
        · rw [Entry.before_iff]
          omega
        · exact hd x hx
      rw [Entry.before_iff] at hbefore hxd ⊢
      omega
    · next hbefore =>
      refine List.pairwise_cons.2 ⟨fun x hx => ?_, ih hrest⟩
      rcases Agenda.mem_push.1 hx with rfl | hx
      · exact hbefore
      · exact hd x hx

/-- Whether an entry puts a node where it belongs. Only a node whose rule may have more to add is ever
put behind the place that its number gives it. -/
structure Entry.Stands (e : Entry) (n : Node) : Prop where
  precedence : e.precedence = n.precedence
  id_le : n.id ≤ e.id
  once : ¬n.isRepeatable → e.id = n.id

theorem Node.Stays.isRepeatable {n n' : Node} (h : n.Stays n') : n'.isRepeatable = n.isRepeatable := by
  rw [Node.isRepeatable, Node.isRepeatable, h.formula]

theorem Tableau.Repeats.of_extends {t t' : Tableau} {L : List Nat} {k : Nat} (h : t.Repeats k)
    (hext : t.Extends t' L) : t'.Repeats k := by
  obtain ⟨n, hn, hrepeats⟩ := h
  obtain ⟨n', hn', hstays, -⟩ := hext.kept k n hn
  exact ⟨n', hn', hstays.isRepeatable.trans hrepeats⟩

theorem Entry.Stands.of_stays {e : Entry} {n n' : Node} (h : e.Stands n) (hn : n.Stays n') :
    e.Stands n' where
  precedence := by rw [h.precedence, Node.precedence, Node.precedence, hn.formula]
  id_le := hn.id ▸ h.id_le
  once := by
    rw [hn.isRepeatable, hn.id]
    exact h.once

namespace Expansion

open Tableau

variable {s s' s'' : Expansion} {L M : List Nat} {n m l tip last last' : Nat} {p q : Path}

/-- The keys of the nodes that wait. -/
def keys (s : Expansion) : List Nat := s.agenda.map (·.key)

/-- Whether the tableau is a tree with the right leaves marked. -/
structure Coherent (s : Expansion) : Prop where
  tree : s.tableau.IsTree
  marked : s.tableau.LeavesMarked

/-- Whether the numbers tell the age of the nodes and those that wait are in order. -/
structure Ordered (s : Expansion) : Prop where
  dated : s.tableau.Dated
  sorted : s.agenda.Sorted
  entry : ∀ e ∈ s.agenda, ∃ n, s.tableau.node? e.key = some n ∧ e.Stands n

theorem Ordered.congr (h : s.Ordered) (ht : s'.tableau = s.tableau) (ha : s'.agenda = s.agenda) :
    s'.Ordered where
  dated := ht ▸ h.dated
  sorted := ha ▸ h.sorted
  entry := by
    rw [ht, ha]
    exact h.entry

theorem Ordered.of_extends (h : s.Ordered) (ha : s'.agenda = s.agenda)
    (hext : s.tableau.Extends s'.tableau L) (hdated : s'.tableau.Dated) : s'.Ordered where
  dated := hdated
  sorted := ha ▸ h.sorted
  entry e he := by
    obtain ⟨n, hn, hstands⟩ := h.entry e (ha ▸ he)
    obtain ⟨n', hn', hstays, -⟩ := hext.kept e.key n hn
    exact ⟨n', hn', hstands.of_stays hstays⟩

theorem Ordered.push (h : s.Ordered) {e : Entry} {n : Node} (hn : s.tableau.node? e.key = some n)
    (he : e.Stands n) : { s with agenda := s.agenda.push e }.Ordered where
  dated := h.dated
  sorted := h.sorted.push e
  entry x hx := by
    rcases Agenda.mem_push.1 hx with rfl | hx
    · exact ⟨n, hn, he⟩
    · exact h.entry x hx

/-- Whether `n` nodes were added below the leaves `L` and put on the agenda, and all else is the
same. -/
structure Grows (s s' : Expansion) (L : List Nat) (n : Nat) : Prop where
  tableau : s.tableau.Extends s'.tableau L
  marked : s'.tableau.LeavesMarked
  size : s'.tableau.size = s.tableau.size + n
  keys : s'.keys.Perm (List.range' s.tableau.size n ++ s.keys)
  ordered : s.Ordered → s'.Ordered
  dormant : s'.dormant = s.dormant
  requeues : s'.requeues = s.requeues

namespace Grows

theorem coherent (h : Grows s s' L n) : s'.Coherent := ⟨h.tableau.tree, h.marked⟩

theorem refl (hs : s.Coherent) (L : List Nat) : Grows s s L 0 :=
  ⟨.refl hs.tree L, hs.marked, rfl, .refl _, id, rfl, rfl⟩

theorem trans (h : Grows s s' L n) (h' : Grows s' s'' M m)
    (hM : ∀ k ∈ M, k < s.tableau.size → k ∈ L) : Grows s s'' L (n + m) where
  tableau := h.tableau.trans h'.tableau hM
  marked := h'.marked
  size := by rw [h'.size, h.size, Nat.add_assoc]
  keys := by
    have hkeys := h'.keys.trans (h.keys.append_left _)
    rw [h.size, ← List.append_assoc] at hkeys
    refine hkeys.trans (.append_right _ ?_)
    rw [← List.range'_append_1]
    exact List.perm_append_comm
  ordered hs := h'.ordered (h.ordered hs)
  dormant := h'.dormant.trans h.dormant
  requeues := h'.requeues.trans h.requeues

theorem mono (h : Grows s s' L n) (hLM : ∀ k ∈ L, k ∈ M) : Grows s s' M n :=
  { h with tableau := h.tableau.mono hLM }

end Grows

/-- Whether the branch of the leaf `tip` now goes on to the leaf `last`, and is then `p`. -/
structure Lengthens (s s' : Expansion) (tip last n : Nat) (p : Path) : Prop
    extends Grows s s' [tip] n where
  below : s'.tableau.leavesBelow tip = [last]
  path : s'.tableau.path last = p

namespace Lengthens

theorem refl (hs : s.Coherent) (hl : s.tableau.IsLeaf l) :
    Lengthens s s l l 0 (s.tableau.path l) where
  toGrows := .refl hs [l]
  below := by
    obtain ⟨n, hn, hleaf⟩ := hl
    exact leavesBelow_of_isLeaf hn hleaf
  path := rfl

theorem isLeaf (h : Lengthens s s' tip last n p) : s'.tableau.IsLeaf last :=
  (h.tableau.tree.mem_leavesBelow.1 (h.below ▸ List.mem_singleton_self last)).1

theorem mem_branch (h : Lengthens s s' tip last n p) (hl : s.tableau.IsLeaf tip) {k : Nat}
    (hk : k ∈ s.tableau.branch tip) : k ∈ s'.tableau.branch last := by
  have htip := (h.tableau.tree.mem_leavesBelow.1 (h.below ▸ List.mem_singleton_self last)).2
  rw [← h.tableau.branch hl.lt_size] at hk
  exact h.tableau.tree.mem_branch_trans hk htip

theorem eq_or_le (h : Lengthens s s' tip last n p) (hs : s.Coherent) (hl : s.tableau.IsLeaf tip) :
    last = tip ∨ s.tableau.size ≤ last := by
  obtain ⟨hlast, htip⟩ := h.tableau.tree.mem_leavesBelow.1 (h.below ▸ List.mem_singleton_self last)
  rcases h.tableau.mem_branch_or_le hs.tree hl htip (mem_branch_self hlast.lt_size) with hb | hle
  · rw [← h.tableau.branch hl.lt_size] at hb
    exact .inl (h.tableau.tree.eq_of_mem_branch_leaf hlast hb)
  · exact .inr hle

/-- Growth below the end of a branch that has grown is growth of the branch. -/
theorem grows_trans (h : Lengthens s s' tip last n p) (hs : s.Coherent)
    (hl : s.tableau.IsLeaf tip) (h' : Grows s' s'' [last] m) : Grows s s'' [tip] (n + m) := by
  refine h.toGrows.trans h' fun k hk hlt => ?_
  obtain rfl := List.mem_singleton.1 hk
  rcases h.eq_or_le hs hl with rfl | hle
  · exact List.mem_singleton_self k
  · omega

theorem leavesBelow (h : Lengthens s s' tip last n p) (h' : Grows s' s'' [last] m) :
    s''.tableau.leavesBelow tip = s''.tableau.leavesBelow last := by
  have hbranch := (h.tableau.tree.mem_leavesBelow.1 (h.below ▸ List.mem_singleton_self last)).2
  have hlt := Nat.lt_of_le_of_lt (h.tableau.tree.le_of_mem_branch hbranch) h.isLeaf.lt_size
  have hleaf : ∀ l ∈ [last], tip ∈ s'.tableau.branch l → s'.tableau.IsLeaf l :=
    List.forall_mem_singleton.2 fun _ => h.isLeaf
  rw [h'.tableau.leavesBelow h.tableau.tree hlt hleaf, h.below, List.flatMap_singleton]

theorem trans (h : Lengthens s s' tip last n p) (hs : s.Coherent) (hl : s.tableau.IsLeaf tip)
    (h' : Lengthens s' s'' last last' m q) : Lengthens s s'' tip last' (n + m) q where
  toGrows := h.grows_trans hs hl h'.toGrows
  below := (h.leavesBelow h'.toGrows).trans h'.below
  path := h'.path

end Lengthens

end Expansion

end Sequitur
