import Sequitur.Tableau.Basic

/-!
# Ways through a tableau

Up, along the branch of a node; down, to the leaves below it; level by level; and in preorder, with
the left child of a node before the right.

A node has no link to its parent. It stores the list of its ancestors, and the way up is read off that
list. The ways down are recursions along the children where one could loop over a stack or a queue of
nodes; they visit the nodes in the order of such a loop, and they end because the keys of children are
greater than that of their parent.
-/

namespace Sequitur.Tableau

/-! ## Up -/

/-- The keys from a node up to the root, or none for a key of no node. -/
def branch (t : Tableau) (key : Nat) : List Nat :=
  match t.node? key with
  | some n => key :: n.ancestors
  | none => []

/-- The nodes from a node up to the root, each with its key. -/
def branchNodes (t : Tableau) (key : Nat) : List (Nat × Node) :=
  (t.branch key).filterMap fun k => (t.node? k).map (k, ·)

/-- Whether some formula on the branch is structurally equal to `f`. -/
def branchContains (t : Tableau) (key : Nat) (f : Formula) : Bool :=
  let form := f.canonical
  (t.branchNodes key).any (·.2.content.reads form)

/-! ## Down -/

theorem lt_of_mem_children {t : Tableau} {k c : Nat} {n : Node} (hn : t.node? k = some n)
    (hc : c ∈ n.children) : t.size - c < t.size - k := by
  have := t.descends k n hn c hc
  unfold size
  omega

/-- The leaves below a node, from left to right; a leaf is below itself. -/
def leavesBelow (t : Tableau) (key : Nat) : List Nat :=
  match _hn : t.node? key with
  | none => []
  | some n =>
    match _hl : n.left, _hr : n.right with
    | none, none => [key]
    | some l, none => t.leavesBelow l
    | none, some r => t.leavesBelow r
    | some l, some r => t.leavesBelow l ++ t.leavesBelow r
termination_by t.size - key
decreasing_by
  all_goals exact lt_of_mem_children (by assumption) (Node.mem_children.2 (by simp [*]))

def isClosed (t : Tableau) (key : Nat) : Bool := (t.node? key).any (·.closed)

/-- The leaves below a node that do not end a closed branch. -/
def openLeavesBelow (t : Tableau) (key : Nat) : List Nat :=
  (t.leavesBelow key).filter fun k => (t.node? k).any (!·.closed)

/-- Whether every leaf below a node ends a closed branch. It stops at the first that does not. -/
def allClosedBelow (t : Tableau) (key : Nat) : Bool :=
  match _hn : t.node? key with
  | none => true
  | some n =>
    match _hl : n.left, _hr : n.right with
    | none, none => n.closed
    | some l, none => t.allClosedBelow l
    | none, some r => t.allClosedBelow r
    | some l, some r => t.allClosedBelow l && t.allClosedBelow r
termination_by t.size - key
decreasing_by
  all_goals exact lt_of_mem_children (by assumption) (Node.mem_children.2 (by simp [*]))

theorem allClosedBelow_eq (t : Tableau) (key : Nat) :
    t.allClosedBelow key = (t.leavesBelow key).all t.isClosed := by
  fun_induction t.leavesBelow key <;> rw [allClosedBelow] <;> split <;>
    simp_all [isClosed] <;> split <;> simp_all

/-! ## Level by level -/

/-- The nodes of a level and of the levels below it. There are no more levels than nodes, as keys
grow from each level to the next. -/
def levels (t : Tableau) : Nat → List Nat → List Node
  | 0, _ => []
  | depth + 1, level =>
    let nodes := level.filterMap t.node?
    if nodes.isEmpty then [] else nodes ++ levels t depth (nodes.flatMap (·.children))

/-- The leaves, level by level. -/
def levelLeaves (t : Tableau) : List Node := (t.levels t.size [root]).filter (·.isLeaf)

def hasAllClosed (t : Tableau) : Bool := t.levelLeaves.all (·.closed)

def hasSomeClosed (t : Tableau) : Bool := t.levelLeaves.any (·.closed)

/-! ## Preorder -/

/-- The nodes below a node in preorder, each with its depth. -/
def preorder (t : Tableau) (key depth : Nat) : List (Nat × Nat) :=
  match _hn : t.node? key with
  | none => []
  | some n =>
    (key, depth) ::
      match _hl : n.left, _hr : n.right with
      | none, none => []
      | some l, none => t.preorder l (depth + 1)
      | none, some r => t.preorder r (depth + 1)
      | some l, some r => t.preorder l (depth + 1) ++ t.preorder r (depth + 1)
termination_by t.size - key
decreasing_by
  all_goals exact lt_of_mem_children (by assumption) (Node.mem_children.2 (by simp [*]))

/-- A node as a walk comes to it. -/
structure Visit where
  key : Nat
  depth : Nat
  node : Node
  /-- Whether every branch through the node is closed. -/
  closed : Bool
  deriving Inhabited

/-- All nodes in preorder. -/
def walk (t : Tableau) : List Visit :=
  (t.preorder root 0).filterMap fun (key, depth) =>
    (t.node? key).map fun n =>
      { key, depth, node := n, closed := if n.isLeaf then n.closed else t.allClosedBelow key }

end Sequitur.Tableau
