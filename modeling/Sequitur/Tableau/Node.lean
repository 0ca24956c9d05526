import Sequitur.Formula.Canonical
import Sequitur.Symbols

/-!
# Nodes of a tableau

A node has a formula, the trail of nodes above it, and at most two children. A center child
continues a branch and takes the left slot; a left and a right child split it.
-/

namespace Sequitur

/-- Where a child goes below its parent. -/
inductive Side where
  | left
  | right
  | center
  deriving DecidableEq, Repr

def Side.text : Side → String
  | .left => "Left"
  | .right => "Right"
  | .center => "Center"

/-- What the children of a node make of it. -/
inductive Shape where
  | leaf
  | stack
  | branch
  deriving DecidableEq, Repr

/-- When a formula is dispatched, lowest first: what does not split a branch, or brings constants to
light, comes before what does, and universals come last. -/
def Formula.precedence : Formula → Nat
  | .atom _ => 0
  | .ex _ _ => 1
  | .not (.not _) => 3
  | .not (.or _ _) | .not (.implies _ _) => 7
  | .not (.and _ _) => 9
  | .not _ => 4
  | .and _ _ => 6
  | .or _ _ => 8
  | .implies _ _ => 10
  | .iff _ _ => 11
  | .all _ _ => 13
  | _ => 12

/-- Adds `c` to the symbols listed under `key`, keeping the keys in ascending order. -/
def recordUnder (key c : Char) : List (Char × Symbols) → List (Char × Symbols)
  | [] => [(key, Symbols.insert ∅ c)]
  | (d, s) :: rest =>
    if key < d then (key, Symbols.insert ∅ c) :: (d, s) :: rest
    else if key = d then (d, s.insert c) :: rest
    else (d, s) :: recordUnder key c rest

/-- A node. Other nodes are named by the order of their creation, from 0 for the root. -/
structure Node where
  /-- A number that grows with creation, by which nodes of equal precedence are ordered. -/
  id : Nat
  content : Keyed
  /-- The nodes above, from the parent up to the root. -/
  ancestors : List Nat
  /-- The node whose rule produced this one. -/
  source : Option Nat
  left : Option Nat
  right : Option Nat
  closed : Bool
  /-- The constants in use on the branch down to this node. -/
  constants : Symbols
  /-- For an identity, the symbols that have replaced each symbol. -/
  replacements : List (Char × Symbols)
  deriving Inhabited

namespace Node

/-- A node without children. -/
def new (id : Nat) (f : Formula) (ancestors : List Nat) (source : Option Nat)
    (constants : Symbols) : Node where
  id := id
  content := .of f
  ancestors := ancestors
  source := source
  left := none
  right := none
  closed := false
  constants := constants
  replacements := []

def formula (n : Node) : Formula := n.content.formula

def parent (n : Node) : Option Nat := n.ancestors.head?

/-- The child that continues the branch: the left one, where there is no right one. -/
def center (n : Node) : Option Nat := if n.right.isNone then n.left else none

def children (n : Node) : List Nat := n.left.toList ++ n.right.toList

def isLeaf (n : Node) : Bool := n.left.isNone && n.right.isNone

def shape (n : Node) : Shape :=
  if n.right.isSome then .branch else if n.left.isSome then .stack else .leaf

def precedence (n : Node) : Nat := n.formula.precedence

/-- Whether the rule for the node may have more to add later. -/
def isRepeatable (n : Node) : Bool := n.formula.isUniversal || n.formula.isIdentity

/-- The node with a child in the slot for `side`. -/
def attach (n : Node) (side : Side) (child : Nat) : Node :=
  match side with
  | .left | .center => { n with left := some child }
  | .right => { n with right := some child }

theorem mem_children {n : Node} {c : Nat} :
    c ∈ n.children ↔ n.left = some c ∨ n.right = some c := by
  simp [children, Option.mem_toList]

theorem mem_children_of_attach {n : Node} {side : Side} {child c : Nat}
    (h : c ∈ (n.attach side child).children) : c = child ∨ c ∈ n.children := by
  rw [mem_children] at h ⊢
  cases side <;> simp only [attach, Option.some.injEq] at h <;> grind

@[simp] theorem children_new (id : Nat) (f : Formula) (ancestors : List Nat) (source : Option Nat)
    (constants : Symbols) : (new id f ancestors source constants).children = [] := rfl

end Node

end Sequitur
