import Sequitur.Error
import Sequitur.Formula.Terms
import Sequitur.Tableau.Node

/-!
# Tableaux

A tableau is an array of nodes, the root first. A child is always created after its parent, which
the type records: it is what makes every descent end.
-/

namespace Sequitur

/-- How the expansion of a tableau ended. -/
inductive Status where
  /-- It has not been expanded. -/
  | pending
  /-- No rule has anything to add to an open branch. -/
  | complete
  | timeout
  | constantsExhausted
  deriving DecidableEq, Repr, Inhabited

structure Tableau where
  nodes : Array Node
  /-- The next number to be given to a node. -/
  nextId : Nat
  status : Status
  descends : ∀ (k : Nat) (n : Node), nodes[k]? = some n → ∀ c ∈ n.children, k < c ∧ c < nodes.size

namespace Tableau

/-- The root is the first node. -/
def root : Nat := 0

/-- The tableau of one node, with the formula less its wrappers and the constants of that formula.
-/
def start (f : Formula) : Tableau where
  nodes := #[.new 0 f.unrooted [] none f.unrooted.constants]
  nextId := 1
  status := .pending
  descends := by
    intro k n hn c hc
    obtain ⟨hk, rfl⟩ := Array.getElem?_eq_some_iff.1 hn
    obtain rfl : k = 0 := by simpa using hk
    simp at hc

instance : Inhabited Tableau := ⟨start .falsum⟩

def size (t : Tableau) : Nat := t.nodes.size

def node? (t : Tableau) (key : Nat) : Option Node := t.nodes[key]?

/-- The node of a key, or the error that there is none. -/
def node (t : Tableau) (key : Nat) : Except TableauError Node :=
  match t.node? key with
  | some n => .ok n
  | none => .error .missingNode

/-- The key of the node with the given number. -/
def find? (t : Tableau) (id : Nat) : Option Nat := t.nodes.findIdx? (·.id == id)

/-- The number of the node that a link points to. -/
def idOf? (t : Tableau) (link : Option Nat) : Option Nat := (link.bind t.node?).map (·.id)

/-- The tableau with one number used up. -/
def skipId (t : Tableau) : Tableau := { t with nextId := t.nextId + 1 }

/-- The tableau with a node changed in what is not its children. -/
def modify (t : Tableau) (key : Nat) (f : Node → Node) (hf : ∀ n, (f n).children = n.children) :
    Tableau :=
  { t with
    nodes := t.nodes.modify key f
    descends := by
      intro k n hn c hc
      rw [Array.size_modify]
      rw [Array.getElem?_modify] at hn
      split at hn
      · obtain ⟨m, hm, rfl⟩ := Option.map_eq_some_iff.1 hn
        exact t.descends k m hm c (hf m ▸ hc)
      · exact t.descends k n hn c hc }

/-- Marks a node as the end of a closed branch. -/
def close (t : Tableau) (key : Nat) : Tableau :=
  t.modify key (fun n => { n with closed := true }) fun _ => rfl

/-- Adds a constant to those of a node. -/
def addConstant (t : Tableau) (key : Nat) (c : Char) : Tableau :=
  t.modify key (fun n => { n with constants := n.constants.insert c }) fun _ => rfl

/-- Records that an identity has replaced `target` by `replacement`. -/
def recordReplacement (t : Tableau) (key : Nat) (target replacement : Char) : Tableau :=
  t.modify key (fun n => { n with replacements := recordUnder target replacement n.replacements })
    fun _ => rfl

/-! ## Adding a child -/

/-- Why a node can take no child on the given side, if it cannot. -/
def obstacle? (n : Node) (side : Side) : Option TableauError :=
  match side with
  | .center =>
    if n.right.isSome then some .centerAfterRight
    else if n.left.isSome then some .childOccupied
    else none
  | .left => if n.left.isSome then some .childOccupied else none
  | .right => if n.right.isSome then some .childOccupied else none

/-- The tableau with a new node at its end, linked from `parent`. The child inherits the constants
of its parent. -/
def extend (t : Tableau) (parent : Nat) (above : Node) (f : Formula) (source : Option Nat)
    (side : Side) : Tableau where
  nodes := (t.nodes.modify parent (·.attach side t.nodes.size)).push
    (.new t.nextId f (parent :: above.ancestors) source above.constants)
  nextId := t.nextId + 1
  status := t.status
  descends := by
    intro k n hn c hc
    rw [Array.size_push, Array.size_modify]
    rw [Array.getElem?_push, Array.size_modify] at hn
    split at hn
    · obtain rfl : _ = n := Option.some.inj hn
      simp at hc
    · rw [Array.getElem?_modify] at hn
      split at hn
      · next hp =>
        obtain ⟨m, hm, rfl⟩ := Option.map_eq_some_iff.1 hn
        have hk : k < t.nodes.size := (Array.getElem?_eq_some_iff.1 hm).1
        rcases Node.mem_children_of_attach hc with rfl | hc
        · omega
        · have := t.descends k m hm c hc; omega
      · have := t.descends k n hn c hc; omega

/-- The node `parent`, if it can take a child on the given side. -/
def host (t : Tableau) (parent : Nat) (side : Side) : Except TableauError Node :=
  match t.node? parent with
  | none => .error .missingNode
  | some above =>
    match obstacle? above side with
    | some e => .error e
    | none => .ok above

/-- Adds a child to `parent`: its key and the new tableau, or why the child cannot be added. -/
def addChild (t : Tableau) (parent : Nat) (f : Formula) (source : Option Nat) (side : Side) :
    Except TableauError (Nat × Tableau) :=
  match t.host parent side with
  | .error e => .error e
  | .ok above => .ok (t.size, t.extend parent above f source side)

/-! ## The nodes after a change -/

@[simp] theorem size_modify {t : Tableau} {key : Nat} {f : Node → Node}
    (hf : ∀ n, (f n).children = n.children) : (t.modify key f hf).size = t.size := by
  simp [modify, size]

theorem node?_modify {t : Tableau} {key : Nat} {f : Node → Node}
    (hf : ∀ n, (f n).children = n.children) (k : Nat) :
    (t.modify key f hf).node? k = if key = k then (t.node? k).map f else t.node? k := by
  simp [modify, node?, Array.getElem?_modify]

@[simp] theorem size_extend (t : Tableau) (parent : Nat) (above : Node) (f : Formula)
    (source : Option Nat) (side : Side) :
    (t.extend parent above f source side).size = t.size + 1 := by
  simp [extend, size]

theorem node?_extend (t : Tableau) (parent : Nat) (above : Node) (f : Formula)
    (source : Option Nat) (side : Side) (k : Nat) :
    (t.extend parent above f source side).node? k =
      if k = t.size then
        some (.new t.nextId f (parent :: above.ancestors) source above.constants)
      else if parent = k then (t.node? k).map (·.attach side t.size)
      else t.node? k := by
  rw [node?, extend, Array.getElem?_push, Array.getElem?_modify, Array.size_modify]
  rfl

end Tableau

end Sequitur
