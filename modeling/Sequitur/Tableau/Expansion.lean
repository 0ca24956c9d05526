import Sequitur.Context
import Sequitur.Tableau.Agenda
import Sequitur.Tableau.Closure
import Sequitur.Tableau.Decomposition

/-!
# Expansion under way

The state of an expansion, and the few ways in which the rules change it. A step that fails keeps
what was done before it.
-/

namespace Sequitur

/-- A tableau that is being expanded. -/
structure Expansion where
  tableau : Tableau
  agenda : Agenda
  /-- Universals and identities that had nothing to add when last tried. -/
  dormant : List Nat
  /-- Whether universals and identities are to be tried again. -/
  requeues : Bool
  trace : Trace
  deriving Inhabited

/-- A step of an expansion. -/
abbrev Expand := EStateM TableauError Expansion

namespace Expansion

/-- The expansion that is about to begin. -/
def start (t : Tableau) (requeues : Bool) : Expansion where
  tableau := t
  agenda := []
  dormant := []
  requeues := requeues
  trace := #[]

end Expansion

namespace Expand

def emit (e : Event) : Expand Unit := modify fun s => { s with trace := s.trace.push e }

/-- The tableau as it stands. -/
def tableau : Expand Tableau := return (← get).tableau

/-- A node of the tableau. -/
def node (key : Nat) : Expand Node := fun s =>
  match s.tableau.node? key with
  | some n => .ok n s
  | none => .error .missingNode s

/-- Changes the tableau. -/
def update (f : Tableau → Tableau) : Expand Unit :=
  modify fun s => { s with tableau := f s.tableau }

/-- Adds a child to a node. -/
def addChild (parent : Nat) (f : Formula) (source : Nat) (side : Side) : Expand Nat := fun s =>
  match s.tableau.host parent side with
  | .error e => .error e s
  | .ok above =>
    .ok s.tableau.size
      { s with tableau := s.tableau.extend parent above f (some source) side }

/-- Puts a node on the agenda, by its own number. -/
def enqueue (key : Nat) : Expand Unit := do
  let n ← node key
  modify fun s => { s with agenda := s.agenda.push ⟨n.precedence, n.id, key⟩ }

/-- Puts a node on the agenda behind all others of its precedence. -/
def requeue (key : Nat) : Expand Unit := do
  let n ← node key
  modify fun s =>
    { s with
      agenda := s.agenda.push ⟨n.precedence, s.tableau.nextId, key⟩
      tableau := s.tableau.skipId }

/-- Puts the given nodes on the agenda again, one after another. -/
def wakeAll : List Nat → Expand Unit
  | [] => pure ()
  | key :: keys => do
    emit (.woken key)
    requeue key
    wakeAll keys

/-- Puts every dormant node on the agenda again. -/
def wake : Expand Unit := do
  let keys := (← get).dormant
  modify fun s => { s with dormant := [] }
  wakeAll keys

/-- Closes the branch of a leaf if it is contradictory. -/
def checkClosure (leaf : Nat) : Expand Unit := do
  let n ← node leaf
  unless n.closed do
    if (← tableau).branchIsContradictory leaf then
      emit (.closed n.formula)
      update (·.close leaf)

/-- Places a formula below a node: it is put on the agenda and its branch is checked. -/
def place (parent : Nat) (f : Formula) (source : Nat) (side : Side) : Expand Nat := do
  emit (.placed side f)
  let key ← addChild parent f source side
  enqueue key
  checkClosure key
  return key

/-- After a universal or an identity has been tried: one that added nothing lies dormant, and one
that did wakes the others and is tried again. -/
def settle (key added : Nat) : Expand Unit := do
  if (← get).requeues then
    if added = 0 then
      modify fun s => { s with dormant := s.dormant ++ [key] }
    else
      wake
      requeue key

end Expand

end Sequitur
