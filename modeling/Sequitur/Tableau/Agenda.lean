/-!
# The agenda of an expansion

The nodes that wait to be dispatched, in the order of their precedence and, among equals, of their
number.
-/

namespace Sequitur

/-- A node that waits. -/
structure Entry where
  precedence : Nat
  id : Nat
  key : Nat
  deriving DecidableEq, Repr, Inhabited

/-- Whether one entry comes before another. -/
def Entry.before (a b : Entry) : Bool :=
  a.precedence < b.precedence || (a.precedence == b.precedence && a.id < b.id)

/-- The entries in order. -/
abbrev Agenda := List Entry

/-- The agenda with an entry put in its place. -/
def Agenda.push (e : Entry) : Agenda → Agenda
  | [] => [e]
  | d :: rest => if e.before d then e :: d :: rest else d :: Agenda.push e rest

theorem Agenda.mem_push {e x : Entry} {a : Agenda} : x ∈ a.push e ↔ x = e ∨ x ∈ a := by
  induction a with
  | nil => simp [push]
  | cons d rest ih =>
    unfold push
    split
    · simp
    · simp only [List.mem_cons, ih]; grind

end Sequitur
