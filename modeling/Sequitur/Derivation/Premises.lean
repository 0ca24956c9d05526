import Sequitur.Formula.Canonical

/-!
# The order of premises

Premises are taken without wrappers and without repetition, the simpler kinds first and, within a
kind, the shorter first.
-/

namespace Sequitur

/-- The rank of the kind of a formula among premises. -/
def Formula.simplicity : Formula → Nat
  | .atom _ => 0
  | .predicate _ _ => 1
  | .identity _ _ => 2
  | .not _ => 3
  | .and _ _ => 4
  | .or _ _ => 5
  | .implies _ _ => 6
  | .iff _ _ => 7
  | .xor _ _ => 8
  | .ex _ _ => 9
  | .all _ _ => 10
  | .falsum => 11
  | .term _ _ | .root _ => 12

/-- Whether a premise may come before another: its kind is simpler, or the same and it is not
longer. -/
def Formula.noLaterThan (p q : Formula) : Bool :=
  p.simplicity < q.simplicity ||
    (p.simplicity == q.simplicity && p.canonical.length ≤ q.canonical.length)

/-- Adds a premise to those kept, unless one of them is structurally equal to it. -/
def keepPremise (kept : List Formula) (p : Formula) : List Formula :=
  if kept.any (·.structurallyEquals p.unrooted) then kept else kept ++ [p.unrooted]

/-- The premises without wrappers and repetitions, in order; equals keep the order they came in. -/
def orderPremises (premises : List Formula) : List Formula :=
  (premises.foldl keepPremise []).mergeSort Formula.noLaterThan

end Sequitur
