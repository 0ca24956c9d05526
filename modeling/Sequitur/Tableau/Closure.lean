import Sequitur.Tableau.Traversal

/-!
# Contradictory branches

A branch is contradictory when it has falsum, or denies that a thing is itself, or affirms a formula
that it also denies. Only atoms, predicates and identities, and their negations, are looked at.
-/

namespace Sequitur

namespace Keyed

/-- The canonical form that a closable formula affirms, if it is not a negation. -/
def affirmed (k : Keyed) : Option Canonical :=
  if k.formula.isClosable && !k.formula.isNegation then some k.form else none

/-- The canonical forms of what a closable negation denies. -/
def denied (k : Keyed) : List Canonical :=
  match k.formula with
  | .not p => if p.isAtomic then p.canonicalForms else []
  | _ => []

/-- Whether the formula is false by itself: falsum, or that something is not itself. -/
def isAbsurd (k : Keyed) : Bool :=
  match k.formula with
  | .falsum => true
  | .not p => p.isTrivialIdentity
  | _ => false

end Keyed

/-- Whether formulas that stand on one branch contradict one another. -/
def contradictory (formulas : List Keyed) : Bool :=
  formulas.any (·.isAbsurd) ||
    let denied := formulas.flatMap (·.denied)
    (formulas.filterMap (·.affirmed)).any fun form => denied.contains form

/-- Whether the branch that ends at a node is contradictory. -/
def Tableau.branchIsContradictory (t : Tableau) (key : Nat) : Bool :=
  contradictory ((t.branchNodes key).map (·.2.content))

end Sequitur
