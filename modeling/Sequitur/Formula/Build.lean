import Sequitur.Error
import Sequitur.Formula.Basic

/-!
# Building and negating formulas

The checked constructors: predicates and identities are over terms, and a quantifier binds a variable
of one character. And negation: negating a formula, pushing a negation one level inwards, and the
longest run of negations.
-/

namespace Sequitur.Formula

/-! ## Checked constructors -/

/-- The predicate, if every parameter is a term. -/
def buildPredicate (letter : Char) (params : List Formula) : Except FormulaError Formula :=
  if params.all isTerm then .ok (.predicate letter params) else .error .notATerm

/-- The identity, if both sides are terms. -/
def buildIdentity (left right : Formula) : Except FormulaError Formula :=
  if left.isTerm && right.isTerm then .ok (.identity left right) else .error .notATerm

/-- The quantifier, if its variable is written with one character. -/
def buildQuantified (q : Quantifier) (name : String) (body : Formula) :
    Except FormulaError Formula :=
  match name.toList with
  | [x] => .ok (.quantified q x body)
  | _ => .error .variableSymbol

/-! ## Negation -/

abbrev negate (f : Formula) : Formula := .not f

/-- The formula under `n` negations. -/
def negations : Nat → Formula → Formula
  | 0, f => f
  | n + 1, f => .not (negations n f)

/-- A formula that says the opposite, with the negation pushed one level inwards where there is a
law for it. -/
def flip : Formula → Formula
  | .and p q => .or (.not p) (.not q)
  | .or p q => .and (.not p) (.not q)
  | .implies p q => .and p (.not q)
  | .iff p q => .or (.and p (.not q)) (.and (.not p) q)
  | .xor p q => .iff p q
  | .not p => p
  | .all x p => .ex x (.not p)
  | .ex x p => .all x (.not p)
  | .root p => p.flip
  | f => .not f

mutual
/-- The longest run of negations in a formula that stands below `run` of them. -/
def negationDepthBelow (run : Nat) : Formula → Nat
  | .not p => negationDepthBelow (run + 1) p
  | .predicate _ ps => max run (negationDepthOf ps)
  | .binary _ p q | .identity p q =>
    max run (max (negationDepthBelow 0 p) (negationDepthBelow 0 q))
  | .quantified _ _ p | .root p => max run (negationDepthBelow 0 p)
  | .atom _ | .term _ _ | .falsum => run
def negationDepthOf : List Formula → Nat
  | [] => 0
  | p :: ps => max (negationDepthBelow 0 p) (negationDepthOf ps)
end

/-- The longest run of negations anywhere in a formula. -/
def negationDepth (f : Formula) : Nat := f.negationDepthBelow 0

end Sequitur.Formula
