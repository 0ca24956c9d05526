/-!
# Errors

What can go wrong, as causes, and the one wording of each. Running out of dispatches, passes or
constants during a search is not an error: it is noted and the search ends without a verdict.
-/

namespace Sequitur

/-- Why a formula cannot be built, or taken apart. -/
inductive FormulaError where
  /-- The variable of a quantifier is not exactly one character. -/
  | variableSymbol
  /-- A parameter of a predicate or a side of an identity is neither constant nor variable. -/
  | notATerm
  /-- A formula to be instantiated is not a quantifier. -/
  | unexpectedKind
  deriving DecidableEq, Repr

/-- Why a tableau cannot be extended. -/
inductive TableauError where
  /-- A center child was to join a right child. -/
  | centerAfterRight
  | childOccupied
  /-- No rule is meant for a formula of this kind. -/
  | unexpectedKind
  | missingNode
  deriving DecidableEq, Repr

/-- Why a derivation cannot be stored or found. -/
inductive DeductionError where
  /-- An argument without even a conclusion. -/
  | emptyArgument
  | missingNode
  deriving DecidableEq, Repr

/-- Every error of the library, by the part that raises it. -/
inductive Error where
  /-- A setting was given a value outside its bounds. -/
  | outOfBounds
  /-- All constant symbols are in use. -/
  | constantsExhausted
  | deduction (cause : DeductionError)
  | tableau (cause : TableauError)
  | formula (cause : FormulaError)
  deriving DecidableEq, Repr

def FormulaError.text : FormulaError → String
  | .variableSymbol => "VariableSymbol"
  | .notATerm => "NotATerm"
  | .unexpectedKind => "UnexpectedKind"

def TableauError.text : TableauError → String
  | .centerAfterRight => "CenterAfterRight"
  | .childOccupied => "ChildOccupied"
  | .unexpectedKind => "UnexpectedKind"
  | .missingNode => "MissingNode"

def DeductionError.text : DeductionError → String
  | .emptyArgument => "EmptyArgument"
  | .missingNode => "MissingNode"

/-- The wording of an error: the part that raises it, then the cause. -/
def Error.message : Error → String
  | .outOfBounds => "Config error: OutOfBounds"
  | .constantsExhausted => "Constant error: Exhausted"
  | .deduction cause => "Deduction error: " ++ cause.text
  | .tableau cause => "Tableau error: " ++ cause.text
  | .formula cause => "Wff error: " ++ cause.text

end Sequitur
