import Sequitur.Formula.Basic

/-!
# Kinds of formula

The kind of a formula is what its outermost node is, without what it holds.
-/

namespace Sequitur

inductive Kind where
  | atom
  | predicate
  | var
  | const
  | negation
  | and
  | or
  | implication
  | biconditional
  | exclusiveOr
  | identity
  | universal
  | existential
  | falsum
  | root
  deriving DecidableEq, Repr, Inhabited

/-- The label of a kind in an outline. -/
def Kind.text : Kind → String
  | .atom => "ATOM"
  | .predicate => "PREDICATE"
  | .var => "VARIABLE"
  | .const => "CONSTANT"
  | .negation => "NEG"
  | .and => "AND"
  | .or => "OR"
  | .implication => "IMP"
  | .biconditional => "BICOND"
  | .exclusiveOr => "XOR"
  | .identity => "IDENTITY"
  | .universal => "UNIVERSAL"
  | .existential => "EXISTENTIAL"
  | .falsum => "FALSE"
  | .root => "ROOT"

def Connective.kind : Connective → Kind
  | .and => .and
  | .or => .or
  | .implies => .implication
  | .iff => .biconditional
  | .xor => .exclusiveOr

def Quantifier.kind : Quantifier → Kind
  | .universal => .universal
  | .existential => .existential

def TermKind.kind : TermKind → Kind
  | .var => .var
  | .const => .const

namespace Formula

def kind : Formula → Kind
  | .atom _ => .atom
  | .predicate _ _ => .predicate
  | .term k _ => k.kind
  | .not _ => .negation
  | .binary op _ _ => op.kind
  | .identity _ _ => .identity
  | .quantified q _ _ => q.kind
  | .falsum => .falsum
  | .root _ => .root

/-- Whether the formula negates a formula of the given kind. -/
def isNegationOf (f : Formula) (k : Kind) : Bool := f.negated.any (·.kind = k)

end Formula

end Sequitur
