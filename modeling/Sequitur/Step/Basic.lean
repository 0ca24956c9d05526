/-!
# Steps

How a line of a derivation is justified: it is assumed, or a rule gives it. A step has a short code,
used in justifications, a long name, and a form for typesetting.
-/

namespace Sequitur

inductive Step where
  | premise
  | reductioAssumption
  | conclusion
  | modusPonens
  | modusTollens
  | hypotheticalSyllogism
  | disjunctiveSyllogism
  | conjunctionElimination
  | conjunctionIntroduction
  | disjunctionIntroduction
  | deMorgan
  | materialImplication
  | biconditionalElimination
  | biconditionalIntroduction
  | transposition
  | constructiveDilemma
  | destructiveDilemma
  | doubleNegationIntroduction
  | doubleNegationElimination
  | existentialIntroduction
  | existentialElimination
  | universalIntroduction
  | universalElimination
  | contradictionIntroduction
  | contradictionElimination
  deriving DecidableEq, Repr, Inhabited

namespace Step

/-- Every step, in order. -/
def all : List Step := [
  .premise, .reductioAssumption, .conclusion, .modusPonens, .modusTollens, .hypotheticalSyllogism,
  .disjunctiveSyllogism, .conjunctionElimination, .conjunctionIntroduction,
  .disjunctionIntroduction, .deMorgan, .materialImplication, .biconditionalElimination,
  .biconditionalIntroduction, .transposition, .constructiveDilemma, .destructiveDilemma,
  .doubleNegationIntroduction, .doubleNegationElimination, .existentialIntroduction,
  .existentialElimination, .universalIntroduction, .universalElimination,
  .contradictionIntroduction, .contradictionElimination]

/-- The short code, as in `MP 1, 2`. -/
def code : Step → String
  | .premise => "Ass."
  | .reductioAssumption => "Ass. for RAA"
  | .conclusion => "C"
  | .modusPonens => "MP"
  | .modusTollens => "MT"
  | .hypotheticalSyllogism => "HS"
  | .disjunctiveSyllogism => "DS"
  | .conjunctionElimination => "&E"
  | .conjunctionIntroduction => "&I"
  | .disjunctionIntroduction => "∨I"
  | .deMorgan => "DeM"
  | .materialImplication => "MI"
  | .biconditionalElimination => "↔E"
  | .biconditionalIntroduction => "↔I"
  | .transposition => "TP"
  | .constructiveDilemma => "CD"
  | .destructiveDilemma => "DD"
  | .doubleNegationIntroduction => "DNI"
  | .doubleNegationElimination => "DNE"
  | .existentialIntroduction => "∃I"
  | .existentialElimination => "∃E"
  | .universalIntroduction => "UI"
  | .universalElimination => "UE"
  | .contradictionIntroduction => "⊥I"
  | .contradictionElimination => "⊥E"

/-- The long name. -/
def name : Step → String
  | .premise => "Assumption"
  | .reductioAssumption => "Assumption for Reductio Ad Absurdum"
  | .conclusion => "Conclusion"
  | .modusPonens => "Modus Ponens"
  | .modusTollens => "Modus Tollens"
  | .hypotheticalSyllogism => "Hypothetical Syllogism"
  | .disjunctiveSyllogism => "Disjunctive Syllogism"
  | .conjunctionElimination => "Conjunction Elimination"
  | .conjunctionIntroduction => "Conjunction Introduction"
  | .disjunctionIntroduction => "Disjunction Introduction"
  | .deMorgan => "De Morgan"
  | .materialImplication => "Material Implication"
  | .biconditionalElimination => "Biconditional Elimination"
  | .biconditionalIntroduction => "Biconditional Introduction"
  | .transposition => "Transposition"
  | .constructiveDilemma => "Constructive Dilemma"
  | .destructiveDilemma => "Destructive Dilemma"
  | .doubleNegationIntroduction => "Double Negation Introduction"
  | .doubleNegationElimination => "Double Negation Elimination"
  | .existentialIntroduction => "Existential Introduction"
  | .existentialElimination => "Existential Elimination"
  | .universalIntroduction => "Universal Introduction"
  | .universalElimination => "Universal Elimination"
  | .contradictionIntroduction => "Contradiction"
  | .contradictionElimination => "Contradiction Elimination"

/-- The form for typesetting: the code, with its signs as commands. -/
def tex : Step → String
  | .conclusion => ""
  | .conjunctionElimination => "\x7b$\\varland$\x7dE"
  | .conjunctionIntroduction => "\x7b$\\varland$\x7dI"
  | .disjunctionIntroduction => "\x7b$\\lor$\x7dI"
  | .biconditionalElimination => "\x7b$\\varliff$\x7dE"
  | .biconditionalIntroduction => "\x7b$\\varliff$\x7dI"
  | .transposition => "Trans."
  | .existentialIntroduction => "\x7b$\\exists$\x7dI"
  | .existentialElimination => "\x7b$\\exists$\x7dE"
  | .contradictionIntroduction => "\x7b$\\bot$\x7dI"
  | .contradictionElimination => "\x7b$\\bot$\x7dE"
  | s => s.code

/-- Whether the step brings in a line that rests on no other. -/
def isAssumption : Step → Bool
  | .premise | .reductioAssumption => true
  | _ => false

/-- The rule that would only undo this one, and so need not be tried on what this one derives. -/
def inverse : Step → Option Step
  | .conjunctionIntroduction => some .conjunctionElimination
  | .biconditionalIntroduction => some .biconditionalElimination
  | .doubleNegationIntroduction => some .doubleNegationElimination
  | .doubleNegationElimination => some .doubleNegationIntroduction
  | .deMorgan => some .deMorgan
  | .materialImplication => some .materialImplication
  | .transposition => some .transposition
  | _ => none

end Step

end Sequitur
