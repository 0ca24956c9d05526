import Mathlib.Data.Finset.Basic
import Mathlib.Logic.Function.Basic
import Sequitur.Constant
import Sequitur.Formula.Basic

/-!
# Interpretations

An interpretation gives the constants, the letters and the sign of identity a meaning over a domain,
and `Interpretation.Holds` says which formulas are true in it. A `Structure` is an interpretation
that reads identity as equality. The domain is never empty, as every constant has a value in it.

A wrapper means what it wraps, and a letter without parameters is an atom whichever way it is
written.
-/

namespace Sequitur

universe u

def Connective.truth : Connective → Prop → Prop → Prop
  | .and, p, q => p ∧ q
  | .or, p, q => p ∨ q
  | .implies, p, q => p → q
  | .iff, p, q => p ↔ q
  | .xor, p, q => ¬(p ↔ q)

def Quantifier.truth {D : Type u} : Quantifier → (D → Prop) → Prop
  | .universal, p => ∀ d, p d
  | .existential, p => ∃ d, p d

structure Interpretation (D : Type u) where
  constant : Char → D
  /-- A letter holds of the values of its parameters, and of none if it is an atom. -/
  relation : Char → List D → Prop
  same : D → D → Prop

namespace Interpretation

variable {D : Type u}

/-- The value of a term. What is no term has that of the first constant, so that an identity or a
predicate put together without checks has a truth value too. -/
def value (I : Interpretation D) (v : Char → D) : Formula → D
  | .term .const c => I.constant c
  | .term .var x => v x
  | _ => I.constant firstConstant

/-- Truth, with values for the variables that no quantifier binds. -/
def Holds (I : Interpretation D) (v : Char → D) : Formula → Prop
  | .atom s => I.relation s []
  | .predicate s ps => I.relation s (ps.map (I.value v))
  | .term _ _ => False
  | .not p => ¬I.Holds v p
  | .binary op p q => op.truth (I.Holds v p) (I.Holds v q)
  | .identity p q => I.same (I.value v p) (I.value v q)
  | .quantified k x p => k.truth fun d => I.Holds (Function.update v x d) p
  | .falsum => False
  | .root p => I.Holds v p

end Interpretation

/-- A first-order structure. -/
structure Structure (D : Type u) where
  constant : Char → D
  relation : Char → List D → Prop

namespace Structure

variable {D : Type u}

/-- The structure with identity read as equality. -/
def reading (S : Structure D) : Interpretation D := ⟨S.constant, S.relation, Eq⟩

/-- Truth in a structure. -/
def Holds (S : Structure D) (v : Char → D) (f : Formula) : Prop := S.reading.Holds v f

end Structure

end Sequitur
