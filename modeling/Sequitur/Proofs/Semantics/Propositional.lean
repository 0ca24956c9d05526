import Sequitur.Proofs.Semantics.Interpretation
import Sequitur.Proofs.Semantics.Sentence

/-!
# Propositional formulas

A propositional formula is made of letters and falsum by the connectives, and a valuation of the
letters gives it a truth value (`Formula.evaluate`). This is its truth in any structure that makes the
same letters true.
-/

namespace Sequitur

universe u

def Connective.evaluate : Connective → Bool → Bool → Bool
  | .and, p, q => p && q
  | .or, p, q => p || q
  | .implies, p, q => !p || q
  | .iff, p, q => p == q
  | .xor, p, q => p != q

theorem Connective.truth_iff_evaluate (op : Connective) (p q : Bool) :
    op.truth p q ↔ op.evaluate p q := by
  cases op <;> cases p <;> cases q <;> simp [truth, evaluate]

namespace Formula

def Propositional : Formula → Prop
  | .atom s => isLetter s
  | .not p => p.Propositional
  | .binary _ p q => p.Propositional ∧ q.Propositional
  | .falsum => True
  | .predicate _ _ | .term _ _ | .identity _ _ | .quantified _ _ _ | .root _ => False

instance decidablePropositional : (f : Formula) → Decidable f.Propositional
  | .atom s => inferInstanceAs (Decidable (isLetter s = true))
  | .not p => decidablePropositional p
  | .binary _ p q =>
    have := decidablePropositional p
    have := decidablePropositional q
    inferInstanceAs (Decidable (p.Propositional ∧ q.Propositional))
  | .falsum => inferInstanceAs (Decidable True)
  | .predicate _ _ | .term _ _ | .identity _ _ | .quantified _ _ _ | .root _ =>
    inferInstanceAs (Decidable False)

/-- The truth value under a valuation of the letters. A wrapper has the value of what it wraps; what is
no part of a propositional formula counts as false. -/
def evaluate (valuation : Char → Bool) : Formula → Bool
  | .atom s => valuation s
  | .not p => !p.evaluate valuation
  | .binary op p q => op.evaluate (p.evaluate valuation) (q.evaluate valuation)
  | .root p => p.evaluate valuation
  | .predicate _ _ | .term _ _ | .identity _ _ | .quantified _ _ _ | .falsum => false

theorem evaluate_unrooted (valuation : Char → Bool) (f : Formula) :
    f.unrooted.evaluate valuation = f.evaluate valuation := by
  induction f with
  | root p ih => exact ih
  | _ => rfl

theorem Propositional.standard {f : Formula} (h : f.Propositional) : f.Standard := by
  induction f with
  | atom s => exact ⟨h, trivial⟩
  | falsum => exact ⟨trivial, trivial⟩
  | not p ih => exact ih h
  | binary op p q hp hq => exact ⟨⟨(hp h.1).1, (hq h.2).1⟩, (hp h.1).2, (hq h.2).2⟩
  | _ => exact h.elim

end Formula

/-- A valuation and a structure agree on a propositional formula if they agree on the letters. -/
theorem Structure.holds_iff_evaluate {D : Type u} {S : Structure D} {valuation : Char → Bool}
    (hS : ∀ s, S.relation s [] ↔ valuation s) {f : Formula} (hf : f.Propositional)
    (v : Char → D) : S.Holds v f ↔ f.evaluate valuation := by
  induction f with
  | atom s => exact hS s
  | falsum => exact iff_of_false id Bool.false_ne_true
  | not p ih =>
    refine (not_congr (ih hf)).trans ?_
    rw [Formula.evaluate, Bool.not_eq_true', Bool.not_eq_true]
  | binary op p q hp hq =>
    rw [Formula.evaluate, ← op.truth_iff_evaluate, ← hp hf.1, ← hq hf.2]
    exact Iff.rfl
  | _ => exact hf.elim

end Sequitur
