import Sequitur.Proofs.Semantics.Interpretation
import Sequitur.Proofs.Tableau.Errors

/-!
# What a flipped formula says

Flipping pushes a negation one level inwards. Each connective has a law of its own for it, a
quantifier turns into the other one, and a wrapper is passed over; where there is no law the formula
is negated. Whichever it is, the flipped formula is true exactly where the formula is not
(`Interpretation.holds_flip`), also below quantifiers that bind a variable again, and terms stay where
terms belong.
-/

namespace Sequitur

universe u

namespace Interpretation

variable {D : Type u} (I : Interpretation D)

/-- The law for each connective. -/
theorem holds_flip_binary (v : Char → D) (op : Connective) (p q : Formula) :
    I.Holds v (Formula.binary op p q).flip ↔ ¬op.truth (I.Holds v p) (I.Holds v q) := by
  cases op with
  | and => exact (not_and_or (a := I.Holds v p)).symm
  | or => exact (not_or (p := I.Holds v p)).symm
  | implies => exact (Classical.not_imp (a := I.Holds v p)).symm
  | iff =>
    show (I.Holds v p ∧ ¬I.Holds v q) ∨ (¬I.Holds v p ∧ I.Holds v q) ↔ ¬(I.Holds v p ↔ I.Holds v q)
    tauto
  | xor => exact (Classical.not_not (a := I.Holds v p ↔ I.Holds v q)).symm

/-- A quantifier is denied by the other one over the denied body. -/
theorem holds_flip_quantified (v : Char → D) (k : Quantifier) (x : Char) (p : Formula) :
    I.Holds v (Formula.quantified k x p).flip ↔
      ¬k.truth fun d => I.Holds (Function.update v x d) p := by
  cases k with
  | universal => exact (not_forall (p := fun d => I.Holds (Function.update v x d) p)).symm
  | existential => exact (not_exists (p := fun d => I.Holds (Function.update v x d) p)).symm

theorem holds_flip (v : Char → D) (f : Formula) : I.Holds v f.flip ↔ ¬I.Holds v f := by
  induction f with
  | root p ih => exact ih
  | not p _ => exact (Classical.not_not (a := I.Holds v p)).symm
  | binary op p q _ _ => exact I.holds_flip_binary v op p q
  | quantified k x p _ => exact I.holds_flip_quantified v k x p
  | _ => exact Iff.rfl

end Interpretation

/-- Flipping is negation: the terms of the flipped formula are in place, and it is true exactly where
the formula is false. -/
theorem Structure.flip_denies {f : Formula} (hf : f.TermsInPlace) :
    f.flip.TermsInPlace ∧ ∀ (D : Type u) (S : Structure D) (v : Char → D),
      S.Holds v f.flip ↔ ¬S.Holds v f :=
  ⟨Formula.inherited_termsInPlace.flip hf, fun _ S v => S.reading.holds_flip v f⟩

/-- A wrapped exclusive disjunction flips to a biconditional. Where `P` is true of `1` alone, `Px` or
else `(∃x)¬Px` is false with `1` for `x`, and its flipped form is true. -/
theorem Structure.flip_denies_exclusive :
    (Formula.root (.xor (.predicate 'P' [.var 'x'])
      (.ex 'x' (.not (.predicate 'P' [.var 'x']))))).TermsInPlace ∧
    (Structure.mk (fun _ => 0) fun _ ds => ds = [1]).Holds (fun _ : Char => 1)
      (Formula.root (.xor (.predicate 'P' [.var 'x'])
        (.ex 'x' (.not (.predicate 'P' [.var 'x']))))).flip := by
  have hf : (Formula.root (.xor (.predicate 'P' [.var 'x'])
      (.ex 'x' (.not (.predicate 'P' [.var 'x']))))).TermsInPlace := by decide
  refine ⟨hf, ((flip_denies hf).2 Nat _ _).2 fun hxor => hxor ⟨fun _ => ⟨0, ?_⟩, fun _ => rfl⟩⟩
  show ¬[0] = [1]
  decide

end Sequitur
