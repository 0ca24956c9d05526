import Sequitur.Proofs.Derivation.Moves
import Sequitur.Proofs.Formula.Extent

/-!
# The bounds of what a search derives

The rules keep to the span of what they are applied to (`Infers.span_le`), and an instance keeps to
the extent of the body. So whatever a search derives is within the span of the argument, and what it
assumes within its size (`Search.Moves.within`).
-/

namespace Sequitur

open Formula Search

variable {P : Problem} {s s' : Search} {B : Nat}

/-! ## Rules -/

theorem Formula.DeMorgan.span_eq {f g : Formula} (h : f.DeMorgan g) : g.span = f.span := by
  cases h <;> simp only [span, extent, Nat.max_self]

theorem Formula.Conditional.span_eq {f g : Formula} (h : f.Conditional g) : g.span = f.span := by
  cases h <;> rfl

/-- What a rule infers has no greater span than what it is inferred from. -/
theorem Infers.span_le {step : Step} {ps : List Formula} {f : Formula} (h : Infers step ps f)
    (hB : 0 < B) (hps : ∀ p ∈ ps, p.span ≤ B) : f.span ≤ B := by
  cases h with
  | deMorgan h =>
    rw [h.span_eq]
    exact hps _ (List.mem_singleton_self _)
  | materialImplication h =>
    rw [h.span_eq]
    exact hps _ (List.mem_singleton_self _)
  | contradicted h => exact hB
  | contradicting h => exact hB
  | _ =>
    -- What is put together has the sides of others; what is left alone was a side or a whole.
    simp only [List.forall_mem_cons, span, extent, Nat.max_le] at hps ⊢
    grind [span_le_extent]

theorem Infers.not_isAssumption {step : Step} {ps : List Formula} {f : Formula}
    (h : Infers step ps f) : ¬step.isAssumption := by
  cases h <;> exact Bool.false_ne_true

theorem Introduces.not_isAssumption {step : Step} {ps : List Formula} {f : Formula}
    (h : Introduces step ps f) : ¬step.isAssumption := by
  cases h <;> exact Bool.false_ne_true

/-! ## The argument -/

theorem Formula.size_unrooted_le (f : Formula) : f.unrooted.size ≤ f.size := by
  induction f with
  | root p ih =>
    rw [unrooted, size_root]
    omega
  | _ => exact Nat.le_refl _

namespace Problem

/-- No assumption and not the conclusion is of a greater size. -/
def bound (P : Problem) : Nat := (P.premises.map size).sum + P.conclusion.size + 1

theorem bound_pos (P : Problem) : 0 < P.bound := Nat.succ_pos _

theorem size_conclusion_lt (P : Problem) : P.conclusion.unrooted.size < P.bound := by
  have := P.conclusion.size_unrooted_le
  unfold bound
  omega

theorem Assumes.size_le {step : Step} {f : Formula} (h : P.Assumes step f) : f.size ≤ P.bound := by
  cases step with
  | premise =>
    obtain ⟨p, hp, rfl⟩ := h
    have hsum := List.le_sum_of_mem (List.mem_map_of_mem hp : p.size ∈ P.premises.map size)
    have := p.size_unrooted_le
    unfold bound
    omega
  | reductioAssumption =>
    obtain ⟨-, rfl⟩ := h
    rw [size_not]
    exact P.size_conclusion_lt
  | _ => exact h.elim

end Problem

/-! ## Searches -/

/-- Whether an inference is within a bound: it keeps to the span, and if it is an assumption to the
size. -/
structure Inference.Within (B : Nat) (e : Inference) : Prop where
  span : e.formula.span ≤ B
  assumption : e.step.isAssumption → e.formula.size ≤ B

namespace Search

/-- Whether all that a search has derived is within the bound of the argument. -/
def Within (P : Problem) (s : Search) : Prop := ∀ e ∈ s.store.inferences, e.Within P.bound

theorem Within.span_le (hs : s.Within P) {i : Nat} {f : Formula} (hi : s.Has i f) :
    f.span ≤ P.bound := by
  obtain ⟨e, he, rfl⟩ := hi
  exact (hs e (List.mem_of_getElem? he)).span

theorem Within.span_substitute_le (hs : s.Within P) {i : Nat} {k : Quantifier} {x c : Char}
    {p : Formula} (hi : s.Has i (.quantified k x p)) :
    (p.substitute x c .const).span ≤ P.bound := by
  have hquantified : p.extent + 1 ≤ P.bound := hs.span_le hi
  have hinstance := (p.substitute x c .const).span_le_extent
  rw [extent_substitute] at hinstance
  omega

/-- What is licensed is within the bound if what it may rest on is. -/
theorem Licensed.within {e : Inference} (h : s.Licensed P e) (hc : s.Covered P) (hs : s.Within P) :
    e.Within P.bound := by
  have hconclusion : s.conclusion.formula.span ≤ P.bound := by
    rw [hc.conclusion]
    exact Nat.le_trans (span_le_size _) (Nat.le_of_lt P.size_conclusion_lt)
  cases h with
  | assumed h => exact ⟨Nat.le_trans (span_le_size _) h.size_le, fun _ => h.size_le⟩
  | inferred hi h =>
    refine ⟨h.span_le P.bound_pos fun p hp => ?_, fun hstep => absurd hstep h.not_isAssumption⟩
    obtain ⟨i, hi⟩ := hi.exists_has hp
    exact hs.span_le hi
  | instantiated hi _ _ => exact ⟨hs.span_substitute_le hi, fun hstep => nomatch hstep⟩
  | witnessed hi _ _ _ _ => exact ⟨hs.span_substitute_le hi, fun hstep => nomatch hstep⟩
  | introduced _ h => exact ⟨hconclusion, fun hstep => absurd hstep h.not_isAssumption⟩
  | generalized _ _ _ _ => exact ⟨hconclusion, fun hstep => nomatch hstep⟩

theorem Move.within (h : Move P s s') (hc : s.Covered P) (hs : s.Within P) : s'.Within P := by
  rcases h.inferences with heq | ⟨e, hlicensed, heq⟩
  · unfold Within
    rw [heq]
    exact hs
  · intro e' he'
    rw [heq, List.mem_append, List.mem_singleton] at he'
    rcases he' with he' | rfl
    · exact hs e' he'
    · exact hlicensed.within hc hs

/-- Whatever moves a search makes, it stays within the bound of the argument. -/
theorem Moves.within (h : Moves P s s') (hc : s.Covered P) (hs : s.Within P) : s'.Within P := by
  induction h with
  | refl => exact hs
  | tail hmoves h ih => exact h.within (Moves.covered hmoves hc) ih

theorem within_start (P : Problem) (limit : Nat) :
    (start P.premises P.conclusion limit).Within P := by
  intro e he
  cases he

end Search

end Sequitur
