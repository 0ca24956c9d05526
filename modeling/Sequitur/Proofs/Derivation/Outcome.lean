import Sequitur.Proofs.Derivation.Extraction
import Sequitur.Proofs.Derivation.Passes

/-!
# What is told of a search

How a search ended decides what is reported of it, what is noted, and whether there is a proof
(`Ending.Told`), and `Context.prove` tells just that: it cannot fail, since the search cannot and a
conclusion that was found can be written up (`Context.prove_told`).
-/

namespace Sequitur

open Search

namespace Ending

/-- The verdict on a search that ended so. -/
def report : Ending → Report
  | .proved _ => .proved
  | .fixpoint => .notProved
  | .constantsExhausted | .timeout => .unknown

/-- What is noted of a search that ended so after a number of passes. -/
def diagnostics (passes : Nat) : Ending → List Diagnostic
  | .proved _ => []
  | .constantsExhausted => [.constantsExhausted]
  | .timeout => [.deductionTimeout passes]
  | .fixpoint => [.deductionExhausted passes]

/-- Whether a result tells of a search that ended so after a number of passes. -/
structure Told (ending : Ending) (n : Nat)
    (result : Context × Except Error (Option (List Line))) : Prop where
  passes : result.1.counters.passes = n
  report : result.1.report = ending.report
  diagnostics : result.1.diagnostics = ending.diagnostics n
  lines : ∃ lines?, result.2 = .ok lines? ∧ (lines?.isSome ↔ ending.report = .proved)

variable {ending : Ending} {n : Nat} {result : Context × Except Error (Option (List Line))}

theorem Told.exists_lines (h : ending.Told n result) (hproved : ending.report = .proved) :
    ∃ lines, result.2 = .ok (some lines) := by
  obtain ⟨lines?, hlines, hsome⟩ := h.lines
  obtain ⟨lines, rfl⟩ := Option.isSome_iff_exists.1 (hsome.2 hproved)
  exact ⟨lines, hlines⟩

theorem Told.eq_none (h : ending.Told n result) (hproved : ending.report ≠ .proved) :
    result.2 = .ok none := by
  obtain ⟨lines?, hlines, hsome⟩ := h.lines
  rw [hlines, Option.not_isSome_iff_eq_none.1 fun h => hproved (hsome.1 h)]

end Ending

/-! ## Passes -/

/-- A search makes no more passes than it may. If its limit stops it, it has made them all. -/
theorem Search.run_passes (s : Search) (made remaining : Nat) :
    (s.run made remaining).passes ≤ made + remaining ∧
      ((s.run made remaining).outcome = .ok .timeout →
        (s.run made remaining).passes = made + remaining) := by
  fun_induction Search.run s made remaining with
  | case1 => exact ⟨Nat.le_add_right _ _, by rintro ⟨⟩⟩
  | case2 => exact ⟨Nat.le_add_right _ _, by rintro ⟨⟩⟩
  | case3 => exact ⟨Nat.le_refl _, fun _ => rfl⟩
  | case4 => exact ⟨Nat.add_le_add_left (Nat.le_add_left 1 _) _, by rintro ⟨⟩⟩
  | case5 => exact ⟨Nat.add_le_add_left (Nat.le_add_left 1 _) _, by rintro ⟨⟩⟩
  | case6 s made _ _ n added s' hpass t hdone ih =>
    obtain ⟨hle, htimeout⟩ := ih
    refine ⟨by omega, fun h => ?_⟩
    have := htimeout h
    omega

/-! ## Proofs -/

variable {P : Problem}

/-- A search that has found its conclusion is turned into a proof. -/
theorem Search.exists_finish {s : Search} {i : Nat} {limit : Nat}
    (h : Moves P (start P.premises P.conclusion limit) s) (hi : s.found = some i) :
    ∃ lines s', Derive.finish i s = .ok lines s' := by
  obtain ⟨f, hf, -⟩ := h.located (fun _ hi => nomatch hi) i hi
  obtain ⟨lines, s', _, _, hfinish, -, -⟩ := Derive.finish_ok hf
  exact ⟨lines, s', hfinish⟩

/-- What comes of an argument is what is told of the search for a derivation. -/
theorem Context.prove_told (ctx : Context) (P : Problem) :
    ∃ s ending,
      Derive.assume P.premises P.kind
        (start P.premises P.conclusion ctx.settings.negationLimit.value) = .ok () s ∧
      Moves P (start P.premises P.conclusion ctx.settings.negationLimit.value) s ∧
      (s.run 0 ctx.settings.deductionLimit.value).outcome = .ok ending ∧
      ending.Told (s.run 0 ctx.settings.deductionLimit.value).passes
        (ctx.prove P.premises P.conclusion P.kind) := by
  have hstart := covered_start P ctx.settings.negationLimit.value
  obtain ⟨_, s, hassume, hmoves, -⟩ := Derive.assume_proceeds hstart
  obtain ⟨hrun, ending, hending, hfound⟩ :=
    run_moves (hmoves.covered hstart) 0 ctx.settings.deductionLimit.value
  refine ⟨s, ending, hassume, hmoves, hending, ?_⟩
  unfold prove
  dsimp only [reset]
  rw [hassume]
  dsimp only
  rw [hending]
  cases ending with
  | proved i =>
    obtain ⟨lines, s', hfinish⟩ := exists_finish (hmoves.trans hrun) (hfound i rfl)
    dsimp only
    rw [hfinish]
    exact ⟨rfl, rfl, rfl, some lines, rfl, iff_of_true rfl rfl⟩
  | _ => exact ⟨rfl, rfl, rfl, none, rfl, iff_of_false Bool.false_ne_true Report.noConfusion⟩

end Sequitur
