import Mathlib.Data.Set.Card
import Sequitur.Proofs.Derivation.Bounds
import Sequitur.Proofs.Derivation.Outcome
import Sequitur.Proofs.Derivation.Turns

/-!
# A search comes to an end of itself

A search that is not finished has derived nothing twice and, but for its assumptions, nothing with too
long a run of negations (`Search.Sparing`). Since all that it derives is of a bounded span, it can only
come upon finitely many formulas, and every pass that does not end it adds one of them. So, with a
limit that is large enough, the limit plays no part (`Context.prove_ends`).
-/

namespace Sequitur

open Formula

variable {P : Problem} {s s' : Search}

/-- The number of formulas that a search can come upon. -/
noncomputable def Problem.room (P : Problem) : Nat :=
  {f : Formula | f.size ≤ (negationMax + 1) * (2 * P.bound + 1)}.ncard

namespace Search

/-! ## Turns -/

theorem not_isFinished (hfound : s.found = none) (hexhausted : ¬s.exhausted) : ¬s.isFinished := by
  unfold isFinished
  rw [hfound]
  exact hexhausted

theorem Rests.isFinished (h : s.Rests s') : s'.isFinished = s.isFinished := by
  unfold Search.isFinished
  rw [h.found, h.exhausted]

/-- What a search welcomes is new, and has no long run of negations unless it is the conclusion or an
assumption. -/
theorem of_assess_welcome {content : Keyed} {step : Step} (h : s.assess content step = .welcome) :
    s.isFinished = false ∧ s.store.position? content.form = none ∧
      (content.reads s.conclusion.form ∨ step.isAssumption ∨
        content.formula.negationDepth ≤ negationMax) := by
  unfold assess at h
  dsimp only at h
  split_ifs at h with hfinished _ hnegations hknown
  refine ⟨Bool.eq_false_iff.2 hfinished, Option.not_isSome_iff_eq_none.1 hknown, ?_⟩
  by_cases hreads : content.reads s.conclusion.form
  · exact .inl hreads
  · by_cases hstep : step.isAssumption
    · exact .inr (.inl hstep)
    · refine .inr (.inr (Nat.le_of_not_gt fun hdepth => hnegations ?_))
      simp [hreads, hstep, hdepth]

/-- What a search welcomes is not redundant, unless it is the conclusion. -/
theorem isRedundant_of_assess_welcome {content : Keyed} {step : Step}
    (h : s.assess content step = .welcome) (hredundant : content.formula.isRedundant) :
    content.formula.structurallyEquals s.conclusion.formula := by
  unfold assess at h
  dsimp only at h
  split_ifs at h with _ hrefused
  rw [← Keyed.reads_canonical, ← s.conclusion.form_eq]
  by_contra hreads
  exact hrefused (by simp [hreads, hredundant])

theorem Turn.isFinished (h : Turn s s') (hs : s.isFinished) : s'.isFinished := by
  cases h with
  | rest h _ =>
    rw [h.isFinished]
    exact hs
  | learn _ _ => exact hs
  | exhaust => exact Bool.or_true _
  | accept hwelcome _ _ =>
    rw [(of_assess_welcome hwelcome).1] at hs
    cases hs

/-! ## Sparing searches -/

/-- Whether a search has derived nothing twice and, but for assumptions, nothing with too long a run of
negations. -/
structure Sparing (s : Search) : Prop where
  distinct : (s.store.inferences.map Inference.formula).Nodup
  negations : ∀ e ∈ s.store.inferences, ¬e.step.isAssumption →
    e.formula.negationDepth ≤ negationMax

theorem Sparing.of_inferences (hs : s.Sparing) (h : s'.store.inferences = s.store.inferences) :
    s'.Sparing :=
  ⟨h ▸ hs.distinct, h ▸ hs.negations⟩

theorem not_structurallyEquals_of_position? {content : Keyed}
    (h : s.store.position? content.form = none) {d : Inference} (hd : d ∈ s.store.inferences) :
    ¬d.formula.structurallyEquals content.formula := by
  obtain ⟨c, hc, rfl⟩ := List.mem_map.1 hd
  have hreads := Array.findIdx?_eq_none_iff.1 h c (Array.mem_toList_iff.1 hc)
  rw [content.form_eq, Keyed.reads_canonical] at hreads
  exact Bool.eq_false_iff.1 hreads

theorem formula_ne_of_position?_eq_none {content : Keyed} (h : s.store.position? content.form = none)
    {e : Inference} (he : e ∈ s.store.inferences) : e.formula ≠ content.formula := by
  intro heq
  refine not_structurallyEquals_of_position? h he ?_
  rw [heq]
  exact structurallyEquals_refl _

/-- A search is finished or sparing after each turn if it was before. -/
theorem Turn.sparing (h : Turn s s') (hs : s.isFinished ∨ s.Sparing) :
    s'.isFinished ∨ s'.Sparing := by
  rcases hs with hs | hs
  · exact .inl (h.isFinished hs)
  · cases h with
    | rest h _ => exact .inr (hs.of_inferences h.inferences)
    | learn _ _ => exact .inr (hs.of_inferences rfl)
    | exhaust => exact .inr (hs.of_inferences rfl)
    | @accept _ content step parents hwelcome h hconclusion =>
      obtain ⟨-, hnew, hnegations⟩ := of_assess_welcome hwelcome
      rcases h.finished with hfinished | hstore
      · exact .inl hfinished
      · rcases hnegations with hreads | hnegations
        · exact .inl (hconclusion hreads)
        · refine .inr ⟨?_, ?_⟩
          · rw [hstore, List.map_append, List.map_singleton]
            refine List.nodup_append.2 ⟨hs.distinct, List.nodup_singleton _, ?_⟩
            intro f hf g hg
            obtain ⟨e, he, rfl⟩ := List.mem_map.1 hf
            rw [List.mem_singleton.1 hg]
            exact formula_ne_of_position?_eq_none hnew he
          · intro e he hstep
            rw [hstore, List.mem_append, List.mem_singleton] at he
            rcases he with he | rfl
            · exact hs.negations e he hstep
            · exact hnegations.resolve_left hstep

theorem Turns.sparing (h : Turns s s') (hs : s.isFinished ∨ s.Sparing) :
    s'.isFinished ∨ s'.Sparing := by
  induction h with
  | refl => exact hs
  | tail _ h ih => exact h.sparing ih

/-! ## Counting -/

/-- What a turn adds to the count it adds to the derivations. -/
theorem Turn.size_add_le (h : Turn s s') :
    s.store.size + s'.added ≤ s'.store.size + s.added := by
  simp only [← Derivations.length_inferences]
  cases h with
  | rest h hadded => rw [h.inferences, hadded]
  | learn _ _ => exact Nat.le_refl _
  | exhaust => exact Nat.le_refl _
  | accept _ h _ =>
    have hlength := h.isPrefix.length_le
    rw [List.length_append, List.length_singleton] at hlength
    have hadded := h.added
    omega

theorem Turns.size_add_le (h : Turns s s') :
    s.store.size + s'.added ≤ s'.store.size + s.added := by
  induction h with
  | refl => exact Nat.le_refl _
  | tail _ h ih =>
    have := h.size_add_le
    omega

/-- A pass leaves a search finished or sparing, and with all that it has counted. -/
theorem pass_sparing {added : Nat} (h : Derive.pass s = .ok added s')
    (hs : s.isFinished ∨ s.Sparing) :
    (s'.isFinished ∨ s'.Sparing) ∧ s.store.size + added ≤ s'.store.size := by
  obtain ⟨hturns, rfl⟩ := Derive.pass_turns h
  have hreset : { s with added := 0 }.isFinished ∨ { s with added := 0 }.Sparing :=
    hs.imp_right fun hs => hs.of_inferences rfl
  exact ⟨hturns.sparing hreset, hturns.size_add_le⟩

/-! ## The search -/

theorem outcome_of_isFinished (hs : s.isFinished) (made remaining : Nat) :
    (s.run made remaining).outcome ≠ .ok .timeout := by
  unfold run
  split
  · exact fun h => nomatch h
  · next hfound =>
    split
    · exact fun h => nomatch h
    · next hexhausted => exact absurd hs (not_isFinished hfound hexhausted)

/-- A search that its limit has stopped has derived something in every pass. -/
theorem run_of_timeout (hs : s.isFinished ∨ s.Sparing) {made remaining : Nat}
    (h : (s.run made remaining).outcome = .ok .timeout) :
    (s.run made remaining).search.Sparing ∧
      s.store.size + remaining ≤ (s.run made remaining).search.store.size := by
  fun_induction Search.run s made remaining with
  | case1 => cases h
  | case2 => cases h
  | case3 s made hfound hexhausted =>
    exact ⟨hs.resolve_left (not_isFinished hfound hexhausted), Nat.le_refl _⟩
  | case4 => cases h
  | case5 => cases h
  | case6 s made _ _ n added s' hpass t hdone ih =>
    obtain ⟨hs', hsize⟩ := pass_sparing hpass hs
    obtain ⟨hsparing, hrest⟩ := ih (hs'.imp_right fun hs' => hs'.of_inferences rfl) h
    have hfinished : ¬t.isFinished := fun hfinished => outcome_of_isFinished hfinished _ _ h
    have hadded : added ≠ 0 := fun hadded => hdone ⟨hadded, by rw [Bool.eq_false_iff.2 hfinished]; rfl⟩
    have hlog : t.store.size = s'.store.size := rfl
    exact ⟨hsparing, by omega⟩

/-! ## Finitely many formulas -/

theorem Sparing.size_le (hs : s.Sparing) (hwithin : s.Within P) {e : Inference}
    (he : e ∈ s.store.inferences) :
    e.formula.size ≤ (negationMax + 1) * (2 * P.bound + 1) := by
  by_cases hstep : e.step.isAssumption
  · have := (hwithin e he).assumption hstep
    unfold negationMax
    omega
  · exact size_le_of_span_le (hs.negations e he hstep) (hwithin e he).span

theorem Sparing.store_size_le (hs : s.Sparing) (hwithin : s.Within P) :
    s.store.size ≤ P.room := by
  classical
  have hfinite := finite_size_le ((negationMax + 1) * (2 * P.bound + 1))
  have hsubset : ((s.store.inferences.map Inference.formula).toFinset : Set Formula) ⊆
      {f : Formula | f.size ≤ (negationMax + 1) * (2 * P.bound + 1)} := by
    intro f hf
    obtain ⟨e, he, rfl⟩ := List.mem_map.1 (List.mem_toFinset.1 hf)
    exact hs.size_le hwithin he
  calc s.store.size = (s.store.inferences.map Inference.formula).length := by
        rw [List.length_map, Derivations.length_inferences]
    _ = (s.store.inferences.map Inference.formula).toFinset.card :=
        (List.toFinset_card_of_nodup hs.distinct).symm
    _ ≤ P.room := by
        rw [← Set.ncard_coe_finset]
        exact Set.ncard_le_ncard hsubset hfinite

/-- A search that may make more passes than there are formulas for it is not stopped by its limit. -/
theorem outcome_ne_timeout (hc : s.Covered P) (hwithin : s.Within P)
    (hs : s.isFinished ∨ s.Sparing) (made : Nat) {remaining : Nat} (hroom : P.room < remaining) :
    (s.run made remaining).outcome ≠ .ok .timeout := by
  intro h
  obtain ⟨hsparing, hsize⟩ := run_of_timeout hs h
  have hmoves := (run_moves hc made remaining).1
  have := hsparing.store_size_le (hmoves.within hc hwithin)
  omega

theorem sparing_start (P : Problem) (limit : Nat) :
    (start P.premises P.conclusion limit).Sparing :=
  ⟨List.nodup_nil, fun _ he => nomatch he⟩

end Search

/-- The search for a derivation comes to an end of itself: with a limit that is large enough, whatever
the other settings are, there is a proof, or a pass has derived nothing, or the constants are
exhausted. -/
theorem Context.prove_ends (premises : List Formula) (conclusion : Formula) (kind : ProofType) :
    ∃ N, ∀ ctx : Context, N ≤ ctx.settings.deductionLimit.value →
      (∀ n, .deductionTimeout n ∉ (ctx.prove premises conclusion kind).1.diagnostics) ∧
      ((∃ lines, (ctx.prove premises conclusion kind).2 = .ok (some lines)) ∨
        (ctx.prove premises conclusion kind).2 = .ok none ∧
          ((ctx.prove premises conclusion kind).1.report = .notProved ∨
            (ctx.prove premises conclusion kind).1.report = .unknown ∧
              (ctx.prove premises conclusion kind).1.diagnostics = [.constantsExhausted])) := by
  let P : Problem := ⟨premises, conclusion, kind⟩
  refine ⟨P.room + 1, fun ctx hlimit => ?_⟩
  have hstart := Search.covered_start P ctx.settings.negationLimit.value
  obtain ⟨s, ending, hassume, hmoves, hending, htold⟩ := ctx.prove_told P
  have hturns := Derive.takesTurns_assume _ _ _ _ _ hassume
  have hne : (s.run 0 ctx.settings.deductionLimit.value).outcome ≠ .ok .timeout :=
    Search.outcome_ne_timeout (hmoves.covered hstart)
      (hmoves.within hstart (Search.within_start P _))
      (hturns.sparing (.inr (Search.sparing_start P _))) 0 hlimit
  have hdiagnostics := htold.diagnostics
  cases ending with
  | proved i =>
    refine ⟨fun n hn => ?_, .inl (htold.exists_lines rfl)⟩
    rw [hdiagnostics] at hn
    cases hn
  | constantsExhausted =>
    refine ⟨fun n hn => ?_, .inr ⟨htold.eq_none Report.noConfusion, .inr ⟨htold.report, hdiagnostics⟩⟩⟩
    rw [hdiagnostics] at hn
    cases List.mem_singleton.1 hn
  | timeout => exact absurd hending hne
  | fixpoint =>
    refine ⟨fun n hn => ?_, .inr ⟨htold.eq_none Report.noConfusion, .inl htold.report⟩⟩
    rw [hdiagnostics] at hn
    cases List.mem_singleton.1 hn

/-- A letter equivalent to its own negation gives implications that are transposed and chained into
others with more negations. -/
theorem Context.prove_ends_self_denial : ∃ N, ∀ negations : Nat, ∃ ctx : Context,
    ctx.settings.deductionLimit.value = N ∧ ctx.settings.negationLimit.value = negations ∧
      (∀ n, .deductionTimeout n ∉
        (ctx.prove [.iff (.atom 'Q') (.not (.atom 'Q'))] (.atom 'R') .direct).1.diagnostics) ∧
      ((∃ lines, (ctx.prove [.iff (.atom 'Q') (.not (.atom 'Q'))] (.atom 'R') .direct).2 =
          .ok (some lines)) ∨
        (ctx.prove [.iff (.atom 'Q') (.not (.atom 'Q'))] (.atom 'R') .direct).2 = .ok none ∧
          ((ctx.prove [.iff (.atom 'Q') (.not (.atom 'Q'))] (.atom 'R') .direct).1.report =
              .notProved ∨
            (ctx.prove [.iff (.atom 'Q') (.not (.atom 'Q'))] (.atom 'R') .direct).1.report =
                .unknown ∧
              (ctx.prove [.iff (.atom 'Q') (.not (.atom 'Q'))] (.atom 'R') .direct).1.diagnostics =
                [.constantsExhausted])) := by
  obtain ⟨N, hN⟩ := prove_ends [.iff (.atom 'Q') (.not (.atom 'Q'))] (.atom 'R') .direct
  let settings (negations : Nat) : Settings :=
    { deductionLimit := ⟨"deduction_limit", 1, wordMax, N⟩
      negationLimit := ⟨"negation_limit", 0, negationMax, negations⟩ }
  refine ⟨N, fun negations => ⟨{ settings := settings negations }, rfl, rfl, ?_⟩⟩
  exact hN _ (Nat.le_refl N)

end Sequitur
