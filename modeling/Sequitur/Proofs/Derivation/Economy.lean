import Sequitur.Proofs.Derivation.Inheritance
import Sequitur.Proofs.Derivation.States

/-!
# The economy of a search

A search refuses what it has, what is redundant and what has too long a run of negations, except that
it takes any assumption and the conclusion in any form. What it derives without asking, falsum and
the conclusion when it comes upon a contradiction, was not there before, since either would have ended
it. So over the usual symbols what has been derived is economical in every state that a search passes
through (`Search.visits_economical`).
-/

namespace Sequitur

open Formula Search

variable {P : Problem} {s s' : Search} {e : Inference} {es : List Inference} {limit : Nat}

/-- Whether nothing has been derived twice, both sides of something are equal only in the conclusion,
and a run of more than four negations is only in an assumption or the conclusion. -/
structure Problem.Economical (P : Problem) (es : List Inference) : Prop where
  distinct : es.Pairwise fun d e =>
    ¬d.formula.structurallyEquals e.formula ∧ ¬e.formula.structurallyEquals d.formula
  irredundant : ∀ e ∈ es, ∀ p q, e.formula.operands = some (p, q) → p.structurallyEquals q →
    e.formula.structurallyEquals P.conclusion
  negations : ∀ e ∈ es, 4 < e.formula.negationDepth →
    P.Assumes e.step e.formula ∨ e.formula.structurallyEquals P.conclusion

namespace Problem.Economical

theorem of_isPrefix {ds : List Inference} (h : P.Economical es) (hds : ds <+: es) :
    P.Economical ds where
  distinct := h.distinct.sublist hds.sublist
  irredundant e he := h.irredundant e (hds.subset he)
  negations e he := h.negations e (hds.subset he)

/-- One more inference is economical if it is new and of use. -/
theorem concat (h : P.Economical es) (hregular : ∀ d ∈ es ++ [e], d.formula.Regular)
    (hnew : ∀ d ∈ es, ¬d.formula.structurallyEquals e.formula)
    (hredundant : e.formula.isRedundant → e.formula.structurallyEquals P.conclusion)
    (hnegations : 4 < e.formula.negationDepth →
      P.Assumes e.step e.formula ∨ e.formula.structurallyEquals P.conclusion) :
    P.Economical (es ++ [e]) := by
  rw [List.forall_mem_append, List.forall_mem_singleton] at hregular
  obtain ⟨hold, he⟩ := hregular
  refine ⟨List.pairwise_append.2 ⟨h.distinct, List.pairwise_singleton _ _, ?_⟩, ?_, ?_⟩
  · intro d hd _ hmem
    rw [List.mem_singleton.1 hmem]
    exact ⟨hnew d hd, fun hequal => hnew d hd (he.symm (hold d hd) hequal)⟩
  · rw [List.forall_mem_append, List.forall_mem_singleton]
    refine ⟨h.irredundant, fun p q hoperands hequal => hredundant ?_⟩
    rw [isRedundant, hoperands]
    exact hequal
  · rw [List.forall_mem_append, List.forall_mem_singleton]
    exact ⟨h.negations, hnegations⟩

/-- The conclusion may be added to anything but itself. -/
theorem concat_conclusion {step : Step} {is : List Nat} (h : P.Economical es)
    (hregular : ∀ d ∈ es ++ [⟨P.conclusion, step, is⟩], d.formula.Regular)
    (hnew : ∀ d ∈ es, ¬d.formula.structurallyEquals P.conclusion) :
    P.Economical (es ++ [⟨P.conclusion, step, is⟩]) :=
  h.concat hregular hnew (fun _ => structurallyEquals_refl _) fun _ =>
    .inr (structurallyEquals_refl _)

end Problem.Economical

/-! ## What is known of all that is derived -/

/-- Whether inferences are over the usual symbols, and those by the step of an assumption are
assumptions of the argument. -/
structure Problem.Vouches (P : Problem) (es : List Inference) : Prop where
  regular : ∀ e ∈ es, e.formula.Regular
  assumed : ∀ e ∈ es, e.step.isAssumption → P.Assumes e.step e.formula

theorem Problem.Vouches.of_isPrefix {ds : List Inference} (h : P.Vouches es) (hds : ds <+: es) :
    P.Vouches ds where
  regular e he := h.regular e (hds.subset he)
  assumed e he := h.assumed e (hds.subset he)

theorem Search.Licensed.assumes_of_isAssumption (h : s.Licensed P e) (hstep : e.step.isAssumption) :
    P.Assumes e.step e.formula := by
  cases h with
  | assumed h => exact h
  | inferred _ h => exact absurd hstep h.not_isAssumption
  | introduced _ h => exact absurd hstep h.not_isAssumption
  | _ => cases hstep

theorem Search.Visits.vouches (h : Visits P limit s) (hP : P.Regular) :
    P.Vouches s.store.inferences := by
  have hupholds := h.moves.upholds handed_regular hP.upholds (upholds_start hP.upholds limit)
  refine ⟨fun e he => ?_, h.moves.forall_inference (fun _ _ => Licensed.assumes_of_isAssumption) ?_⟩
  · obtain ⟨i, hi⟩ := List.mem_iff_getElem?.1 he
    exact hupholds.formula i e.formula ⟨e, hi, rfl⟩
  · intro e he
    exact absurd he List.not_mem_nil

/-! ## Turns -/

namespace Search

/-- Whether what a search has derived is economical and, as long as the search goes on, neither falsum
nor the conclusion. -/
structure Thrifty (P : Problem) (s : Search) : Prop where
  conclusion : s.conclusion.formula = P.conclusion
  economical : P.Economical s.store.inferences
  pending : ¬s.isFinished → ∀ e ∈ s.store.inferences,
    ¬e.formula.structurallyEquals P.conclusion ∧ ¬e.formula.isFalsum

theorem Thrifty.of_rests (hs : s.Thrifty P) (h : s.Rests s') : s'.Thrifty P where
  conclusion := h.conclusion ▸ hs.conclusion
  economical := h.inferences ▸ hs.economical
  pending hopen := by
    rw [h.isFinished] at hopen
    rw [h.inferences]
    exact hs.pending hopen

/-- What is welcome may be added. -/
theorem Thrifty.concat {content : Keyed} {step : Step} {parents : List Nat} (hs : s.Thrifty P)
    (hwelcome : s.assess content step = .welcome)
    (hvouches : P.Vouches (s.store.inferences ++ [⟨content.formula, step, parents⟩])) :
    P.Economical (s.store.inferences ++ [⟨content.formula, step, parents⟩]) := by
  obtain ⟨-, hnew, hnegations⟩ := of_assess_welcome hwelcome
  refine hs.economical.concat hvouches.regular ?_ ?_ ?_
  · exact fun d hd => not_structurallyEquals_of_position? hnew hd
  · intro hredundant
    rw [← hs.conclusion]
    exact isRedundant_of_assess_welcome hwelcome hredundant
  · intro hlong
    rcases hnegations with hreads | hstep | hshort
    · rw [s.conclusion.form_eq, Keyed.reads_canonical, hs.conclusion] at hreads
      exact .inr hreads
    · exact .inl (hvouches.assumed _ (List.mem_append_right _ (List.mem_singleton_self _)) hstep)
    · exact absurd hlong (Nat.not_lt.2 hshort)

/-- The conclusion, drawn from falsum, may be added to anything but itself. -/
theorem economical_drawn {i : Nat} (hc : s.conclusion.formula = P.conclusion)
    (h : P.Economical es) (hregular : ∀ d ∈ es ++ s.drawn i, d.formula.Regular)
    (hnew : ¬P.conclusion.isFalsum → ∀ d ∈ es, ¬d.formula.structurallyEquals P.conclusion) :
    P.Economical (es ++ s.drawn i) := by
  unfold drawn at hregular ⊢
  rw [hc] at hregular ⊢
  split
  · rw [List.append_nil]
    exact h
  · next hfalsum =>
    rw [if_neg hfalsum] at hregular
    exact h.concat_conclusion hregular (hnew hfalsum)

/-- What a search derives without trying a rule may be added, as neither falsum nor the conclusion is
there. -/
theorem Sequel.economical {f : Formula} {ds : List Inference} (h : s.Sequel f ds)
    (hc : s.conclusion.formula = P.conclusion) (hes : P.Economical es)
    (hregular : ∀ d ∈ es ++ ds, d.formula.Regular) (hconclusion : P.conclusion.Regular)
    (hnew : ∀ d ∈ es, ¬d.formula.structurallyEquals P.conclusion)
    (hfalsum : ¬f.isFalsum → ∀ d ∈ es, ¬d.formula.isFalsum) : P.Economical (es ++ ds) := by
  cases h with
  | none =>
    rw [List.append_nil]
    exact hes
  | falsum _ => exact economical_drawn hc hes hregular fun _ => hnew
  | contradiction hf =>
    rw [← List.singleton_append, ← List.append_assoc] at hregular ⊢
    have hprefix := (List.forall_mem_append.1 hregular).1
    refine economical_drawn hc (hes.concat hprefix (fun d hd hequal => ?_) ?_ ?_) hregular ?_
    · -- what is structurally equal to falsum is falsum
      have hd' := (List.forall_mem_append.1 hprefix).1 d hd
      refine hfalsum hf d hd ?_
      rw [hd'.eq_falsum hequal]
      rfl
    · exact fun h => absurd h Bool.false_ne_true
    · exact fun h => absurd h (Nat.not_lt_zero 4)
    · intro hnot
      rw [List.forall_mem_append, List.forall_mem_singleton]
      refine ⟨hnew, fun hequal => hnot ?_⟩
      rw [hconclusion.eq_falsum (handed_regular.falsum.symm hconclusion hequal)]
      rfl

/-- A search stays thrifty with every turn. -/
theorem Turn.thrifty (h : Turn s s') (hP : P.Regular) (hvouches : P.Vouches s'.store.inferences)
    (hs : s.Thrifty P) : s'.Thrifty P := by
  cases h with
  | rest h _ => exact hs.of_rests h
  | learn _ _ => exact ⟨hs.conclusion, hs.economical, hs.pending⟩
  | exhaust =>
    refine ⟨hs.conclusion, hs.economical, fun hopen => absurd ?_ hopen⟩
    exact Bool.or_true _
  | @accept _ content step parents hwelcome h hconclusion =>
    have hopen : ¬s.isFinished := Bool.eq_false_iff.1 (of_assess_welcome hwelcome).1
    have hpending := hs.pending hopen
    have hadded := hs.concat hwelcome (hvouches.of_isPrefix h.isPrefix)
    refine ⟨h.conclusion ▸ hs.conclusion, ?_, fun hopen' => ?_⟩
    · obtain ⟨ds, hstore, hsequel, hnone⟩ := h.inferences
      rw [hs.conclusion] at hnone
      have hregular := hvouches.regular
      rw [hstore, List.append_cons] at hregular ⊢
      by_cases hequal : content.formula.structurallyEquals P.conclusion
      · rw [hnone hequal, List.append_nil]
        exact hadded
      · refine hsequel.economical hs.conclusion hadded hregular hP.conclusion ?_ ?_
        · rw [List.forall_mem_append, List.forall_mem_singleton]
          exact ⟨fun d hd => (hpending d hd).1, hequal⟩
        · intro hf
          rw [List.forall_mem_append, List.forall_mem_singleton]
          exact ⟨fun d hd => (hpending d hd).2, hf⟩
    · -- as long as it goes on, the search has taken up just this
      rw [h.finished.resolve_left hopen', List.forall_mem_append, List.forall_mem_singleton]
      refine ⟨hpending, fun hequal => hopen' (hconclusion ?_), fun hf => hopen' (h.falsum hf)⟩
      rw [s.conclusion.form_eq, Keyed.reads_canonical, hs.conclusion]
      exact hequal

theorem thrifty_start (hP : P.Regular) (limit : Nat) :
    (start P.premises P.conclusion limit).Thrifty P where
  conclusion := hP.conclusion.2.unrooted_eq
  economical := ⟨List.Pairwise.nil, fun _ he => absurd he List.not_mem_nil,
    fun _ he => absurd he List.not_mem_nil⟩
  pending _ _ he := absurd he List.not_mem_nil

/-- In every state that a search passes through, what it has derived is economical, and so is what it
had derived at any moment before, since it only ever adds at the end. -/
theorem visits_economical (hP : P.Regular) (h : Visits P limit s) (hes : es <+: s.store.inferences) :
    P.Economical es := by
  have hthrifty : P.Vouches s.store.inferences → s.Thrifty P := by
    refine h.invariant (Q := fun s => P.Vouches s.store.inferences → s.Thrifty P) ?_ ?_ ?_
    · exact fun _ => thrifty_start hP limit
    · intro s s' hrests ih hvouches
      exact (ih (hrests.inferences ▸ hvouches)).of_rests hrests
    · intro s s' hturn ih hvouches
      exact hturn.thrifty hP hvouches (ih (hvouches.of_isPrefix hturn.isPrefix))
  exact (hthrifty (h.vouches hP)).economical.of_isPrefix hes

/-- Of a conjunction of a sixfold negation and `B ∧ (B ∧ B)`, a search derives the second conjunct and
from that `B`, and refuses the others. -/
theorem visits_economical_conjunction :
    let p : Formula := .and (.not (.not (.not (.not (.not (.not (.atom 'A')))))))
      (.and (.atom 'B') (.and (.atom 'B') (.atom 'B')))
    let P : Problem := ⟨[p], .atom 'C', .direct⟩
    P.Regular ∧ ∃ s, Visits P 0 s ∧
      s.store.inferences.map Inference.formula =
        [p, .and (.atom 'B') (.and (.atom 'B') (.atom 'B')), .atom 'B'] ∧
      P.Economical s.store.inferences := by
  intro p P
  have hpremise : p.Sentence := by decide
  have hconclusion : P.conclusion.Sentence := by decide
  have hP : P.Regular :=
    ⟨List.forall_mem_singleton.2 ⟨hpremise.lettered, by decide⟩, hconclusion.lettered, by decide⟩
  have h : (match Derive.assume P.premises P.kind (start P.premises P.conclusion 0) with
      | .ok _ s => some ((s.run 0 3).search.store.inferences.map Inference.formula)
      | .error _ _ => none) =
        some [p, .and (.atom 'B') (.and (.atom 'B') (.atom 'B')), .atom 'B'] := by
    decide +kernel
  split at h
  · next s hassume =>
    have hvisits := (Opens.first hassume).visits_run 3
    exact ⟨hP, _, hvisits, Option.some.inj h, visits_economical hP hvisits (List.prefix_refl _)⟩
  · cases h

end Search

end Sequitur
