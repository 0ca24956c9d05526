import Sequitur.Proofs.Derivation.Economy

/-!
# The rules that look to the conclusion

Some rules are tried for the sake of the conclusion alone: a material implication only gives a goal,
and the introductions only the conclusion. A premise is a goal too, but it has been derived already,
so all that these rules ever add is the conclusion, and with it the search ends. A double negation is
introduced where one more would lead to a goal, and then not again. In every state that a search
passes through what these rules have derived is so directed (`Search.visits_directed`).
-/

namespace Sequitur

open Formula Search

variable {P : Problem} {s s' : Search} {e : Inference} {limit : Nat}

/-- Whether the rule for a step is tried for the sake of the conclusion alone. -/
def Step.isGoalDirected : Step → Bool
  | .materialImplication | .conjunctionIntroduction | .disjunctionIntroduction
  | .biconditionalIntroduction | .existentialIntroduction | .universalIntroduction => true
  | _ => false

namespace Search

/-! ## Nothing comes after the conclusion -/

/-- Whether a search that has not found the conclusion has not derived it, and has derived nothing
after it. -/
structure Conclusive (P : Problem) (s : Search) : Prop where
  conclusion : s.conclusion.formula = P.conclusion
  pending : s.found = none → ∀ e ∈ s.store.inferences, ¬e.formula.structurallyEquals P.conclusion
  last : ∀ e ∈ s.store.inferences.dropLast, ¬e.formula.structurallyEquals P.conclusion

theorem Conclusive.of_rests (hs : s.Conclusive P) (h : s.Rests s') : s'.Conclusive P where
  conclusion := h.conclusion ▸ hs.conclusion
  pending hfound := by
    rw [h.found] at hfound
    rw [h.inferences]
    exact hs.pending hfound
  last := by
    rw [h.inferences]
    exact hs.last

theorem dropLast_drawn (s : Search) (i : Nat) : (s.drawn i).dropLast = [] := by
  unfold drawn
  split <;> rfl

/-- Of what a search derives without trying a rule, only the last can be the conclusion. -/
theorem Sequel.last {f : Formula} {es : List Inference} (h : s.Sequel f es)
    (hc : s.conclusion.formula = P.conclusion) (hP : P.conclusion.Regular) :
    ∀ e ∈ es.dropLast, ¬e.formula.structurallyEquals P.conclusion := by
  cases h with
  | none => exact fun e he => absurd he List.not_mem_nil
  | falsum =>
    rw [dropLast_drawn]
    exact fun e he => absurd he List.not_mem_nil
  | @contradiction is i hf =>
    by_cases hfalsum : P.conclusion.isFalsum
    · rw [drawn, if_pos (hc ▸ hfalsum)]
      exact fun e he => absurd he List.not_mem_nil
    · rw [drawn, if_neg (hc ▸ hfalsum), List.dropLast_cons_cons, List.dropLast_singleton,
        List.forall_mem_singleton]
      intro hequal
      refine hfalsum ?_
      rw [hP.eq_falsum (handed_regular.falsum.symm hP hequal)]
      rfl

theorem Turn.conclusive (h : Turn s s') (hP : P.conclusion.Regular) (hs : s.Conclusive P) :
    s'.Conclusive P := by
  cases h with
  | rest h _ => exact hs.of_rests h
  | learn _ _ => exact ⟨hs.conclusion, hs.pending, hs.last⟩
  | exhaust => exact ⟨hs.conclusion, hs.pending, hs.last⟩
  | @accept _ content step parents hwelcome h hconclusion =>
    have hopen : s.isFinished = false := (of_assess_welcome hwelcome).1
    obtain ⟨hfound, hexhausted⟩ : s.found = none ∧ s.exhausted = false := by
      simpa [Search.isFinished] using hopen
    have hpending := hs.pending hfound
    obtain ⟨es, hstore, hsequel, hnone⟩ := h.inferences
    rw [hs.conclusion] at hnone
    refine ⟨h.conclusion ▸ hs.conclusion, fun hfound' => ?_, ?_⟩
    · have hopen' : ¬s'.isFinished := by
        rw [Search.isFinished, hfound', h.exhausted, hexhausted]
        exact Bool.false_ne_true
      rw [h.finished.resolve_left hopen', List.forall_mem_append, List.forall_mem_singleton]
      refine ⟨hpending, fun hequal => hopen' (hconclusion ?_)⟩
      rw [s.conclusion.form_eq, Keyed.reads_canonical, hs.conclusion]
      exact hequal
    · rw [hstore, List.dropLast_append_of_ne_nil (List.cons_ne_nil _ _), List.forall_mem_append]
      refine ⟨hpending, ?_⟩
      cases es with
      | nil => exact fun e he => absurd he List.not_mem_nil
      | cons d ds =>
        rw [List.dropLast_cons_cons, List.forall_mem_cons]
        exact ⟨fun hequal => List.cons_ne_nil d ds (hnone hequal),
          hsequel.last hs.conclusion hP⟩

/-- What is derived and is the conclusion comes last, and the search has found it. -/
theorem Visits.found_of_structurallyEquals (h : Visits P limit s) (hP : P.conclusion.Regular)
    {i : Nat} (he : s.store.inferences[i]? = some e)
    (hequal : e.formula.structurallyEquals P.conclusion) :
    i + 1 = s.store.size ∧ s.found = some i := by
  have hs : s.Conclusive P := by
    refine h.invariant ?_ (fun s s' hrests hs => hs.of_rests hrests)
      fun s s' hturn hs => hturn.conclusive hP hs
    exact ⟨hP.2.unrooted_eq, fun _ _ he => absurd he List.not_mem_nil,
      fun _ he => absurd he List.not_mem_nil⟩
  have hlast : ∀ {j d}, s.store.inferences[j]? = some d →
      d.formula.structurallyEquals P.conclusion → j + 1 = s.store.size := by
    intro j d hd hequal
    obtain ⟨hlt, -⟩ := List.getElem?_eq_some_iff.1 hd
    rw [Derivations.length_inferences] at hlt
    by_contra hne
    refine hs.last d (List.mem_of_getElem? (i := j) ?_) hequal
    rw [List.getElem?_dropLast, Derivations.length_inferences, if_pos (by omega), hd]
  refine ⟨hlast he hequal, ?_⟩
  cases hfound : s.found with
  | none => exact absurd hequal (hs.pending hfound e (List.mem_of_getElem? he))
  | some j =>
    have hlocated : s.Located := h.moves.located fun j hj => absurd hj (Option.some_ne_none j).symm
    obtain ⟨_, ⟨d, hd, rfl⟩, hlike⟩ := hlocated j hfound
    rw [hs.conclusion] at hlike
    have hi := hlast he hequal
    have hj := hlast hd hlike
    exact congrArg some (by omega)

/-! ## Goals -/

/-- Whether an inference, if it is by a rule that looks ahead, leads to the conclusion or to a
premise. -/
def Aims (s : Search) (e : Inference) : Prop :=
  (e.step = .materialImplication → s.isConclusion e.formula) ∧
  (e.step = .doubleNegationIntroduction → s.isConclusion e.formula ∨
    s.isConclusion (.not (.not e.formula)) ∨
    ∃ d ∈ s.store.inferences, d.step = .premise ∧
      d.formula.structurallyEquals (.not (.not e.formula)))

/-- Whether all that has been derived leads where it should, and the search looks no further ahead
than it may. -/
structure LooksAhead (s : Search) : Prop where
  limit : s.negationLimit ≤ negationMax
  aims : ∀ e ∈ s.store.inferences, s.Aims e

theorem Aims.mono (h : s.Aims e) (hc : s'.conclusion = s.conclusion)
    (hsub : s.store.inferences <+: s'.store.inferences) : s'.Aims e := by
  have hconclusion : ∀ f, s'.isConclusion f = s.isConclusion f := by
    intro f
    rw [isConclusion, isConclusion, hc]
  refine ⟨fun hstep => ?_, fun hstep => ?_⟩
  · rw [hconclusion]
    exact h.1 hstep
  · rw [hconclusion, hconclusion]
    refine (h.2 hstep).imp_right (Or.imp_right ?_)
    rintro ⟨d, hd, hpremise⟩
    exact ⟨d, hsub.subset hd, hpremise⟩

theorem aims_of_not_looksAhead (h : ¬e.step.looksAhead) : s.Aims e := by
  refine ⟨fun hstep => absurd ?_ h, fun hstep => absurd ?_ h⟩
  · rw [hstep]
    rfl
  · rw [hstep]
    rfl

theorem Sequel.not_looksAhead {f : Formula} {es : List Inference} (h : s.Sequel f es) :
    ∀ e ∈ es, ¬e.step.looksAhead := by
  have hdrawn : ∀ i, ∀ e ∈ s.drawn i, ¬e.step.looksAhead := by
    intro i
    unfold drawn
    split
    · exact fun e he => absurd he List.not_mem_nil
    · exact List.forall_mem_singleton.2 Bool.false_ne_true
  cases h with
  | none => exact fun e he => absurd he List.not_mem_nil
  | falsum => exact hdrawn _
  | contradiction => exact List.forall_mem_cons.2 ⟨Bool.false_ne_true, hdrawn _⟩

theorem LooksAhead.of_rests (hs : s.LooksAhead) (h : s.Rests s') : s'.LooksAhead where
  limit := h.negationLimit ▸ hs.limit
  aims e he := by
    rw [h.inferences] at he
    exact (hs.aims e he).mono h.conclusion (by rw [h.inferences])

/-- A search goes on leading where it should if what is added does, provided that it is new. -/
theorem LooksAhead.add {f : Formula} {step : Step} {parents : List Nat} {u : Unit}
    (hs : s.LooksAhead)
    (haims : (∀ d ∈ s.store.inferences, ¬d.formula.structurallyEquals f) →
      s.Aims ⟨f, step, parents⟩)
    (h : Derive.add f step parents s = .ok u s') : s'.LooksAhead := by
  rcases Derive.add_cases h with ⟨hwelcome, haccept⟩ | ⟨-, rfl | ⟨e, rfl⟩⟩
  · obtain ⟨haccepts, -⟩ := Derive.accept_accepts haccept
    obtain ⟨es, hstore, hsequel, -⟩ := haccepts.inferences
    have hnew := haims fun d hd =>
      not_structurallyEquals_of_position? (of_assess_welcome hwelcome).2.1 hd
    have hmono : ∀ {e : Inference}, s.Aims e → s'.Aims e := fun he =>
      he.mono haccepts.conclusion ⟨_, hstore.symm⟩
    refine ⟨haccepts.negationLimit ▸ hs.limit, ?_⟩
    rw [hstore, List.forall_mem_append, List.forall_mem_cons]
    exact ⟨fun e he => hmono (hs.aims e he), hmono hnew,
      fun e he => aims_of_not_looksAhead (hsequel.not_looksAhead e he)⟩
  · exact hs
  · exact hs.of_rests (s.rests_log e)

/-- A goal is the conclusion or a premise that has been taken up. -/
theorem isGoal_cases {f : Formula} (h : s.isGoal f) : s.isConclusion f ∨
    ∃ d ∈ s.store.inferences, d.step = .premise ∧ d.formula.structurallyEquals f := by
  rcases Bool.or_eq_true_iff.1 h with h | h
  · exact .inl h
  · obtain ⟨d, hd, hstep⟩ := (Option.any_eq_true _ _).1 h
    obtain ⟨i, hi, hget⟩ := Option.bind_eq_some_iff.1 hd
    obtain ⟨hlt, hreads, -⟩ := Array.findIdx?_eq_some_iff_getElem.1 hi
    obtain ⟨_, rfl⟩ := Array.getElem?_eq_some_iff.1 hget
    rw [Keyed.form_eq, Keyed.reads_canonical] at hreads
    refine .inr ⟨_, List.mem_map_of_mem (Array.mem_toList_iff.2 (Array.getElem_mem hlt)), ?_, hreads⟩
    exact of_decide_eq_true hstep

/-- Two double negations are as far as a search looks ahead. -/
theorem isGoal_of_reachesGoal {n : Nat} {f : Formula} (hn : n ≤ negationMax)
    (h : Derive.reachesGoal s n f) :
    s.isGoal (.not (.not f)) ∨ s.isGoal (.not (.not (.not (.not f)))) := by
  have hnone : ∀ {g : Formula}, Derive.reachesGoal s 0 g = false ∧ Derive.reachesGoal s 1 g = false :=
    ⟨rfl, rfl⟩
  rcases n with _ | _ | _ | _ | _ | n
  · exact absurd h Bool.false_ne_true
  · exact absurd h Bool.false_ne_true
  · exact .inl (by simpa only [Derive.reachesGoal, hnone.1, Bool.or_false] using h)
  · exact .inl (by simpa only [Derive.reachesGoal, hnone.2, Bool.or_false] using h)
  · simpa only [Derive.reachesGoal, hnone.1, Bool.or_false, Bool.or_eq_true] using h
  · exact absurd hn (by simp [negationMax])

end Search

/-! ## Rules -/

namespace Derive

/-- The rules that do not look ahead add nothing that would have to lead anywhere. -/
theorem spansConstants_looksAhead :
    SpansConstants (fun r => ¬r.looksAhead) fun s s' => s.LooksAhead → s'.LooksAhead where
  refl _ hs := hs
  trans h h' hs := h' (h hs)
  emit s e hs := hs.of_rests (s.rests_log e)
  mark _ _ _ _ hs := hs.of_rests (.of_store (Derivations.inferences_modify fun _ => rfl))
  add hr h hs := hs.add (fun _ => aims_of_not_looksAhead hr) h
  record _ _ _ hs := hs.of_rests (.of_store (Derivations.inferences_modify fun _ => rfl))
  learn _ _ _ hs := ⟨hs.limit, hs.aims⟩
  exhaust _ hs := ⟨hs.limit, hs.aims⟩

/-- A rule that marks what it is tried on, and then adds what leads to a goal. -/
theorem looksAhead_of_mark_add {i : Nat} {f : Formula} {step : Step} {parents : List Nat} {u : Unit}
    (haims : (∀ d ∈ s.store.inferences, ¬d.formula.structurallyEquals f) →
      s.Aims ⟨f, step, parents⟩)
    (h : (do discard (mark i step); add f step parents) s = .ok u s') (hs : s.LooksAhead) :
    s'.LooksAhead := by
  obtain ⟨_, s₁, hmark, hadd⟩ := exists_of_bind_ok h
  obtain ⟨b, hmark⟩ := exists_of_discard_ok hmark
  obtain ⟨hrests, -⟩ := rests_of_mark_ok hmark
  refine (hs.of_rests hrests).add (fun hnew => ?_) hadd
  rw [hrests.inferences] at hnew
  exact (haims hnew).mono hrests.conclusion (by rw [hrests.inferences])

/-- A premise is not added again, so a material implication gives the conclusion. -/
theorem materialImplication_looksAhead (i : Nat) (f : Formula) :
    Relates (fun s s' => s.LooksAhead → s'.LooksAhead) (materialImplication i f) := by
  rw [materialImplication]
  split
  · refine Spans.get fun _ => spansConstants_looksAhead.ite
      (spansConstants_looksAhead.unless_applied i _ ?_)
    intro s u s' h hs
    obtain ⟨_, s₁, hget, h⟩ := exists_of_bind_ok h
    cases hget
    split at h
    · next hgoal =>
      obtain ⟨_, s₂, hemit, h⟩ := exists_of_bind_ok h
      cases hemit
      refine looksAhead_of_mark_add (fun hnew => ⟨fun _ => ?_, Step.noConfusion⟩) h
        (hs.of_rests (s.rests_log _))
      rcases isGoal_cases hgoal with hconclusion | ⟨d, hd, -, hequal⟩
      · exact hconclusion
      · exact absurd hequal (hnew d hd)
    · cases h
      exact hs
  · exact spansConstants_looksAhead.pure ()

/-- A double negation is introduced if it is a goal, and then the conclusion, or if one more is. -/
theorem doubleNegationIntroduction_looksAhead (i : Nat) (f : Formula) :
    Relates (fun s s' => s.LooksAhead → s'.LooksAhead) (doubleNegationIntroduction i f) := by
  refine spansConstants_looksAhead.unless_applied i _ ?_
  intro s u s' h hs
  obtain ⟨_, s₁, hget, h⟩ := exists_of_bind_ok h
  cases hget
  split at h
  · next hgoal =>
    refine looksAhead_of_mark_add (fun hnew => ⟨Step.noConfusion, fun _ => ?_⟩) h hs
    rcases isGoal_of_reachesGoal hs.limit hgoal with hgoal | hgoal
    · rcases isGoal_cases hgoal with hconclusion | ⟨d, hd, -, hequal⟩
      · exact .inl hconclusion
      · exact absurd hequal (hnew d hd)
    · exact .inr (isGoal_cases hgoal)
  · cases h
    exact hs

end Derive

namespace Search

theorem Visits.looksAhead (h : Visits P limit s) (hlimit : limit ≤ negationMax) : s.LooksAhead := by
  have hspans := Derive.spansConstants_looksAhead
  refine h.keeps ⟨hlimit, fun _ he => absurd he List.not_mem_nil⟩
    (fun s hs => hs.of_rests (rests_reset s)) hspans.toSpans Bool.false_ne_true Bool.false_ne_true
    (fun rule hrule i f => ?_) (hspans.introduceConclusion_of_looksAhead fun r hr => hr)
  exact hspans.of_mem_rules_of_looksAhead (fun r hr => hr) hrule i f
    (Derive.materialImplication_looksAhead i f) (Derive.doubleNegationIntroduction_looksAhead i f)

/-! ## What is licensed -/

/-- Whether an inference is what its step allows: an introduction of the conclusion, or two negations
in front of what has been derived. -/
def Fits (P : Problem) (s : Search) (e : Inference) : Prop :=
  (e.step.isGoalDirected → e.step ≠ .materialImplication → e.formula = P.conclusion.unrooted) ∧
  (e.step = .doubleNegationIntroduction →
    ∃ i p, e.parents = [i] ∧ s.Has i p ∧ e.formula = .not (.not p))

theorem Licensed.fits (h : s.Licensed P e) (hs : s.Covered P) : s.Fits P e := by
  cases h with
  | @assumed step f h =>
    cases step with
    | premise => exact ⟨fun h => absurd h Bool.false_ne_true, Step.noConfusion⟩
    | reductioAssumption => exact ⟨fun h => absurd h Bool.false_ne_true, Step.noConfusion⟩
    | _ => exact h.elim
  | inferred hi h =>
    cases h with
    | doubleNegate p =>
      obtain ⟨i, is, hhas, hnil, rfl⟩ := List.forall₂_cons_right_iff.1 hi
      obtain rfl := List.forall₂_nil_right_iff.1 hnil
      exact ⟨fun h => absurd h Bool.false_ne_true, fun _ => ⟨i, p, rfl, hhas, rfl⟩⟩
    | materialImplication => exact ⟨fun _ h => absurd rfl h, Step.noConfusion⟩
    | _ => exact ⟨fun h => absurd h Bool.false_ne_true, Step.noConfusion⟩
  | instantiated => exact ⟨fun h => absurd h Bool.false_ne_true, Step.noConfusion⟩
  | witnessed => exact ⟨fun h => absurd h Bool.false_ne_true, Step.noConfusion⟩
  | introduced _ h =>
    refine ⟨fun _ _ => hs.conclusion, fun hstep => ?_⟩
    dsimp only at hstep
    subst hstep
    cases h
  | generalized => exact ⟨fun _ _ => hs.conclusion, Step.noConfusion⟩

theorem Visits.fits (h : Visits P limit s) : ∀ e ∈ s.store.inferences, s.Fits P e := by
  refine h.moves.forall_licensed (fun s e hs he => he.fits hs) (fun s s' e hsub hfits => ?_)
    (covered_start P limit) fun e he => absurd he List.not_mem_nil
  refine ⟨hfits.1, fun hstep => ?_⟩
  obtain ⟨i, p, hparents, hi, hp⟩ := hfits.2 hstep
  exact ⟨i, p, hparents, hi.of_isPrefix hsub, hp⟩

/-! ## All states -/

/-- Whether what the rules that look to the conclusion have derived is the conclusion, as the last
thing that was derived, and what has been negated twice has the conclusion in view, or a premise two
negations further on. -/
structure Directed (P : Problem) (s : Search) : Prop where
  last : ∀ i e, s.store.inferences[i]? = some e → e.step.isGoalDirected →
    e.formula.structurallyEquals P.conclusion ∧ i + 1 = s.store.size ∧ s.found = some i
  doubled : ∀ e ∈ s.store.inferences, e.step = .doubleNegationIntroduction →
    ∃ i p, e.parents = [i] ∧ s.Has i p ∧ e.formula = .not (.not p) ∧
      (e.formula.structurallyEquals P.conclusion ∨
        ∃ q, (q = P.conclusion ∨ q ∈ P.premises) ∧
          (Formula.not (.not e.formula)).structurallyEquals q)

/-- In every state that a search passes through, the rules that look to the conclusion have derived
that at most, and the search ends with it. -/
theorem visits_directed (hP : P.Regular) (hlimit : limit ≤ negationMax) (h : Visits P limit s) :
    s.Directed P := by
  have hahead := h.looksAhead hlimit
  have hvouches := h.vouches hP
  have hconclusion : s.conclusion.formula = P.conclusion :=
    (h.moves.covered (covered_start P limit)).conclusion.trans hP.conclusion.2.unrooted_eq
  constructor
  · intro i e he hstep
    have hmem : e ∈ s.store.inferences := List.mem_of_getElem? he
    have hequal : e.formula.structurallyEquals P.conclusion := by
      by_cases hmaterial : e.step = .materialImplication
      · have := (hahead.aims e hmem).1 hmaterial
        rwa [isConclusion_eq, hconclusion] at this
      · rw [(h.fits e hmem).1 hstep hmaterial, hP.conclusion.2.unrooted_eq]
        exact structurallyEquals_refl _
    exact ⟨hequal, h.found_of_structurallyEquals hP.conclusion he hequal⟩
  · intro e he hstep
    obtain ⟨i, p, hparents, hi, hp⟩ := (h.fits e he).2 hstep
    refine ⟨i, p, hparents, hi, hp, ?_⟩
    have haims := (hahead.aims e he).2 hstep
    rw [isConclusion_eq, isConclusion_eq, hconclusion] at haims
    refine haims.imp_right fun haims => ?_
    rcases haims with hequal | ⟨d, hd, hpremise, hequal⟩
    · exact ⟨P.conclusion, .inl rfl, hequal⟩
    · have hassumed := hvouches.assumed d hd (by rw [hpremise]; rfl)
      rw [hpremise] at hassumed
      obtain ⟨q, hq, hqd⟩ := hassumed
      rw [(hP.premises q hq).2.unrooted_eq] at hqd
      have hregular : (Formula.not (.not e.formula)).Regular :=
        handed_regular.not.2 (handed_regular.not.2 (hvouches.regular e he))
      exact ⟨q, .inr hq, hqd ▸ (hvouches.regular d hd).symm hregular hequal⟩

/-- From `¬A ∨ B` to `A → B` there is one step, by material implication. From `A` to `¬¬¬¬A` there are
two, by double negation, and the first has the conclusion in view. -/
theorem visits_directed_reached :
    let P : Problem :=
      ⟨[.or (.not (.atom 'A')) (.atom 'B')], .implies (.atom 'A') (.atom 'B'), .direct⟩
    let Q : Problem := ⟨[.atom 'A'], .not (.not (.not (.not (.atom 'A')))), .direct⟩
    (P.Regular ∧ ∃ s, Visits P 4 s ∧ s.store.inferences.map Inference.step =
      [.premise, .materialImplication] ∧ s.Directed P) ∧
    Q.Regular ∧ ∃ s, Visits Q 4 s ∧ s.store.inferences.map Inference.step =
      [.premise, .doubleNegationIntroduction, .doubleNegationIntroduction] ∧ s.Directed Q := by
  intro P Q
  have hregular : ∀ f : Formula, f.Sentence → f.Lacks .root → f.Regular := fun f hf hroot =>
    ⟨hf.lettered, hroot⟩
  have hP : P.Regular :=
    ⟨List.forall_mem_singleton.2 (hregular _ (by decide) (by decide)),
      hregular _ (by decide) (by decide)⟩
  have hQ : Q.Regular :=
    ⟨List.forall_mem_singleton.2 (hregular _ (by decide) (by decide)),
      hregular _ (by decide) (by decide)⟩
  have hsteps : (ending? P 4 3).map (·.store.inferences.map Inference.step) =
      some [.premise, .materialImplication] := by decide +kernel
  have hsteps' : (ending? Q 4 3).map (·.store.inferences.map Inference.step) =
      some [.premise, .doubleNegationIntroduction, .doubleNegationIntroduction] := by decide +kernel
  obtain ⟨s, hs, hsteps⟩ := Option.map_eq_some_iff.1 hsteps
  obtain ⟨s', hs', hsteps'⟩ := Option.map_eq_some_iff.1 hsteps'
  exact ⟨⟨hP, s, visits_of_ending? hs, hsteps,
      visits_directed hP (by decide) (visits_of_ending? hs)⟩,
    hQ, s', visits_of_ending? hs', hsteps', visits_directed hQ (by decide) (visits_of_ending? hs')⟩

end Search

end Sequitur
