import Sequitur.Proofs.Derivation.Termination

/-!
# The states that a search passes through

Between two passes a search is in a state from which the next pass begins (`Search.Opens`). Beyond
these it comes by a state after each premise, after each rule that is tried on a derivation, and
after each derivation that a pass has gone through (`Search.Visits`). Such states are reached by moves
and by turns, so what moves or turns preserve is true of all of them, and the search ends in one. In
none of them can it fail (`Search.Visits.unfailing`).
-/

namespace Sequitur

open Search

namespace Search

/-- The states in which a number of passes have been made and the next begins. -/
inductive Opens (P : Problem) (limit : Nat) : Nat → Search → Prop
  | first {s : Search}
    (h : Derive.assume P.premises P.kind (start P.premises P.conclusion limit) = .ok () s) :
    Opens P limit 0 s
  | next {n added : Nat} {s s' : Search} (h : Opens P limit n s) (hopen : ¬s.isFinished)
    (hpass : Derive.pass s = .ok added s') :
    Opens P limit (n + 1) (s'.log (.passed (n + 1) added))

/-- The states that a search passes through. -/
inductive Visits (P : Problem) (limit : Nat) : Search → Prop
  /-- Some premises have been taken up. -/
  | assuming {k : Nat} {s : Search}
    (h : Derive.addPremises ((orderPremises P.premises).take k)
      (start P.premises P.conclusion limit) = .ok () s) : Visits P limit s
  | opens {n : Nat} {s : Search} (h : Opens P limit n s) : Visits P limit s
  /-- A pass has tried all rules on the derivations before an index. -/
  | sweeping {n i : Nat} {s s' : Search} (h : Opens P limit n s) (hopen : ¬s.isFinished)
    (hi : i ≤ s.store.size) (hsweep : Derive.sweep 0 i { s with added := 0 } = .ok () s') :
    Visits P limit s'
  /-- It has then tried some rules on the derivation at that index. -/
  | trying {n i k : Nat} {d : Derivation} {s s₁ s₂ : Search} (h : Opens P limit n s)
    (hopen : ¬s.isFinished) (hi : i < s.store.size)
    (hsweep : Derive.sweep 0 i { s with added := 0 } = .ok () s₁) (hopen₁ : ¬s₁.isFinished)
    (hd : s₁.store.get? i = some d)
    (htry : Derive.tryAll i d.formula (Derive.rules.take k) s₁ = .ok () s₂) : Visits P limit s₂
  | proved {n i : Nat} {s : Search} (h : Opens P limit n s) (hfound : s.found = some i) :
    Visits P limit (s.log (.proved n))

variable {P : Problem} {limit : Nat} {s s' : Search}

theorem rests_reset (s : Search) : s.Rests { s with added := 0 } := ⟨rfl, rfl, rfl, rfl, rfl, rfl, rfl⟩

/-! ## Moves -/

theorem Opens.moves {n : Nat} (h : Opens P limit n s) :
    Moves P (start P.premises P.conclusion limit) s := by
  have hstart := covered_start P limit
  induction h with
  | first h => exact (Derive.assume_proceeds hstart).moves h
  | next _ _ hpass ih =>
    have hmoves := (Derive.pass_proceeds (ih.covered hstart)).moves hpass
    exact (ih.trans hmoves).trans (rests_log _ _).moves

theorem Opens.moves_sweep {n i : Nat} (h : Opens P limit n s) (hi : i ≤ s.store.size)
    (hsweep : Derive.sweep 0 i { s with added := 0 } = .ok () s') :
    Moves P (start P.premises P.conclusion limit) s' := by
  have hmoves := h.moves.trans (rests_reset s).moves
  have hcovered := hmoves.covered (covered_start P limit)
  have hcount : 0 + i ≤ s.store.size := by omega
  exact hmoves.trans ((Derive.sweep_proceeds hcovered hcount).moves hsweep)

/-- A state that a search passes through is reached by moves. -/
theorem Visits.moves (h : Visits P limit s) : Moves P (start P.premises P.conclusion limit) s := by
  cases h with
  | assuming h =>
    refine (Derive.addPremises_proceeds fun p hp => ?_).moves h
    exact Derive.mem_orderPremises (List.mem_of_mem_take hp)
  | opens h => exact h.moves
  | sweeping h _ hi hsweep => exact h.moves_sweep hi hsweep
  | trying h _ hi hsweep _ hd htry =>
    have hmoves := h.moves_sweep (Nat.le_of_lt hi) hsweep
    have hcovered := hmoves.covered (covered_start P limit)
    refine hmoves.trans ((Derive.tryAll_proceeds ?_ hcovered (has_iff.2 ⟨_, hd, rfl⟩)).moves htry)
    exact fun rule hrule => Derive.lawful_of_mem_rules (List.mem_of_mem_take hrule)
  | proved h _ => exact h.moves.trans (rests_log _ _).moves

/-! ## Invariants -/

section Invariant

variable {Q : Search → Prop} {R : Step → Prop}
  (hstart : Q (start P.premises P.conclusion limit))
  (hreset : ∀ s, Q s → Q { s with added := 0 })

section Actions

variable (hspans : Derive.Spans R fun s s' => Q s → Q s') (hpremise : R .premise)
  (hassumption : R .reductioAssumption)
  (hrules : ∀ rule ∈ Derive.rules, ∀ i f, Derive.Relates (fun s s' => Q s → Q s') (rule i f))
  (hintroduce : Derive.Relates (fun s s' => Q s → Q s') Derive.introduceConclusion)

include hstart hreset hspans hpremise hassumption hrules hintroduce

theorem Opens.keeps {n : Nat} (h : Opens P limit n s) : Q s := by
  induction h with
  | first h => exact hspans.assume hpremise hassumption _ _ _ _ _ h hstart
  | @next n added s s' _ _ hpass ih =>
    obtain ⟨s₁, hsweep, hs', -⟩ := Derive.pass_cases hpass
    have hswept := hspans.sweep hrules _ _ _ _ _ hsweep (hreset s ih)
    refine hspans.note _ _ rfl ?_
    rcases hs' with rfl | hok
    · exact hswept
    · exact hintroduce _ _ _ hok hswept

/-- What is true at the start, and stays true when the count of a pass begins anew, across the basic
actions and across the rules, is true of all states that a search passes through. -/
theorem Visits.keeps (h : Visits P limit s) : Q s := by
  have hopens : ∀ {n s}, Opens P limit n s → Q s := fun h =>
    h.keeps hstart hreset hspans hpremise hassumption hrules hintroduce
  cases h with
  | assuming h => exact hspans.addPremises hpremise _ _ _ _ h hstart
  | opens h => exact hopens h
  | @sweeping n i s _ h _ _ hsweep =>
    exact hspans.sweep hrules _ _ _ _ _ hsweep (hreset s (hopens h))
  | @trying n i k d s _ _ h _ _ hsweep _ _ htry =>
    have hswept := hspans.sweep hrules _ _ _ _ _ hsweep (hreset s (hopens h))
    refine hspans.tryAll (fun rule hrule => ?_) _ _ _ htry hswept
    exact hrules rule (List.mem_of_mem_take hrule) i d.formula
  | proved h _ => exact hspans.note _ _ rfl (hopens h)

end Actions

/-! ## Turns -/

theorem Turns.invariant (hturn : ∀ s s', Turn s s' → Q s → Q s') (h : Turns s s') (hs : Q s) :
    Q s' := by
  induction h with
  | refl => exact hs
  | tail _ h ih => exact hturn _ _ h ih

/-- What is true at the start, and stays true when little changes and with every turn, is true of all
states that a search passes through. -/
theorem Visits.invariant (hstart : Q (start P.premises P.conclusion limit))
    (hrests : ∀ s s', s.Rests s' → Q s → Q s') (hturn : ∀ s s', Turn s s' → Q s → Q s')
    (h : Visits P limit s) : Q s := by
  have hturns : ∀ {s s'}, Turns s s' → Q s → Q s' := fun h => h.invariant hturn
  have hspans := Derive.spansConstants_turns.preserves fun _ _ => hturns
  refine h.keeps hstart (fun s => hrests _ _ (rests_reset s)) hspans trivial trivial ?_ ?_
  · exact fun rule hrule i f s u s' hok => hturns (Derive.takesTurns_of_mem_rules hrule i f s u s' hok)
  · exact fun s u s' hok => hturns (Derive.takesTurns_introduceConclusion s u s' hok)

end Invariant

/-! ## The end -/

/-- The state in which a search ends is one that it passes through. -/
theorem Opens.visits_run {n : Nat} (h : Opens P limit n s) (remaining : Nat) :
    Visits P limit (s.run n remaining).search := by
  fun_induction Search.run s n remaining with
  | case1 _ s n i hfound => exact .proved h hfound
  | case2 => exact .opens h
  | case3 => exact .opens h
  | case4 s n _ _ _ e s' herror =>
    have hcovered := h.moves.covered (covered_start P limit)
    obtain ⟨a, s₁, hok, -⟩ := Derive.pass_proceeds hcovered
    rw [hok] at herror
    cases herror
  | case5 s n hfound hexhausted _ added s' hpass t hdone =>
    exact .opens (.next h (not_isFinished hfound hexhausted) hpass)
  | case6 s n hfound hexhausted _ added s' hpass t hdone ih =>
    exact ih (.next h (not_isFinished hfound hexhausted) hpass)

/-- The state in which the search for a proof ends, if it may make so many passes. -/
def ending? (P : Problem) (limit passes : Nat) : Option Search :=
  ((Derive.assume P.premises P.kind >>= fun _ => get).run' (start P.premises P.conclusion limit)).map
    fun s => (s.run 0 passes).search

theorem visits_of_ending? {passes : Nat} (h : ending? P limit passes = some s) :
    Visits P limit s := by
  obtain ⟨s₀, h₀, rfl⟩ := Option.map_eq_some_iff.1 h
  change (EStateM.bind (Derive.assume P.premises P.kind) (fun _ => EStateM.get)).run' _ = _ at h₀
  delta EStateM.run' EStateM.run EStateM.bind at h₀
  cases hassume : Derive.assume P.premises P.kind (start P.premises P.conclusion limit) with
  | ok u s₁ =>
    rw [hassume] at h₀
    obtain rfl := Option.some.inj h₀
    exact (Opens.first hassume).visits_run passes
  | error cause s₁ =>
    rw [hassume] at h₀
    cases h₀

/-! ## No errors -/

/-- Whether nothing that a search may do next ends with an error. -/
structure Unfailing (s : Search) : Prop where
  rules : ∀ rule ∈ Derive.rules, ∀ i d, s.store.get? i = some d →
    ∃ s', rule i d.formula s = .ok () s'
  introduction : ∃ s', Derive.introduceConclusion s = .ok () s'
  pass : ∃ added s', Derive.pass s = .ok added s'
  proof : ∀ i, s.found = some i → ∃ lines s', Derive.finish i s = .ok lines s'

theorem Visits.unfailing (h : Visits P limit s) : s.Unfailing := by
  have hcovered := h.moves.covered (covered_start P limit)
  constructor
  · intro rule hrule i d hd
    obtain ⟨_, s', hok, -⟩ :=
      Derive.lawful_of_mem_rules hrule P s i d.formula hcovered (has_iff.2 ⟨d, hd, rfl⟩)
    exact ⟨s', hok⟩
  · obtain ⟨_, s', hok, -⟩ := Derive.introduceConclusion_proceeds (P := P) (s := s)
    exact ⟨s', hok⟩
  · obtain ⟨added, s', hok, -⟩ := Derive.pass_proceeds hcovered
    exact ⟨added, s', hok⟩
  · exact fun i hi => exists_finish h.moves hi

end Search

/-- The way from an argument to a proof never ends with an error, whatever the formulas are, and at
none of the states on it is there an error to be had. -/
theorem Context.prove_unfailing (ctx : Context) (premises : List Formula) (conclusion : Formula)
    (kind : ProofType) :
    (∃ lines?, (ctx.prove premises conclusion kind).2 = .ok lines?) ∧
      ∀ s, Visits ⟨premises, conclusion, kind⟩ ctx.settings.negationLimit.value s → s.Unfailing := by
  obtain ⟨_, ending, -, -, -, htold⟩ := ctx.prove_told ⟨premises, conclusion, kind⟩
  obtain ⟨lines?, hlines, -⟩ := htold.lines
  exact ⟨⟨lines?, hlines⟩, fun s hs => hs.unfailing⟩

/-- A variable, conjoined with an identity of what is no term, is proved from the conjunction. -/
theorem Context.prove_unfailing_misplaced :
    let ctx : Context := {}
    let P : Problem := ⟨[.root (.and (.var 'x') (.identity .falsum (.atom 'A')))], .var 'x', .direct⟩
    (∃ lines?, (ctx.prove P.premises P.conclusion P.kind).2 = .ok lines?) ∧
      ∃ s, Visits P ctx.settings.negationLimit.value s ∧ s.found = some 1 ∧
        ∃ lines s', Derive.finish 1 s = .ok lines s' := by
  intro ctx P
  obtain ⟨hprove, hvisits⟩ := ctx.prove_unfailing P.premises P.conclusion P.kind
  refine ⟨hprove, ?_⟩
  have h : (match Derive.assume P.premises P.kind
        (start P.premises P.conclusion ctx.settings.negationLimit.value) with
      | .ok _ s => (s.run 0 3).search.found
      | .error _ _ => none) = some 1 := by
    decide +kernel
  split at h
  · next s hassume =>
    have hs := (Opens.first hassume).visits_run 3
    exact ⟨_, hs, h, (hvisits _ hs).proof 1 h⟩
  · cases h

end Sequitur
