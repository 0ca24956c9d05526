import Sequitur.Proofs.Derivation.Instantiation
import Sequitur.Proofs.Derivation.Lines

/-!
# The constants that a search brings in

A search knows the constants of the argument, and brings in others for two reasons: an existential is
instantiated with one that is not known, and where none is known at all a universal is given the
first, which is then arbitrary. The trace tells which existentials were instantiated and with what
(`Search.witnesses`). In every state that a search passes through the three kinds of constants are all
that it knows, and are kept apart (`Search.Visits.attributed`). So the constant of an existential is
new to the argument and to all that was derived before, and what is arbitrary is neither the
argument's nor that of an existential (`Search.visits_unconfused`).
-/

namespace Sequitur

open Formula Search

variable {P : Problem} {limit : Nat} {s s' s'' : Search} {f p : Formula} {i : Nat} {x c : Char}

namespace Search

/-! ## Witnesses -/

/-- The constants that existentials have been instantiated with, in order. -/
def witnesses (s : Search) : List Char := s.trace.toList.filterMap Event.witness?

theorem witnesses_log (s : Search) (e : Event) :
    (s.log e).witnesses = s.witnesses ++ e.witness?.toList := by
  rw [witnesses, witnesses, log, Array.toList_push, List.filterMap_append]
  cases h : e.witness? <;> simp [h]

theorem witnesses_log_of_none {e : Event} (h : e.witness? = none) :
    (s.log e).witnesses = s.witnesses := by
  rw [witnesses_log, h, Option.toList_none, List.append_nil]

/-- Whether two states have the same constants, for the same reasons. -/
structure SameConstants (s s' : Search) : Prop where
  known : s'.known = s.known
  arbitrary : s'.arbitrary = s.arbitrary
  witnesses : s'.witnesses = s.witnesses

theorem SameConstants.refl (s : Search) : s.SameConstants s := ⟨rfl, rfl, rfl⟩

theorem SameConstants.trans (h : s.SameConstants s') (h' : s'.SameConstants s'') :
    s.SameConstants s'' :=
  ⟨h'.known.trans h.known, h'.arbitrary.trans h.arbitrary, h'.witnesses.trans h.witnesses⟩

end Search

namespace Derive

/-! ## Actions without constants -/

theorem relates_same_emit {e : Event} (he : e.witness? = none) :
    Relates SameConstants (emit e) := by
  intro s u s' h
  cases h
  exact ⟨rfl, rfl, witnesses_log_of_none he⟩

theorem relates_same_modify {g : Search → Search} (hg : ∀ s : Search, s.SameConstants (g s)) :
    Relates SameConstants (modify g) := by
  intro s u s' h
  cases h
  exact hg s

theorem relates_same_insert (content : Keyed) (step : Step) (parents : List Nat) :
    Relates SameConstants (insert content step parents) := by
  intro s i s' h
  obtain ⟨-, -, rfl⟩ := eq_of_insert_ok h
  exact ⟨rfl, rfl, rfl⟩

theorem relates_same_mark (i : Nat) (step : Step) : Relates SameConstants (mark i step) := by
  intro s b s' h
  obtain rfl := eq_of_mark_ok h
  exact ⟨rfl, rfl, rfl⟩

theorem relates_same_pure {α : Type} (a : α) : Relates SameConstants (pure a : Derive α) := by
  intro s b s' h
  cases h
  exact .refl s

theorem relates_same_concludeFrom (falsum : Nat) : Relates SameConstants (concludeFrom falsum) := by
  refine Spans.get fun t => ?_
  dsimp only
  split
  · exact relates_same_modify fun _ => ⟨rfl, rfl, rfl⟩
  · refine .bind .trans (relates_same_insert _ _ _) fun _ => ?_
    exact relates_same_modify fun _ => ⟨rfl, rfl, rfl⟩

theorem relates_same_checkContradiction (i : Nat) :
    Relates SameConstants (checkContradiction i) := by
  refine .bind .trans (fun s d s' h => (eq_of_derivation_ok h).2 ▸ .refl s) fun d => ?_
  dsimp only
  split
  · exact relates_same_concludeFrom i
  · refine Spans.get fun t => ?_
    split
    · exact relates_same_pure ()
    · refine .bind .trans (relates_same_emit rfl) fun _ => ?_
      exact .bind .trans (relates_same_insert _ _ _) relates_same_concludeFrom

theorem relates_same_accept (content : Keyed) (step : Step) (parents : List Nat) :
    Relates SameConstants (accept content step parents) := by
  refine .bind .trans (relates_same_emit rfl) fun _ => ?_
  refine .bind .trans (relates_same_insert _ _ _) fun i => ?_
  refine .bind .trans (relates_same_modify fun _ => ⟨rfl, rfl, rfl⟩) fun _ => ?_
  refine .bind .trans ?_ fun _ => Spans.get fun t => ?_
  · rw [markInverse]
    split
    · exact Spans.discard (relates_same_mark i _)
    · exact relates_same_pure ()
  · split
    · exact relates_same_modify fun _ => ⟨rfl, rfl, rfl⟩
    · exact relates_same_checkContradiction i

theorem relates_same_add (f : Formula) (step : Step) (parents : List Nat) :
    Relates SameConstants (add f step parents) := by
  refine Spans.get fun t => ?_
  split
  · exact relates_same_accept _ _ _
  · exact relates_same_emit rfl
  · exact relates_same_emit rfl
  · exact relates_same_pure ()
  · exact relates_same_pure ()

/-- Only the rules for quantifiers have to do with constants. -/
theorem spans_same : Spans (fun _ => True) SameConstants where
  refl := .refl
  trans := .trans
  note _ _ he := ⟨rfl, rfl, witnesses_log_of_none he⟩
  mark _ _ _ _ := ⟨rfl, rfl, rfl⟩
  add _ h := relates_same_add _ _ _ _ _ _ h

end Derive

/-! ## Where constants come from -/

namespace Search

/-- Whether a search knows the constants of the argument, those that are arbitrary and those of
existentials, and no others, and there is none that is of two kinds. -/
structure Attributed (P : Problem) (s : Search) : Prop where
  known : ∀ c, c ∈ s.known ↔ c ∈ P.constants ∨ c ∈ s.arbitrary ∨ c ∈ s.witnesses
  arbitrary : ∀ c ∈ s.arbitrary, c ∉ P.constants ∧ c ∉ s.witnesses
  witness : ∀ c ∈ s.witnesses, isConstantSymbol c ∧ c ∉ P.constants

namespace Attributed

theorem of_same (hs : s.Attributed P) (h : s.SameConstants s') : s'.Attributed P := by
  obtain ⟨hknown, harbitrary, hwitnesses⟩ := h
  constructor
  · rw [hknown, harbitrary, hwitnesses]
    exact hs.known
  · rw [harbitrary, hwitnesses]
    exact hs.arbitrary
  · rw [hwitnesses]
    exact hs.witness

/-- One more constant is known, for an existential. -/
theorem learn (hs : s.Attributed P) (hc : fresh? s.known = some c)
    (hknown : s'.known = s.known.insert c) (harbitrary : s'.arbitrary = s.arbitrary)
    (hwitnesses : s'.witnesses = s.witnesses ++ [c]) : s'.Attributed P := by
  have hnew := not_mem_of_fresh? hc
  rw [hs.known, not_or, not_or] at hnew
  constructor
  · intro d
    rw [hknown, harbitrary, hwitnesses, Symbols.mem_insert, hs.known, List.mem_append,
      List.mem_singleton]
    grind
  · intro d hd
    rw [harbitrary] at hd
    rw [hwitnesses, List.mem_append, List.mem_singleton, not_or]
    refine ⟨(hs.arbitrary d hd).1, (hs.arbitrary d hd).2, ?_⟩
    rintro rfl
    exact hnew.2.1 hd
  · intro d hd
    rw [hwitnesses, List.mem_append, List.mem_singleton] at hd
    rcases hd with hd | rfl
    · exact hs.witness d hd
    · exact ⟨isConstantSymbol_of_mem (mem_constantSymbols_of_fresh? hc), hnew.1⟩

/-- The first constant of all is known, and is arbitrary. -/
theorem seed (hs : s.Attributed P) (hempty : s.known.isEmpty)
    (hknown : s'.known = s.known.insert c) (harbitrary : s'.arbitrary = s.arbitrary.insert c)
    (hwitnesses : s'.witnesses = s.witnesses) : s'.Attributed P := by
  have hnone : ∀ d, ¬(d ∈ P.constants ∨ d ∈ s.arbitrary ∨ d ∈ s.witnesses) := fun d hd =>
    Symbols.isEmpty_iff.1 hempty d ((hs.known d).2 hd)
  constructor
  · intro d
    rw [hknown, harbitrary, hwitnesses, Symbols.mem_insert, Symbols.mem_insert, hs.known]
    grind
  · intro d _
    rw [hwitnesses]
    exact ⟨fun hd => hnone d (.inl hd), fun hd => hnone d (.inr (.inr hd))⟩
  · intro d hd
    rw [hwitnesses] at hd
    exact absurd (.inr (.inr hd)) (hnone d)

end Attributed

theorem attributed_start (P : Problem) (limit : Nat) :
    (start P.premises P.conclusion limit).Attributed P where
  known c := by
    refine ⟨.inl, fun hc => ?_⟩
    rcases hc with hc | hc | hc
    · exact hc
    · exact absurd hc (Symbols.not_mem_empty c)
    · exact absurd hc List.not_mem_nil
  arbitrary c hc := absurd hc (Symbols.not_mem_empty c)
  witness c hc := absurd hc List.not_mem_nil

end Search

namespace Derive

/-- What an existential that is not vacuous brings in: nothing, or the first new constant. -/
theorem existentialElimination_witnesses {u : Unit} (hx : p.mentions x)
    (h : existentialElimination i (.ex x p) s = .ok u s') :
    s.SameConstants s' ∨ ∃ c, fresh? s.known = some c ∧ s'.known = s.known.insert c ∧
      s'.arbitrary = s.arbitrary ∧ s'.witnesses = s.witnesses ++ [c] := by
  rcases existentialElimination_cases hx h with rfl | rfl | ⟨c, hfresh, hadd⟩
  · exact .inl (.refl _)
  · exact .inl ⟨rfl, rfl, witnesses_log_of_none rfl⟩
  · obtain ⟨hknown, harbitrary, hwitnesses⟩ := relates_same_add _ _ _ _ _ _ hadd
    exact .inr ⟨c, hfresh, hknown, harbitrary, hwitnesses.trans (witnesses_log s _)⟩

theorem attributed_existentialElimination (i : Nat) (f : Formula) :
    Relates (fun s s' => s.Attributed P → s'.Attributed P) (existentialElimination i f) := by
  by_cases hf : ∃ x p, f = .ex x p ∧ p.mentions x
  · obtain ⟨x, p, rfl, hx⟩ := hf
    intro s u s' h hs
    rcases existentialElimination_witnesses hx h with hsame | ⟨c, hfresh, hknown, harb, hwit⟩
    · exact hs.of_same hsame
    · exact hs.learn hfresh hknown harb hwit
  · refine existentialElimination_of_not_mentions
      (spans_same.preserves fun _ _ h hs => hs.of_same h) fun x p hp hx => ?_
    exact hf ⟨x, p, hp, hx⟩

theorem attributed_seedConstant :
    Relates (fun s s' => s.Attributed P → s'.Attributed P) seedConstant := by
  intro s u s' h hs
  obtain ⟨t, s₁, hget, h⟩ := exists_of_bind_ok h
  cases hget
  split at h
  · next hempty =>
    obtain ⟨_, s₂, hemit, h⟩ := exists_of_bind_ok h
    cases hemit
    cases h
    exact hs.seed hempty rfl rfl (witnesses_log_of_none rfl)
  · cases h
    exact hs

end Derive

namespace Search

/-- In every state a search knows where its constants come from. -/
theorem Visits.attributed (h : Visits P limit s) : s.Attributed P := by
  have hspans := Derive.spans_same.preserves fun _ _ h (hs : Attributed P _) => hs.of_same h
  refine h.keeps (attributed_start P limit) (fun s hs => hs.of_same ⟨rfl, rfl, rfl⟩) hspans trivial
    trivial (fun rule hrule i f => ?_) (hspans.introduceConclusion fun _ => trivial)
  rw [← List.take_append_drop 13 Derive.rules, List.mem_append] at hrule
  rcases hrule with hrule | hrule
  · exact hspans.of_mem_propositional i f (fun _ => trivial) hrule
  · simp only [Derive.rules, List.drop_succ_cons, List.drop_zero, List.mem_cons, List.not_mem_nil,
      or_false] at hrule
    rcases hrule with rfl | rfl
    · exact Derive.attributed_existentialElimination i f
    · exact hspans.universalElimination (fun s i c hs => hs.of_same ⟨rfl, rfl, rfl⟩)
        Derive.attributed_seedConstant trivial i f

/-! ## Freshness -/

/-- Whether neither the argument nor any of the inferences has the constant. -/
structure IsNew (P : Problem) (es : List Inference) (c : Char) : Prop where
  premises : ∀ p ∈ P.premises, c ∉ p.constants
  conclusion : c ∉ P.conclusion.constants
  derived : ∀ e ∈ es, c ∉ e.formula.constants

theorem isNew_iff {es : List Inference} :
    IsNew P es c ↔ c ∉ P.constants ∧ ∀ e ∈ es, c ∉ e.formula.constants := by
  rw [Problem.mem_constants, not_or]
  constructor
  · exact fun h => ⟨⟨h.conclusion, fun ⟨p, hp, hc⟩ => h.premises p hp hc⟩, h.derived⟩
  · exact fun h => ⟨fun p hp hc => h.1.2 ⟨p, hp, hc⟩, h.1.1, h.2⟩

/-- Whether an inference that came `k`-th repeats the body of a vacuous existential, or is an instance of
another existential with a constant that was new. -/
def CameNew (P : Problem) (s : Search) (k : Nat) (e : Inference) : Prop :=
  ∃ i x p, e.parents = [i] ∧ s.Has i (.ex x p) ∧
    (¬p.mentions x ∧ e.formula = p ∨
      p.mentions x ∧ ∃ c ∈ s.witnesses, isConstantSymbol c ∧ e.formula = p.substitute x c .const ∧
        IsNew P (s.store.inferences.take k) c)

/-- Whether, after the existential `(∃x)p` was tried, it has been left alone or instantiated with a new
constant, and the instance is stored next if there is use for it. -/
def TakesNew (P : Problem) (s s' : Search) (i : Nat) (x : Char) (p : Formula) : Prop :=
  (s'.witnesses = s.witnesses ∧ s'.store.inferences = s.store.inferences) ∨
    ∃ c, s'.witnesses = s.witnesses ++ [c] ∧ isConstantSymbol c ∧ IsNew P s.store.inferences c ∧
      (s'.store.inferences = s.store.inferences ∨ s.store.inferences ++
        [⟨p.substitute x c .const, .existentialElimination, [i]⟩] <+: s'.store.inferences)

/-- Whether no constant that a search has brought in, or may bring in next for an existential, can be
taken for another. -/
structure Unconfused (P : Problem) (s : Search) : Prop where
  known : ∀ e ∈ s.store.inferences, ∀ c ∈ e.formula.constants, c ∈ s.known
  stored : ∀ k e, s.store.inferences[k]? = some e → e.step = .existentialElimination →
    s.CameNew P k e
  tried : ∀ i x p s', p.mentions x → Derive.existentialElimination i (.ex x p) s = .ok () s' →
    s.TakesNew P s' i x p
  arbitrary : ∀ c ∈ s.arbitrary,
    (∀ p ∈ P.premises, c ∉ p.constants) ∧ c ∉ P.conclusion.constants ∧ c ∉ s.witnesses

theorem Covered.mem_known (hs : s.Covered P) {e : Inference} (he : e ∈ s.store.inferences)
    (hc : c ∈ e.formula.constants) : c ∈ s.known := by
  obtain ⟨j, hj⟩ := List.mem_iff_getElem?.1 he
  exact hs.derived j e.formula ⟨e, hj, rfl⟩ c hc

/-- What the search does not know is new. -/
theorem Covered.isNew (hs : s.Covered P) (hc : c ∉ s.known) : IsNew P s.store.inferences c :=
  isNew_iff.2 ⟨fun h => hc (hs.argument c h), fun _ he h => hc (hs.mem_known he h)⟩

/-- A constant of something derived that is neither the argument's nor arbitrary is that of an
existential. -/
theorem Attributed.mem_witnesses (hs : s.Attributed P) (hc : c ∈ s.known) (hP : c ∉ P.constants)
    (harbitrary : c ∉ s.arbitrary) : c ∈ s.witnesses :=
  (((hs.known c).1 hc).resolve_left hP).resolve_left harbitrary

theorem Visits.cameNew (h : Visits P limit s) {k : Nat} {e : Inference}
    (he : s.store.inferences[k]? = some e) (hstep : e.step = .existentialElimination) :
    s.CameNew P k e := by
  have hs := h.attributed
  have hcovered := h.moves.covered (covered_start P limit)
  obtain ⟨cited, hcited, hfollows⟩ :=
    h.moves.grounded (covered_start P limit) (grounded_start P limit) k e he
  rw [hstep] at hfollows
  obtain ⟨x, p, hps, hcases⟩ := hfollows.of_existentialElimination
  obtain ⟨i, d, hparents, hi, hd⟩ := hcited.exists_of_map_eq_singleton hps
  refine ⟨i, x, p, hparents, ⟨d, hi, hd⟩, hcases.imp_right ?_⟩
  rintro ⟨hx, c, hformula, hargument, harbitrary, hfresh⟩
  -- The constant is known, since it is in the instance, and for no reason but an existential.
  have hknown : c ∈ s.known := by
    refine hcovered.mem_known (List.mem_of_getElem? he) ?_
    rw [hformula]
    exact mem_constants_substitute_self hx
  have hc := hs.mem_witnesses hknown hargument harbitrary
  refine ⟨hx, c, hc, (hs.witness c hc).1, hformula, isNew_iff.2 ⟨hargument, fun g hg => ?_⟩⟩
  exact hfresh _ (List.mem_map_of_mem hg)

theorem Visits.takesNew (h : Visits P limit s) (hx : p.mentions x)
    (htry : Derive.existentialElimination i (.ex x p) s = .ok () s') : s.TakesNew P s' i x p := by
  have hcovered := h.moves.covered (covered_start P limit)
  rcases Derive.existentialElimination_cases hx htry with rfl | rfl | ⟨c, hfresh, hadd⟩
  · exact .inl ⟨rfl, rfl⟩
  · exact .inl ⟨witnesses_log_of_none rfl, rfl⟩
  · have hmarked := s.store.inferences_addMark i .existentialElimination
    have hwitnesses := (Derive.relates_same_add _ _ _ _ _ _ hadd).witnesses
    refine .inr ⟨c, hwitnesses.trans (witnesses_log s _), isConstantSymbol_of_mem
      (mem_constantSymbols_of_fresh? hfresh), hcovered.isNew (not_mem_of_fresh? hfresh), ?_⟩
    rcases Derive.add_cases hadd with ⟨-, haccept⟩ | ⟨-, rfl | ⟨e, rfl⟩⟩
    · have hstored := (Derive.accept_accepts haccept).1.isPrefix
      rw [hmarked] at hstored
      exact .inr hstored
    · exact .inl hmarked
    · exact .inl hmarked

/-- In every state that a search passes through, whatever the argument: all constants of what has been
derived are known; an existential is instantiated with a constant that is new; and what is arbitrary
is new to the argument and is not the constant of an existential. -/
theorem visits_unconfused (h : Visits P limit s) : s.Unconfused P where
  known e he c hc := (h.moves.covered (covered_start P limit)).mem_known he hc
  stored _ _ he hstep := h.cameNew he hstep
  tried _ _ _ _ hx htry := h.takesNew hx htry
  arbitrary c hc := by
    obtain ⟨hargument, hwitnesses⟩ := h.attributed.arbitrary c hc
    rw [Problem.mem_constants, not_or] at hargument
    exact ⟨fun p hp hcp => hargument.2 ⟨p, hp, hcp⟩, hargument.1, hwitnesses⟩

/-- From `(∀x)Fx ∧ (∃y)Gy` a search derives `Fa` for an arbitrary `a`, and then `Gb`. -/
theorem visits_unconfused_arbitrary :
    let P : Problem := ⟨[.and (.all 'x' (.predicate 'F' [.var 'x']))
      (.ex 'y' (.predicate 'G' [.var 'y']))], .atom 'C', .direct⟩
    ∃ s, Visits P 0 s ∧ s.arbitrary.members = ['a'] ∧ s.witnesses = ['b'] ∧
      s.store.inferences[4]? =
        some ⟨.predicate 'G' [.const 'b'], .existentialElimination, [2]⟩ ∧ s.Unconfused P := by
  intro P
  have h : (ending? P 0 2).map (fun s => (s.arbitrary.members, s.witnesses,
      s.store.inferences[4]?)) = some (['a'], ['b'],
        some ⟨.predicate 'G' [.const 'b'], .existentialElimination, [2]⟩) := by
    decide +kernel
  obtain ⟨s, hs, hdata⟩ := Option.map_eq_some_iff.1 h
  obtain ⟨harbitrary, hrest⟩ := Prod.mk.inj hdata
  obtain ⟨hwitnesses, hstored⟩ := Prod.mk.inj hrest
  have hvisits := visits_of_ending? hs
  exact ⟨s, hvisits, harbitrary, hwitnesses, hstored, visits_unconfused hvisits⟩

end Search

end Sequitur
