import Sequitur.Proofs.Derivation.LastPass

/-!
# Universals and the constants of a search

A universal is instantiated with every constant that the search knows when its turn comes in a pass.
An existential later in the list may bring in another constant, even if the search then has no use
for the instance. If such a pass derives nothing else, it is the last one, and the universal is never
tried with that constant.

Those are the only constants that a universal can miss when a search is reported as not proved
(`Context.exists_instantiated`). They are wasted: nothing that was derived has them, nor has the
argument.
-/

namespace Sequitur

open Formula Search

variable {P : Problem} {s s' : Search} {f p : Formula} {i j : Nat} {x c : Char} {u : Unit}

namespace Search

/-- Whether a constant was brought in for the existential at an index, whose instance the search had
no use for, and is found nowhere else. -/
structure Wasted (P : Problem) (s : Search) (j : Nat) (c : Char) : Prop where
  argument : c ∉ P.constants
  derived : ∀ i f, s.Has i f → c ∉ f.constants
  refused : ∃ x p, s.Has j (.ex x p) ∧ p.mentions x ∧ s.Handles (p.substitute x c .const)

theorem Wasted.of_inferences (h : s.Wasted P j c)
    (hs : s'.store.inferences = s.store.inferences) : s'.Wasted P j c := by
  obtain ⟨x, p, hj, hx, hp⟩ := h.refused
  have hprefix : s.store.inferences <+: s'.store.inferences := hs ▸ List.prefix_refl _
  refine ⟨h.argument, fun i f hi => h.derived i f (hi.of_isPrefix (hs ▸ List.prefix_refl _)), ?_⟩
  exact ⟨x, p, hj.of_isPrefix hprefix, hx, hp.of_isPrefix hprefix⟩

/-- Whether the derivation at an index, if it is a universal that is not vacuous, has been
instantiated with every known constant but those that were wasted on existentials after it. -/
def Instantiates (P : Problem) (s : Search) (i : Nat) : Prop :=
  ∀ d x p, s.store.get? i = some d → d.formula = .all x p → p.mentions x →
    ¬s.known.isEmpty ∧ ∀ c ∈ s.known, c ∈ d.instantiated ∨ ∃ j, i < j ∧ s.Wasted P j c

theorem Instantiates.of_grows (h : s.Instantiates P i)
    (hs : s'.store.inferences = s.store.inferences) (hgrows : s.store.Grows s'.store)
    (hknown : ¬s.known.isEmpty → ¬s'.known.isEmpty ∧
      ∀ c ∈ s'.known, c ∈ s.known ∨ ∃ j, i < j ∧ s'.Wasted P j c) : s'.Instantiates P i := by
  intro d' x p hd' hformula hx
  have hi : s'.Has i (.all x p) := has_iff.2 ⟨d', hd', hformula⟩
  have hold : s.Has i (.all x p) := hi.of_isPrefix (hs ▸ List.prefix_refl _)
  obtain ⟨d, hd, hformula⟩ := has_iff.1 hold
  obtain ⟨e, he, hkeeps⟩ := hgrows i d hd
  obtain rfl : d' = e := Option.some.inj (hd'.symm.trans he)
  obtain ⟨hnonempty, hinstantiated⟩ := h d x p hd hformula hx
  obtain ⟨hnonempty', hold⟩ := hknown hnonempty
  refine ⟨hnonempty', fun c hc => ?_⟩
  rcases hold c hc with hc | hwasted
  · rcases hinstantiated c hc with hc | ⟨j, hij, hwasted⟩
    · exact .inl (hkeeps.instantiated c hc)
    · exact .inr ⟨j, hij, hwasted.of_inferences hs⟩
  · exact .inr hwasted

end Search

namespace Derive

/-! ## Constants across actions -/

theorem known_eq_of_add {r : Step} {parents : List Nat} (h : add f r parents s = .ok u s') :
    s'.known = s.known := by
  rcases add_cases h with ⟨-, haccept⟩ | ⟨-, rfl | ⟨e, rfl⟩⟩
  · exact (accept_accepts haccept).1.known
  · rfl
  · rfl

/-- Only the rules for quantifiers bring in constants. -/
theorem spans_known : Spans (fun _ => True) fun s s' => s'.known = s.known where
  refl _ := rfl
  trans h h' := h'.trans h
  note _ _ _ := rfl
  mark _ _ _ _ := rfl
  add _ h := known_eq_of_add h

/-- An existential that is not vacuous has been tried, finds no constant, or is marked and its instance
with the first new constant is added. -/
theorem existentialElimination_cases (hx : p.mentions x)
    (h : existentialElimination i (.ex x p) s = .ok u s') :
    s' = s ∨ s' = { s.log (.withoutConstant (.ex x p)) with exhausted := true } ∨
      ∃ c, fresh? s.known = some c ∧
        add (p.substitute x c .const) .existentialElimination [i]
          { s.log (.instantiatedWith (.ex x p) c) with
            store := s.store.addMark i .existentialElimination
            known := s.known.insert c } = .ok u s' := by
  have hvacuous : ¬(Formula.ex x p).isVacuous := by
    rw [isVacuous, hx]
    exact Bool.false_ne_true
  rw [existentialElimination] at h
  rcases unless_applied_cases h with h | ⟨rfl, -⟩
  · rw [if_neg hvacuous] at h
    obtain ⟨t, s₁, hget, h⟩ := exists_of_bind_ok h
    cases hget
    cases hfresh : fresh? s.known with
    | none =>
      rw [hfresh] at h
      cases h
      exact .inr (.inl rfl)
    | some c =>
      rw [hfresh] at h
      obtain ⟨g, s₁, hinstance, h⟩ := exists_of_bind_ok h
      obtain ⟨hg, hs₁⟩ := eq_of_instanceOf_ok hinstance
      rw [hs₁] at h
      cases hg
      obtain ⟨_, s₂, hemit, h⟩ := exists_of_bind_ok h
      cases hemit
      obtain ⟨_, s₃, hmark, h⟩ := exists_of_bind_ok h
      obtain ⟨b, hmark⟩ := exists_of_discard_ok hmark
      obtain rfl := eq_of_mark_ok hmark
      obtain ⟨_, s₄, hlearn, h⟩ := exists_of_bind_ok h
      cases hlearn
      exact .inr (.inr ⟨c, rfl, h⟩)
  · exact .inl rfl

/-- What is not an existential, or is a vacuous one, brings in nothing. -/
theorem existentialElimination_of_not_mentions {Rel : Search → Search → Prop}
    (hspans : Spans (fun _ => True) Rel) (hf : ∀ x p, f = .ex x p → ¬p.mentions x) :
    Relates Rel (existentialElimination i f) := by
  rw [existentialElimination.eq_def]
  split
  · next x p =>
    have hvacuous : (Formula.ex x p).isVacuous := by simpa [isVacuous] using hf x p rfl
    refine hspans.unless_applied i _ ?_
    rw [if_pos hvacuous]
    exact hspans.discard_mark_add i p trivial [i]
  · exact hspans.pure ()

/-- An existential brings in at most one constant, which is new, and its instance is offered. -/
theorem existentialElimination_known (h : existentialElimination i f s = .ok u s') :
    s'.known = s.known ∨ ∃ x p c, f = .ex x p ∧ p.mentions x ∧ c ∉ s.known ∧
      s'.known = s.known.insert c ∧ (s'.isFinished ∨ s'.Handles (p.substitute x c .const)) := by
  by_cases hf : ∃ x p, f = .ex x p ∧ p.mentions x
  · obtain ⟨x, p, rfl, hx⟩ := hf
    rcases existentialElimination_cases hx h with rfl | rfl | ⟨c, hfresh, hadd⟩
    · exact .inl rfl
    · exact .inl rfl
    · exact .inr ⟨x, p, c, rfl, hx, not_mem_of_fresh? hfresh, known_eq_of_add hadd, add_handles hadd⟩
  · refine .inl (existentialElimination_of_not_mentions spans_known (fun x p hp hx => ?_) _ _ _ h)
    exact hf ⟨x, p, hp, hx⟩

theorem instantiateEach_records {cs : List Char} (h : instantiateEach i f cs s = .ok u s') :
    s'.known = s.known ∧
      ∀ d, s'.store.get? i = some d → ∀ c ∈ cs, c ∈ d.instantiated := by
  induction cs generalizing s with
  | nil =>
    cases h
    exact ⟨rfl, fun _ _ _ hc => absurd hc List.not_mem_nil⟩
  | cons c cs ih =>
    obtain ⟨g, s₁, hinstance, h⟩ := exists_of_bind_ok h
    rw [(eq_of_instanceOf_ok hinstance).2] at h
    obtain ⟨_, s₂, hemit, h⟩ := exists_of_bind_ok h
    cases hemit
    obtain ⟨_, s₃, hrecord, h⟩ := exists_of_bind_ok h
    obtain ⟨_, s₄, hderivation, hrecord⟩ := exists_of_bind_ok hrecord
    obtain ⟨d₀, hderivation⟩ := exists_of_discard_ok hderivation
    obtain ⟨hd₀, hs₄⟩ := eq_of_derivation_ok hderivation
    rw [hs₄] at hrecord
    cases hrecord
    obtain ⟨_, s₅, hadd, h⟩ := exists_of_bind_ok h
    obtain ⟨hknown, hrest⟩ := ih h
    have hadded := known_eq_of_add hadd
    refine ⟨hknown.trans hadded, fun d hd => List.forall_mem_cons.2 ⟨?_, hrest d hd⟩⟩
    -- what has been recorded is not taken back
    have hgrows := spansConstants_grows.trans (spansConstants_grows.add trivial hadd)
      (spansConstants_grows.instantiateEach trivial i f cs _ _ _ h)
    have hrecorded : (s.store.addInstantiated i c).get? i =
        some { d₀ with instantiated := d₀.instantiated.insert c } := by
      rw [Derivations.addInstantiated, Derivations.get?_modify, if_pos rfl]
      exact congrArg _ hd₀
    obtain ⟨d', hd', hkeeps⟩ := hgrows i _ hrecorded
    obtain rfl : d = d' := Option.some.inj (hd.symm.trans hd')
    exact hkeeps.instantiated c (Symbols.mem_insert.2 (.inl rfl))

theorem seedConstant_known (h : seedConstant s = .ok u s') :
    ¬s'.known.isEmpty ∧ (¬s.known.isEmpty → s'.known = s.known) := by
  obtain ⟨t, s₁, hget, h⟩ := exists_of_bind_ok h
  cases hget
  split at h
  · next hempty =>
    obtain ⟨_, s₂, hemit, h⟩ := exists_of_bind_ok h
    cases hemit
    cases h
    refine ⟨fun h => ?_, fun hnonempty => absurd hempty hnonempty⟩
    exact Symbols.isEmpty_iff.1 h firstConstant (Symbols.mem_insert.2 (.inl rfl))
  · next hnonempty =>
    cases h
    exact ⟨hnonempty, fun _ => rfl⟩

/-- A universal that is not vacuous is instantiated with every constant that is known. It brings in a
constant itself only if there is none. -/
theorem universalElimination_instantiates (hx : p.mentions x)
    (h : universalElimination i (.all x p) s = .ok u s') :
    ¬s'.known.isEmpty ∧ (¬s.known.isEmpty → s'.known = s.known) ∧
      ∀ d, s'.store.get? i = some d → ∀ c ∈ s'.known, c ∈ d.instantiated := by
  have hvacuous : ¬(Formula.all x p).isVacuous := by
    rw [isVacuous, hx]
    exact Bool.false_ne_true
  rw [universalElimination, if_neg hvacuous] at h
  obtain ⟨_, s₁, hseed, h⟩ := exists_of_bind_ok h
  obtain ⟨hnonempty, hkept⟩ := seedConstant_known hseed
  obtain ⟨t, s₂, hget, h⟩ := exists_of_bind_ok h
  cases hget
  obtain ⟨d₁, s₃, hderivation, h⟩ := exists_of_bind_ok h
  obtain ⟨hd₁, hs₃⟩ := eq_of_derivation_ok hderivation
  rw [hs₃] at h
  dsimp only at h
  split at h
  · obtain ⟨_, s₄, hmark, h⟩ := exists_of_bind_ok h
    obtain ⟨b, hmark⟩ := exists_of_discard_ok hmark
    obtain rfl := eq_of_mark_ok hmark
    obtain ⟨hknown, hrecorded⟩ := instantiateEach_records h
    rw [hknown]
    refine ⟨hnonempty, hkept, fun d hd c hc => ?_⟩
    by_cases hused : c ∈ d₁.instantiated
    · have hgrows := spansConstants_grows.trans (s₁.store.grows_addMark i .universalElimination)
        (spansConstants_grows.instantiateEach trivial i _ _ _ _ _ h)
      obtain ⟨d', hd', hkeeps⟩ := hgrows i d₁ hd₁
      obtain rfl : d = d' := Option.some.inj (hd.symm.trans hd')
      exact hkeeps.instantiated c hused
    · exact hrecorded d hd c (Symbols.mem_diff.2 ⟨hc, hused⟩)
  · next hnone =>
    cases h
    refine ⟨hnonempty, hkept, fun d hd c hc => ?_⟩
    obtain rfl : d = d₁ := Option.some.inj (hd.symm.trans hd₁)
    by_contra hunused
    have hmem : c ∈ s'.known.diff d.instantiated := Symbols.mem_diff.2 ⟨hc, hunused⟩
    have hempty : s'.known.diff d.instantiated = [] := by simpa using hnone
    rw [hempty] at hmem
    exact List.not_mem_nil hmem

theorem universalElimination_known (h : universalElimination i f s = .ok u s')
    (hknown : ¬s.known.isEmpty) : s'.known = s.known := by
  cases f with
  | quantified k x p =>
    cases k with
    | universal =>
      by_cases hx : p.mentions x
      · exact (universalElimination_instantiates hx h).2.1 hknown
      · have hvacuous : (Formula.all x p).isVacuous := by simpa [isVacuous] using hx
        rw [universalElimination, if_pos hvacuous] at h
        exact spans_known.mark_add i p trivial [i] _ _ _ h
    | existential =>
      cases h
      rfl
  | _ =>
    cases h
    rfl

/-! ## Trials -/

/-- A trial of all rules ends with those for quantifiers. -/
theorem exists_of_tryAll_rules (h : tryAll i f rules s = .ok u s') :
    ∃ s₁ s₂, tryAll i f (rules.take 13) s = .ok () s₁ ∧ existentialElimination i f s₁ = .ok () s₂ ∧
      universalElimination i f s₂ = .ok () s' := by
  rw [← List.take_append_drop 13 rules] at h
  obtain ⟨s₁, hpropositional, h⟩ := exists_of_tryAll_append h
  obtain ⟨_, s₂, hexistential, h⟩ := exists_of_bind_ok h
  obtain ⟨_, s₃, huniversal, h⟩ := exists_of_bind_ok h
  cases h
  exact ⟨s₁, s₂, hpropositional, hexistential, huniversal⟩

/-- A trial that derives nothing may still bring in a constant, which is then wasted. -/
theorem tryAll_known (hs : s.Covered P) (hi : s.Has i f) (h : tryAll i f rules s = .ok u s')
    (hopen : ¬s'.isFinished) (hsame : s'.store.inferences = s.store.inferences)
    (hknown : ¬s.known.isEmpty) :
    ¬s'.known.isEmpty ∧ ∀ c ∈ s'.known, c ∈ s.known ∨ s'.Wasted P i c := by
  obtain ⟨s₁, s₂, hpropositional, hexistential, huniversal⟩ := exists_of_tryAll_rules h
  have hknown₁ : s₁.known = s.known := spans_known.tryAll (fun rule hrule =>
    spans_known.of_mem_propositional i f (fun _ => trivial) hrule) _ _ _ hpropositional
  have hturns : Turns s₂ s' :=
    spansConstants_turns.universalElimination i f trivial _ _ _ huniversal
  rcases existentialElimination_known hexistential with
    hknown₂ | ⟨x, p, c, rfl, hx, hc, hknown₂, hoffered⟩
  · rw [hknown₁] at hknown₂
    rw [universalElimination_known huniversal (hknown₂.symm ▸ hknown), hknown₂]
    exact ⟨hknown, fun c hc => .inl hc⟩
  · rw [hknown₁] at hc hknown₂
    have hnonempty : ¬s₂.known.isEmpty := fun h =>
      Symbols.isEmpty_iff.1 h c (hknown₂ ▸ Symbols.mem_insert.2 (.inl rfl))
    have hknown' := (universalElimination_known huniversal hnonempty).trans hknown₂
    refine ⟨(universalElimination_known huniversal hnonempty).symm ▸ hnonempty, fun e he => ?_⟩
    rw [hknown', Symbols.mem_insert] at he
    rcases he with rfl | he
    · have hrefused : s₂.Handles (p.substitute x e .const) :=
        hoffered.resolve_left fun hfinished => hopen (hturns.isFinished hfinished)
      refine .inr ⟨fun h => hc (hs.argument e h), fun j g hj h => hc ?_, ?_⟩
      · exact hs.derived j g (hj.of_isPrefix (hsame ▸ List.prefix_refl _)) e h
      · exact ⟨x, p, hi.of_isPrefix (hsame ▸ List.prefix_refl _), hx,
          hrefused.of_isPrefix hturns.isPrefix⟩
    · exact .inl he

/-- A trial that derives nothing leaves a universal with an instance for every constant. -/
theorem tryAll_instantiates (hi : s.Has i f) (h : tryAll i f rules s = .ok u s')
    (hsame : s'.store.inferences = s.store.inferences) : s'.Instantiates P i := by
  intro d x p hd hformula hx
  have hi' : s'.Has i f := hi.of_isPrefix (hsame ▸ List.prefix_refl _)
  obtain ⟨d₀, hd₀, rfl⟩ := has_iff.1 hi'
  obtain rfl : d = d₀ := Option.some.inj (hd.symm.trans hd₀)
  obtain ⟨s₁, s₂, -, -, huniversal⟩ := exists_of_tryAll_rules h
  rw [hformula] at huniversal
  obtain ⟨hnonempty, -, hinstantiated⟩ := universalElimination_instantiates hx huniversal
  exact ⟨hnonempty, fun c hc => .inl (hinstantiated d hd c hc)⟩

/-! ## Passes -/

/-- After a pass that derives nothing, and does not finish the search, every universal has been
instantiated with every constant that has not been wasted since. -/
theorem pass_instantiates (hs : s.Covered P) (h : pass s = .ok 0 s') (hopen : ¬s'.isFinished)
    (hi : i < s'.store.size) : s'.Instantiates P i := by
  refine pass_each (I := fun t => t.Covered P) (Q := fun i t => t.Instantiates P i) ?_ ?_ ?_ h hopen
    ⟨hs.conclusion, hs.argument, hs.arbitrary, hs.derived⟩ i hi
  · intro j d t t' hd hcovered htry
    have hproceeds := tryAll_proceeds (fun _ hrule => lawful_of_mem_rules hrule) hcovered
      (has_iff.2 ⟨d, hd, rfl⟩)
    exact (hproceeds.moves htry).covered hcovered
  · intro j d t t' hd hcovered htry hopen hsame
    have hj : t.Has j d.formula := has_iff.2 ⟨d, hd, rfl⟩
    refine ⟨tryAll_instantiates hj htry hsame, fun i hi hdone => ?_⟩
    have hgrows := spansConstants_grows.tryAll (fun _ hrule =>
      spansConstants_grows.of_mem_rules (fun _ => trivial) hrule j d.formula) _ _ _ htry
    refine hdone.of_grows hsame hgrows fun hknown => ?_
    obtain ⟨hnonempty, hbrought⟩ := tryAll_known hcovered hj htry hopen hsame hknown
    exact ⟨hnonempty, fun c hc => (hbrought c hc).imp_right fun hwasted => ⟨j, hi, hwasted⟩⟩
  · intro i t t' hintroduce hsame hdone
    have hknown := spans_known.introduceConclusion (fun _ => trivial) _ _ _ hintroduce
    have hgrows := spansConstants_grows.introduceConclusion (fun _ => trivial) _ _ _ hintroduce
    refine hdone.of_grows hsame hgrows fun hnonempty => ?_
    rw [hknown]
    exact ⟨hnonempty, fun c hc => .inl hc⟩

end Derive

/-- In the state in which a search ends that is reported as not proved, a universal that is not
vacuous has been instantiated with every constant that the search knows, but for those that were
wasted on an existential after it. -/
theorem Context.exists_instantiated (ctx : Context)
    (h : (ctx.prove P.premises P.conclusion P.kind).1.report = .notProved) :
    ∃ t, ctx.EndsIn P t ∧ ∀ i d x p, t.store.get? i = some d → d.formula = .all x p →
      p.mentions x → ∀ c ∈ t.known, c ∈ d.instantiated ∨ ∃ j, i < j ∧ t.Wasted P j c := by
  obtain ⟨n, s, s', hopens, -, hpass, hopen, hends⟩ := exists_last_pass h
  refine ⟨_, hends, fun i d x p hd hformula hx => ?_⟩
  have hcovered := hopens.moves.covered (covered_start P _)
  have hi : i < s'.store.size := Derivations.lt_size_of_get? hd
  obtain ⟨-, hinstantiated⟩ := Derive.pass_instantiates hcovered hpass hopen hi d x p hd hformula hx
  exact fun c hc => (hinstantiated c hc).imp_right fun ⟨j, hij, hwasted⟩ =>
    ⟨j, hij, hwasted.of_inferences rfl⟩

/-! ## A constant that is wasted -/

/-- From `(∀x)(Pa → Px) ∧ (∃x)(Rx ∧ Rx)` to `(∃x)(Pa → Px)`. The universal comes before the
existential, whose instance is redundant. -/
def Problem.wasteful : Problem :=
  let p : Formula := .implies (.predicate 'P' [.const 'a']) (.predicate 'P' [.var 'x'])
  let r : Formula := .predicate 'R' [.var 'x']
  ⟨[.and (.all 'x' p) (.ex 'x' (.and r r))], .ex 'x' p, .direct⟩

theorem Problem.report_wasteful :
    (({} : Context).prove wasteful.premises wasteful.conclusion wasteful.kind).1.report =
      .notProved := by
  decide +kernel

/-- The search brings in `b`, but has instantiated its universal with `a` only. -/
theorem Problem.endsIn_wasteful :
    ∃ t d x p, ({} : Context).EndsIn wasteful t ∧ t.store.get? 1 = some d ∧
      d.formula = .all x p ∧ p.mentions x ∧ 'b' ∈ t.known ∧ 'b' ∉ d.instantiated := by
  let p : Formula := .implies (.predicate 'P' [.const 'a']) (.predicate 'P' [.var 'x'])
  have h : (match Derive.assume wasteful.premises wasteful.kind
        (start wasteful.premises wasteful.conclusion
          ({} : Context).settings.negationLimit.value) with
      | .ok _ s =>
        let t := (s.run 0 ({} : Context).settings.deductionLimit.value).search
        (t.known.members, (t.store.get? 1).map fun d => (d.formula, d.instantiated.members))
      | .error _ _ => ([], none)) = (['a', 'b'], some (.all 'x' p, ['a'])) := by
    decide +kernel
  split at h
  · next s hassume =>
    obtain ⟨hknown, hget⟩ := Prod.mk.inj h
    obtain ⟨d, hd, hpair⟩ := Option.map_eq_some_iff.1 hget
    obtain ⟨hformula, hinstantiated⟩ := Prod.mk.inj hpair
    refine ⟨_, d, 'x', p, ⟨s, hassume, rfl⟩, hd, hformula, by decide, ?_, ?_⟩
    · rw [← Symbols.mem_members, hknown]
      decide
    · rw [← Symbols.mem_members, hinstantiated]
      decide
  · cases h

namespace Context

/-- The constant that the universal misses is wasted. -/
theorem exists_instantiated_wasteful :
    (({} : Context).prove Problem.wasteful.premises Problem.wasteful.conclusion
      Problem.wasteful.kind).1.report = .notProved ∧
      ∃ t, ({} : Context).EndsIn Problem.wasteful t ∧ ∃ j, 1 < j ∧ t.Wasted Problem.wasteful j 'b' := by
  refine ⟨Problem.report_wasteful, ?_⟩
  obtain ⟨t, ht, hall⟩ := ({} : Context).exists_instantiated Problem.report_wasteful
  obtain ⟨t', d, x, p, ht', hd, hformula, hx, hknown, hmissed⟩ := Problem.endsIn_wasteful
  obtain rfl := ht.unique ht'
  exact ⟨t, ht, (hall 1 d x p hd hformula hx 'b' hknown).resolve_left hmissed⟩

/-- Not every universal is instantiated with all the constants that a search knows, though it is
reported as not proved. -/
theorem universal_misses_constant :
    ¬∀ (P : Problem) (ctx : Context),
      (ctx.prove P.premises P.conclusion P.kind).1.report = .notProved →
      ∀ t, ctx.EndsIn P t → ∀ i d x p, t.store.get? i = some d → d.formula = .all x p →
        p.mentions x → ∀ c ∈ t.known, c ∈ d.instantiated := by
  intro h
  obtain ⟨t, d, x, p, ht, hd, hformula, hx, hknown, hmissed⟩ := Problem.endsIn_wasteful
  exact hmissed (h _ _ Problem.report_wasteful t ht 1 d x p hd hformula hx 'b' hknown)

end Context

end Sequitur
