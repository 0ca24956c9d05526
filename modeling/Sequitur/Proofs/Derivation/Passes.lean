import Sequitur.Proofs.Derivation.Actions

/-!
# A whole search amounts to moves

Every rule, tried on what has been derived, ends well and amounts to moves, and so does every pass and
the search as a whole (`Search.run_moves`). What a search reports as proved is where it found the
conclusion.
-/

namespace Sequitur

open Formula Search

variable {P : Problem} {s s' : Search} {i : Nat} {f : Formula}

namespace Derive

/-- Whether a rule, tried on what has been derived, ends well and amounts to moves. -/
def Lawful (rule : Rule) : Prop :=
  ∀ (P : Problem) (s : Search) (i : Nat) (f : Formula), s.Covered P → s.Has i f →
    Proceeds P (rule i f) s

/-! ## One premise -/

theorem infer_proceeds {step : Step} {p g : Formula} (hi : s.Has i p) (h : Infers step [p] g) :
    Proceeds P (add g step [i]) s :=
  add_proceeds (.inferred (.singleton hi) h)

/-- A rule that marks what it is tried on, and adds what follows from it if the mark is new. -/
theorem mark_infer_proceeds {step : Step} {p g : Formula} (hi : s.Has i p)
    (h : Infers step [p] g) :
    Proceeds P (do if ← mark i step then add g step [i]) s := by
  refine (mark_achieves hi step).bind fun _ s₁ h₁ _ => ?_
  exact Proceeds.ite fun _ => infer_proceeds (hi.of_moves h₁) h

/-- The other order: what is licensed is added after the mark. -/
theorem discard_mark_add_proceeds {step : Step} {parents : List Nat} {p g : Formula}
    (hi : s.Has i p) (h : s.Licensed P ⟨g, step, parents⟩) :
    Proceeds P (do discard (mark i step); add g step parents) s :=
  (discard_mark_achieves hi step).bind fun _ _ _ h₁ => add_proceeds (h.rests h₁)

/-- An action taken only if a rule has not been tried. -/
theorem unless_applied_proceeds {m : Derive Unit} (hi : s.Has i f) (step : Step)
    (h : Proceeds P m s) : Proceeds P (do if !(← applied i step) then m) s := by
  refine (applied_achieves hi step).bind fun _ s₁ _ h₁ => Proceeds.ite fun _ => ?_
  rw [h₁]
  exact h

theorem add_both_proceeds {step : Step} {is : List Nat} {ps : List Formula} {g : Formula}
    (hc : s.Cites is ps) (hf : Infers step ps f) (hg : Infers step ps g) :
    Proceeds P (do add f step is; add g step is) s := by
  refine (add_proceeds (.inferred hc hf)).bind fun _ s₁ h₁ _ => ?_
  exact add_proceeds (.inferred (hc.of_moves h₁) hg)

theorem lawful_conjunctionElimination : Lawful conjunctionElimination := by
  intro P s i f _ hi
  rw [conjunctionElimination.eq_def]
  split
  · refine (mark_achieves hi _).bind fun _ s₁ h₁ _ => Proceeds.ite fun _ => ?_
    exact add_both_proceeds (.singleton (hi.of_moves h₁)) (.leftConjunct _ _) (.rightConjunct _ _)
  · exact .pure trivial

theorem lawful_doubleNegationElimination : Lawful doubleNegationElimination := by
  intro P s i f _ hi
  rw [doubleNegationElimination.eq_def]
  split
  · exact mark_infer_proceeds hi (.doubleNegation _)
  · exact .pure trivial

theorem lawful_biconditionalElimination : Lawful biconditionalElimination := by
  intro P s i f _ hi
  rw [biconditionalElimination.eq_def]
  split
  · exact mark_infer_proceeds hi (.biconditional _ _)
  · exact .pure trivial

theorem lawful_deMorgan : Lawful deMorgan := by
  intro P s i f _ hi
  rw [deMorgan]
  split
  · next dual h =>
    refine Achieves.get (Proceeds.ite fun _ => ?_)
    exact mark_infer_proceeds hi (.deMorgan (deMorgan_of_deMorganDual h))
  · exact .pure trivial

theorem lawful_transposition : Lawful transposition := by
  intro P s i f _ hi
  rw [transposition.eq_def]
  split
  · refine Achieves.get (Proceeds.ite fun _ => ?_)
    exact mark_infer_proceeds hi (.transposition _ _)
  · exact .pure trivial

theorem lawful_materialImplication : Lawful materialImplication := by
  intro P s i f _ hi
  rw [materialImplication]
  split
  · next dual h =>
    refine Achieves.get (Proceeds.ite fun _ => unless_applied_proceeds hi _ ?_)
    refine Achieves.get (Proceeds.ite fun _ => ?_)
    refine (emit_achieves _).bind fun _ s₁ h₁ _ => ?_
    have hi₁ := hi.of_moves h₁
    have hinfers := Infers.materialImplication (conditional_of_implicationDual h)
    exact discard_mark_add_proceeds hi₁ (.inferred (.singleton hi₁) hinfers)
  · exact .pure trivial

theorem lawful_doubleNegationIntroduction : Lawful doubleNegationIntroduction := by
  intro P s i f _ hi
  refine unless_applied_proceeds hi _ (Achieves.get (Proceeds.ite fun _ => ?_))
  exact discard_mark_add_proceeds hi (.inferred (.singleton hi) (.doubleNegate f))

/-! ## Two premises -/

theorem lawful_modusPonens : Lawful modusPonens := by
  intro P s i f _ hi
  rw [modusPonens.eq_def]
  split
  · refine unless_applied_proceeds hi _ (Achieves.get ?_)
    split
    · next j hj =>
      obtain ⟨g, hg, hlike⟩ := has_of_position? hj
      exact discard_mark_add_proceeds hi (.inferred (.pair hi hg) (.modusPonens hlike))
    · exact .pure trivial
  · exact .pure trivial

theorem lawful_modusTollens : Lawful modusTollens := by
  intro P s i f _ hi
  rw [modusTollens.eq_def]
  split
  · refine unless_applied_proceeds hi _ (Achieves.get ?_)
    split
    · next j hj =>
      obtain ⟨g, hg, hcontrary⟩ := has_of_contrary? hj
      exact discard_mark_add_proceeds hi (.inferred (.pair hi hg) (.modusTollens hcontrary))
    · exact .pure trivial
  · exact .pure trivial

/-- The denial of one side of a disjunction leaves the other. -/
theorem infers_of_remaining? {p q side : Formula} {j : Nat}
    (h : remaining? s p q = some (side, j)) :
    ∃ g, s.Has j g ∧ Infers .disjunctiveSyllogism [.or p q, g] side := by
  rw [remaining?] at h
  split at h
  · next hp _ =>
    cases h
    obtain ⟨g, hg, hcontrary⟩ := has_of_contrary? hp
    exact ⟨g, hg, .rightDisjunct hcontrary⟩
  · next hq =>
    cases h
    obtain ⟨g, hg, hcontrary⟩ := has_of_contrary? hq
    exact ⟨g, hg, .leftDisjunct hcontrary⟩
  · cases h

theorem lawful_disjunctiveSyllogism : Lawful disjunctiveSyllogism := by
  intro P s i f _ hi
  rw [disjunctiveSyllogism.eq_def]
  split
  · refine unless_applied_proceeds hi _ (Achieves.get ?_)
    split
    · next side j hj =>
      obtain ⟨g, hg, hinfers⟩ := infers_of_remaining? hj
      exact discard_mark_add_proceeds hi (.inferred (.pair hi hg) hinfers)
    · exact .pure trivial
  · exact .pure trivial

/-! ## Implications -/

theorem eq_implies_of_implication? {p q : Formula} (h : f.implication? = some (p, q)) :
    f = .implies p q := by
  rw [Formula.implication?.eq_def] at h
  split at h
  · cases h
    rfl
  · cases h

/-- The cached forms of an implication are those of its sides. -/
theorem forms_of_implication {d : Derivation} (test : Canonical → Canonical → Bool) {p q : Formula}
    (hd : d.formula = .implies p q) (h : d.implication.any fun (a, c) => test a c) :
    test p.canonical q.canonical := by
  rw [d.implication_eq, show d.content.formula = .implies p q from hd] at h
  exact h

theorem contains_canonicalForms {g : Formula} (h : f.canonicalForms.contains g.canonical) :
    f.Alike g :=
  .inl (structurallyEquals_iff.2 (List.contains_iff_mem.1 h))

theorem contains_contraryForms {g : Formula} (h : f.contraryForms.contains g.canonical) :
    f.Contrary g := by
  rw [contraryForms.eq_def, List.contains_iff_mem, List.mem_append] at h
  rcases h with h | h
  · exact .inl (.inl (structurallyEquals_iff.2 h))
  · split at h
    · next p => exact .inr ⟨p, rfl, .inl (structurallyEquals_iff.2 h)⟩
    · exact absurd h List.not_mem_nil

/-- The partners of an implication `A → B` are implications of `B`. -/
theorem has_of_mem_partners {forms : List Canonical} {j : Nat} {c : Formula}
    (h : (j, c) ∈ partners s.store i forms) :
    ∃ b, s.Has j (.implies b c) ∧ forms.contains b.canonical := by
  obtain ⟨⟨d, l⟩, hd, h⟩ := List.mem_filterMap.1 h
  rw [List.mem_zipIdx_iff_getElem?, Array.getElem?_toList] at hd
  dsimp only at h
  split at h
  · next htest =>
    obtain ⟨⟨b, c'⟩, hb, he⟩ := Option.map_eq_some_iff.1 h
    cases he
    have hformula := eq_implies_of_implication? hb
    have hforms := forms_of_implication (fun a _ => forms.contains a) hformula
      (Bool.and_eq_true_iff.1 htest).2
    exact ⟨b, has_iff.2 ⟨d, hd, hformula⟩, hforms⟩
  · cases h

theorem chain_proceeds {a b : Formula} {js : List (Nat × Formula)} (hi : s.Has i (.implies a b))
    (hjs : ∀ x ∈ js, ∃ b', s.Has x.1 (.implies b' x.2) ∧ b.Alike b') :
    Proceeds P (chain i a js) s := by
  induction js generalizing s with
  | nil => exact .pure trivial
  | cons x js ih =>
    obtain ⟨j, c⟩ := x
    obtain ⟨⟨b', hj, hlike⟩, hrest⟩ := List.forall_mem_cons.1 hjs
    have hnext : ∀ s', Moves P s s' → Proceeds P (chain i a js) s' := fun s' hs =>
      ih (hi.of_moves hs) fun x hx => by
        obtain ⟨b', hx, hlike⟩ := hrest x hx
        exact ⟨b', hx.of_moves hs, hlike⟩
    refine Achieves.get (Proceeds.ite fun _ => ?_)
    refine (applied_achieves hi _).bind fun _ s₁ h₁ _ => ?_
    refine (applied_achieves (hj.of_moves h₁) _).bind fun _ s₂ h₂ _ => ?_
    have h₂ := h₁.trans h₂
    dsimp only
    split
    · refine (discard_mark_achieves (hi.of_moves h₂) _).bind fun _ s₃ h₃ _ => ?_
      have h₃ := h₂.trans h₃
      refine (discard_mark_achieves (hj.of_moves h₃) _).bind fun _ s₄ h₄ _ => ?_
      have h₄ := h₃.trans h₄
      have hcites := Cites.pair (hi.of_moves h₄) (hj.of_moves h₄)
      refine (add_proceeds (.inferred hcites (.chain hlike))).bind fun _ s₅ h₅ _ => ?_
      exact hnext s₅ (h₄.trans h₅)
    · exact hnext s₂ h₂

theorem lawful_hypotheticalSyllogism : Lawful hypotheticalSyllogism := by
  intro P s i f _ hi
  rw [hypotheticalSyllogism.eq_def]
  split
  · refine Achieves.get (chain_proceeds hi fun x hx => ?_)
    obtain ⟨b', hj, hforms⟩ := has_of_mem_partners hx
    exact ⟨b', hj, contains_canonicalForms hforms⟩
  · exact .pure trivial

/-- An implication that was found passes the test. -/
theorem has_of_implication? {test : Canonical → Canonical → Bool} {j : Nat} {p q : Formula}
    (h : implication? s.store test = some (j, p, q)) :
    s.Has j (.implies p q) ∧ test p.canonical q.canonical := by
  obtain ⟨l, hl, h⟩ := Option.bind_eq_some_iff.1 h
  obtain ⟨d, hd, h⟩ := Option.bind_eq_some_iff.1 h
  obtain ⟨⟨p', q'⟩, hpq, he⟩ := Option.map_eq_some_iff.1 h
  cases he
  have hformula := eq_implies_of_implication? hpq
  obtain ⟨hlt, htest, -⟩ := Array.findIdx?_eq_some_iff_getElem.1 hl
  have hitem : s.store.items[j] = d := Option.some.inj ((Array.getElem?_eq_getElem hlt).symm.trans hd)
  rw [hitem] at htest
  exact ⟨has_iff.2 ⟨d, hd, hformula⟩, forms_of_implication test hformula htest⟩

/-- A dilemma marks the disjunction, and adds its result in both orders. -/
theorem dilemma_proceeds {step : Step} {is : List Nat} {p g : Formula} {ps : List Formula}
    (hc : s.Cites (i :: is) (p :: ps)) (hf : Infers step (p :: ps) f)
    (hg : Infers step (p :: ps) g) :
    Proceeds P
      (do discard (mark i step); add f step (i :: is); add g step (i :: is)) s := by
  obtain ⟨hi, -⟩ := List.forall₂_cons.1 hc
  refine (discard_mark_achieves hi step).bind fun _ s₁ h₁ _ => ?_
  exact add_both_proceeds (hc.of_moves h₁) hf hg

theorem lawful_constructiveDilemma : Lawful constructiveDilemma := by
  intro P s i f _ hi
  rw [constructiveDilemma.eq_def]
  split
  · refine unless_applied_proceeds hi _ (Achieves.get ?_)
    dsimp only
    split
    · next j p' r l q' t hj hl =>
      obtain ⟨hj, hp⟩ := has_of_implication? hj
      obtain ⟨hl, hq⟩ := has_of_implication? hl
      have hp := contains_canonicalForms hp
      have hq := contains_canonicalForms hq
      exact dilemma_proceeds (.cons hi (Cites.pair hj hl)) (.constructive hp hq)
        (.constructiveSwapped hp hq)
    · exact .pure trivial
  · exact .pure trivial

theorem lawful_destructiveDilemma : Lawful destructiveDilemma := by
  intro P s i f _ hi
  rw [destructiveDilemma.eq_def]
  split
  · refine unless_applied_proceeds hi _ (Achieves.get ?_)
    dsimp only
    split
    · next j p r' l q t' hj hl =>
      obtain ⟨hj, hr⟩ := has_of_implication? hj
      obtain ⟨hl, ht⟩ := has_of_implication? hl
      have hr := contains_contraryForms hr
      have ht := contains_contraryForms ht
      exact dilemma_proceeds (.cons hi (Cites.pair hj hl)) (.destructive hr ht)
        (.destructiveSwapped hr ht)
    · exact .pure trivial
  · exact .pure trivial

/-! ## Quantifiers -/

theorem not_mentions_of_isVacuous {k : Quantifier} {x : Char} {p : Formula}
    (h : (quantified k x p).isVacuous) : ¬p.mentions x := by
  rw [isVacuous, Bool.not_eq_true'] at h
  rw [h]
  exact Bool.false_ne_true

theorem mentions_of_not_isVacuous {k : Quantifier} {x : Char} {p : Formula}
    (h : ¬(quantified k x p).isVacuous) : p.mentions x := by
  rwa [isVacuous, Bool.not_eq_true', Bool.not_eq_false] at h

/-- A constant that the search does not know makes a witness. -/
theorem licensed_witness (hs : s.Covered P) {x c : Char} {p : Formula} (hi : s.Has i (.ex x p))
    (hx : p.mentions x) (hc : c ∉ s.known) :
    { s with known := s.known.insert c }.Licensed P
      ⟨p.substitute x c .const, .existentialElimination, [i]⟩ :=
  .witnessed hi hx (Symbols.mem_insert.2 (.inl rfl))
    ⟨fun h => hc (hs.argument c h), fun h => hc (hs.arbitrary c h).1⟩
    fun j f hf h => hc (hs.derived j f hf c h)

theorem instanceOf_achieves (k : Quantifier) (x c : Char) (p : Formula) :
    Achieves P (instanceOf (.quantified k x p) c) s fun g s' =>
      s' = s ∧ g = p.substitute x c .const :=
  .pure ⟨rfl, rfl⟩

theorem recordInstance_achieves (hi : s.Has i f) (c : Char) :
    Achieves P (recordInstance i c) s fun _ s' =>
      s' = { s with store := s.store.addInstantiated i c } := by
  have hderivation : Achieves P (derivation i) s fun _ s' => s' = s := by
    obtain ⟨d, s', hd, hmoves, hs, -⟩ := derivation_achieves (P := P) hi
    exact ⟨d, s', hd, hmoves, hs⟩
  refine hderivation.discard.bind fun _ s₁ _ h₁ => ?_
  subst h₁
  have hrests : s₁.Rests { s₁ with store := s₁.store.addInstantiated i c } :=
    .of_store (Derivations.inferences_modify fun _ => rfl)
  exact modify_achieves hrests.moves

theorem lawful_existentialElimination : Lawful existentialElimination := by
  intro P s i f hs hi
  rw [existentialElimination.eq_def]
  split
  · refine unless_applied_proceeds hi _ ?_
    split
    · next hv =>
      have hx := not_mentions_of_isVacuous hv
      exact discard_mark_add_proceeds hi (.inferred (.singleton hi) (.vacuousExistential hx))
    · next hv =>
      refine Achieves.get ?_
      split
      · refine (emit_achieves _).bind fun _ s₁ _ _ => ?_
        exact (modify_achieves (.single (.exhaust s₁))).proceeds
      · next c hc =>
        refine (instanceOf_achieves _ _ c _).bind fun g s₀ _ h₀ => ?_
        obtain ⟨rfl, rfl⟩ := h₀
        refine (emit_achieves _).bind fun _ s₁ h₁ hr₁ => ?_
        refine (discard_mark_achieves (hi.of_moves h₁) _).bind fun _ s₂ h₂ hr₂ => ?_
        have h₂ := h₁.trans h₂
        have hsymbol := isConstantSymbol_of_mem (mem_constantSymbols_of_fresh? hc)
        refine (modify_achieves (.single (.learn hsymbol))).bind fun _ s₃ _ h₃ => ?_
        rw [h₃]
        refine add_proceeds (licensed_witness (h₂.covered hs) (hi.of_moves h₂)
          (mentions_of_not_isVacuous hv) ?_)
        rw [hr₂.known, hr₁.known]
        exact not_mem_of_fresh? hc
  · exact .pure trivial

theorem instantiateEach_proceeds {x : Char} {body : Formula} {cs : List Char}
    (hi : s.Has i (.all x body)) (hx : body.mentions x) (hcs : ∀ c ∈ cs, c ∈ s.known) :
    Proceeds P (instantiateEach i (.all x body) cs) s := by
  induction cs generalizing s with
  | nil => exact .pure trivial
  | cons c cs ih =>
    obtain ⟨hc, hcs⟩ := List.forall_mem_cons.1 hcs
    refine (instanceOf_achieves _ x c body).bind fun g s₀ _ h₀ => ?_
    obtain ⟨rfl, rfl⟩ := h₀
    refine (emit_achieves _).bind fun _ s₁ h₁ _ => ?_
    refine (recordInstance_achieves (hi.of_moves h₁) c).bind fun _ s₂ h₂ _ => ?_
    have h₂ := h₁.trans h₂
    refine (add_proceeds (.instantiated (hi.of_moves h₂) hx (h₂.mem_known hc))).bind
      fun _ s₃ h₃ _ => ?_
    have h₃ := h₂.trans h₃
    exact ih (hi.of_moves h₃) fun e he => h₃.mem_known (hcs e he)

theorem seedConstant_proceeds : Proceeds P seedConstant s := by
  refine Achieves.get (Proceeds.ite fun hempty => ?_)
  refine (emit_achieves _).bind fun _ s₁ _ h₁ => ?_
  rw [← h₁.known] at hempty
  exact (modify_achieves (.single (.seed hempty))).proceeds

theorem lawful_universalElimination : Lawful universalElimination := by
  intro P s i f _ hi
  rw [universalElimination.eq_def]
  split
  · split
    · next hv => exact mark_infer_proceeds hi (.vacuousUniversal (not_mentions_of_isVacuous hv))
    · next hv =>
      refine seedConstant_proceeds.bind fun _ s₁ h₁ _ => ?_
      refine Achieves.get ?_
      have hi₁ := hi.of_moves h₁
      refine (derivation_achieves hi₁).bind fun d s₂ h₂ _ => ?_
      dsimp only
      refine Proceeds.ite fun _ => ?_
      have hi₂ := hi₁.of_moves h₂
      refine (discard_mark_achieves hi₂ _).bind fun _ s₃ h₃ _ => ?_
      refine instantiateEach_proceeds (hi₂.of_moves h₃) (mentions_of_not_isVacuous hv) fun c hc => ?_
      exact (h₂.trans h₃).mem_known (Symbols.mem_diff.1 hc).1
  · exact .pure trivial

theorem findInstance_achieves {k : Quantifier} {x : Char} {body : Formula}
    (hf : f = .quantified k x body) (cs : List Char) :
    Achieves P (findInstance f cs) s fun found s' => s' = s ∧ ∀ i, found = some i →
      ∃ c ∈ cs, ∃ g, s.Has i g ∧ (body.substitute x c .const).Alike g := by
  subst hf
  induction cs with
  | nil => exact .pure ⟨rfl, fun i hi => absurd hi (Option.some_ne_none i).symm⟩
  | cons c cs ih =>
    refine (instanceOf_achieves k x c body).bind fun g s₁ _ h₁ => ?_
    obtain ⟨rfl, rfl⟩ := h₁
    refine Achieves.get ?_
    split
    · next j hj =>
      refine .pure ⟨rfl, fun i hi => ?_⟩
      obtain rfl := Option.some.inj hi
      exact ⟨c, List.mem_cons_self, has_of_position? hj⟩
    · obtain ⟨found, s', hm, hmoves, hs, hfound⟩ := ih
      refine ⟨found, s', hm, hmoves, hs, fun i hi => ?_⟩
      obtain ⟨c', hc', hg⟩ := hfound i hi
      exact ⟨c', List.mem_cons_of_mem c hc', hg⟩

theorem introduce_proceeds {step : Step} {is : List Nat} {ps : List Formula}
    (hf : s.conclusion.formula = f) (hc : s.Cites is ps) (h : Introduces step ps f) :
    Proceeds P (add s.conclusion.formula step is) s := by
  subst hf
  exact add_proceeds (.introduced hc h)

theorem introduceConclusion_proceeds : Proceeds P introduceConclusion s := by
  refine Achieves.get ?_
  dsimp only
  split
  · next p q hf =>
    split
    · next hj hl =>
      obtain ⟨_, hj, hp⟩ := has_of_position? hj
      obtain ⟨_, hl, hq⟩ := has_of_position? hl
      exact introduce_proceeds hf (.pair hj hl) (.conjunction hp hq)
    · exact .pure trivial
  · next p q hf =>
    split
    · next hj =>
      rcases Option.or_eq_some_iff.1 hj with hj | ⟨-, hj⟩
      · obtain ⟨_, hj, hp⟩ := has_of_position? hj
        exact introduce_proceeds hf (.singleton hj) (.leftDisjunct hp)
      · obtain ⟨_, hj, hq⟩ := has_of_position? hj
        exact introduce_proceeds hf (.singleton hj) (.rightDisjunct hq)
    · exact .pure trivial
  · next p q hf =>
    split
    · next hj hl =>
      obtain ⟨_, hj, hpq⟩ := has_of_position? hj
      obtain ⟨_, hl, hqp⟩ := has_of_position? hl
      exact introduce_proceeds hf (.pair hj hl) (.biconditional hpq hqp)
    · exact .pure trivial
  · next x body hf =>
    refine (findInstance_achieves hf _).bind fun found s₁ _ h₁ => ?_
    obtain ⟨rfl, hfound⟩ := h₁
    split
    · next j =>
      obtain ⟨c, hc, _, hj, hlike⟩ := hfound j rfl
      exact introduce_proceeds hf (.singleton hj) (.existential (isConstantSymbol_of_mem hc) hlike)
    · exact .pure trivial
  · next x body hf =>
    refine (findInstance_achieves hf _).bind fun found s₁ _ h₁ => ?_
    obtain ⟨rfl, hfound⟩ := h₁
    split
    · next j =>
      obtain ⟨c, hc, _, hj, hlike⟩ := hfound j rfl
      exact add_proceeds (.generalized hf hc hj hlike)
    · exact .pure trivial
  · exact .pure trivial

/-! ## Passes -/

theorem lawful_of_mem_rules {rule : Rule} (h : rule ∈ rules) : Lawful rule := by
  simp only [rules, List.mem_cons, List.not_mem_nil, or_false] at h
  rcases h with rfl | rfl | rfl | rfl | rfl | rfl | rfl | rfl | rfl | rfl | rfl | rfl | rfl | rfl | rfl
  · exact lawful_conjunctionElimination
  · exact lawful_doubleNegationElimination
  · exact lawful_biconditionalElimination
  · exact lawful_modusPonens
  · exact lawful_modusTollens
  · exact lawful_disjunctiveSyllogism
  · exact lawful_hypotheticalSyllogism
  · exact lawful_constructiveDilemma
  · exact lawful_destructiveDilemma
  · exact lawful_deMorgan
  · exact lawful_transposition
  · exact lawful_materialImplication
  · exact lawful_doubleNegationIntroduction
  · exact lawful_existentialElimination
  · exact lawful_universalElimination

theorem tryAll_proceeds {rules : List Rule} (hrules : ∀ rule ∈ rules, Lawful rule)
    (hs : s.Covered P) (hi : s.Has i f) : Proceeds P (tryAll i f rules) s := by
  induction rules generalizing s with
  | nil => exact .pure trivial
  | cons rule rest ih =>
    obtain ⟨hrule, hrest⟩ := List.forall_mem_cons.1 hrules
    refine (hrule P s i f hs hi).bind fun _ s₁ h₁ _ => ?_
    exact ih hrest (h₁.covered hs) (hi.of_moves h₁)

theorem sweep_proceeds {count : Nat} (hs : s.Covered P) (hcount : i + count ≤ s.store.size) :
    Proceeds P (sweep i count) s := by
  induction count generalizing s i with
  | zero => exact .pure trivial
  | succ n ih =>
    refine Achieves.get (Proceeds.ite fun _ => ?_)
    obtain ⟨f, hi⟩ := exists_has (s := s) (i := i) (by omega)
    refine (derivation_achieves hi).bind fun d s₁ h₁ hd => ?_
    have hs₁ := h₁.covered hs
    rw [hd.2]
    refine (tryAll_proceeds (fun _ => lawful_of_mem_rules) hs₁ (hi.of_moves h₁)).bind
      fun _ s₂ h₂ _ => ?_
    have hsize := (h₁.trans h₂).size_le
    exact ih (h₂.covered hs₁) (by omega)

theorem pass_proceeds (hs : s.Covered P) : Proceeds P pass s := by
  have hrests : s.Rests { s with added := 0 } := ⟨rfl, rfl, rfl, rfl, rfl, rfl, rfl⟩
  refine (modify_achieves hrests.moves).bind fun _ s₁ h₁ _ => ?_
  refine Achieves.get ?_
  refine (sweep_proceeds (h₁.covered hs) (Nat.le_of_eq (Nat.zero_add _))).bind fun _ s₂ _ _ => ?_
  refine Achieves.get ?_
  dsimp only
  split
  · refine introduceConclusion_proceeds.bind fun _ s₃ _ _ => ?_
    exact Achieves.get (.pure trivial)
  · exact Achieves.get (.pure trivial)

/-! ## The search -/

theorem mem_foldl_keepPremise {premises kept : List Formula} {p : Formula}
    (h : p ∈ premises.foldl keepPremise kept) : p ∈ kept ∨ ∃ q ∈ premises, p = q.unrooted := by
  induction premises generalizing kept with
  | nil => exact .inl h
  | cons q premises ih =>
    rw [List.exists_mem_cons_iff]
    rcases ih h with h | h
    · rw [keepPremise] at h
      split at h
      · exact .inl h
      · rcases List.mem_append.1 h with h | h
        · exact .inl h
        · exact .inr (.inl (List.mem_singleton.1 h))
    · exact .inr (.inr h)

theorem mem_orderPremises {premises : List Formula} {p : Formula} (h : p ∈ orderPremises premises) :
    ∃ q ∈ premises, p = q.unrooted := by
  rw [orderPremises, List.mem_mergeSort] at h
  exact (mem_foldl_keepPremise h).resolve_left List.not_mem_nil

theorem addPremises_proceeds {ps : List Formula} (h : ∀ p ∈ ps, P.Assumes .premise p) :
    Proceeds P (addPremises ps) s := by
  induction ps generalizing s with
  | nil => exact .pure trivial
  | cons p ps ih =>
    obtain ⟨hp, hps⟩ := List.forall_mem_cons.1 h
    exact (add_proceeds (.assumed hp)).bind fun _ _ _ _ => ih hps

theorem assume_proceeds (hs : s.Covered P) : Proceeds P (assume P.premises P.kind) s := by
  refine (addPremises_proceeds fun p hp => mem_orderPremises hp).bind fun _ s₁ h₁ _ => ?_
  refine Proceeds.ite fun hkind => ?_
  refine Achieves.get (add_proceeds (.assumed ⟨hkind, ?_⟩))
  rw [(h₁.covered hs).conclusion]

end Derive

theorem Search.rests_log (s : Search) (e : Event) : s.Rests (s.log e) :=
  ⟨rfl, rfl, rfl, rfl, rfl, rfl, rfl⟩

/-- A search makes moves and does not fail, and what it reports as proved is where it found the
conclusion. -/
theorem Search.run_moves (hs : s.Covered P) (made remaining : Nat) :
    Moves P s (s.run made remaining).search ∧ ∃ ending, (s.run made remaining).outcome = .ok ending ∧
      ∀ i, ending = .proved i → (s.run made remaining).search.found = some i := by
  fun_induction Search.run s made remaining with
  | case1 _ s made j hfound =>
    refine ⟨(s.rests_log _).moves, _, rfl, fun i h => ?_⟩
    cases h
    exact hfound
  | case2 => exact ⟨.refl, _, rfl, fun i h => nomatch h⟩
  | case3 => exact ⟨.refl, _, rfl, fun i h => nomatch h⟩
  | case4 s made _ _ n e s' herror =>
    obtain ⟨a, s₁, hok, -⟩ := Derive.pass_proceeds hs
    rw [hok] at herror
    cases herror
  | case5 s made _ _ n added s' hpass t hdone =>
    obtain ⟨a, s₁, hok, hmoves, -⟩ := Derive.pass_proceeds hs
    obtain ⟨rfl, rfl⟩ := EStateM.Result.ok.inj (hok.symm.trans hpass)
    exact ⟨hmoves.trans (s₁.rests_log _).moves, _, rfl, fun i h => nomatch h⟩
  | case6 s made _ _ n added s' hpass t hdone ih =>
    obtain ⟨a, s₁, hok, hmoves, -⟩ := Derive.pass_proceeds hs
    obtain ⟨rfl, rfl⟩ := EStateM.Result.ok.inj (hok.symm.trans hpass)
    have hmoves := hmoves.trans (s₁.rests_log (.passed (made + 1) a)).moves
    obtain ⟨hrest, hending⟩ := ih (hmoves.covered hs)
    exact ⟨hmoves.trans hrest, hending⟩

/-! ## Proofs -/

/-- The search for an argument makes moves, and ends with the conclusion only where it has found it. -/
theorem Search.run_of_assume {limit : Nat}
    (h : Derive.assume P.premises P.kind (start P.premises P.conclusion limit) = .ok () s)
    (remaining : Nat) :
    Moves P (start P.premises P.conclusion limit) (s.run 0 remaining).search ∧
      ∀ i, (s.run 0 remaining).outcome = .ok (.proved i) →
        (s.run 0 remaining).search.found = some i := by
  have hcovered := covered_start P limit
  have hmoves := (Derive.assume_proceeds hcovered).moves h
  obtain ⟨hrun, ending, hending, hfound⟩ := run_moves (hmoves.covered hcovered) 0 remaining
  refine ⟨hmoves.trans hrun, fun i hproved => hfound i ?_⟩
  exact Except.ok.inj (hending.symm.trans hproved)

/-- A proof is what is written up of a search that ended with the conclusion. -/
theorem Context.exists_run_of_prove {ctx : Context} {lines : List Line}
    (h : (ctx.prove P.premises P.conclusion P.kind).2 = .ok (some lines)) :
    ∃ s s' i,
      Derive.assume P.premises P.kind
        (start P.premises P.conclusion ctx.settings.negationLimit.value) = .ok () s ∧
      (s.run 0 ctx.settings.deductionLimit.value).outcome = .ok (.proved i) ∧
      Derive.finish i (s.run 0 ctx.settings.deductionLimit.value).search = .ok lines s' := by
  unfold prove at h
  dsimp only [reset] at h
  split at h
  · cases h
  · next s hassume =>
    split at h
    · cases h
    · next ending hending =>
      cases ending with
      | proved i =>
        dsimp only at h
        split at h
        · cases h
        · next lines' s' hfinish =>
          cases h
          exact ⟨s, s', i, hassume, hending, hfinish⟩
      | _ => cases h

/-- A proof is made of a search that has found the conclusion. -/
theorem Context.exists_finish_of_prove {ctx : Context} {lines : List Line}
    (h : (ctx.prove P.premises P.conclusion P.kind).2 = .ok (some lines)) :
    ∃ limit s s' i, Moves P (start P.premises P.conclusion limit) s ∧ s.found = some i ∧
      Derive.finish i s = .ok lines s' := by
  obtain ⟨s, s', i, hassume, hproved, hfinish⟩ := exists_run_of_prove h
  obtain ⟨hmoves, hfound⟩ := run_of_assume hassume ctx.settings.deductionLimit.value
  exact ⟨_, _, s', i, hmoves, hfound i hproved, hfinish⟩

theorem eq_ok_of_join {r : Except Error (Option (List Line))} {lines : List Line}
    (h : r.toOption.join = some lines) : r = .ok (some lines) := by
  obtain _ | _ | lines' := r
  · cases h
  · cases h
  · exact congrArg Except.ok h

theorem exists_lines {r : Except Error (Option (List Line))} (h : r.toOption.join.isSome) :
    ∃ lines, r = .ok (some lines) := by
  obtain ⟨lines, h⟩ := Option.isSome_iff_exists.1 h
  exact ⟨lines, eq_ok_of_join h⟩

end Sequitur
