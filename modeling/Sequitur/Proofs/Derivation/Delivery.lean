import Sequitur.Proofs.Derivation.LastPass

/-!
# What a mark promises

A rule marks the derivation that it is tried on before it offers what it gives, and is not tried
there again, though what it offers may be refused. Some marks are made without a trial, on what a
rule has derived and another would undo. So a mark is worth something only if all that the rule gives
has been handled by the time the search goes on. That is an invariant of the search
(`Search.Opens.delivers`): within a rule a mark leaves a debt, and each offer pays for one formula.

For the five eliminations of propositional logic, whose results depend on nothing but the formula
they are tried on, it follows that a pass which derives nothing has used up every derivation
(`Derive.pass_usesUp`).
-/

namespace Sequitur

open Formula Search

variable {P : Problem} {s s' : Search} {f g p q : Formula} {r : Step} {i n : Nat} {limit : Nat}
  {owed owed' : List Formula} {parents : List Nat} {b : Bool} {u : Unit}

/-! ## Eliminations -/

/-- Whether the step is one of the five eliminations. -/
def Step.isElimination : Step → Bool
  | .conjunctionElimination | .doubleNegationElimination | .biconditionalElimination
  | .modusPonens | .modusTollens => true
  | _ => false

/-- What an elimination gives for a formula. -/
def Formula.yields : Formula → Step → List Formula
  | .and p q, .conjunctionElimination => [p, q]
  | .not (.not p), .doubleNegationElimination => [p]
  | .iff p q, .biconditionalElimination => [.and (.implies p q) (.implies q p)]
  | .implies _ q, .modusPonens => [q]
  | .implies p _, .modusTollens => [.not p]
  | _, _ => []

theorem Formula.yields_eq_nil (h : ¬r.isElimination) (f : Formula) : f.yields r = [] := by
  unfold yields
  split
  case h_6 => rfl
  all_goals exact absurd rfl h

/-- Whether marking and adding with a step promises nothing. -/
def Step.isFree (r : Step) : Bool :=
  !r.isElimination && r.inverse.all fun t => !t.isElimination

theorem Step.not_isElimination_of_isFree (h : r.isFree) : ¬r.isElimination := by
  simpa using (Bool.and_eq_true_iff.1 h).1

theorem Step.not_isElimination_of_inverse (h : r.isFree) {t : Step} (ht : r.inverse = some t) :
    ¬t.isElimination := by
  have hall := (Bool.and_eq_true_iff.1 h).2
  rw [ht] at hall
  simpa using hall

namespace Search

/-! ## Debts -/

/-- Whether all that marked rules give has been handled, but for some debts, or it is too late. -/
def Delivers (s : Search) (owed : List Formula) : Prop :=
  s.isFinished ∨ ∀ i d r, s.store.get? i = some d → d.marks.has r → ∀ g ∈ d.formula.yields r,
    s.Handles g ∨ g ∈ owed

theorem Delivers.mono (h : s.Delivers owed) (howed : owed ⊆ owed') : s.Delivers owed' :=
  h.imp_right fun h i d r hd hr g hg => (h i d r hd hr g hg).imp_right fun hg => howed hg

/-- A search goes on delivering if marks that are new have nothing to deliver but what is handled or
owed, and debts that are gone have been paid. -/
theorem Delivers.of_marks (h : s.Delivers owed) (hfinished : s.isFinished → s'.isFinished)
    (hs : s.store.inferences <+: s'.store.inferences)
    (howed : ∀ g ∈ owed, s'.Handles g ∨ g ∈ owed')
    (hmarks : ∀ i d' r, s'.store.get? i = some d' → d'.marks.has r →
      (∃ d, s.store.get? i = some d ∧ d.formula = d'.formula ∧ d.marks.has r) ∨
        ∀ g ∈ d'.formula.yields r, s'.Handles g ∨ g ∈ owed') : s'.Delivers owed' := by
  rcases h with h | h
  · exact .inl (hfinished h)
  · refine .inr fun i d' r hd' hr g hg => ?_
    rcases hmarks i d' r hd' hr with ⟨d, hd, hformula, hr⟩ | hnew
    · rw [← hformula] at hg
      rcases h i d r hd hr g hg with hg | hg
      · exact .inl (hg.of_isPrefix hs)
      · exact howed g hg
    · exact hnew g hg

theorem Delivers.of_store (h : s.Delivers owed) (hstore : s'.store = s.store)
    (hfinished : s.isFinished → s'.isFinished) : s'.Delivers owed := by
  refine h.of_marks hfinished ?_ (fun _ hg => .inr hg) fun i d' r hd' hr => .inl ⟨d', ?_, rfl, hr⟩
  · rw [hstore]
  · rw [← hstore, hd']

/-- A mark that is new brings the debts of its rule. -/
theorem Delivers.addMark (h : s.Delivers owed)
    (hmark : ∀ d, s.store.get? i = some d → d.marks.has r ∨
      ∀ g ∈ d.formula.yields r, s.Handles g ∨ g ∈ owed) :
    { s with store := s.store.addMark i r }.Delivers owed := by
  have hs : s.store.inferences <+: (s.store.addMark i r).inferences := by
    rw [Derivations.inferences_addMark]
  refine h.of_marks id hs (fun _ hg => .inr hg) fun j d' t hd' ht => ?_
  simp only [Derivations.addMark, Derivations.get?_modify] at hd'
  split at hd'
  · next hij =>
    subst hij
    obtain ⟨d, hd, rfl⟩ := Option.map_eq_some_iff.1 hd'
    rcases Marks.has_mark.1 ht with rfl | ht
    · rcases hmark d hd with hr | hnew
      · exact .inl ⟨d, hd, rfl, hr⟩
      · exact .inr fun g hg => (hnew g hg).imp_left fun hg => hg.of_isPrefix hs
    · exact .inl ⟨d, hd, rfl, ht⟩
  · exact .inl ⟨d', hd', rfl, ht⟩

theorem Delivers.addInstantiated (h : s.Delivers owed) (i : Nat) (c : Char) :
    { s with store := s.store.addInstantiated i c }.Delivers owed := by
  refine h.of_marks id ?_ (fun _ hg => .inr hg) fun j d' t hd' ht => .inl ?_
  · exact (Derivations.inferences_addInstantiated s.store i c).symm ▸ List.prefix_refl _
  · simp only [Derivations.addInstantiated, Derivations.get?_modify] at hd'
    split at hd'
    · obtain ⟨d, hd, rfl⟩ := Option.map_eq_some_iff.1 hd'
      exact ⟨d, hd, rfl, ht⟩
    · exact ⟨d', hd', rfl, ht⟩

theorem delivers_start (P : Problem) (limit : Nat) :
    (start P.premises P.conclusion limit).Delivers [] :=
  .inr fun _ _ _ hd => nomatch hd

end Search

namespace Derive

/-- An offer pays for what is offered. What is derived counts as tried for the rule that would undo
it, so what that rule gives must be there. -/
theorem add_delivers (h : add f r parents s = .ok u s') (hs : s.Delivers (f :: owed))
    (hinverse : ∀ t, r.inverse = some t → ∀ g ∈ f.yields t, s.Handles g) : s'.Delivers owed := by
  by_cases hopen : s'.isFinished
  · exact .inl hopen
  have hf : s'.Handles f := (add_handles h).resolve_left hopen
  have howed : ∀ g ∈ f :: owed, s'.Handles g ∨ g ∈ owed :=
    List.forall_mem_cons.2 ⟨.inl hf, fun _ hg => .inr hg⟩
  have hprefix := (add_turns h).isPrefix
  refine hs.of_marks (add_turns h).isFinished hprefix howed fun i d' t hd' ht => ?_
  rcases add_cases h with ⟨-, haccept⟩ | ⟨-, rfl | ⟨e, rfl⟩⟩
  · obtain ⟨haccepts, -⟩ := accept_accepts haccept
    obtain ⟨tail, hgains, -⟩ := accept_gains haccept
    by_cases hi : i < s.store.size
    · exact .inl ⟨d', hgains.kept i hi ▸ hd', rfl, ht⟩
    · -- a new derivation is the one offered, and its only mark is that of the inverse
      have hd : d'.inference = ⟨f, r, parents⟩ := by
        have hmem := Derivations.getElem?_inferences s'.store i
        rw [haccepts.finished.resolve_left hopen, hd', List.getElem?_append_right
          (by rw [Derivations.length_inferences]; omega), List.getElem?_singleton] at hmem
        split at hmem
        · exact (Option.some.inj hmem).symm
        · cases hmem
      have hformula : d'.formula = f := congrArg Inference.formula hd
      have hstep : d'.step = r := congrArg Inference.step hd
      refine .inr fun g hg => .inl ?_
      have ht := (hgains.fresh i d' (by omega) hd' t).1 ht
      exact (hinverse t (hstep ▸ ht) g (hformula ▸ hg)).of_isPrefix hprefix
  · exact .inl ⟨d', hd', rfl, ht⟩
  · exact .inl ⟨d', hd', rfl, ht⟩

/-- The conclusion may be offered by any step, as it finishes the search if it is taken. -/
theorem add_conclusion_delivers (h : add s.conclusion.formula r parents s = .ok u s')
    (hs : s.Delivers []) : s'.Delivers [] := by
  rcases add_cases h with ⟨-, haccept⟩ | ⟨-, rfl | ⟨e, rfl⟩⟩
  · refine .inl ((accept_accepts haccept).2 ?_)
    rw [s.conclusion.form_eq, Keyed.reads_canonical]
    exact structurallyEquals_refl _
  · exact hs
  · exact hs.of_store rfl id

/-- A trial marks a derivation, and owes what the rule gives if the mark is new. -/
theorem mark_delivers (h : mark i r s = .ok b s') (hi : s.Has i f) (hs : s.Delivers []) :
    s'.Delivers (if b then f.yields r else []) := by
  obtain ⟨d, hd, rfl⟩ := mark_eq_not_has h
  obtain rfl := eq_of_mark_ok h
  obtain ⟨d', hd', rfl⟩ := has_iff.1 hi
  obtain rfl : d = d' := Option.some.inj (hd.symm.trans hd')
  refine (hs.mono (List.nil_subset _)).addMark fun e he => ?_
  obtain rfl : d = e := Option.some.inj (hd.symm.trans he)
  by_cases hr : d.marks.has r
  · exact .inl hr
  · rw [Bool.eq_false_iff.2 hr]
    exact .inr fun g hg => .inr hg

/-! ## Rules -/

/-- Delivery is kept up by all that is done with steps which promise nothing. -/
theorem spansConstants_delivers :
    SpansConstants (fun r => r.isFree) fun s s' => s.Delivers [] → s'.Delivers [] where
  refl _ := id
  trans h h' := h' ∘ h
  emit _ _ hs := hs.of_store rfl id
  mark s i _ hr hs := by
    refine hs.addMark fun d _ => .inr ?_
    rw [yields_eq_nil (Step.not_isElimination_of_isFree hr)]
    exact fun _ hg => absurd hg List.not_mem_nil
  add hr hadd hs := by
    refine add_delivers hadd (hs.mono (List.nil_subset _)) fun t ht => ?_
    rw [yields_eq_nil (Step.not_isElimination_of_inverse hr ht)]
    exact fun _ hg => absurd hg List.not_mem_nil
  record _ i c hs := hs.addInstantiated i c
  learn _ _ _ hs := hs.of_store rfl id
  exhaust _ _ := .inl (Bool.or_true _)

/-- Whether turns lead from a search to another and delivery is kept up, given what is derived at an
index. -/
structure KeepsUp (i : Nat) (f : Formula) (s s' : Search) : Prop where
  turns : Turns s s'
  delivers : s.Has i f → s.Delivers [] → s'.Delivers []

theorem spansConstants_keepsUp (i : Nat) (f : Formula) :
    SpansConstants (fun r => r.isFree) (KeepsUp i f) where
  refl _ := ⟨.refl, fun _ => id⟩
  trans h h' := ⟨h.turns.trans h'.turns, fun hi hs =>
    h'.delivers (hi.of_isPrefix h.turns.isPrefix) (h.delivers hi hs)⟩
  emit s e := ⟨spansConstants_turns.emit s e, fun _ => spansConstants_delivers.emit s e⟩
  mark s j _ hr :=
    ⟨spansConstants_turns.mark s j trivial, fun _ => spansConstants_delivers.mark s j hr⟩
  add hr hadd := ⟨add_turns hadd, fun _ => spansConstants_delivers.add hr hadd⟩
  record s j c := ⟨spansConstants_turns.record s j c, fun _ => spansConstants_delivers.record s j c⟩
  learn s known arbitrary := ⟨spansConstants_turns.learn s known arbitrary, fun _ =>
    spansConstants_delivers.learn s known arbitrary⟩
  exhaust s := ⟨spansConstants_turns.exhaust s, fun _ => spansConstants_delivers.exhaust s⟩

/-- A rule that marks what it is tried on, and goes on to pay if the mark is new. -/
theorem keepsUp_mark_then {act : Derive Unit} (hact : TakesTurns act)
    (hpays : ∀ s s', act s = .ok () s' → s.Delivers (f.yields r) → s'.Delivers []) :
    Relates (KeepsUp i f) (do if ← mark i r then act) := by
  intro s u s' h
  have hturns : TakesTurns (do if ← mark i r then act) :=
    spansConstants_turns.bind (spansConstants_turns.relates_mark i trivial) fun _ =>
      spansConstants_turns.ite hact
  refine ⟨hturns s u s' h, fun hi hs => ?_⟩
  obtain ⟨b, s₁, hmark, h⟩ := exists_of_bind_ok h
  have h₁ := mark_delivers hmark hi hs
  split at h
  · next hb =>
    rw [if_pos hb] at h₁
    exact hpays s₁ s' h h₁
  · next hb =>
    rw [if_neg hb] at h₁
    cases h
    exact h₁

/-- A rule that marks what it is tried on, and pays at once. -/
theorem keepsUp_discard_mark_add (hyields : f.yields r ⊆ [g])
    (hinverse : ∀ t, r.inverse = some t → ∀ e ∈ g.yields t, e = f) :
    Relates (KeepsUp i f) (do discard (mark i r); add g r parents) := by
  intro s u s' h
  refine ⟨spansConstants_turns.discard_mark_add i g trivial parents s u s' h, fun hi hs => ?_⟩
  obtain ⟨_, s₁, hmark, hadd⟩ := exists_of_bind_ok h
  obtain ⟨b, hmark⟩ := exists_of_discard_ok hmark
  have h₁ : s₁.Delivers [g] := by
    refine (mark_delivers hmark hi hs).mono ?_
    split
    · exact hyields
    · exact List.nil_subset _
  refine add_delivers hadd h₁ fun t ht e he => ?_
  rw [hinverse t ht e he]
  have hturns := spansConstants_turns.relates_mark i trivial s b s₁ hmark
  exact .inl ⟨i, f, hi.of_isPrefix hturns.isPrefix, structurallyEquals_refl f⟩

section Rules

variable (i : Nat) (f : Formula)

theorem keepsUp_conjunctionElimination : Relates (KeepsUp i f) (conjunctionElimination i f) := by
  rw [conjunctionElimination.eq_def]
  split
  · refine keepsUp_mark_then (spansConstants_turns.add_both _ _ trivial _) fun s s' h hs => ?_
    obtain ⟨_, s₁, hp, hq⟩ := exists_of_bind_ok h
    exact add_delivers hq (add_delivers hp hs (by rintro _ ⟨⟩)) (by rintro _ ⟨⟩)
  · exact (spansConstants_keepsUp _ _).pure ()

theorem keepsUp_doubleNegationElimination :
    Relates (KeepsUp i f) (doubleNegationElimination i f) := by
  rw [doubleNegationElimination.eq_def]
  split
  · refine keepsUp_mark_then (spansConstants_turns.relates_add _ trivial _) fun s s' h hs => ?_
    refine add_delivers h hs fun t ht g hg => ?_
    cases ht
    rw [yields_eq_nil (by decide)] at hg
    exact absurd hg List.not_mem_nil
  · exact (spansConstants_keepsUp _ _).pure ()

theorem keepsUp_biconditionalElimination :
    Relates (KeepsUp i f) (biconditionalElimination i f) := by
  rw [biconditionalElimination.eq_def]
  split
  · exact keepsUp_mark_then (spansConstants_turns.relates_add _ trivial _) fun s s' h hs =>
      add_delivers h hs (by rintro _ ⟨⟩)
  · exact (spansConstants_keepsUp _ _).pure ()

theorem keepsUp_modusPonens : Relates (KeepsUp i f) (modusPonens i f) := by
  rw [modusPonens.eq_def]
  split
  · refine (spansConstants_keepsUp _ _).unless_applied i _ (Spans.get fun s => ?_)
    split
    · exact keepsUp_discard_mark_add (List.Subset.refl _) (by rintro _ ⟨⟩)
    · exact (spansConstants_keepsUp _ _).pure ()
  · exact (spansConstants_keepsUp _ _).pure ()

theorem keepsUp_modusTollens : Relates (KeepsUp i f) (modusTollens i f) := by
  rw [modusTollens.eq_def]
  split
  · refine (spansConstants_keepsUp _ _).unless_applied i _ (Spans.get fun s => ?_)
    split
    · exact keepsUp_discard_mark_add (List.Subset.refl _) (by rintro _ ⟨⟩)
    · exact (spansConstants_keepsUp _ _).pure ()
  · exact (spansConstants_keepsUp _ _).pure ()

/-- A double negation counts as tried for the rule that leads back to what it came from. -/
theorem keepsUp_doubleNegationIntroduction :
    Relates (KeepsUp i f) (doubleNegationIntroduction i f) := by
  have hspans := spansConstants_keepsUp i f
  refine hspans.unless_applied i _ (Spans.get fun s => hspans.ite ?_)
  refine keepsUp_discard_mark_add ?_ fun t ht e he => ?_
  · rw [yields_eq_nil (by decide)]
    exact List.nil_subset _
  · cases ht
    exact List.mem_singleton.1 he

theorem keepsUp_of_mem_rules {rule : Rule} (h : rule ∈ rules) : Relates (KeepsUp i f) (rule i f) := by
  have hspans := spansConstants_keepsUp i f
  simp only [rules, List.mem_cons, List.not_mem_nil, or_false] at h
  rcases h with rfl | rfl | rfl | rfl | rfl | rfl | rfl | rfl | rfl | rfl | rfl | rfl | rfl | rfl | rfl
  · exact keepsUp_conjunctionElimination i f
  · exact keepsUp_doubleNegationElimination i f
  · exact keepsUp_biconditionalElimination i f
  · exact keepsUp_modusPonens i f
  · exact keepsUp_modusTollens i f
  · exact hspans.disjunctiveSyllogism i f (by decide)
  · exact hspans.hypotheticalSyllogism i f (by decide)
  · exact hspans.constructiveDilemma i f (by decide)
  · exact hspans.destructiveDilemma i f (by decide)
  · exact hspans.deMorgan i f (by decide)
  · exact hspans.transposition i f (by decide)
  · exact hspans.materialImplication i f (by decide)
  · exact keepsUp_doubleNegationIntroduction i f
  · exact hspans.existentialElimination i f (by decide)
  · exact hspans.universalElimination i f (by decide)

end Rules

/-! ## Passes -/

theorem tryAll_keepsUp (h : tryAll i f rules s = .ok u s') :
    KeepsUp i f s s' ∧
      ∀ rule ∈ rules, ∃ t t', KeepsUp i f s t ∧ rule i f t = .ok () t' ∧ KeepsUp i f t' s' := by
  have hspans := spansConstants_keepsUp i f
  exact exists_of_tryAll hspans.refl hspans.trans (fun _ hrule => keepsUp_of_mem_rules i f hrule) h

theorem sweep_delivers (h : sweep i n s = .ok u s') (hs : s.Delivers []) : s'.Delivers [] := by
  induction n generalizing i s with
  | zero =>
    cases h
    exact hs
  | succ n ih =>
    obtain ⟨t, s₁, hget, h⟩ := exists_of_bind_ok h
    cases hget
    split at h
    · obtain ⟨d, s₂, hd, h⟩ := exists_of_bind_ok h
      obtain ⟨hd, hs₂⟩ := eq_of_derivation_ok hd
      rw [hs₂] at h
      obtain ⟨_, s₃, htry, h⟩ := exists_of_bind_ok h
      exact ih h ((tryAll_keepsUp htry).1.delivers (has_iff.2 ⟨d, hd, rfl⟩) hs)
    · cases h
      exact hs

theorem introduceConclusion_delivers (h : introduceConclusion s = .ok u s') (hs : s.Delivers []) :
    s'.Delivers [] := by
  rcases offersConclusion_introduceConclusion s u s' h with rfl | ⟨r, parents, hadd⟩
  · exact hs
  · exact add_conclusion_delivers hadd hs

theorem pass_delivers {added : Nat} (h : pass s = .ok added s') (hs : s.Delivers []) :
    s'.Delivers [] := by
  obtain ⟨s₁, hsweep, hs', -⟩ := pass_cases h
  have h₁ := sweep_delivers hsweep (hs.of_store rfl id)
  rcases hs' with rfl | hintroduce
  · exact h₁
  · exact introduceConclusion_delivers hintroduce h₁

end Derive

/-- Before every pass, what marks promise has been delivered. -/
theorem Search.Opens.delivers (h : Opens P limit n s) : s.Delivers [] := by
  induction h with
  | first h =>
    refine Derive.spansConstants_delivers.assume (by decide) (by decide) _ _ _ _ _ h ?_
    exact delivers_start P limit
  | next _ _ hpass ih => exact (Derive.pass_delivers hpass ih).of_store rfl id

/-! ## What has been used up -/

namespace Search

/-- Whether something that denies a formula has been derived: its negation, or what it negates. -/
def Denies (s : Search) (f : Formula) : Prop :=
  s.Derives (.not f) ∨ ∃ p, f = .not p ∧ s.Derives p

/-- Whether what an elimination needs besides the formula it is tried on has been derived. -/
def Supplies (s : Search) : Formula → Step → Prop
  | .implies p _, .modusPonens => s.Derives p
  | .implies _ q, .modusTollens => s.Denies q
  | _, _ => True

/-- Whether all that eliminations can give for a formula has been handled. -/
def UsesUp (s : Search) (f : Formula) : Prop :=
  ∀ r, s.Supplies f r → ∀ g ∈ f.yields r, s.Handles g

/-- Whether a rule is marked as tried on a derivation. -/
def Tried (s : Search) (i : Nat) (r : Step) : Prop :=
  ∃ d, s.store.get? i = some d ∧ d.marks.has r

theorem isSome_contrary?_iff : (s.contrary? f).isSome ↔ s.Denies f := by
  rw [contrary?, Option.isSome_or, Bool.or_eq_true, isSome_position?_iff]
  refine or_congr_right ?_
  cases f with
  | not p =>
    refine isSome_position?_iff.trans ⟨fun h => ⟨p, rfl, h⟩, ?_⟩
    rintro ⟨_, ⟨⟩, h⟩
    exact h
  | _ => exact iff_of_false Bool.false_ne_true fun ⟨_, h, _⟩ => nomatch h

theorem Denies.of_isPrefix (h : s.Denies f) (hs : s.store.inferences <+: s'.store.inferences) :
    s'.Denies f := by
  rcases h with h | ⟨p, rfl, h⟩
  · exact .inl (h.of_isPrefix hs)
  · exact .inr ⟨p, rfl, h.of_isPrefix hs⟩

theorem Supplies.of_isPrefix (h : s.Supplies f r)
    (hs : s.store.inferences <+: s'.store.inferences) : s'.Supplies f r := by
  unfold Supplies at h ⊢
  split
  · exact Derives.of_isPrefix h hs
  · exact Denies.of_isPrefix h hs
  · trivial

theorem UsesUp.of_inferences (h : s.UsesUp f) (hs : s'.store.inferences = s.store.inferences) :
    s'.UsesUp f := fun r hr g hg =>
  (h r (hr.of_isPrefix (hs ▸ List.prefix_refl _)) g hg).of_isPrefix (hs ▸ List.prefix_refl _)

end Search

namespace Derive

theorem tried_of_mark {s₁ : Search} (h : mark i r s = .ok b s₁) (hs : s₁.store.Grows s'.store) :
    s'.Tried i r := by
  obtain ⟨d, hd, -⟩ := mark_eq_not_has h
  obtain rfl := eq_of_mark_ok h
  have hmarked : (s.store.addMark i r).get? i = some { d with marks := d.marks.mark r } := by
    rw [Derivations.addMark, Derivations.get?_modify, if_pos rfl, hd, Option.map_some]
  obtain ⟨d', hd', hk⟩ := hs i _ hmarked
  exact ⟨d', hd', hk.marks r (Marks.has_mark.2 (.inl rfl))⟩

theorem conjunctionElimination_tried (h : conjunctionElimination i (.and p q) s = .ok u s') :
    s'.Tried i .conjunctionElimination := by
  obtain ⟨b, s₁, hmark, h⟩ := exists_of_bind_ok h
  have hspans := spansConstants_grows
  exact tried_of_mark hmark (hspans.ite (hspans.add_both p q trivial [i]) s₁ u s' h)

theorem doubleNegationElimination_tried
    (h : doubleNegationElimination i (.not (.not p)) s = .ok u s') :
    s'.Tried i .doubleNegationElimination := by
  obtain ⟨b, s₁, hmark, h⟩ := exists_of_bind_ok h
  have hspans := spansConstants_grows
  exact tried_of_mark hmark (hspans.ite (hspans.relates_add p trivial [i]) s₁ u s' h)

theorem biconditionalElimination_tried (h : biconditionalElimination i (.iff p q) s = .ok u s') :
    s'.Tried i .biconditionalElimination := by
  obtain ⟨b, s₁, hmark, h⟩ := exists_of_bind_ok h
  have hspans := spansConstants_grows
  exact tried_of_mark hmark (hspans.ite (hspans.relates_add _ trivial [i]) s₁ u s' h)

theorem discard_mark_add_tried (h : (do discard (mark i r); add g r parents) s = .ok u s') :
    s'.Tried i r := by
  obtain ⟨_, s₁, hmark, h⟩ := exists_of_bind_ok h
  obtain ⟨b, hmark⟩ := exists_of_discard_ok hmark
  exact tried_of_mark hmark (spansConstants_grows.relates_add g trivial parents s₁ u s' h)

theorem modusPonens_tried (h : modusPonens i (.implies p q) s = .ok u s') (hp : s.Derives p) :
    s'.Tried i .modusPonens := by
  rcases unless_applied_cases h with h | ⟨rfl, htried⟩
  · obtain ⟨t, s₁, hget, h⟩ := exists_of_bind_ok h
    cases hget
    obtain ⟨j, hj⟩ := Option.isSome_iff_exists.1 (isSome_position?_iff.2 hp)
    rw [hj] at h
    exact discard_mark_add_tried h
  · exact htried

theorem modusTollens_tried (h : modusTollens i (.implies p q) s = .ok u s') (hq : s.Denies q) :
    s'.Tried i .modusTollens := by
  rcases unless_applied_cases h with h | ⟨rfl, htried⟩
  · obtain ⟨t, s₁, hget, h⟩ := exists_of_bind_ok h
    cases hget
    obtain ⟨j, hj⟩ := Option.isSome_iff_exists.1 (isSome_contrary?_iff.2 hq)
    rw [hj] at h
    exact discard_mark_add_tried h
  · exact htried

/-- Where an elimination has something to give, and what it needs is there, a rule leaves its mark. -/
theorem exists_rule_of_mem_yields (hg : g ∈ f.yields r) :
    ∃ rule ∈ rules, ∀ {i s u s'}, rule i f s = .ok u s' → s.Supplies f r → s'.Tried i r := by
  unfold yields at hg
  split at hg
  · exact ⟨conjunctionElimination, by simp [rules], fun h _ => conjunctionElimination_tried h⟩
  · exact ⟨doubleNegationElimination, by simp [rules], fun h _ => doubleNegationElimination_tried h⟩
  · exact ⟨biconditionalElimination, by simp [rules], fun h _ => biconditionalElimination_tried h⟩
  · exact ⟨modusPonens, by simp [rules], modusPonens_tried⟩
  · exact ⟨modusTollens, by simp [rules], modusTollens_tried⟩
  · exact absurd hg List.not_mem_nil

/-- Trying all rules on a formula uses it up, if they derive nothing. -/
theorem tryAll_usesUp (h : tryAll i f rules s = .ok u s') (hi : s.Has i f) (hs : s.Delivers [])
    (hopen : ¬s'.isFinished) (hsame : s'.store.inferences = s.store.inferences) : s'.UsesUp f := by
  intro r hsupplies g hg
  obtain ⟨rule, hrule, htried⟩ := exists_rule_of_mem_yields hg
  obtain ⟨-, hvisits⟩ := tryAll_keepsUp h
  obtain ⟨t, t', ht, hok, ht'⟩ := hvisits rule hrule
  have htt' := keepsUp_of_mem_rules i f hrule t () t' hok
  -- what is supplied in the end was there when the rule was tried
  have hsupplied : t.Supplies f r := hsupplies.of_isPrefix (hsame ▸ ht.turns.isPrefix)
  obtain ⟨d, hd, hmark⟩ := htried hok hsupplied
  have hit : t.Has i f := hi.of_isPrefix ht.turns.isPrefix
  obtain ⟨d', hd', hformula⟩ := has_iff.1 (hit.of_isPrefix htt'.turns.isPrefix)
  obtain rfl : d = d' := Option.some.inj (hd.symm.trans hd')
  rcases htt'.delivers hit (ht.delivers hi hs) with hfinished | hdelivers
  · exact absurd (ht'.turns.isFinished hfinished) hopen
  · have hhandles := hdelivers i d r hd hmark g (hformula.symm ▸ hg)
    exact (hhandles.resolve_right List.not_mem_nil).of_isPrefix ht'.turns.isPrefix

/-- A pass that derives nothing, and does not finish the search, has used up all that is derived. -/
theorem pass_usesUp (h : pass s = .ok 0 s') (hs : s.Delivers []) (hopen : ¬s'.isFinished) :
    ∀ i f, s'.Has i f → s'.UsesUp f := by
  intro i f hi
  refine pass_each (I := fun t => t.Delivers []) (Q := fun i t => ∀ f, t.Has i f → t.UsesUp f)
    ?_ ?_ ?_ h hopen (hs.of_store rfl id) i hi.lt_size f hi
  · intro j d t t' hd hdelivers htry
    exact (tryAll_keepsUp htry).1.delivers (has_iff.2 ⟨d, hd, rfl⟩) hdelivers
  · intro j d t t' hd hdelivers htry hopen hsame
    refine ⟨fun f hf => ?_, fun k _ hused f hf => ?_⟩
    · have hold : t.Has j f := hf.of_isPrefix (hsame ▸ List.prefix_refl _)
      obtain ⟨e, he, rfl⟩ := has_iff.1 hold
      obtain rfl : d = e := Option.some.inj (hd.symm.trans he)
      exact tryAll_usesUp htry (has_iff.2 ⟨d, hd, rfl⟩) hdelivers hopen hsame
    · exact (hused f (hf.of_isPrefix (hsame ▸ List.prefix_refl _))).of_inferences hsame
  · intro k t t' _ hsame hused f hf
    exact (hused f (hf.of_isPrefix (hsame ▸ List.prefix_refl _))).of_inferences hsame

end Derive

end Sequitur
