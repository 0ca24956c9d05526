import Sequitur.Proofs.Derivation.Moves

/-!
# Actions end well

An action of a search ends without an error and amounts to moves (`Derive.Achieves`). This is shown
here for the actions that the rules are made of, up to `Derive.add`, which adds what is licensed.
-/

namespace Sequitur

open Formula Search

variable {α β : Type} {P : Problem} {s s' : Search} {i : Nat} {f : Formula}

/-! ## Moves -/

namespace Search

theorem Rests.of_store {store : Derivations} (h : store.inferences = s.store.inferences) :
    s.Rests { s with store := store } :=
  ⟨h, rfl, rfl, rfl, rfl, rfl, rfl⟩

theorem Rests.moves (h : s.Rests s') : Moves P s s' := .single (.rest h)

theorem Moves.conclusion (h : Moves P s s') : s'.conclusion = s.conclusion := by
  induction h with
  | refl => rfl
  | tail _ h ih =>
    cases h with
    | rest h => rw [h.conclusion, ih]
    | _ => exact ih

theorem Moves.mem_known (h : Moves P s s') {c : Char} (hc : c ∈ s.known) : c ∈ s'.known := by
  induction h with
  | refl => exact hc
  | tail _ h ih =>
    cases h with
    | rest h => exact h.known ▸ ih
    | learn _ => exact Symbols.mem_insert.2 (.inr ih)
    | seed _ => exact Symbols.mem_insert.2 (.inr ih)
    | _ => exact ih

theorem Cites.singleton (hi : s.Has i f) : s.Cites [i] [f] := .cons hi .nil

theorem Cites.pair {j : Nat} {g : Formula} (hi : s.Has i f) (hj : s.Has j g) :
    s.Cites [i, j] [f, g] :=
  .cons hi (Cites.singleton hj)

theorem Cites.lt_size {is : List Nat} {ps : List Formula} (h : s.Cites is ps) :
    ∀ i ∈ is, i < s.store.size := by
  induction h with
  | nil => exact fun _ hi => absurd hi List.not_mem_nil
  | cons hi _ ih => exact List.forall_mem_cons.2 ⟨hi.lt_size, ih⟩

theorem Licensed.rests {e : Inference} (h : s.Licensed P e) (hs : s.Rests s') :
    s'.Licensed P e := by
  have hhas : ∀ {i f}, s.Has i f → s'.Has i f := hs.has_iff.2
  cases h with
  | assumed h => exact .assumed h
  | inferred hi h => exact .inferred (hi.imp fun _ _ => hhas) h
  | instantiated hi hx hc => exact .instantiated (hhas hi) hx (hs.known ▸ hc)
  | witnessed hi hx hc hnew hfresh =>
    exact .witnessed (hhas hi) hx (hs.known ▸ hc) (hs.arbitrary ▸ hnew) fun j f hf =>
      hfresh j f (hs.has_iff.1 hf)
  | introduced hi h =>
    rw [← hs.conclusion] at h ⊢
    exact .introduced (hi.imp fun _ _ => hhas) h
  | generalized hf hc hi h =>
    rw [← hs.conclusion] at hf ⊢
    exact .generalized hf (hs.arbitrary ▸ hc) (hhas hi) h

/-- What is licensed rests on what has been derived. -/
theorem Licensed.lt_size {e : Inference} (h : s.Licensed P e) :
    ∀ p ∈ e.parents, p < s.store.size := by
  cases h with
  | assumed _ => exact fun _ hp => absurd hp List.not_mem_nil
  | inferred hi _ => exact hi.lt_size
  | introduced hi _ => exact hi.lt_size
  | instantiated hi _ _ => exact (Cites.singleton hi).lt_size
  | witnessed hi _ _ _ _ => exact (Cites.singleton hi).lt_size
  | generalized _ _ hi _ => exact (Cites.singleton hi).lt_size

end Search

namespace Derive

/-- Whether an action ends without an error, amounts to moves, and leaves a result and a state of
which `Q` is true. -/
def Achieves (P : Problem) (m : Derive α) (s : Search) (Q : α → Search → Prop) : Prop :=
  ∃ a s', m s = .ok a s' ∧ Moves P s s' ∧ Q a s'

/-- Whether an action ends without an error and amounts to moves. -/
abbrev Proceeds (P : Problem) (m : Derive α) (s : Search) : Prop := Achieves P m s fun _ _ => True

variable {m : Derive α} {k : α → Derive β} {Q : α → Search → Prop} {R : β → Search → Prop}

theorem Achieves.proceeds (h : Achieves P m s Q) : Proceeds P m s := by
  obtain ⟨a, s', hm, hs, -⟩ := h
  exact ⟨a, s', hm, hs, trivial⟩

theorem Achieves.moves {a : α} (h : Achieves P m s Q) (hm : m s = .ok a s') : Moves P s s' := by
  obtain ⟨b, t, hb, hmoves, -⟩ := h
  obtain ⟨-, rfl⟩ := EStateM.Result.ok.inj (hb.symm.trans hm)
  exact hmoves

theorem Achieves.pure {a : α} (h : Q a s) : Achieves P (pure a) s Q := ⟨a, s, rfl, .refl, h⟩

theorem Achieves.bind (h : Achieves P m s Q)
    (hk : ∀ a s', Moves P s s' → Q a s' → Achieves P (k a) s' R) : Achieves P (m >>= k) s R := by
  obtain ⟨a, s₁, hm, h₁, hq⟩ := h
  obtain ⟨b, s₂, hb, h₂, hr⟩ := hk a s₁ h₁ hq
  refine ⟨b, s₂, ?_, h₁.trans h₂, hr⟩
  show EStateM.bind m k s = _
  rw [EStateM.bind, hm]
  exact hb

theorem Achieves.get {k : Search → Derive β} (h : Achieves P (k s) s R) :
    Achieves P (get >>= k) s R := h

theorem Achieves.discard {T : Search → Prop} (h : Achieves P m s fun _ s' => T s') :
    Achieves P (discard m) s fun _ s' => T s' := by
  obtain ⟨a, s', hm, hs, ht⟩ := h
  refine ⟨(), s', ?_, hs, ht⟩
  show EStateM.map (fun _ => ()) m s = _
  rw [EStateM.map, hm]

/-- An action taken only on a condition. -/
theorem Proceeds.ite {c : Prop} [Decidable c] {m : Derive Unit} (h : c → Proceeds P m s) :
    Proceeds P (if c then m else Pure.pure ()) s := by
  split
  · next hc => exact h hc
  · exact .pure trivial

/-! ## Single actions -/

theorem emit_achieves (e : Event) : Achieves P (emit e) s fun _ s' => s.Rests s' := by
  have hrests : s.Rests (s.log e) := ⟨rfl, rfl, rfl, rfl, rfl, rfl, rfl⟩
  exact ⟨(), s.log e, rfl, hrests.moves, hrests⟩

theorem modify_achieves {g : Search → Search} (h : Moves P s (g s)) :
    Achieves P (modify g) s fun _ s' => s' = g s :=
  ⟨(), g s, rfl, h, rfl⟩

theorem derivation_achieves (hi : s.Has i f) :
    Achieves P (derivation i) s fun d s' => s' = s ∧ d.formula = f := by
  obtain ⟨d, hd, hf⟩ := has_iff.1 hi
  refine ⟨d, s, ?_, .refl, rfl, hf⟩
  rw [derivation, Derivations.get, hd]

theorem applied_achieves (hi : s.Has i f) (step : Step) :
    Achieves P (applied i step) s fun _ s' => s' = s :=
  (derivation_achieves hi).bind fun _ _ _ h => .pure h.1

theorem mark_achieves (hi : s.Has i f) (step : Step) :
    Achieves P (mark i step) s fun _ s' => s.Rests s' := by
  obtain ⟨d, hd, -⟩ := has_iff.1 hi
  have hrests : s.Rests { s with store := s.store.addMark i step } :=
    .of_store (Derivations.inferences_modify fun _ => rfl)
  refine ⟨!d.marks.has step, _, ?_, hrests.moves, hrests⟩
  rw [mark, Derivations.mark, hd]

theorem discard_mark_achieves (hi : s.Has i f) (step : Step) :
    Achieves P (discard (mark i step)) s fun _ s' => s.Rests s' :=
  (mark_achieves hi step).discard

/-- What is licensed can be stored. -/
theorem insert_achieves {content : Keyed} {step : Step} {parents : List Nat}
    (h : s.Licensed P ⟨content.formula, step, parents⟩) :
    Achieves P (insert content step parents) s fun i s' => s'.Has i content.formula := by
  refine ⟨s.store.size, _, ?_, .single (.derive h.lt_size h), ?_⟩
  · rw [insert, Derivations.insert, dif_pos h.lt_size]
  · refine has_iff.2 ⟨.new content step parents, ?_, rfl⟩
    show (s.store.push content step parents h.lt_size).get? s.store.size = _
    rw [Derivations.get?_push, if_pos rfl]

end Derive

/-! ## What a search finds -/

namespace Search

theorem has_of_position? (h : s.position? f = some i) : ∃ g, s.Has i g ∧ f.Alike g := by
  obtain ⟨hlt, hreads, -⟩ := Array.findIdx?_eq_some_iff_getElem.1 h
  refine ⟨_, has_iff.2 ⟨_, Array.getElem?_eq_getElem hlt, rfl⟩, .inr ?_⟩
  rwa [Keyed.reads_canonical] at hreads

theorem has_of_contrary? (h : s.contrary? f = some i) : ∃ g, s.Has i g ∧ f.Contrary g := by
  rcases Option.or_eq_some_iff.1 h with h | ⟨-, h⟩
  · obtain ⟨g, hi, hg⟩ := has_of_position? h
    exact ⟨g, hi, .inl hg⟩
  · obtain ⟨p, hp, h⟩ := Option.bind_eq_some_iff.1 h
    obtain ⟨g, hi, hg⟩ := has_of_position? h
    obtain rfl : f = .not p := by
      cases f with
      | not q => exact congrArg _ (Option.some.inj hp)
      | _ => cases hp
    exact ⟨g, hi, .inr ⟨p, rfl, hg⟩⟩

end Search

namespace Derive

theorem eq_falsum_of_isFalsum (h : f.isFalsum) : f = .falsum := by
  cases f with
  | falsum => rfl
  | _ => cases h

/-- The derivations of a contradiction contradict each other. -/
theorem cites_of_contradiction? {j l : Nat} (hi : s.Has i f)
    (h : contradiction? s i f = some (j, l)) :
    ∃ ps, s.Cites [j, l] ps ∧ Infers .contradictionIntroduction ps .falsum := by
  rw [contradiction?.eq_def] at h
  split at h
  · cases h
  · obtain ⟨k, hk, h⟩ := Option.map_eq_some_iff.1 h
    cases h
    obtain ⟨g, hg, hlike⟩ := has_of_position? hk
    exact ⟨_, .pair hg hi, .contradicting hlike⟩
  · obtain ⟨k, hk, h⟩ := Option.map_eq_some_iff.1 h
    cases h
    obtain ⟨g, hg, hlike⟩ := has_of_position? hk
    exact ⟨_, .pair hi hg, .contradicted hlike⟩

/-! ## Adding a derivation -/

theorem find_proceeds (hi : s.Has i f) (hf : f.structurallyEquals s.conclusion.formula) :
    Proceeds P (modify fun s => { s with found := some i }) s :=
  (modify_achieves (.single (.find hi hf))).proceeds

theorem concludeFrom_proceeds (hi : s.Has i .falsum) : Proceeds P (concludeFrom i) s := by
  refine Achieves.get ?_
  dsimp only
  split
  · next hfalsum =>
    refine find_proceeds hi ?_
    rw [eq_falsum_of_isFalsum hfalsum]
    exact structurallyEquals_refl _
  · refine (insert_achieves (.introduced (.singleton hi) (.falsum _))).bind fun j s' hs hj => ?_
    refine find_proceeds hj ?_
    rw [hs.conclusion]
    exact structurallyEquals_refl _

/-- A derivation of falsum, or of what contradicts another, ends the search. -/
theorem checkContradiction_proceeds (hi : s.Has i f) : Proceeds P (checkContradiction i) s := by
  refine (derivation_achieves hi).bind fun d s₁ _ h₁ => ?_
  obtain ⟨rfl, rfl⟩ := h₁
  dsimp only
  split
  · next h =>
    exact concludeFrom_proceeds (eq_falsum_of_isFalsum h ▸ hi)
  · refine Achieves.get ?_
    split
    · exact .pure trivial
    · next j l h =>
      obtain ⟨ps, hps, hinfers⟩ := cites_of_contradiction? hi h
      refine (emit_achieves _).bind fun _ s₁ h₁ _ => ?_
      refine (insert_achieves (.inferred (hps.of_moves h₁) hinfers)).bind fun _ s₂ h₂ hfalsum => ?_
      exact concludeFrom_proceeds hfalsum

theorem markInverse_proceeds (hi : s.Has i f) (step : Step) :
    Proceeds P (markInverse i step) s := by
  rw [markInverse]
  split
  · exact (discard_mark_achieves hi _).proceeds
  · exact .pure trivial

theorem accept_proceeds {content : Keyed} {step : Step} {parents : List Nat}
    (h : s.Licensed P ⟨content.formula, step, parents⟩) :
    Proceeds P (accept content step parents) s := by
  refine (emit_achieves _).bind fun _ s₁ _ h₁ => ?_
  refine (insert_achieves (h.rests h₁)).bind fun i s₂ _ hi => ?_
  refine (modify_achieves (Rests.moves ⟨rfl, rfl, rfl, rfl, rfl, rfl, rfl⟩)).bind fun _ s₃ h₃ _ => ?_
  refine (markInverse_proceeds (hi.of_moves h₃) step).bind fun _ s₄ h₄ _ => ?_
  have hi₄ := (hi.of_moves h₃).of_moves h₄
  refine Achieves.get ?_
  split
  · next hreads =>
    rw [s₄.conclusion.form_eq, Keyed.reads_canonical] at hreads
    exact find_proceeds hi₄ hreads
  · exact checkContradiction_proceeds hi₄

/-- Adding what is licensed amounts to moves. -/
theorem add_proceeds {step : Step} {parents : List Nat} (h : s.Licensed P ⟨f, step, parents⟩) :
    Proceeds P (add f step parents) s := by
  refine Achieves.get ?_
  split
  · exact accept_proceeds h
  · exact (emit_achieves _).proceeds
  · exact (emit_achieves _).proceeds
  · exact .pure trivial
  · exact .pure trivial

end Derive

end Sequitur
