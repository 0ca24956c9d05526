import Sequitur.Derivation.Proof

/-!
# What the actions of a search are made of

Every action of a search is put together from a few basic ones: it marks a derivation, adds what it
derives, learns a constant, or leaves an entry in the trace. So a relation between searches that holds
across the basic actions, and of which one can follow another, holds across every rule, and across the
passes that try them (`Derive.Spans`, `Derive.SpansConstants`).
-/

namespace Sequitur

/-- The constant of an event, if that is the instantiation of an existential. -/
def Event.witness? : Event → Option Char
  | .instantiatedWith (.ex _ _) c => some c
  | _ => none

/-- Whether the rule for a step asks first whether what it would derive leads to a goal. -/
def Step.looksAhead : Step → Bool
  | .materialImplication | .doubleNegationIntroduction => true
  | _ => false

namespace Derive

variable {α β : Type} {s s' : Search} {m : Derive α} {k : α → Derive β} {b : β}

/-- An action made of two ends without an error only if both do. -/
theorem exists_of_bind_ok (h : (m >>= k) s = .ok b s') :
    ∃ a s₁, m s = .ok a s₁ ∧ k a s₁ = .ok b s' := by
  change EStateM.bind m k s = _ at h
  unfold EStateM.bind at h
  split at h
  · next a s₁ hm => exact ⟨a, s₁, hm, h⟩
  · cases h

theorem exists_of_discard_ok {u : Unit} (h : discard m s = .ok u s') : ∃ a, m s = .ok a s' := by
  change EStateM.map (fun _ => ()) m s = _ at h
  unfold EStateM.map at h
  split at h
  · next a s₁ hm =>
    cases h
    exact ⟨a, hm⟩
  · cases h

/-! ## Single actions -/

theorem eq_of_insert_ok {content : Keyed} {step : Step} {parents : List Nat} {i : Nat}
    (h : insert content step parents s = .ok i s') :
    ∃ hlt, i = s.store.size ∧
      s' = { s with store := s.store.push content step parents hlt } := by
  rw [insert, Derivations.insert] at h
  split at h
  · next i store hstore =>
    split at hstore
    · next hlt =>
      cases hstore
      cases h
      exact ⟨hlt, rfl, rfl⟩
    · cases hstore
  · cases h

theorem eq_of_derivation_ok {i : Nat} {d : Derivation} (h : derivation i s = .ok d s') :
    s.store.get? i = some d ∧ s' = s := by
  rw [derivation, Derivations.get] at h
  cases hd : s.store.get? i with
  | none =>
    rw [hd] at h
    cases h
  | some e =>
    rw [hd] at h
    cases h
    exact ⟨rfl, rfl⟩

theorem eq_of_mark_ok {i : Nat} {step : Step} {b : Bool} (h : mark i step s = .ok b s') :
    s' = { s with store := s.store.addMark i step } := by
  rw [mark, Derivations.mark] at h
  split at h
  · next fresh store hstore =>
    split at hstore
    · cases hstore
      cases h
      rfl
    · cases hstore
  · cases h

theorem eq_of_applied_ok {i : Nat} {step : Step} {b : Bool} (h : applied i step s = .ok b s') :
    s' = s ∧ ∃ d, s.store.get? i = some d ∧ b = d.marks.has step := by
  obtain ⟨d, s₁, hderivation, hreturn⟩ := exists_of_bind_ok h
  obtain ⟨hd, hs₁⟩ := eq_of_derivation_ok hderivation
  rw [hs₁] at hreturn
  cases hreturn
  exact ⟨rfl, d, hd, rfl⟩

/-- An action taken only if a rule has not been tried. -/
theorem unless_applied_cases {i : Nat} {step : Step} {act : Derive Unit} {u : Unit}
    (h : (do if !(← applied i step) then act) s = .ok u s') :
    act s = .ok u s' ∨ s' = s ∧ ∃ d, s.store.get? i = some d ∧ d.marks.has step := by
  obtain ⟨b, s₁, happlied, h⟩ := exists_of_bind_ok h
  obtain ⟨hs₁, d, hd, rfl⟩ := eq_of_applied_ok happlied
  rw [hs₁] at h
  split at h
  · exact .inl h
  · next hmark =>
    cases h
    exact .inr ⟨rfl, d, hd, by simpa using hmark⟩

theorem exists_of_tryAll_append {rules rules' : List Rule} {i : Nat} {f : Formula} {u : Unit}
    (h : tryAll i f (rules ++ rules') s = .ok u s') :
    ∃ s₁, tryAll i f rules s = .ok () s₁ ∧ tryAll i f rules' s₁ = .ok u s' := by
  induction rules generalizing s with
  | nil => exact ⟨s, rfl, h⟩
  | cons rule rest ih =>
    obtain ⟨_, s₁, hrule, h⟩ := exists_of_bind_ok h
    obtain ⟨s₂, hrest, h⟩ := ih h
    refine ⟨s₂, ?_, h⟩
    change EStateM.bind (rule i f) _ s = _
    rw [EStateM.bind, hrule]
    exact hrest

/-! ## Relations across actions -/

/-- Whether a relation holds between a search and what an action makes of it, unless it fails. -/
def Relates (Rel : Search → Search → Prop) (m : Derive α) : Prop :=
  ∀ s a s', m s = .ok a s' → Rel s s'

/-- A relation of which one can follow another holds across two actions if it holds across each. -/
theorem Relates.bind {Rel : Search → Search → Prop}
    (htrans : ∀ {s s' s''}, Rel s s' → Rel s' s'' → Rel s s'') (hm : Relates Rel m)
    (hk : ∀ a, Relates Rel (k a)) : Relates Rel (m >>= k) := by
  intro s b s' hok
  obtain ⟨a, s₁, hm', hk'⟩ := exists_of_bind_ok hok
  exact htrans (hm s a s₁ hm') (hk a s₁ b s' hk')

/-- Where one relation holds across all rules that are tried, it holds across the trial as a whole,
and up to and from the trial of each. -/
theorem exists_of_tryAll {Rel : Search → Search → Prop} (hrefl : ∀ s, Rel s s)
    (htrans : ∀ {s s' s''}, Rel s s' → Rel s' s'' → Rel s s'') {rules : List Rule} {i : Nat}
    {f : Formula} (hrules : ∀ rule ∈ rules, Relates Rel (rule i f)) {u : Unit}
    (h : tryAll i f rules s = .ok u s') :
    Rel s s' ∧ ∀ rule ∈ rules, ∃ t t', Rel s t ∧ rule i f t = .ok () t' ∧ Rel t' s' := by
  induction rules generalizing s with
  | nil =>
    cases h
    exact ⟨hrefl _, fun _ hrule => absurd hrule List.not_mem_nil⟩
  | cons rule rest ih =>
    obtain ⟨hrule, hrest⟩ := List.forall_mem_cons.1 hrules
    obtain ⟨_, s₁, hok, h⟩ := exists_of_bind_ok h
    obtain ⟨hrel, hvisits⟩ := ih hrest h
    have hfirst := hrule s () s₁ hok
    refine ⟨htrans hfirst hrel, List.forall_mem_cons.2 ⟨⟨s, s₁, hrefl s, hok, hrel⟩, ?_⟩⟩
    intro rule' hmem
    obtain ⟨t, t', ht, hok', ht'⟩ := hvisits rule' hmem
    exact ⟨t, t', htrans hfirst ht, hok', ht'⟩

/-- A relation that holds across the basic actions which mark and add with the steps of `R`, and across
entries in the trace but for the instantiations of existentials. -/
structure Spans (R : Step → Prop) (Rel : Search → Search → Prop) : Prop where
  refl : ∀ s, Rel s s
  trans : ∀ {s s' s''}, Rel s s' → Rel s' s'' → Rel s s''
  note : ∀ s e, e.witness? = none → Rel s (s.log e)
  mark : ∀ s i {r}, R r → Rel s { s with store := s.store.addMark i r }
  add : ∀ {s f r parents u s'}, R r → add f r parents s = .ok u s' → Rel s s'

/-- A relation that holds, moreover, across what is done about constants. -/
structure SpansConstants (R : Step → Prop) (Rel : Search → Search → Prop) : Prop
    extends Spans R Rel where
  emit : ∀ s e, Rel s (s.log e)
  note s e _ := emit s e
  record : ∀ s i c, Rel s { s with store := s.store.addInstantiated i c }
  learn : ∀ s known arbitrary, Rel s { s with known := known, arbitrary := arbitrary }
  exhaust : ∀ s, Rel s { s with exhausted := true }

namespace Spans

variable {R : Step → Prop} {Rel : Search → Search → Prop} (h : Spans R Rel)

include h

/-- What a relation preserves is kept by all that it holds across. -/
theorem preserves {Q : Search → Prop} (hQ : ∀ s s', Rel s s' → Q s → Q s') :
    Spans R fun s s' => Q s → Q s' where
  refl _ := id
  trans hs hs' := hs' ∘ hs
  note s e he := hQ _ _ (h.note s e he)
  mark s i _ hr := hQ _ _ (h.mark s i hr)
  add hr hok := hQ _ _ (h.add hr hok)

theorem pure (a : α) : Relates Rel (Pure.pure a : Derive α) := by
  intro s a s' hok
  cases hok
  exact h.refl s

theorem bind (hm : Relates Rel m) (hk : ∀ a, Relates Rel (k a)) : Relates Rel (m >>= k) :=
  Relates.bind h.trans hm hk

omit h in
theorem get {k : Search → Derive β} (hk : ∀ s, Relates Rel (k s)) : Relates Rel (get >>= k) :=
  fun s b s' hok => hk s s b s' hok

omit h in
theorem discard (hm : Relates Rel m) : Relates Rel (discard m) := by
  intro s u s' hok
  obtain ⟨a, hm'⟩ := exists_of_discard_ok hok
  exact hm s a s' hm'

/-- An action taken only on a condition. -/
theorem ite {c : Prop} [Decidable c] {m : Derive Unit} (hm : Relates Rel m) :
    Relates Rel (if c then m else Pure.pure ()) := by
  split
  · exact hm
  · exact h.pure ()

/-! ## Single actions -/

theorem relates_note (e : Event) (he : e.witness? = none) : Relates Rel (Derive.emit e) := by
  intro s u s' hok
  cases hok
  exact h.note s e he

theorem derivation (i : Nat) : Relates Rel (Derive.derivation i) := by
  intro s d s' hok
  rw [(eq_of_derivation_ok hok).2]
  exact h.refl s

theorem applied (i : Nat) (r : Step) : Relates Rel (Derive.applied i r) :=
  h.bind (h.derivation i) fun _ => h.pure _

theorem relates_mark (i : Nat) {r : Step} (hr : R r) : Relates Rel (Derive.mark i r) := by
  intro s b s' hok
  obtain rfl := eq_of_mark_ok hok
  exact h.mark s i hr

theorem relates_add (f : Formula) {r : Step} (hr : R r) (parents : List Nat) :
    Relates Rel (Derive.add f r parents) := fun _ _ _ hok => h.add hr hok

/-- A rule that marks what it is tried on, and adds something if the mark is new. -/
theorem mark_add (i : Nat) (f : Formula) {r : Step} (hr : R r) (parents : List Nat) :
    Relates Rel (do if ← Derive.mark i r then Derive.add f r parents) :=
  h.bind (h.relates_mark i hr) fun _ => h.ite (h.relates_add f hr parents)

/-- The other order: something is added after the mark. -/
theorem discard_mark_add (i : Nat) (f : Formula) {r : Step} (hr : R r) (parents : List Nat) :
    Relates Rel (do Functor.discard (Derive.mark i r); Derive.add f r parents) :=
  h.bind (discard (h.relates_mark i hr)) fun _ => h.relates_add f hr parents

theorem add_both (f g : Formula) {r : Step} (hr : R r) (parents : List Nat) :
    Relates Rel (do Derive.add f r parents; Derive.add g r parents) :=
  h.bind (h.relates_add f hr parents) fun _ => h.relates_add g hr parents

/-- A dilemma marks the disjunction, and adds its result in both orders. -/
theorem dilemma (i : Nat) (f g : Formula) {r : Step} (hr : R r) (parents : List Nat) :
    Relates Rel (do
      Functor.discard (Derive.mark i r); Derive.add f r parents; Derive.add g r parents) :=
  h.bind (discard (h.relates_mark i hr)) fun _ => h.add_both f g hr parents

/-- An action taken only if a rule has not been tried. -/
theorem unless_applied {m : Derive Unit} (i : Nat) (r : Step) (hm : Relates Rel m) :
    Relates Rel (do if !(← Derive.applied i r) then m) :=
  h.bind (h.applied i r) fun _ => h.ite hm

/-! ## Propositional rules -/

variable (i : Nat) (f : Formula)

theorem conjunctionElimination (hr : R .conjunctionElimination) :
    Relates Rel (Derive.conjunctionElimination i f) := by
  rw [Derive.conjunctionElimination.eq_def]
  split
  · exact h.bind (h.relates_mark i hr) fun _ => h.ite (h.add_both _ _ hr _)
  · exact h.pure ()

theorem doubleNegationElimination (hr : R .doubleNegationElimination) :
    Relates Rel (Derive.doubleNegationElimination i f) := by
  rw [Derive.doubleNegationElimination.eq_def]
  split
  · exact h.mark_add _ _ hr _
  · exact h.pure ()

theorem biconditionalElimination (hr : R .biconditionalElimination) :
    Relates Rel (Derive.biconditionalElimination i f) := by
  rw [Derive.biconditionalElimination.eq_def]
  split
  · exact h.mark_add _ _ hr _
  · exact h.pure ()

theorem modusPonens (hr : R .modusPonens) : Relates Rel (Derive.modusPonens i f) := by
  rw [Derive.modusPonens.eq_def]
  split
  · refine h.unless_applied i _ (get fun s => ?_)
    split
    · exact h.discard_mark_add _ _ hr _
    · exact h.pure ()
  · exact h.pure ()

theorem modusTollens (hr : R .modusTollens) : Relates Rel (Derive.modusTollens i f) := by
  rw [Derive.modusTollens.eq_def]
  split
  · refine h.unless_applied i _ (get fun s => ?_)
    split
    · exact h.discard_mark_add _ _ hr _
    · exact h.pure ()
  · exact h.pure ()

theorem disjunctiveSyllogism (hr : R .disjunctiveSyllogism) :
    Relates Rel (Derive.disjunctiveSyllogism i f) := by
  rw [Derive.disjunctiveSyllogism.eq_def]
  split
  · refine h.unless_applied i _ (get fun s => ?_)
    split
    · exact h.discard_mark_add _ _ hr _
    · exact h.pure ()
  · exact h.pure ()

theorem chain (hr : R .hypotheticalSyllogism) (a : Formula) (js : List (Nat × Formula)) :
    Relates Rel (Derive.chain i a js) := by
  induction js with
  | nil => exact h.pure ()
  | cons x js ih =>
    obtain ⟨j, c⟩ := x
    refine get fun s => h.ite (h.bind (h.applied i _) fun _ => h.bind (h.applied j _) fun _ => ?_)
    dsimp only
    split
    · refine h.bind (discard (h.relates_mark i hr)) fun _ => ?_
      refine h.bind (discard (h.relates_mark j hr)) fun _ => ?_
      exact h.bind (h.relates_add _ hr _) fun _ => ih
    · exact ih

theorem hypotheticalSyllogism (hr : R .hypotheticalSyllogism) :
    Relates Rel (Derive.hypotheticalSyllogism i f) := by
  rw [Derive.hypotheticalSyllogism.eq_def]
  split
  · exact get fun s => h.chain _ hr _ _
  · exact h.pure ()

theorem constructiveDilemma (hr : R .constructiveDilemma) :
    Relates Rel (Derive.constructiveDilemma i f) := by
  rw [Derive.constructiveDilemma.eq_def]
  split
  · refine h.unless_applied i _ (get fun s => ?_)
    dsimp only
    split
    · exact h.dilemma _ _ _ hr _
    · exact h.pure ()
  · exact h.pure ()

theorem destructiveDilemma (hr : R .destructiveDilemma) :
    Relates Rel (Derive.destructiveDilemma i f) := by
  rw [Derive.destructiveDilemma.eq_def]
  split
  · refine h.unless_applied i _ (get fun s => ?_)
    dsimp only
    split
    · exact h.dilemma _ _ _ hr _
    · exact h.pure ()
  · exact h.pure ()

theorem deMorgan (hr : R .deMorgan) : Relates Rel (Derive.deMorgan i f) := by
  rw [Derive.deMorgan]
  split
  · exact get fun s => h.ite (h.mark_add _ _ hr _)
  · exact h.pure ()

theorem transposition (hr : R .transposition) : Relates Rel (Derive.transposition i f) := by
  rw [Derive.transposition.eq_def]
  split
  · exact get fun s => h.ite (h.mark_add _ _ hr _)
  · exact h.pure ()

theorem materialImplication (hr : R .materialImplication) :
    Relates Rel (Derive.materialImplication i f) := by
  rw [Derive.materialImplication]
  split
  · refine get fun s => h.ite (h.unless_applied i _ (get fun s => h.ite ?_))
    exact h.bind (h.relates_note _ rfl) fun _ => h.discard_mark_add _ _ hr _
  · exact h.pure ()

theorem doubleNegationIntroduction (hr : R .doubleNegationIntroduction) :
    Relates Rel (Derive.doubleNegationIntroduction i f) :=
  h.unless_applied i _ (get fun _ => h.ite (h.discard_mark_add _ _ hr _))

/-- The rules that look ahead may be treated apart from the others. -/
theorem of_mem_propositional_of_looksAhead (hR : ∀ r, ¬r.looksAhead → R r)
    (hmaterial : Relates Rel (Derive.materialImplication i f))
    (hdouble : Relates Rel (Derive.doubleNegationIntroduction i f)) {rule : Rule}
    (hrule : rule ∈ rules.take 13) : Relates Rel (rule i f) := by
  simp only [rules, List.take_succ_cons, List.take_zero, List.mem_cons, List.not_mem_nil,
    or_false] at hrule
  rcases hrule with rfl | rfl | rfl | rfl | rfl | rfl | rfl | rfl | rfl | rfl | rfl | rfl | rfl
  · exact h.conjunctionElimination i f (hR _ Bool.false_ne_true)
  · exact h.doubleNegationElimination i f (hR _ Bool.false_ne_true)
  · exact h.biconditionalElimination i f (hR _ Bool.false_ne_true)
  · exact h.modusPonens i f (hR _ Bool.false_ne_true)
  · exact h.modusTollens i f (hR _ Bool.false_ne_true)
  · exact h.disjunctiveSyllogism i f (hR _ Bool.false_ne_true)
  · exact h.hypotheticalSyllogism i f (hR _ Bool.false_ne_true)
  · exact h.constructiveDilemma i f (hR _ Bool.false_ne_true)
  · exact h.destructiveDilemma i f (hR _ Bool.false_ne_true)
  · exact h.deMorgan i f (hR _ Bool.false_ne_true)
  · exact h.transposition i f (hR _ Bool.false_ne_true)
  · exact hmaterial
  · exact hdouble

theorem of_mem_propositional (hR : ∀ r, R r) {rule : Rule} (hrule : rule ∈ rules.take 13) :
    Relates Rel (rule i f) :=
  h.of_mem_propositional_of_looksAhead i f (fun r _ => hR r) (h.materialImplication i f (hR _))
    (h.doubleNegationIntroduction i f (hR _)) hrule

/-! ## Passes -/

omit i f

theorem instanceOf (f : Formula) (c : Char) : Relates Rel (Derive.instanceOf f c) := by
  rw [Derive.instanceOf]
  split
  · exact h.pure _
  · intro s p s' hok
    cases hok

theorem findInstance (f : Formula) (cs : List Char) : Relates Rel (Derive.findInstance f cs) := by
  induction cs with
  | nil => exact h.pure _
  | cons c cs ih =>
    refine h.bind (h.instanceOf f c) fun p => get fun s => ?_
    split
    · exact h.pure _
    · exact ih

theorem introduceConclusion_of_looksAhead (hR : ∀ r, ¬r.looksAhead → R r) :
    Relates Rel Derive.introduceConclusion := by
  refine get fun s => ?_
  dsimp only
  -- for each kind of conclusion that can be introduced, its parts are there or they are not
  split
  case h_6 => exact h.pure ()
  case' h_4 => refine h.bind (h.findInstance _ _) fun _ => ?_
  case' h_5 => refine h.bind (h.findInstance _ _) fun _ => ?_
  all_goals
    split
    · exact h.relates_add _ (hR _ (by decide)) _
    · exact h.pure ()

theorem introduceConclusion (hR : ∀ r, R r) : Relates Rel Derive.introduceConclusion :=
  h.introduceConclusion_of_looksAhead fun r _ => hR r

theorem tryAll {rules : List Rule} {i : Nat} {f : Formula}
    (hrules : ∀ rule ∈ rules, Relates Rel (rule i f)) : Relates Rel (Derive.tryAll i f rules) :=
  fun _ _ _ hok => (exists_of_tryAll h.refl h.trans hrules hok).1

theorem sweep (hrules : ∀ rule ∈ rules, ∀ i f, Relates Rel (rule i f)) (i count : Nat) :
    Relates Rel (Derive.sweep i count) := by
  induction count generalizing i with
  | zero => exact h.pure ()
  | succ n ih =>
    refine get fun s => h.ite (h.bind (h.derivation i) fun d => ?_)
    exact h.bind (h.tryAll fun rule hrule => hrules rule hrule i d.formula) fun _ => ih (i + 1)

theorem addPremises (hr : R .premise) (ps : List Formula) :
    Relates Rel (Derive.addPremises ps) := by
  induction ps with
  | nil => exact h.pure ()
  | cons p ps ih => exact h.bind (h.relates_add _ hr _) fun _ => ih

theorem assume (hp : R .premise) (ha : R .reductioAssumption) (premises : List Formula)
    (kind : ProofType) : Relates Rel (Derive.assume premises kind) :=
  h.bind (h.addPremises hp _) fun _ => h.ite (get fun _ => h.relates_add _ ha _)

end Spans

/-! ## Rules for quantifiers -/

namespace Spans

variable {R : Step → Prop} {Rel : Search → Search → Prop} (h : Spans R Rel)
  (hrecord : ∀ s i c, Rel s { s with store := s.store.addInstantiated i c })

include h hrecord

theorem recordInstance (i : Nat) (c : Char) : Relates Rel (Derive.recordInstance i c) := by
  refine h.bind (discard (h.derivation i)) fun _ => ?_
  intro s u s' hok
  cases hok
  exact hrecord s i c

theorem instantiateEach {f : Formula} (hemit : ∀ c, Relates Rel (emit (.instantiatedWith f c)))
    (hr : R .universalElimination) (i : Nat) (cs : List Char) :
    Relates Rel (Derive.instantiateEach i f cs) := by
  induction cs with
  | nil => exact h.pure ()
  | cons c cs ih =>
    refine h.bind (h.instanceOf f c) fun p => h.bind (hemit c) fun _ => ?_
    refine h.bind (h.recordInstance hrecord i c) fun _ => ?_
    exact h.bind (h.relates_add _ hr _) fun _ => ih

/-- A universal needs no constant but perhaps a first one. -/
theorem universalElimination (hseed : Relates Rel Derive.seedConstant)
    (hr : R .universalElimination) (i : Nat) (f : Formula) :
    Relates Rel (Derive.universalElimination i f) := by
  rw [Derive.universalElimination.eq_def]
  split
  · split
    · exact h.mark_add _ _ hr _
    · refine h.bind hseed fun _ => get fun s => h.bind (h.derivation i) fun d => ?_
      dsimp only
      refine h.ite (h.bind (discard (h.relates_mark i hr)) fun _ => ?_)
      exact h.instantiateEach hrecord (fun c => h.relates_note _ rfl) hr _ _
  · exact h.pure ()

end Spans

namespace SpansConstants

variable {R : Step → Prop} {Rel : Search → Search → Prop} (h : SpansConstants R Rel)

include h

theorem relates_emit (e : Event) : Relates Rel (Derive.emit e) := by
  intro s u s' hok
  cases hok
  exact h.emit s e

theorem instantiateEach (hr : R .universalElimination) (i : Nat) (f : Formula) (cs : List Char) :
    Relates Rel (Derive.instantiateEach i f cs) :=
  h.toSpans.instantiateEach h.record (fun _ => h.relates_emit _) hr i cs

theorem seedConstant : Relates Rel Derive.seedConstant := by
  refine Spans.get fun s => h.ite (h.bind (h.relates_emit _) fun _ => ?_)
  intro s u s' hok
  cases hok
  exact h.learn s _ _

variable (i : Nat) (f : Formula)

theorem existentialElimination (hr : R .existentialElimination) :
    Relates Rel (Derive.existentialElimination i f) := by
  rw [Derive.existentialElimination.eq_def]
  split
  · refine h.unless_applied i _ ?_
    split
    · exact h.discard_mark_add _ _ hr _
    · refine Spans.get fun s => ?_
      split
      · refine h.bind (h.relates_emit _) fun _ => ?_
        intro s u s' hok
        cases hok
        exact h.exhaust s
      · refine h.bind (h.instanceOf _ _) fun p => h.bind (h.relates_emit _) fun _ => ?_
        refine h.bind (Spans.discard (h.relates_mark i hr)) fun _ => ?_
        refine h.bind ?_ fun _ => h.relates_add _ hr _
        intro s u s' hok
        cases hok
        exact h.learn s _ _
  · exact h.pure ()

theorem universalElimination (hr : R .universalElimination) :
    Relates Rel (Derive.universalElimination i f) :=
  h.toSpans.universalElimination h.record h.seedConstant hr i f

omit i f

theorem of_mem_rules_of_looksAhead (hR : ∀ r, ¬r.looksAhead → R r) {rule : Rule}
    (hrule : rule ∈ rules) (i : Nat) (f : Formula)
    (hmaterial : Relates Rel (Derive.materialImplication i f))
    (hdouble : Relates Rel (Derive.doubleNegationIntroduction i f)) : Relates Rel (rule i f) := by
  rw [← List.take_append_drop 13 rules, List.mem_append] at hrule
  rcases hrule with hrule | hrule
  · exact h.of_mem_propositional_of_looksAhead i f hR hmaterial hdouble hrule
  · simp only [rules, List.drop_succ_cons, List.drop_zero, List.mem_cons, List.not_mem_nil,
      or_false] at hrule
    rcases hrule with rfl | rfl
    · exact h.existentialElimination i f (hR _ Bool.false_ne_true)
    · exact h.universalElimination i f (hR _ Bool.false_ne_true)

theorem of_mem_rules (hR : ∀ r, R r) {rule : Rule} (hrule : rule ∈ rules) (i : Nat) (f : Formula) :
    Relates Rel (rule i f) :=
  h.of_mem_rules_of_looksAhead (fun r _ => hR r) hrule i f (h.materialImplication i f (hR _))
    (h.doubleNegationIntroduction i f (hR _))

end SpansConstants

end Derive

end Sequitur
