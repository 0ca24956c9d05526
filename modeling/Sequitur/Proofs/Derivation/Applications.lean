import Sequitur.Proofs.Derivation.Moves

/-!
# How often a rule has been applied

Most rules give no more than one or two things when they are applied to a formula
(`Formula.allowance`), and a universal gives an instance for each constant. A store of derivations is
measured (`Derivations.Measured`) if no rule has given more than that from any of its derivations,
none at all without a mark, and none that only undoes how the derivation was made. Marking a
derivation keeps a store measured, and so does a new derivation for which there was room.
-/

namespace Sequitur

variable {store store' store'' : Derivations} {es fs : List Inference} {e : Inference}
  {r : Step} {i n : Nat} {d d' : Derivation}

/-! ## Applications -/

/-- What was inferred by a step in the first place from the derivation at an index. -/
def applications (es : List Inference) (r : Step) (i : Nat) : List Inference :=
  es.filter fun e => e.step = r ∧ e.parents.head? = some i

theorem mem_applications : e ∈ applications es r i ↔
    e ∈ es ∧ e.step = r ∧ e.parents.head? = some i := by
  simp [applications]

theorem applications_append (es fs : List Inference) (r : Step) (i : Nat) :
    applications (es ++ fs) r i = applications es r i ++ applications fs r i :=
  List.filter_append es fs

theorem applications_eq_nil (h : ∀ e ∈ es, e.step = r → e.parents.head? ≠ some i) :
    applications es r i = [] := by
  refine List.eq_nil_iff_forall_not_mem.2 fun e he => ?_
  obtain ⟨hmem, hstep, hhead⟩ := mem_applications.1 he
  exact h e hmem hstep hhead

theorem applications_singleton (e : Inference) (r : Step) (i : Nat) :
    applications [e] r i = if e.step = r ∧ e.parents.head? = some i then [e] else [] := by
  by_cases h : e.step = r ∧ e.parents.head? = some i
  · rw [if_pos h, applications, List.filter_cons_of_pos (by simpa using h), List.filter_nil]
  · rw [if_neg h, applications, List.filter_cons_of_neg (by simpa using h), List.filter_nil]

namespace Derivations

theorem inferences_addMark (store : Derivations) (i : Nat) (r : Step) :
    (store.addMark i r).inferences = store.inferences :=
  inferences_modify fun _ => rfl

theorem inferences_addInstantiated (store : Derivations) (i : Nat) (c : Char) :
    (store.addInstantiated i c).inferences = store.inferences :=
  inferences_modify fun _ => rfl

theorem exists_get? (h : store.inferences[i]? = some e) :
    ∃ d, store.get? i = some d ∧ d.inference = e := by
  rw [getElem?_inferences] at h
  exact Option.map_eq_some_iff.1 h

theorem lt_size_of_get? (h : store.get? i = some d) : i < store.size :=
  (Array.getElem?_eq_some_iff.1 h).1

theorem get?_eq_none (h : store.size ≤ i) : store.get? i = none := Array.getElem?_eq_none h

/-- Nothing rests on what is derived later. -/
theorem parents_lt_of_getElem? (h : store.inferences[i]? = some e) : ∀ p ∈ e.parents, p < i := by
  obtain ⟨d, hd, rfl⟩ := exists_get? h
  exact store.parents_lt i d hd

theorem applications_of_size_le (h : store.size ≤ i) (r : Step) :
    applications store.inferences r i = [] := by
  refine applications_eq_nil fun e he _ hhead => ?_
  obtain ⟨j, hj⟩ := List.mem_iff_getElem?.1 he
  have hlt := parents_lt_of_getElem? hj i (List.mem_of_mem_head? hhead)
  have hsize := (List.getElem?_eq_some_iff.1 hj).1
  rw [length_inferences] at hsize
  omega

end Derivations

/-! ## Limits -/

/-- How many things a rule may give when it is applied to a formula, where there is a limit. A
universal has as many instances as there are constants, unless it is vacuous. -/
def Formula.allowance (f : Formula) : Step → Option Nat
  | .modusPonens | .modusTollens | .disjunctiveSyllogism | .biconditionalElimination
  | .doubleNegationElimination | .doubleNegationIntroduction | .deMorgan | .transposition
  | .materialImplication | .existentialElimination => some 1
  | .conjunctionElimination | .constructiveDilemma | .destructiveDilemma => some 2
  | .universalElimination => if f.isVacuous then some 1 else none
  | _ => none

/-- Whether a step may be taken from a derivation any number of times. -/
def Step.Unlimited (r : Step) : Prop :=
  r ≠ .universalElimination ∧ ∀ f : Formula, f.allowance r = none

theorem Step.not_unlimited_of_inverse {step : Step} (h : step.inverse = some r) :
    ¬r.Unlimited := by
  rintro ⟨-, hnone⟩
  cases step <;> cases h <;> cases hnone .falsum

theorem Step.inverse_ne_universalElimination (step : Step) :
    step.inverse ≠ some .universalElimination := by
  cases step <;> decide

/-! ## Measured derivations -/

/-- Whether rules have been applied to a derivation within their limits, given what each of them has
inferred from it. -/
structure Derivation.Measured (d : Derivation) (uses : Step → List Inference) : Prop where
  allowed : ∀ {r n}, d.formula.allowance r = some n →
    (uses r).length ≤ if d.marks.has r then n else 0
  /-- The rule that would undo how it was derived counts as tried, and has inferred nothing. -/
  inverse : ∀ {r}, d.step.inverse = some r → d.marks.has r ∧ uses r = []
  /-- No two instances are for the same constant. -/
  instances : ¬d.formula.isVacuous → ∃ cs : List Char, cs.Nodup ∧ (∀ c ∈ cs, c ∈ d.instantiated) ∧
    (uses .universalElimination).map (fun e => some e.formula) = cs.map d.formula.instantiate

/-- Whether a derivation is another, with perhaps more marks and more constants. -/
structure Derivation.Keeps (d d' : Derivation) : Prop where
  inference : d'.inference = d.inference
  marks : ∀ r, d.marks.has r → d'.marks.has r
  instantiated : ∀ c ∈ d.instantiated, c ∈ d'.instantiated

namespace Derivation

variable {uses uses' : Step → List Inference}

theorem Keeps.refl (d : Derivation) : d.Keeps d := ⟨rfl, fun _ h => h, fun _ h => h⟩

theorem measured_nil (h : ∀ r, d.step.inverse = some r → d.marks.has r) :
    d.Measured fun _ => [] where
  allowed _ := Nat.zero_le _
  inverse hr := ⟨h _ hr, rfl⟩
  instances _ := ⟨[], List.nodup_nil, fun _ hc => absurd hc List.not_mem_nil, rfl⟩

theorem Measured.congr (h : d.Measured uses) (huses : ∀ r, ¬r.Unlimited → uses' r = uses r) :
    d.Measured uses' where
  allowed {r n} hn := by
    rw [huses r fun hr => Option.some_ne_none n (hn ▸ hr.2 _)]
    exact h.allowed hn
  inverse hr := by
    rw [huses _ (Step.not_unlimited_of_inverse hr)]
    exact h.inverse hr
  instances hv := by
    rw [huses _ fun hr => hr.1 rfl]
    exact h.instances hv

theorem Measured.keeps (h : d.Measured uses) (hk : d.Keeps d') : d'.Measured uses := by
  have hformula : d'.formula = d.formula := congrArg Inference.formula hk.inference
  have hstep : d'.step = d.step := congrArg Inference.step hk.inference
  constructor
  · intro r n hn
    have hle := h.allowed (hformula ▸ hn)
    split at hle
    · next hr => rwa [if_pos (hk.marks r hr)]
    · exact hle.trans (Nat.zero_le _)
  · intro r hr
    obtain ⟨hmark, hnil⟩ := h.inverse (hstep ▸ hr)
    exact ⟨hk.marks r hmark, hnil⟩
  · rw [hformula]
    intro hv
    obtain ⟨cs, hnodup, hmem, hcs⟩ := h.instances hv
    exact ⟨cs, hnodup, fun c hc => hk.instantiated c (hmem c hc), hcs⟩

/-- Without a mark, a rule has inferred nothing. -/
theorem Measured.eq_nil (h : d.Measured uses) (hn : d.formula.allowance r = some n)
    (hr : ¬d.marks.has r) : uses r = [] := by
  have hle := h.allowed hn
  rw [if_neg hr] at hle
  exact List.eq_nil_of_length_eq_zero (Nat.le_zero.1 hle)

/-- A rule that is marked and has not reached its limit may be applied once more. -/
theorem Measured.spend (h : d.Measured uses) (hn : d.formula.allowance r = some n)
    (hr : d.marks.has r) (hinverse : d.step.inverse ≠ some r) (hlt : (uses r).length < n)
    (e : Inference) : d.Measured fun t => uses t ++ if t = r then [e] else [] := by
  constructor
  · intro t m hm
    by_cases ht : t = r
    · subst ht
      obtain rfl : m = n := Option.some.inj (hm.symm.trans hn)
      rw [if_pos rfl, if_pos hr, List.length_append, List.length_singleton]
      omega
    · rw [if_neg ht, List.append_nil]
      exact h.allowed hm
  · intro t ht
    have hne : t ≠ r := fun hne => hinverse (hne ▸ ht)
    rw [if_neg hne, List.append_nil]
    exact h.inverse ht
  · intro hv
    have hne : Step.universalElimination ≠ r := by
      rintro rfl
      rw [Formula.allowance, if_neg hv] at hn
      cases hn
    rw [if_neg hne, List.append_nil]
    exact h.instances hv

/-- A universal may be instantiated with a constant for which it has no instance. -/
theorem Measured.instantiate (h : d.Measured uses) (hv : ¬d.formula.isVacuous) {c : Char}
    {cs : List Char} (hnodup : (cs ++ [c]).Nodup) (hmem : ∀ k ∈ cs ++ [c], k ∈ d.instantiated)
    (hcs : (uses .universalElimination).map (fun e => some e.formula) =
      cs.map d.formula.instantiate)
    (he : d.formula.instantiate c = some e.formula) :
    d.Measured fun t => uses t ++ if t = .universalElimination then [e] else [] := by
  constructor
  · intro t m hm
    have hne : t ≠ .universalElimination := by
      rintro rfl
      rw [Formula.allowance, if_neg hv] at hm
      cases hm
    rw [if_neg hne, List.append_nil]
    exact h.allowed hm
  · intro t ht
    have hne : t ≠ .universalElimination := by
      rintro rfl
      exact Step.inverse_ne_universalElimination _ ht
    rw [if_neg hne, List.append_nil]
    exact h.inverse ht
  · intro _
    refine ⟨cs ++ [c], hnodup, hmem, ?_⟩
    rw [if_pos rfl, List.map_append, List.map_append, hcs, List.map_singleton, List.map_singleton, he]

end Derivation

/-! ## Measured stores -/

namespace Derivations

/-- Whether rules have been applied to all derivations within their limits. -/
def Measured (store : Derivations) : Prop :=
  ∀ i d, store.get? i = some d → d.Measured fun r => applications store.inferences r i

theorem measured_empty : empty.Measured := by
  intro i d hd
  cases hd

/-- Marks and constants may be added at any time. -/
theorem Measured.of_keeps (h : store.Measured) (hes : store'.inferences = store.inferences)
    (hkeeps : ∀ i d', store'.get? i = some d' → ∃ d, store.get? i = some d ∧ d.Keeps d') :
    store'.Measured := by
  intro i d' hd'
  obtain ⟨d, hd, hk⟩ := hkeeps i d' hd'
  rw [hes]
  exact (h i d hd).keeps hk

theorem Measured.modify (h : store.Measured) (i : Nat) {g : Derivation → Derivation}
    {hg : ∀ d, (g d).parents = d.parents} (hk : ∀ d : Derivation, d.Keeps (g d)) :
    (store.modify i g hg).Measured := by
  refine h.of_keeps (inferences_modify fun d => (hk d).inference) fun j d' hd' => ?_
  rw [get?_modify] at hd'
  split at hd'
  · obtain ⟨d, hd, rfl⟩ := Option.map_eq_some_iff.1 hd'
    exact ⟨d, hd, hk d⟩
  · exact ⟨d', hd', .refl d'⟩

theorem Measured.addMark (h : store.Measured) (i : Nat) (r : Step) :
    (store.addMark i r).Measured :=
  h.modify i fun _ => ⟨rfl, fun _ ht => Marks.has_mark.2 (.inr ht), fun _ hc => hc⟩

theorem Measured.addInstantiated (h : store.Measured) (i : Nat) (c : Char) :
    (store.addInstantiated i c).Measured :=
  h.modify i fun _ => ⟨rfl, fun _ ht => ht, fun _ hc => Symbols.mem_insert.2 (.inr hc)⟩

/-- Whether a store has the derivations of another, just as they are, and then some more, each of
which counts as tried for the rule that would undo it, and for no other. -/
structure Gains (store : Derivations) (es : List Inference) (store' : Derivations) : Prop where
  inferences : store'.inferences = store.inferences ++ es
  kept : ∀ i < store.size, store'.get? i = store.get? i
  fresh : ∀ i d, store.size ≤ i → store'.get? i = some d →
    ∀ r, d.marks.has r ↔ d.step.inverse = some r

theorem Gains.refl (store : Derivations) : store.Gains [] store where
  inferences := (List.append_nil _).symm
  kept _ _ := rfl
  fresh i d hi hd := absurd (lt_size_of_get? hd) (by omega)

theorem Gains.size_le (h : store.Gains es store') : store.size ≤ store'.size := by
  rw [← length_inferences store', h.inferences, List.length_append, length_inferences]
  exact Nat.le_add_right _ _

theorem Gains.trans (h : store.Gains es store') (h' : store'.Gains fs store'') :
    store.Gains (es ++ fs) store'' := by
  have hle := h.size_le
  constructor
  · rw [h'.inferences, h.inferences, List.append_assoc]
  · intro i hi
    rw [h'.kept i (by omega), h.kept i hi]
  · intro i d hi hd
    by_cases hlt : i < store'.size
    · exact h.fresh i d hi (h'.kept i hlt ▸ hd)
    · exact h'.fresh i d (by omega) hd

theorem gains_push {content : Keyed} {step : Step} {parents : List Nat}
    (hlt : ∀ p ∈ parents, p < store.size) (hstep : step.inverse = none) :
    store.Gains [⟨content.formula, step, parents⟩] (store.push content step parents hlt) where
  inferences := inferences_push hlt
  kept i hi := by rw [get?_push, if_neg (by omega)]
  fresh i d hi hd r := by
    rw [get?_push] at hd
    split at hd
    · cases hd
      exact iff_of_false (ne_true_of_eq_false (Marks.has_none r)) fun hr =>
        Option.some_ne_none r (hr.symm.trans hstep)
    · rw [get?_eq_none hi] at hd
      cases hd

/-- A new derivation, with its mark. -/
theorem gains_push_addMark {content : Keyed} {step inverse : Step} {parents : List Nat}
    (hlt : ∀ p ∈ parents, p < store.size) (hstep : step.inverse = some inverse) :
    store.Gains [⟨content.formula, step, parents⟩]
      ((store.push content step parents hlt).addMark store.size inverse) where
  inferences := (inferences_addMark _ _ _).trans (inferences_push hlt)
  kept i hi := by
    rw [addMark, get?_modify, if_neg (by omega), get?_push, if_neg (by omega)]
  fresh i d hi hd r := by
    rw [addMark, get?_modify, get?_push] at hd
    by_cases h : store.size = i
    · rw [if_pos h, if_pos h.symm] at hd
      cases hd
      show (Marks.none.mark inverse).has r ↔ step.inverse = some r
      rw [hstep, Marks.has_mark, Marks.has_none, Option.some_inj]
      exact ⟨fun h => (h.resolve_right Bool.false_ne_true).symm, fun h => .inl h.symm⟩
    · rw [if_neg h, if_neg fun h' => h h'.symm, get?_eq_none hi] at hd
      cases hd

section Gains

variable {tail : List Inference} (hg : store.Gains (e :: tail) store')
  (htail : ∀ t ∈ tail, t.step.Unlimited)

include hg

theorem Gains.parents_lt : ∀ p ∈ e.parents, p < store.size := by
  have hnew : store'.inferences[store.size]? = some e := by
    rw [hg.inferences, ← length_inferences, List.getElem?_append_right (Nat.le_refl _),
      Nat.sub_self]
    rfl
  exact parents_lt_of_getElem? hnew

include htail

/-- To a step that is limited, only the first thing that was gained counts. -/
theorem Gains.applications_eq (hr : ¬r.Unlimited) (i : Nat) :
    applications store'.inferences r i = applications store.inferences r i ++
      if e.step = r ∧ e.parents.head? = some i then [e] else [] := by
  have hnil : applications tail r i = [] :=
    applications_eq_nil fun t ht htr _ => hr (htr ▸ htail t ht)
  rw [hg.inferences, List.append_cons, applications_append, applications_append, hnil,
    List.append_nil, applications_singleton]

/-- A store stays measured with a new derivation, if there was room for it. -/
theorem Measured.gains (h : store.Measured)
    (hroom : ∀ i d, e.parents.head? = some i → store.get? i = some d →
      d.Measured fun r => applications store.inferences r i ++ if r = e.step then [e] else []) :
    store'.Measured := by
  intro i d hd
  by_cases hi : i < store.size
  · rw [hg.kept i hi] at hd
    by_cases hhead : e.parents.head? = some i
    · refine (hroom i d hhead hd).congr fun r hr => ?_
      rw [hg.applications_eq htail hr]
      by_cases hstep : e.step = r
      · rw [if_pos ⟨hstep, hhead⟩, if_pos hstep.symm]
      · rw [if_neg fun h => hstep h.1, if_neg fun h => hstep h.symm]
    · refine (h i d hd).congr fun r hr => ?_
      rw [hg.applications_eq htail hr, if_neg fun h => hhead h.2, List.append_nil]
  · -- nothing limited rests on what is new
    have hle : store.size ≤ i := Nat.le_of_not_lt hi
    refine (Derivation.measured_nil fun r => (hg.fresh i d hle hd r).2).congr fun r hr => ?_
    rw [hg.applications_eq htail hr, applications_of_size_le hle, if_neg, List.append_nil]
    rintro ⟨-, hhead⟩
    exact hi (hg.parents_lt i (List.mem_of_mem_head? hhead))

end Gains

end Derivations

end Sequitur
