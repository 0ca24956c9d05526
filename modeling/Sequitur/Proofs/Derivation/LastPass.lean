import Sequitur.Proofs.Derivation.Discipline

/-!
# The last pass of a search that gives up

A search gives up after a pass that derives nothing and does not finish it. Such a pass leaves what
has been derived as it was, but for marks (`Search.Turns.inferences_eq`), has tried every rule on all
of it (`Derive.sweep_invariant`), and was refused whatever a rule offered it (`Derive.add_handles`).
-/

namespace Sequitur

open Formula Search

variable {P : Problem} {s s' : Search} {f g : Formula} {i n : Nat} {limit : Nat}

namespace Search

/-! ## Turns that add nothing -/

theorem Turn.added_le (h : Turn s s') : s.added ≤ s'.added := by
  cases h with
  | rest _ hadded => exact Nat.le_of_eq hadded.symm
  | accept _ h _ =>
    rw [h.added]
    exact Nat.le_succ _
  | _ => exact Nat.le_refl _

theorem Turn.inferences_eq (h : Turn s s') (hadded : s'.added = s.added) :
    s'.store.inferences = s.store.inferences := by
  cases h with
  | rest h _ => exact h.inferences
  | accept _ h _ => exact absurd (h.added.symm.trans hadded) (Nat.succ_ne_self _)
  | _ => rfl

theorem Turn.conclusion_eq (h : Turn s s') : s'.conclusion = s.conclusion := by
  cases h with
  | rest h _ => exact h.conclusion
  | accept _ h _ => exact h.conclusion
  | _ => rfl

theorem Turns.added_le (h : Turns s s') : s.added ≤ s'.added := by
  induction h with
  | refl => exact Nat.le_refl _
  | tail _ h ih => exact ih.trans h.added_le

theorem Turns.isPrefix (h : Turns s s') : s.store.inferences <+: s'.store.inferences := by
  induction h with
  | refl => exact List.prefix_refl _
  | tail _ h ih => exact ih.trans h.isPrefix

theorem Turns.conclusion_eq (h : Turns s s') : s'.conclusion = s.conclusion := by
  induction h with
  | refl => rfl
  | tail _ h ih => exact h.conclusion_eq.trans ih

theorem Turns.isFinished (h : Turns s s') (hs : s.isFinished) : s'.isFinished :=
  h.invariant (fun _ _ hturn => hturn.isFinished) hs

/-- Where nothing is counted nothing has been derived. -/
theorem Turns.inferences_eq (h : Turns s s') (hadded : s'.added = s.added) :
    s'.store.inferences = s.store.inferences := by
  induction h with
  | refl => rfl
  | @tail s₁ s' h₁ h ih =>
    have hle := Turns.added_le h₁
    have hle' := h.added_le
    rw [h.inferences_eq (by omega), ih (by omega)]

/-! ## What a search has no use for -/

/-- Whether a formula, up to structural equality, has been derived. -/
def Derives (s : Search) (f : Formula) : Prop := ∃ i g, s.Has i g ∧ g.structurallyEquals f

/-- Whether a formula has been derived, or is refused for its form. -/
def Handles (s : Search) (f : Formula) : Prop :=
  s.Derives f ∨ f.isRedundant ∨ negationMax < f.negationDepth

theorem isSome_position?_iff : (s.position? f).isSome ↔ s.Derives f := by
  constructor
  · intro h
    obtain ⟨i, hi⟩ := Option.isSome_iff_exists.1 h
    obtain ⟨hlt, hreads, -⟩ := Array.findIdx?_eq_some_iff_getElem.1 hi
    rw [Keyed.reads_canonical] at hreads
    exact ⟨i, _, has_iff.2 ⟨_, Array.getElem?_eq_getElem hlt, rfl⟩, hreads⟩
  · rintro ⟨i, g, ⟨e, he, rfl⟩, hg⟩
    by_contra hnone
    have hnone : s.store.position? (Keyed.of f).form = none :=
      Option.not_isSome_iff_eq_none.1 hnone
    exact not_structurallyEquals_of_position? hnone (List.mem_of_getElem? he) hg

theorem Derives.of_isPrefix (h : s.Derives f) (hs : s.store.inferences <+: s'.store.inferences) :
    s'.Derives f := by
  obtain ⟨i, g, hi, hg⟩ := h
  exact ⟨i, g, hi.of_isPrefix hs, hg⟩

theorem Handles.of_isPrefix (h : s.Handles f) (hs : s.store.inferences <+: s'.store.inferences) :
    s'.Handles f := h.imp_left fun h => h.of_isPrefix hs

end Search

/-! ## Marks and instances -/

namespace Derivations

variable {store store' store'' : Derivations}

/-- Whether a store has all derivations of another, with perhaps more marks and more constants. -/
def Grows (store store' : Derivations) : Prop :=
  ∀ i d, store.get? i = some d → ∃ d', store'.get? i = some d' ∧ d.Keeps d'

theorem Grows.refl (store : Derivations) : store.Grows store := fun _ d hd => ⟨d, hd, .refl d⟩

theorem Grows.trans (h : store.Grows store') (h' : store'.Grows store'') : store.Grows store'' := by
  intro i d hd
  obtain ⟨d', hd', hk⟩ := h i d hd
  obtain ⟨d'', hd'', hk'⟩ := h' i d' hd'
  exact ⟨d'', hd'', hk'.inference.trans hk.inference, fun r hr => hk'.marks r (hk.marks r hr),
    fun c hc => hk'.instantiated c (hk.instantiated c hc)⟩

theorem grows_modify {g : Derivation → Derivation} {hg : ∀ d, (g d).parents = d.parents}
    (hk : ∀ d : Derivation, d.Keeps (g d)) : store.Grows (store.modify i g hg) := by
  intro j d hd
  rw [get?_modify, hd]
  split
  · exact ⟨g d, rfl, hk d⟩
  · exact ⟨d, rfl, .refl d⟩

theorem grows_addMark (store : Derivations) (i : Nat) (r : Step) :
    store.Grows (store.addMark i r) :=
  grows_modify fun _ => ⟨rfl, fun _ ht => Marks.has_mark.2 (.inr ht), fun _ hc => hc⟩

theorem grows_addInstantiated (store : Derivations) (i : Nat) (c : Char) :
    store.Grows (store.addInstantiated i c) :=
  grows_modify fun _ => ⟨rfl, fun _ ht => ht, fun _ hc => Symbols.mem_insert.2 (.inr hc)⟩

theorem Gains.grows {es : List Inference} (h : store.Gains es store') : store.Grows store' := by
  intro i d hd
  rw [h.kept i (lt_size_of_get? hd)]
  exact ⟨d, hd, .refl d⟩

end Derivations

namespace Derive

/-- No action takes back a mark or an instance. -/
theorem spansConstants_grows :
    SpansConstants (fun _ => True) fun s s' => s.store.Grows s'.store where
  refl s := .refl s.store
  trans := .trans
  emit s _ := .refl s.store
  mark s i r _ := s.store.grows_addMark i r
  add _ h := by
    rcases add_gains h with hstore | ⟨_, hgains, -⟩
    · rw [hstore]
      exact .refl _
    · exact hgains.grows
  record s i c := s.store.grows_addInstantiated i c
  learn s _ _ := .refl s.store
  exhaust s := .refl s.store

variable {step : Step} {parents : List Nat} {u : Unit}

/-- What a search in progress does not welcome it has no use for. -/
theorem handles_of_assess_ne (h : s.assess (.of f) step ≠ .welcome) (hopen : ¬s.isFinished) :
    s.Handles f := by
  unfold assess at h
  dsimp only at h
  rw [if_neg hopen] at h
  split_ifs at h with hredundant hnegations hknown
  · exact .inr (.inl (Bool.and_eq_true_iff.1 hredundant).2)
  · exact .inr (.inr (of_decide_eq_true (Bool.and_eq_true_iff.1 hnegations).2))
  · exact .inl (isSome_position?_iff.1 hknown)
  · exact absurd rfl h

/-- Whatever has been offered to a search in progress is handled. -/
theorem add_handles (h : add f step parents s = .ok u s') : s'.isFinished ∨ s'.Handles f := by
  rcases add_cases h with ⟨-, haccept⟩ | ⟨hrefused, hs'⟩
  · obtain ⟨haccepts, -⟩ := accept_accepts haccept
    have hi : s'.Has s.store.size f := by
      obtain ⟨es, hes⟩ := haccepts.isPrefix
      refine ⟨⟨f, step, parents⟩, ?_, rfl⟩
      rw [← hes, List.append_assoc, ← Derivations.length_inferences,
        List.getElem?_append_right (Nat.le_refl _), Nat.sub_self]
      rfl
    exact .inr (.inl ⟨_, f, hi, structurallyEquals_refl f⟩)
  · by_cases hopen : s.isFinished
    · left
      rcases hs' with rfl | ⟨e, rfl⟩ <;> exact hopen
    · right
      have hhandles := handles_of_assess_ne hrefused hopen
      rcases hs' with rfl | ⟨e, rfl⟩ <;> exact hhandles

/-! ## The conclusion -/

theorem eq_of_instanceOf_ok {c : Char} (h : instanceOf f c s = .ok g s') :
    f.instantiate c = some g ∧ s' = s := by
  rw [instanceOf] at h
  cases hf : f.instantiate c with
  | none =>
    rw [hf] at h
    cases h
  | some p =>
    rw [hf] at h
    cases h
    exact ⟨rfl, rfl⟩

theorem eq_of_findInstance_ok {cs : List Char} {found : Option Nat}
    (h : findInstance f cs s = .ok found s') : s' = s := by
  induction cs with
  | nil =>
    cases h
    rfl
  | cons c cs ih =>
    obtain ⟨p, s₁, hp, h⟩ := exists_of_bind_ok h
    rw [(eq_of_instanceOf_ok hp).2] at h
    obtain ⟨t, s₂, hget, h⟩ := exists_of_bind_ok h
    cases hget
    cases hposition : s.position? p with
    | none =>
      rw [hposition] at h
      exact ih h
    | some i =>
      rw [hposition] at h
      cases h
      rfl

/-- Whether an action does no more to a search than to offer it its conclusion. -/
def OffersConclusion (s : Search) (m : Derive Unit) : Prop :=
  ∀ u s', m s = .ok u s' →
    s' = s ∨ ∃ step parents, add s.conclusion.formula step parents s = .ok () s'

theorem offersConclusion_pure (s : Search) : OffersConclusion s (pure ()) := by
  intro u s' h
  cases h
  exact .inl rfl

theorem offersConclusion_add (s : Search) (step : Step) (parents : List Nat) :
    OffersConclusion s (add s.conclusion.formula step parents) :=
  fun _ _ h => .inr ⟨step, parents, h⟩

theorem offersConclusion_get {next : Search → Derive Unit} (h : OffersConclusion s (next s)) :
    OffersConclusion s (get >>= next) := fun u s' hok => h u s' hok

theorem offersConclusion_findInstance {f : Formula} {cs : List Char} {next : Option Nat → Derive Unit}
    (h : ∀ found, OffersConclusion s (next found)) :
    OffersConclusion s (findInstance f cs >>= next) := by
  intro u s' hok
  obtain ⟨found, s₁, hfound, hok⟩ := exists_of_bind_ok hok
  rw [eq_of_findInstance_ok hfound] at hok
  exact h found u s' hok

theorem offersConclusion_introduceConclusion (s : Search) :
    OffersConclusion s introduceConclusion := by
  refine offersConclusion_get ?_
  dsimp only
  -- for each kind of conclusion that can be introduced, its parts are there or they are not
  split
  case h_6 => exact offersConclusion_pure s
  case' h_4 => refine offersConclusion_findInstance fun _ => ?_
  case' h_5 => refine offersConclusion_findInstance fun _ => ?_
  all_goals
    split
    · exact offersConclusion_add s _ _
    · exact offersConclusion_pure s

/-! ## Sweeps -/

/-- A sweep that does not finish the search has tried the rules on one derivation after another. -/
theorem sweep_invariant {Q : Nat → Search → Prop}
    (hstep : ∀ i d s s', s.store.get? i = some d → Q i s → tryAll i d.formula rules s = .ok () s' →
      Q (i + 1) s')
    (h : sweep i n s = .ok () s') (hopen : ¬s'.isFinished) (hs : Q i s) : Q (i + n) s' := by
  induction n generalizing i s with
  | zero =>
    cases h
    exact hs
  | succ n ih =>
    obtain ⟨t, s₁, hget, h⟩ := exists_of_bind_ok h
    cases hget
    split at h
    · obtain ⟨d, s₂, hd, h⟩ := exists_of_bind_ok h
      obtain ⟨hd, hs₂⟩ := eq_of_derivation_ok hd
      rw [hs₂] at h
      obtain ⟨_, s₃, htry, h⟩ := exists_of_bind_ok h
      have := ih h (hstep i d _ _ hd hs htry)
      rwa [Nat.add_right_comm] at this
    · next hfinished =>
      cases h
      exact absurd (by simpa using hfinished) hopen

section Pass

variable {I : Search → Prop} {Q : Nat → Search → Prop}
  (hinv : ∀ j d s s', s.store.get? j = some d → I s → tryAll j d.formula rules s = .ok () s' →
    I s')
  (htry : ∀ j d s s', s.store.get? j = some d → I s → tryAll j d.formula rules s = .ok () s' →
    ¬s'.isFinished → s'.store.inferences = s.store.inferences → Q j s' ∧ ∀ i < j, Q i s → Q i s')
  (hintroduce : ∀ i s s', introduceConclusion s = .ok () s' →
    s'.store.inferences = s.store.inferences → Q i s → Q i s')

include hinv htry hintroduce

/-- In a pass that derives nothing, and does not finish the search, what each trial achieves for its
derivation is true in the end, if the trials after it let it be. -/
theorem pass_each (h : pass s = .ok 0 s') (hopen : ¬s'.isFinished)
    (hs : I { s with added := 0 }) : ∀ i < s'.store.size, Q i s' := by
  obtain ⟨s₁, hsweep, hs', hadded⟩ := pass_cases h
  have hturns : Turns s₁ s' := by
    rcases hs' with rfl | h
    · exact .refl
    · exact takesTurns_introduceConclusion _ _ _ h
  have hadded₁ : s₁.added = 0 := by
    have := hturns.added_le
    omega
  have hopen₁ : ¬s₁.isFinished := fun hfinished => hopen (hturns.isFinished hfinished)
  have hsame := hturns.inferences_eq (by omega)
  -- the trials up to an index have derived nothing if none has been counted
  obtain ⟨hturns₁, -, hall⟩ := sweep_invariant
    (Q := fun j t => Turns { s with added := 0 } t ∧ I t ∧
      (t.added = 0 → ¬t.isFinished → ∀ i < j, Q i t))
    (fun j d t t' hd ⟨hturns, ht, hall⟩ htrial => by
      have hturn : Turns t t' :=
        takesTurns_tryAll (fun rule hrule => takesTurns_of_mem_rules hrule j d.formula) _ _ _ htrial
      refine ⟨hturns.trans hturn, hinv j d t t' hd ht htrial, fun hadded' hopen' i hi => ?_⟩
      have hadded : t.added = 0 := by
        have := hturn.added_le
        omega
      have hopen : ¬t.isFinished := fun hfinished => hopen' (hturn.isFinished hfinished)
      obtain ⟨hnew, hold⟩ :=
        htry j d t t' hd ht htrial hopen' (hturn.inferences_eq (hadded'.trans hadded.symm))
      rcases Nat.lt_succ_iff_lt_or_eq.1 hi with hi | rfl
      · exact hold i hi (hall hadded hopen i hi)
      · exact hnew)
    hsweep hopen₁ ⟨.refl, hs, fun _ _ i hi => absurd hi (Nat.not_lt_zero i)⟩
  intro i hi
  have hi : i < s.store.size := by
    rw [← Derivations.length_inferences, hsame, hturns₁.inferences_eq hadded₁,
      Derivations.length_inferences] at hi
    exact hi
  have hdone := hall hadded₁ hopen₁ i (by omega)
  rcases hs' with rfl | h
  · exact hdone
  · exact hintroduce i s₁ s' h hsame hdone

end Pass

end Derive

/-! ## The end of a search -/

/-- A search that gives up has made a pass that derived nothing. -/
theorem Search.Opens.run_fixpoint (h : Opens P limit n s) {remaining : Nat}
    (hfixpoint : (s.run n remaining).outcome = .ok .fixpoint) :
    ∃ m s₁ s₂, Opens P limit m s₁ ∧ ¬s₁.isFinished ∧ Derive.pass s₁ = .ok 0 s₂ ∧
      ¬s₂.isFinished ∧ (s.run n remaining).search = s₂.log (.passed (m + 1) 0) := by
  fun_induction Search.run s n remaining with
  | case1 => cases hfixpoint
  | case2 => cases hfixpoint
  | case3 => cases hfixpoint
  | case4 => cases hfixpoint
  | case5 s n hfound hexhausted _ added s' hpass t hdone =>
    obtain ⟨rfl, hopen⟩ := hdone
    have hopen : ¬s'.isFinished := by simpa [t, Search.isFinished, Search.log] using hopen
    exact ⟨n, s, s', h, not_isFinished hfound hexhausted, hpass, hopen, rfl⟩
  | case6 s n hfound hexhausted _ added s' hpass t hdone ih =>
    exact ih (.next h (not_isFinished hfound hexhausted) hpass) hfixpoint

namespace Context

/-- Whether a state is the one in which the search for a derivation ends. -/
def EndsIn (ctx : Context) (P : Problem) (t : Search) : Prop :=
  ∃ s, Derive.assume P.premises P.kind
      (start P.premises P.conclusion ctx.settings.negationLimit.value) = .ok () s ∧
    t = (s.run 0 ctx.settings.deductionLimit.value).search

theorem EndsIn.unique {ctx : Context} {t t' : Search} (h : ctx.EndsIn P t) (h' : ctx.EndsIn P t') :
    t = t' := by
  obtain ⟨s, hs, rfl⟩ := h
  obtain ⟨s', hs', rfl⟩ := h'
  cases hs.symm.trans hs'
  rfl

/-- What is reported as not proved was given up after a pass that derived nothing. -/
theorem exists_last_pass {ctx : Context}
    (h : (ctx.prove P.premises P.conclusion P.kind).1.report = .notProved) :
    ∃ n s s', Opens P ctx.settings.negationLimit.value n s ∧ ¬s.isFinished ∧
      Derive.pass s = .ok 0 s' ∧ ¬s'.isFinished ∧ ctx.EndsIn P (s'.log (.passed (n + 1) 0)) := by
  obtain ⟨s, ending, hassume, -, hending, htold⟩ := ctx.prove_told P
  have hfixpoint : ending = .fixpoint := by
    have hreport := htold.report.symm.trans h
    cases ending with
    | fixpoint => rfl
    | _ => cases hreport
  obtain ⟨m, s₁, s₂, hopens, hopen, hpass, hopen', hsearch⟩ :=
    (Opens.first hassume).run_fixpoint (hfixpoint ▸ hending)
  exact ⟨m, s₁, s₂, hopens, hopen, hpass, hopen', s, hassume, hsearch.symm⟩

end Context

end Sequitur
