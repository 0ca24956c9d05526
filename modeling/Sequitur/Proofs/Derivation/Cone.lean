import Mathlib.Data.List.Sort
import Sequitur.Proofs.Derivation.Lines

/-!
# A proof is the cone of its conclusion

What is kept of a search is just what the last derivation rests on, at once or at some remove
(`Derivations.mem_ancestorsOf_iff`). So a proof is a `Cone`: its lines are the derivations that are
kept, in order and under new numbers, and each can be reached from the last by following citations.
The last is the conclusion, and only assumptions cite nothing (`Context.prove_cone`).
-/

namespace Sequitur

open Search

/-- Whether what has been derived at an index rests on what was at another. -/
def RestsOn (es : List Inference) (i p : Nat) : Prop := ∃ e, es[i]? = some e ∧ p ∈ e.parents

/-! ## What is kept -/

namespace Derivations

variable {s : Derivations} {i last : Nat} {wanted kept : List Nat}

theorem mem_parentsOf_iff {p : Nat} : p ∈ s.parentsOf i ↔ RestsOn s.inferences i p := by
  rw [parentsOf_eq, RestsOn]
  cases s.inferences[i]? <;> simp

/-- What is kept comes before what was kept already. -/
theorem exists_cone_eq (s : Derivations) (i : Nat) (wanted kept : List Nat) :
    ∃ before, s.cone i wanted kept = before ++ kept := by
  induction i generalizing wanted kept with
  | zero => exact ⟨[], rfl⟩
  | succ i ih =>
    unfold Derivations.cone
    split
    · obtain ⟨before, h⟩ := ih (s.parentsOf i ++ wanted) (i :: kept)
      refine ⟨before ++ [i], ?_⟩
      rw [h, List.append_assoc, List.singleton_append]
    · exact ih wanted kept

/-- What is true of all that is wanted or kept, and passes to what they rest on, is true of all that
is kept in the end. -/
theorem forall_mem_cone {Q : Nat → Prop} (hQ : ∀ j, Q j → ∀ p ∈ s.parentsOf j, Q p)
    (hwanted : ∀ j ∈ wanted, Q j) (hkept : ∀ j ∈ kept, Q j) : ∀ j ∈ s.cone i wanted kept, Q j := by
  induction i generalizing wanted kept with
  | zero => exact hkept
  | succ i ih =>
    unfold Derivations.cone
    split
    · next hi =>
      have hqi := hwanted i hi
      refine ih ?_ (List.forall_mem_cons.2 ⟨hqi, hkept⟩)
      exact List.forall_mem_append.2 ⟨hQ i hqi, hwanted⟩
    · exact ih hwanted hkept

/-- The last of all that a derivation rests on is itself. -/
theorem getLast?_ancestorsOf (h : last < s.size) : (s.ancestorsOf last).getLast? = some last := by
  unfold ancestorsOf
  rw [if_pos h, Derivations.cone, if_pos (List.mem_singleton_self last)]
  obtain ⟨before, hbefore⟩ := s.exists_cone_eq last (s.parentsOf last ++ [last]) [last]
  rw [hbefore, List.getLast?_concat]

/-- What is kept is what the last derivation rests on, at once or at some remove. -/
theorem mem_ancestorsOf_iff (h : last < s.size) :
    i ∈ s.ancestorsOf last ↔ Relation.ReflTransGen (RestsOn s.inferences) last i := by
  constructor
  · unfold ancestorsOf
    rw [if_pos h]
    refine forall_mem_cone (fun j hj p hp => ?_) ?_ ?_ i
    · exact hj.tail (mem_parentsOf_iff.1 hp)
    · exact List.forall_mem_singleton.2 .refl
    · exact fun j hj => absurd hj List.not_mem_nil
  · intro hreach
    induction hreach with
    | refl => exact List.mem_of_getLast? (getLast?_ancestorsOf h)
    | tail _ hrests ih =>
      obtain ⟨e, he, hp⟩ := hrests
      exact (mem_ancestorsOf_of_parent ih he hp).1

end Derivations

/-! ## Cones -/

/-- Whether the line of a number cites that of another. -/
def Line.Cites (lines : List Line) (m n : Nat) : Prop := ∃ l, IsAt lines m l ∧ n ∈ l.parents

/-- Whether lines are the cone of the last of the derivations that are kept, under new numbers. -/
structure Cone (es : List Inference) (kept : List Nat) (lines : List Line) : Prop where
  ascending : kept.Pairwise (· < ·)
  reach : ∃ last, kept.getLast? = some last ∧
    ∀ i, i ∈ kept ↔ Relation.ReflTransGen (RestsOn es) last i
  length : lines.length = kept.length
  /-- A line is what has been derived, and cites the numbers of what that rests on. -/
  carried : ∀ n l, Line.IsAt lines n l → ∃ i e ns, kept[n - 1]? = some i ∧ es[i]? = some e ∧
    l.formula = e.formula ∧ l.step = e.step ∧ l.parents.Perm ns ∧
    List.Forall₂ (fun p m => 0 < m ∧ kept[m - 1]? = some p) e.parents ns
  sorted : ∀ l ∈ lines, l.parents.Pairwise (· ≤ ·)
  earlier : ∀ n l, Line.IsAt lines n l → ∀ m ∈ l.parents, 1 ≤ m ∧ m < n
  cited : ∀ n l, Line.IsAt lines n l → Relation.ReflTransGen (Line.Cites lines) lines.length n

section Numbered

variable {es : List Inference} {kept : List Nat} {lines : List Line} {store : Derivations}
  {last n m p : Nat} {l : Line}

theorem Numbered.length_eq (h : Numbered es kept lines) : lines.length = kept.length := by
  have hlength := congrArg List.length h
  rwa [List.length_map, List.length_map] at hlength

theorem Numbered.exists_of_isAt (h : Numbered es kept lines) (hl : Line.IsAt lines n l) :
    ∃ i e, kept[n - 1]? = some i ∧ es[i]? = some e ∧ l = e.line kept :=
  h.exists_inference hl.2

theorem Inference.mem_parents_line {e : Inference} :
    m ∈ (e.line kept).parents ↔ ∃ p ∈ e.parents, kept.idxOf p + 1 = m := by
  rw [Inference.line, List.mem_mergeSort, List.mem_map]

theorem Numbered.getLast? (h : Numbered es kept lines) (hlast : kept.getLast? = some last)
    {e : Inference} (he : es[last]? = some e) : lines.getLast? = some (e.line kept) := by
  have hmap := congrArg List.getLast? h
  rw [List.getLast?_map, List.getLast?_map, hlast, Option.map_some, he] at hmap
  obtain ⟨l, hl, hsome⟩ := Option.map_eq_some_iff.1 hmap
  exact hl.trans hsome

/-- What a kept derivation rests on is cited by its number. -/
theorem Numbered.cites (h : Numbered es kept lines) {i : Nat} (hi : i ∈ kept)
    (hrests : RestsOn es i p) :
    Line.Cites lines (kept.idxOf i + 1) (kept.idxOf p + 1) := by
  obtain ⟨e, he, hp⟩ := hrests
  refine ⟨e.line kept, ⟨Nat.succ_pos _, ?_⟩, Inference.mem_parents_line.2 ⟨p, hp, rfl⟩⟩
  rw [Nat.add_sub_cancel]
  exact h.getElem?_idxOf hi he

/-- Among indices in order, each has one number. -/
theorem idxOf_of_getElem? (h : kept.Pairwise (· < ·)) {i k : Nat} (hk : kept[k]? = some i) :
    kept.idxOf i = k := by
  obtain ⟨hlt, rfl⟩ := List.getElem?_eq_some_iff.1 hk
  have hnodup : kept.Nodup := h.imp Nat.ne_of_lt
  exact hnodup.idxOf_getElem k hlt

/-- A path from the last derivation is a path of citations from the last line. -/
theorem Numbered.reach (hlast : last < store.size)
    (h : Numbered store.inferences (store.ancestorsOf last) lines) {i : Nat}
    (hi : Relation.ReflTransGen (RestsOn store.inferences) last i) :
    Relation.ReflTransGen (Line.Cites lines) lines.length
      ((store.ancestorsOf last).idxOf i + 1) := by
  induction hi with
  | refl =>
    obtain ⟨wanted, hpruned⟩ := store.pruned_ancestorsOf last
    have hend := Derivations.getLast?_ancestorsOf hlast
    have hpos := List.length_pos_of_mem (List.mem_of_getLast? hend)
    rw [List.getLast?_eq_getElem?] at hend
    rw [idxOf_of_getElem? hpruned.ascending hend, Nat.sub_add_cancel hpos, h.length_eq]
  | tail hreach hrests ih =>
    exact ih.tail (h.cites ((Derivations.mem_ancestorsOf_iff hlast).2 hreach) hrests)

/-- What a derivation rests on, numbered, is the cone of that derivation. -/
theorem Numbered.cone (hlast : last < store.size)
    (h : Numbered store.inferences (store.ancestorsOf last) lines) :
    Cone store.inferences (store.ancestorsOf last) lines := by
  obtain ⟨wanted, hpruned⟩ := store.pruned_ancestorsOf last
  have hascending := hpruned.ascending
  have hend := Derivations.getLast?_ancestorsOf hlast
  refine ⟨hascending, ⟨last, hend, fun i => Derivations.mem_ancestorsOf_iff hlast⟩, h.length_eq,
    ?_, ?_, ?_, ?_⟩
  · intro n l hl
    obtain ⟨i, e, hi, he, rfl⟩ := h.exists_of_isAt hl
    refine ⟨i, e, e.parents.map fun p => (store.ancestorsOf last).idxOf p + 1, hi, he, rfl, rfl,
      List.mergeSort_perm _ _, ?_⟩
    rw [List.forall₂_map_right_iff, List.forall₂_same]
    intro p hp
    have hkept := (Derivations.mem_ancestorsOf_of_parent (List.mem_of_getElem? hi) he hp).1
    exact ⟨Nat.succ_pos _, List.getElem?_idxOf hkept⟩
  · intro l hl
    obtain ⟨k, hk⟩ := List.mem_iff_getElem?.1 hl
    obtain ⟨i, e, -, -, rfl⟩ := h.exists_inference hk
    exact List.pairwise_mergeSort' (· ≤ ·) _
  · intro n l hl m hm
    obtain ⟨i, e, hi, he, rfl⟩ := h.exists_of_isAt hl
    obtain ⟨p, hp, rfl⟩ := Inference.mem_parents_line.1 hm
    obtain ⟨hkept, hlt⟩ := Derivations.mem_ancestorsOf_of_parent (List.mem_of_getElem? hi) he hp
    have hidx := idxOf_lt_of_lt hascending hkept hi hlt
    omega
  · intro n l hl
    obtain ⟨i, e, hi, -, -⟩ := h.exists_of_isAt hl
    have hreach := h.reach hlast ((Derivations.mem_ancestorsOf_iff hlast).1 (List.mem_of_getElem? hi))
    rw [idxOf_of_getElem? hascending hi, Nat.sub_add_cancel hl.1] at hreach
    exact hreach

end Numbered

/-! ## Assumptions -/

section Assumptions

variable {P : Problem} {s : Search} {e : Inference} {store : Derivations} {found : Nat}

theorem Problem.Assumes.step {step : Step} {f : Formula} (h : P.Assumes step f) :
    step = .premise ∨ step = .reductioAssumption := by
  cases step with
  | premise => exact .inl rfl
  | reductioAssumption => exact .inr rfl
  | _ => exact h.elim

/-- What is licensed by nothing that has been derived is assumed. -/
theorem Search.Licensed.assumes (h : s.Licensed P e) (hparents : e.parents = []) :
    P.Assumes e.step e.formula := by
  cases h with
  | assumed h => exact h
  | inferred hi h =>
    subst hparents
    cases hi
    cases h
  | introduced hi h =>
    subst hparents
    cases hi
    generalize s.conclusion.formula = f at h
    cases h
  | _ => cases hparents

/-- Only assumptions rest on nothing, also when the conclusion has been repeated. -/
theorem Derive.Completes.step {limit : Nat} (h : Completes s found store)
    (hmoves : Moves P (start P.premises P.conclusion limit) s) (he : e ∈ store.inferences)
    (hparents : e.parents = []) : e.step = .premise ∨ e.step = .reductioAssumption := by
  have hsearch : ∀ e ∈ s.store.inferences, e.parents = [] → P.Assumes e.step e.formula :=
    hmoves.forall_inference (fun _ _ => Licensed.assumes) fun e he => absurd he List.not_mem_nil
  rcases h with rfl | ⟨d, -, -, hstore⟩
  · exact (hsearch e he hparents).step
  · rw [hstore, List.mem_append, List.mem_singleton] at he
    rcases he with he | rfl
    · exact (hsearch e he hparents).step
    · cases hparents

end Assumptions

/-! ## Proofs -/

/-- A proof is what is written up of a search that ended with the conclusion: the cone of the last
line, which is the conclusion, with nothing but assumptions for its leaves. -/
theorem Context.prove_cone (ctx : Context) (P : Problem) (lines : List Line)
    (h : (ctx.prove P.premises P.conclusion P.kind).2 = .ok (some lines)) :
    ∃ (s s' : Search) (i : Nat) (kept : List Nat),
      Derive.assume P.premises P.kind
        (start P.premises P.conclusion ctx.settings.negationLimit.value) = .ok () s ∧
      (s.run 0 ctx.settings.deductionLimit.value).outcome = .ok (.proved i) ∧
      Derive.finish i (s.run 0 ctx.settings.deductionLimit.value).search = .ok lines s' ∧
      Cone s'.store.inferences kept lines ∧
      (∃ l, lines.getLast? = some l ∧ l.formula.structurallyEquals P.conclusion.unrooted) ∧
      ∀ l ∈ lines, l.parents = [] → l.step = .premise ∨ l.step = .reductioAssumption := by
  obtain ⟨s, s', i, hassume, hproved, hfinish⟩ := exists_run_of_prove h
  obtain ⟨hmoves, hfound⟩ := run_of_assume hassume ctx.settings.deductionLimit.value
  obtain ⟨f, hf, hequal⟩ := hmoves.located (fun _ hi => nomatch hi) i (hfound i hproved)
  obtain ⟨lines', t, store, last, hfinish', hcompletes, ⟨e, he, hformula⟩, hstore, hnumbered⟩ :=
    Derive.finish_written hf
  obtain ⟨rfl, rfl⟩ := EStateM.Result.ok.inj (hfinish'.symm.trans hfinish)
  have hlast : last < store.size := by
    rw [← store.length_inferences]
    exact (List.getElem?_eq_some_iff.1 he).1
  have hcone := hnumbered.cone hlast
  refine ⟨s, t, i, store.ancestorsOf last, hassume, hproved, hfinish, hstore ▸ hcone, ?_, ?_⟩
  · refine ⟨_, hnumbered.getLast? (Derivations.getLast?_ancestorsOf hlast) he, ?_⟩
    rw [← (hmoves.covered (covered_start P _)).conclusion]
    show e.formula.structurallyEquals _
    rcases hformula with hformula | hformula
    · rw [hformula]
      exact hequal
    · rw [hformula]
      exact Formula.structurallyEquals_refl _
  · intro l hl hparents
    obtain ⟨k, hk⟩ := List.mem_iff_getElem?.1 hl
    obtain ⟨j, d, -, hd, rfl⟩ := hnumbered.exists_inference hk
    refine hcompletes.step hmoves (List.mem_of_getElem? hd) ?_
    have hperm : (d.line (store.ancestorsOf last)).parents.Perm _ := List.mergeSort_perm _ _
    rw [hparents] at hperm
    exact List.map_eq_nil_iff.1 hperm.symm.eq_nil

/-- A conjunct is proved by way of the conjunction it is in, and what else was derived is left out. -/
theorem Context.prove_cone_conjunct :
    ∃ lines, (({} : Context).prove [.and (.atom 'A') (.and (.atom 'B') (.atom 'C'))] (.atom 'B')
        .direct).2 = .ok (some lines) ∧
      lines.map Line.formula = [.and (.atom 'A') (.and (.atom 'B') (.atom 'C')),
        .and (.atom 'B') (.atom 'C'), .atom 'B'] ∧
      lines.map Line.parents = [[], [1], [2]] ∧ ∃ es kept, Cone es kept lines := by
  have h : (({} : Context).prove [.and (.atom 'A') (.and (.atom 'B') (.atom 'C'))] (.atom 'B')
      .direct).2.toOption.join.map (fun lines => (lines.map Line.formula, lines.map Line.parents)) =
        some ([.and (.atom 'A') (.and (.atom 'B') (.atom 'C')), .and (.atom 'B') (.atom 'C'),
          .atom 'B'], [[], [1], [2]]) := by
    decide +kernel
  obtain ⟨lines, hlines, hpair⟩ := Option.map_eq_some_iff.1 h
  obtain ⟨hformulas, hparents⟩ := Prod.mk.inj hpair
  have hprove := eq_ok_of_join hlines
  obtain ⟨_, s, _, kept, -, -, -, hcone, -⟩ := prove_cone {} ⟨_, _, .direct⟩ lines hprove
  exact ⟨lines, hprove, hformulas, hparents, s.store.inferences, kept, hcone⟩

end Sequitur
