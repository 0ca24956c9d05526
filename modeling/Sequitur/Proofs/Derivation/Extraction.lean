import Mathlib.Data.List.Basic
import Sequitur.Proofs.Derivation.Moves

/-!
# From a search to a proof

A finished search is cut down to what its conclusion rests on. What is kept stays in order, and all
that it rests on is kept (`Derivations.pruned_ancestorsOf`), so each can be numbered by its place
among the rest. A proof is what has been derived, under these numbers (`Derive.finish_ok`).
-/

namespace Sequitur

open Search

/-! ## What is kept -/

namespace Derivations

variable {s : Derivations} {i p last : Nat} {wanted kept : List Nat}

theorem parentsOf_eq (s : Derivations) (i : Nat) :
    s.parentsOf i = (s.inferences[i]?.map Inference.parents).getD [] := by
  rw [parentsOf, getElem?_inferences]
  cases s.get? i <;> rfl

theorem inferences_activate (s : Derivations) (i : Nat) (lines : List Nat) :
    (s.activate i lines).inferences = s.inferences := by
  unfold activate
  exact inferences_modify fun _ => rfl

theorem lt_of_mem_parentsOf (h : p ∈ s.parentsOf i) : p < i := by
  unfold parentsOf at h
  split at h
  · next d hd => exact s.parents_lt i d hd p h
  · exact absurd h List.not_mem_nil

/-- Whether what is kept, on the way down to an index, is in order, and all it rests on is kept too or
still to come. -/
structure Pruned (s : Derivations) (i : Nat) (wanted kept : List Nat) : Prop where
  ascending : kept.Pairwise (· < ·)
  passed : ∀ j ∈ kept, i ≤ j ∧ j < s.size
  closed : ∀ j ∈ kept, ∀ p ∈ s.parentsOf j, p ∈ kept ∨ p < i ∧ p ∈ wanted

/-- One more is kept if it is wanted, and what it rests on is then wanted as well. -/
theorem Pruned.keep (h : s.Pruned (i + 1) wanted kept) (hi : i < s.size) :
    s.Pruned i (s.parentsOf i ++ wanted) (i :: kept) where
  ascending := by
    refine List.pairwise_cons.2 ⟨fun j hj => ?_, h.ascending⟩
    have := (h.passed j hj).1
    omega
  passed := by
    refine List.forall_mem_cons.2 ⟨⟨Nat.le_refl i, hi⟩, fun j hj => ?_⟩
    have := h.passed j hj
    omega
  closed := by
    refine List.forall_mem_cons.2 ⟨fun p hp => ?_, fun j hj p hp => ?_⟩
    · exact .inr ⟨lt_of_mem_parentsOf hp, List.mem_append_left _ hp⟩
    · rcases h.closed j hj p hp with hkept | ⟨hlt, hwanted⟩
      · exact .inl (List.mem_cons_of_mem i hkept)
      · by_cases he : p = i
        · exact .inl (he ▸ List.mem_cons_self)
        · exact .inr ⟨by omega, List.mem_append_right _ hwanted⟩

theorem Pruned.skip (h : s.Pruned (i + 1) wanted kept) (hi : i ∉ wanted) :
    s.Pruned i wanted kept where
  ascending := h.ascending
  passed j hj := by
    have := h.passed j hj
    omega
  closed j hj p hp := by
    refine (h.closed j hj p hp).imp_right fun ⟨hlt, hwanted⟩ => ⟨?_, hwanted⟩
    have : p ≠ i := fun he => hi (he ▸ hwanted)
    omega

theorem Pruned.cone (h : s.Pruned i wanted kept) (hi : i ≤ s.size) :
    ∃ wanted', s.Pruned 0 wanted' (s.cone i wanted kept) := by
  induction i generalizing wanted kept with
  | zero => exact ⟨wanted, h⟩
  | succ i ih =>
    rw [Derivations.cone]
    split
    · exact ih (h.keep (by omega)) (by omega)
    · next hmem => exact ih (h.skip hmem) (by omega)

theorem pruned_ancestorsOf (s : Derivations) (last : Nat) :
    ∃ wanted, s.Pruned 0 wanted (s.ancestorsOf last) := by
  unfold ancestorsOf
  split
  · next hlt =>
    refine Pruned.cone ⟨List.Pairwise.nil, ?_, ?_⟩ hlt
    · exact fun j hj => absurd hj List.not_mem_nil
    · exact fun j hj => absurd hj List.not_mem_nil
  · refine ⟨[], List.Pairwise.nil, ?_, ?_⟩
    · exact fun j hj => absurd hj List.not_mem_nil
    · exact fun j hj => absurd hj List.not_mem_nil

theorem exists_of_mem_ancestorsOf (h : i ∈ s.ancestorsOf last) :
    ∃ e, s.inferences[i]? = some e := by
  obtain ⟨wanted, hpruned⟩ := s.pruned_ancestorsOf last
  have hlt := (hpruned.passed i h).2
  rw [← length_inferences] at hlt
  exact ⟨_, List.getElem?_eq_getElem hlt⟩

/-- All that is kept rests on what is kept before. -/
theorem mem_ancestorsOf_of_parent {e : Inference} (hi : i ∈ s.ancestorsOf last)
    (he : s.inferences[i]? = some e) (hp : p ∈ e.parents) : p ∈ s.ancestorsOf last ∧ p < i := by
  obtain ⟨wanted, hpruned⟩ := s.pruned_ancestorsOf last
  have hparent : p ∈ s.parentsOf i := by
    rw [parentsOf_eq, he]
    exact hp
  refine ⟨(hpruned.closed i hi p hparent).resolve_right fun h => ?_, lt_of_mem_parentsOf hparent⟩
  exact Nat.not_lt_zero p h.1

end Derivations

/-! ## Numbers -/

/-- What has been derived as a line of a proof, with what it rests on numbered by its place among what
is kept. -/
def Inference.line (kept : List Nat) (e : Inference) : Line :=
  ⟨e.formula, e.step, (e.parents.map fun p => kept.idxOf p + 1).mergeSort⟩

/-- Whether lines are what has been derived at the indices that are kept, one by one. -/
def Numbered (es : List Inference) (kept : List Nat) (lines : List Line) : Prop :=
  lines.map some = kept.map fun i => es[i]?.map (Inference.line kept)

section Numbered

variable {es : List Inference} {kept : List Nat} {lines : List Line} {k p : Nat} {l : Line}
  {e : Inference}

theorem Numbered.getElem? (h : Numbered es kept lines) (k : Nat) :
    lines[k]?.map some = kept[k]?.map fun i => es[i]?.map (Inference.line kept) := by
  rw [← List.getElem?_map, ← List.getElem?_map]
  exact congrArg (·[k]?) h

theorem Numbered.exists_inference (h : Numbered es kept lines) (hl : lines[k]? = some l) :
    ∃ i e, kept[k]? = some i ∧ es[i]? = some e ∧ l = e.line kept := by
  have hk := h.getElem? k
  rw [hl] at hk
  obtain ⟨i, hi, hsome⟩ := Option.map_eq_some_iff.1 hk.symm
  obtain ⟨e, he, rfl⟩ := Option.map_eq_some_iff.1 hsome
  exact ⟨i, e, hi, he, rfl⟩

/-- What is kept stands at its number. -/
theorem Numbered.getElem?_idxOf (h : Numbered es kept lines) (hp : p ∈ kept)
    (he : es[p]? = some e) : lines[kept.idxOf p]? = some (e.line kept) := by
  have hk := h.getElem? (kept.idxOf p)
  rw [List.getElem?_idxOf hp, Option.map_some, he] at hk
  obtain ⟨l, hl, hsome⟩ := Option.map_eq_some_iff.1 hk
  exact hl.trans hsome

end Numbered

section Ascending

variable {kept : List Nat} (h : kept.Pairwise (· < ·)) {p i j k : Nat}

include h

theorem lt_of_getElem? (hj : kept[j]? = some p) (hk : kept[k]? = some i) (hlt : j < k) : p < i := by
  obtain ⟨hjlt, rfl⟩ := List.getElem?_eq_some_iff.1 hj
  obtain ⟨hklt, rfl⟩ := List.getElem?_eq_some_iff.1 hk
  exact List.pairwise_iff_getElem.1 h j k hjlt hklt hlt

/-- Among indices in order, what is less comes first. -/
theorem idxOf_lt_of_lt (hp : p ∈ kept) (hk : kept[k]? = some i) (hlt : p < i) :
    kept.idxOf p < k := by
  have hself := List.getElem?_idxOf hp
  rcases Nat.lt_trichotomy (kept.idxOf p) k with hidx | hidx | hidx
  · exact hidx
  · rw [hidx, hk] at hself
    have := Option.some.inj hself
    omega
  · have := lt_of_getElem? h hk hself hidx
    omega

end Ascending

namespace Derive

variable {s : Search} {kept is : List Nat} {i : Nat}

theorem bind_ok {α β : Type} {m : Derive α} {k : α → Derive β} {a : α} {s' : Search}
    (h : m s = .ok a s') : (m >>= k) s = k a s' := by
  show EStateM.bind m k s = _
  rw [EStateM.bind, h]

theorem derivation_ok {d : Derivation} (h : s.store.get? i = some d) : derivation i s = .ok d s := by
  rw [derivation, Derivations.get, h]

theorem lineNumber_ok (h : i ∈ kept) : lineNumber kept i s = .ok (kept.idxOf i + 1) s := by
  have hsome : kept.idxOf? i = some (kept.idxOf i) := by
    rw [List.idxOf_eq_getD_idxOf?]
    cases hnone : kept.idxOf? i with
    | none => exact absurd h (List.idxOf?_eq_none_iff.1 hnone)
    | some n => rfl
  unfold lineNumber
  rw [hsome]
  rfl

theorem lineNumbers_ok (h : ∀ i ∈ is, i ∈ kept) :
    lineNumbers kept is s = .ok (is.map fun i => kept.idxOf i + 1) s := by
  induction is with
  | nil => rfl
  | cons i is ih =>
    obtain ⟨hi, his⟩ := List.forall_mem_cons.1 h
    unfold lineNumbers
    rw [bind_ok (lineNumber_ok hi), bind_ok (ih his)]
    rfl

/-- The derivations that are kept become lines, one by one. -/
theorem toLines_ok {es : List Inference} (hs : s.store.inferences = es)
    (h : ∀ i ∈ is, ∃ e, es[i]? = some e ∧ ∀ p ∈ e.parents, p ∈ kept) :
    ∃ lines s', toLines kept is s = .ok lines s' ∧
      lines.map some = (is.map fun i => es[i]?.map (Inference.line kept)) ∧
      s'.store.inferences = es := by
  induction is generalizing s with
  | nil => exact ⟨[], s, rfl, rfl, hs⟩
  | cons i is ih =>
    obtain ⟨⟨e, he, hparents⟩, his⟩ := List.forall_mem_cons.1 h
    obtain ⟨d, hd, rfl⟩ : ∃ d, s.store.get? i = some d ∧ d.inference = e := by
      rw [← hs, Derivations.getElem?_inferences] at he
      exact Option.map_eq_some_iff.1 he
    let s₁ := { s with store := s.store.activate i (d.inference.line kept).parents }
    have hs₁ : s₁.store.inferences = es := (s.store.inferences_activate i _).trans hs
    obtain ⟨lines, s', hlines, hsome, hs'⟩ := ih hs₁ his
    refine ⟨d.inference.line kept :: lines, s', ?_, ?_, hs'⟩
    · unfold toLines
      have hnumbers : lineNumbers kept d.parents s = .ok _ s := lineNumbers_ok hparents
      rw [bind_ok (derivation_ok hd), bind_ok hnumbers]
      show (toLines kept is >>= fun ls => pure (d.inference.line kept :: ls)) s₁ = _
      rw [bind_ok hlines]
      rfl
    · rw [List.map_cons, List.map_cons, hsome, he]
      rfl

theorem emitLines_ok (n : Nat) (lines : List Line) (s : Search) :
    ∃ s', emitLines n lines s = .ok () s' ∧ s'.store = s.store := by
  induction lines generalizing n s with
  | nil => exact ⟨s, rfl, rfl⟩
  | cons l ls ih =>
    obtain ⟨s', h, hstore⟩ := ih (n + 1) (s.log (.line n l))
    exact ⟨s', h, hstore⟩

/-- What the derivation at an index rests on can be written up. -/
theorem writeUp_ok (last : Nat) (s : Search) : ∃ lines s', (do
      let kept := (← get).store.ancestorsOf last
      let lines ← toLines kept kept
      emit (.finished lines.length (← get).store.size)
      emitLines 1 lines
      return lines : Derive (List Line)) s = .ok lines s' ∧
    s'.store.inferences = s.store.inferences ∧
    Numbered s.store.inferences (s.store.ancestorsOf last) lines := by
  have hkept : ∀ i ∈ s.store.ancestorsOf last, ∃ e, s.store.inferences[i]? = some e ∧
      ∀ p ∈ e.parents, p ∈ s.store.ancestorsOf last := by
    intro i hi
    obtain ⟨e, he⟩ := Derivations.exists_of_mem_ancestorsOf hi
    exact ⟨e, he, fun p hp => (Derivations.mem_ancestorsOf_of_parent hi he hp).1⟩
  obtain ⟨lines, s₁, hlines, hnumbered, h₁⟩ := toLines_ok rfl hkept
  obtain ⟨s₂, h₂, hstore⟩ := emitLines_ok 1 lines (s₁.log (.finished lines.length s₁.store.size))
  refine ⟨lines, s₂, ?_, hstore ▸ h₁, hnumbered⟩
  show (toLines (s.store.ancestorsOf last) (s.store.ancestorsOf last) >>= _) s = _
  rw [bind_ok hlines]
  show (emitLines 1 lines >>= _) (s₁.log _) = _
  rw [bind_ok h₂]
  rfl

/-- Whether a store has what a search has derived, or that and the conclusion repeated from the
premise at an index. -/
def Completes (s : Search) (found : Nat) (store : Derivations) : Prop :=
  store = s.store ∨ ∃ e, s.store.inferences[found]? = some e ∧ e.step = .premise ∧
    store.inferences = s.store.inferences ++ [⟨s.conclusion.formula, .conclusion, [found]⟩]

/-- A search that has found its conclusion is written up: what is numbered is what the derivation
found rests on, or the conclusion if that is repeated. -/
theorem finish_written {f : Formula} (hi : s.Has i f) :
    ∃ lines s' store last, finish i s = .ok lines s' ∧ Completes s i store ∧
      (∃ e, store.inferences[last]? = some e ∧
        (e.formula = f ∨ e.formula = s.conclusion.formula)) ∧
      s'.store.inferences = store.inferences ∧
      Numbered store.inferences (store.ancestorsOf last) lines := by
  obtain ⟨d, hd, hf⟩ := has_iff.1 hi
  have hfound : s.store.inferences[i]? = some d.inference := by
    rw [Derivations.getElem?_inferences, hd]
    rfl
  by_cases hpremise : d.step = .premise
  · have hlt : ∀ p ∈ [i], p < s.store.size := List.forall_mem_singleton.2 hi.lt_size
    let s₁ := { s with store := s.store.push s.conclusion .conclusion [i] hlt }
    have hinsert : insert s.conclusion .conclusion [i] s = .ok s.store.size s₁ := by
      rw [insert, Derivations.insert, dif_pos hlt]
    have hpush : s₁.store.inferences =
        s.store.inferences ++ [⟨s.conclusion.formula, .conclusion, [i]⟩] :=
      Derivations.inferences_push hlt
    have hlast : s₁.store.inferences[s.store.size]? =
        some ⟨s.conclusion.formula, .conclusion, [i]⟩ := by
      rw [hpush, ← s.store.length_inferences, List.getElem?_concat_length]
    obtain ⟨lines, s', hlines, hs', hnumbered⟩ := writeUp_ok s.store.size s₁
    refine ⟨lines, s', s₁.store, s.store.size, ?_, .inr ⟨d.inference, hfound, hpremise, hpush⟩,
      ⟨_, hlast, .inr rfl⟩, hs', hnumbered⟩
    unfold finish
    rw [bind_ok (derivation_ok hd), if_pos hpremise]
    show (insert s.conclusion .conclusion [i] >>= _) s = _
    rw [bind_ok hinsert]
    exact hlines
  · obtain ⟨lines, s', hlines, hs', hnumbered⟩ := writeUp_ok i s
    refine ⟨lines, s', s.store, i, ?_, .inl rfl, ⟨_, hfound, .inl hf⟩, hs', hnumbered⟩
    unfold finish
    rw [bind_ok (derivation_ok hd), if_neg hpremise]
    exact hlines

/-- A search that has found its conclusion can be turned into a proof. -/
theorem finish_ok {f : Formula} (hi : s.Has i f) :
    ∃ lines s' store last, finish i s = .ok lines s' ∧ Completes s i store ∧
      Numbered store.inferences (store.ancestorsOf last) lines := by
  obtain ⟨lines, s', store, last, hfinish, hcompletes, -, -, hnumbered⟩ := finish_written hi
  exact ⟨lines, s', store, last, hfinish, hcompletes, hnumbered⟩

end Derive

end Sequitur
