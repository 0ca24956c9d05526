import Sequitur.Proofs.Derivation.Applications
import Sequitur.Proofs.Derivation.States

/-!
# The discipline of the rules

Every rule looks at the marks of a derivation before it infers from it, and leaves a mark when it
does; what a rule has derived is marked for the rule that would undo it. So the store of a search is
measured in every state that the search passes through, and no rule is applied to a derivation more
often than it may be (`Search.visits_disciplined`).

What an action makes of the store is stated as a triple (`Derive.Leads`): where a rule has been found
not to be marked, it leads from `Untried` over `Ready` back to a measured store.
-/

namespace Sequitur

open Search

/-! ## Room for an application -/

namespace Derivations

variable {store store' : Derivations} {tail : List Inference} {r : Step} {i k n : Nat}
  {d : Derivation} {f g : Formula} {js : List Nat} {c : Char} {cs : List Char}

/-- Whether a measured store has a formula at an index. -/
def Holds (i : Nat) (f : Formula) (store : Derivations) : Prop :=
  store.Measured ∧ ∃ d, store.get? i = some d ∧ d.formula = f

/-- Whether a rule is not marked at an index. -/
def Untried (r : Step) (i : Nat) (store : Derivations) : Prop :=
  store.Measured ∧ ∃ d, store.get? i = some d ∧ ¬d.marks.has r

/-- Whether a rule is marked at an index and may yet give `k` things there. -/
def Ready (r : Step) (i k : Nat) (store : Derivations) : Prop :=
  store.Measured ∧ ∃ d n, store.get? i = some d ∧ d.formula.allowance r = some n ∧
    d.marks.has r ∧ d.step.inverse ≠ some r ∧
    (applications store.inferences r i).length + k ≤ n

/-- A rule that was not marked has yet to give anything. -/
theorem ready_addMark (h : store.Measured) (hd : store.get? i = some d) (hr : ¬d.marks.has r)
    (hn : d.formula.allowance r = some n) : (store.addMark i r).Ready r i n := by
  refine ⟨h.addMark i r, { d with marks := d.marks.mark r }, n, ?_, hn, ?_, ?_, ?_⟩
  · rw [addMark, get?_modify, if_pos rfl, hd, Option.map_some]
  · exact Marks.has_mark.2 (.inl rfl)
  · exact fun hinverse => hr ((h i d hd).inverse hinverse).1
  · rw [inferences_addMark, (h i d hd).eq_nil hn hr, List.length_nil, Nat.zero_add]

theorem Ready.of_le (h : store.Ready r i n) (hle : k ≤ n) : store.Ready r i k := by
  obtain ⟨hs, d, m, hd, hm, hr, hinverse, hlength⟩ := h
  exact ⟨hs, d, m, hd, hm, hr, hinverse, by omega⟩

theorem Ready.gains (h : store.Ready r i (k + 1)) (hg : store.Gains (⟨g, r, i :: js⟩ :: tail) store')
    (htail : ∀ t ∈ tail, t.step.Unlimited) : store'.Ready r i k := by
  obtain ⟨hs, d, n, hd, hn, hr, hinverse, hlength⟩ := h
  refine ⟨hs.gains hg htail fun j e hj he => ?_, d, n, ?_, hn, hr, hinverse, ?_⟩
  · obtain rfl : i = j := Option.some.inj hj
    obtain rfl : d = e := Option.some.inj (hd.symm.trans he)
    exact (hs i d hd).spend hn hr hinverse (by omega) _
  · rw [hg.kept i (lt_size_of_get? hd), hd]
  · have hlimited : ¬r.Unlimited := fun hu => Option.some_ne_none n (hn ▸ hu.2 _)
    rw [hg.applications_eq htail hlimited, if_pos ⟨rfl, rfl⟩, List.length_append,
      List.length_singleton]
    omega

/-- What is not limited can be derived at any time. -/
theorem Measured.gains_unlimited {e : Inference} (h : store.Measured)
    (hg : store.Gains (e :: tail) store') (htail : ∀ t ∈ tail, t.step.Unlimited)
    (he : e.step.Unlimited) : store'.Measured := by
  refine h.gains hg htail fun i d _ hd => (h i d hd).congr fun r hr => ?_
  have hne : r ≠ e.step := fun heq => hr (heq ▸ he)
  rw [if_neg hne, List.append_nil]

/-! ### Instances -/

/-- Whether the universal at an index has not been instantiated with any of some constants. -/
def Uninstantiated (i : Nat) (f : Formula) (cs : List Char) (store : Derivations) : Prop :=
  store.Measured ∧ ∃ d, store.get? i = some d ∧ d.formula = f ∧ ∀ c ∈ cs, c ∉ d.instantiated

/-- Whether, moreover, it is recorded as instantiated with a constant but has no instance for it. -/
def Primed (i : Nat) (f : Formula) (c : Char) (cs : List Char) (store : Derivations) : Prop :=
  store.Measured ∧ ∃ d used, store.get? i = some d ∧ d.formula = f ∧ (∀ b ∈ cs, b ∉ d.instantiated) ∧
    (used ++ [c]).Nodup ∧ (∀ b ∈ used ++ [c], b ∈ d.instantiated) ∧
    (applications store.inferences .universalElimination i).map (fun e => some e.formula) =
      used.map f.instantiate

theorem Uninstantiated.addInstantiated (h : store.Uninstantiated i f (c :: cs))
    (hnodup : (c :: cs).Nodup) (hv : ¬f.isVacuous) :
    (store.addInstantiated i c).Primed i f c cs := by
  obtain ⟨hs, d, hd, rfl, hcs⟩ := h
  obtain ⟨used, hused, hmem, hinstances⟩ := (hs i d hd).instances hv
  have hc : c ∉ d.instantiated := hcs c List.mem_cons_self
  refine ⟨hs.addInstantiated i c, { d with instantiated := d.instantiated.insert c }, used, ?_, rfl,
    fun b hb hinsert => ?_, ?_, fun b hb => ?_, ?_⟩
  · rw [Derivations.addInstantiated, get?_modify, if_pos rfl, hd, Option.map_some]
  · rcases Symbols.mem_insert.1 hinsert with rfl | hbd
    · exact (List.nodup_cons.1 hnodup).1 hb
    · exact hcs b (List.mem_cons_of_mem c hb) hbd
  · refine List.nodup_append.2 ⟨hused, List.nodup_singleton c, fun a ha b hb hab => ?_⟩
    obtain rfl := List.mem_singleton.1 hb
    exact hc (hab ▸ hmem a ha)
  · rcases List.mem_append.1 hb with hb | hb
    · exact Symbols.mem_insert.2 (.inr (hmem b hb))
    · exact Symbols.mem_insert.2 (.inl (List.mem_singleton.1 hb))
  · rw [inferences_addInstantiated]
    exact hinstances

theorem Primed.uninstantiated (h : store.Primed i f c cs) : store.Uninstantiated i f cs := by
  obtain ⟨hs, d, -, hd, hf, hcs, -⟩ := h
  exact ⟨hs, d, hd, hf, hcs⟩

theorem Primed.gains (h : store.Primed i f c cs) (hv : ¬f.isVacuous)
    (hinstance : f.instantiate c = some g)
    (hg : store.Gains (⟨g, .universalElimination, [i]⟩ :: tail) store')
    (htail : ∀ t ∈ tail, t.step.Unlimited) : store'.Uninstantiated i f cs := by
  obtain ⟨hs, d, used, hd, rfl, hcs, hnodup, hmem, hinstances⟩ := h
  refine ⟨hs.gains hg htail fun j e hj he => ?_, d, ?_, rfl, hcs⟩
  · obtain rfl : i = j := Option.some.inj hj
    obtain rfl : d = e := Option.some.inj (hd.symm.trans he)
    exact (hs i d hd).instantiate hv hnodup hmem hinstances hinstance
  · rw [hg.kept i (lt_size_of_get? hd), hd]

end Derivations

open Derivations

namespace Derive

variable {α β : Type} {s s' : Search} {r : Step} {i k n : Nat} {f g : Formula} {js : List Nat}

/-! ## What adding a derivation does to the store -/

theorem unlimited_contradictionIntroduction : Step.contradictionIntroduction.Unlimited :=
  ⟨Step.noConfusion, fun _ => rfl⟩

theorem unlimited_contradictionElimination : Step.contradictionElimination.Unlimited :=
  ⟨Step.noConfusion, fun _ => rfl⟩

theorem concludeFrom_gains {u : Unit} (h : concludeFrom i s = .ok u s') :
    ∃ es, s.store.Gains es s'.store ∧ ∀ e ∈ es, e.step.Unlimited := by
  obtain ⟨conclusion, s₁, hget, h⟩ := exists_of_bind_ok h
  cases hget
  dsimp only at h
  split at h
  · cases h
    exact ⟨[], .refl _, fun _ he => absurd he List.not_mem_nil⟩
  · obtain ⟨j, s₂, hinsert, h⟩ := exists_of_bind_ok h
    obtain ⟨hlt, -, rfl⟩ := eq_of_insert_ok hinsert
    cases h
    exact ⟨_, gains_push hlt rfl, List.forall_mem_singleton.2 unlimited_contradictionElimination⟩

theorem checkContradiction_gains {u : Unit} (h : checkContradiction i s = .ok u s') :
    ∃ es, s.store.Gains es s'.store ∧ ∀ e ∈ es, e.step.Unlimited := by
  obtain ⟨d, s₁, hd, h⟩ := exists_of_bind_ok h
  rw [(eq_of_derivation_ok hd).2] at h
  dsimp only at h
  split at h
  · exact concludeFrom_gains h
  · obtain ⟨t, s₂, hget, h⟩ := exists_of_bind_ok h
    cases hget
    rcases hpair : contradiction? s i d.formula with _ | ⟨positive, negative⟩
    · rw [hpair] at h
      cases h
      exact ⟨[], .refl _, fun _ he => absurd he List.not_mem_nil⟩
    · rw [hpair] at h
      obtain ⟨_, s₃, hemit, h⟩ := exists_of_bind_ok h
      cases hemit
      obtain ⟨j, s₄, hinsert, h⟩ := exists_of_bind_ok h
      obtain ⟨hlt, -, rfl⟩ := eq_of_insert_ok hinsert
      obtain ⟨es, hgains, hes⟩ := concludeFrom_gains h
      refine ⟨_, (gains_push hlt rfl).trans hgains, List.forall_mem_append.2 ⟨?_, hes⟩⟩
      exact List.forall_mem_singleton.2 unlimited_contradictionIntroduction

/-- What is accepted comes with its mark, and nothing after it is limited. -/
theorem accept_gains {content : Keyed} {parents : List Nat} {u : Unit}
    (h : accept content r parents s = .ok u s') :
    ∃ tail, s.store.Gains (⟨content.formula, r, parents⟩ :: tail) s'.store ∧
      ∀ t ∈ tail, t.step.Unlimited := by
  obtain ⟨_, s₁, hemit, h⟩ := exists_of_bind_ok h
  cases hemit
  obtain ⟨j, s₂, hinsert, h⟩ := exists_of_bind_ok h
  obtain ⟨hlt, rfl, rfl⟩ := eq_of_insert_ok hinsert
  obtain ⟨_, s₃, hmodify, h⟩ := exists_of_bind_ok h
  cases hmodify
  obtain ⟨_, s₄, hmark, h⟩ := exists_of_bind_ok h
  have hgains : s.store.Gains [⟨content.formula, r, parents⟩] s₄.store := by
    rw [markInverse] at hmark
    cases hinverse : r.inverse with
    | some inverse =>
      rw [hinverse] at hmark
      obtain ⟨fresh, hmark⟩ := exists_of_discard_ok hmark
      rw [eq_of_mark_ok hmark]
      exact gains_push_addMark hlt hinverse
    | none =>
      rw [hinverse] at hmark
      cases hmark
      exact gains_push hlt hinverse
  obtain ⟨t, s₅, hget, h⟩ := exists_of_bind_ok h
  cases hget
  split at h
  · cases h
    exact ⟨[], hgains, fun _ ht => absurd ht List.not_mem_nil⟩
  · obtain ⟨es, hes, hunlimited⟩ := checkContradiction_gains h
    exact ⟨es, hgains.trans hes, hunlimited⟩

theorem add_gains {parents : List Nat} {u : Unit} (h : add f r parents s = .ok u s') :
    s'.store = s.store ∨
      ∃ tail, s.store.Gains (⟨f, r, parents⟩ :: tail) s'.store ∧ ∀ t ∈ tail, t.step.Unlimited := by
  rcases add_cases h with ⟨-, haccept⟩ | ⟨-, rfl | ⟨e, rfl⟩⟩
  · exact .inr (accept_gains haccept)
  · exact .inl rfl
  · exact .inl rfl

/-! ## Triples -/

/-- Whether an action that ends without an error leads from a store of which `A` is true to one of
which `B` is. -/
def Leads (A : Derivations → Prop) (m : Derive α) (B : α → Derivations → Prop) : Prop :=
  ∀ s a s', A s.store → m s = .ok a s' → B a s'.store

/-- Whether an action keeps the store measured. -/
abbrev Disciplined (m : Derive α) : Prop := Leads Measured m fun _ => Measured

variable {A A' C : Derivations → Prop} {B : α → Derivations → Prop} {D : β → Derivations → Prop}
  {m : Derive α} {next : α → Derive β} {act : Derive Unit}

namespace Leads

theorem pure {a : α} (h : ∀ store, A store → B a store) : Leads A (Pure.pure a) B := by
  intro s b s' hs hok
  cases hok
  exact h s.store hs

theorem bind (hm : Leads A m B) (hnext : ∀ a, Leads (B a) (next a) D) :
    Leads A (m >>= next) D := by
  intro s b s' hs h
  obtain ⟨a, s₁, hm', hnext'⟩ := exists_of_bind_ok h
  exact hnext a s₁ b s' (hm s a s₁ hs hm') hnext'

theorem get {next : Search → Derive β} (hnext : ∀ s, Leads A (next s) D) :
    Leads A (get >>= next) D := by
  intro s b s' hs h
  exact hnext s s b s' hs h

theorem discard (hm : Leads A m fun _ => C) : Leads A (discard m) fun _ => C := by
  intro s u s' hs h
  obtain ⟨a, hm'⟩ := exists_of_discard_ok h
  exact hm s a s' hs hm'

theorem imp (hA : ∀ store, A' store → A store) (hm : Leads A m B) : Leads A' m B :=
  fun s a s' hs h => hm s a s' (hA _ hs) h

/-- An action taken only on a condition. -/
theorem ite {c : Prop} [Decidable c] (hact : Leads A act fun _ => C)
    (hA : ∀ store, A store → C store) : Leads A (if c then act else Pure.pure ()) fun _ => C := by
  split
  · exact hact
  · exact .pure hA

end Leads

/-- What does not change the store leaves it as it is. -/
theorem leads_modify {g : Search → Search} (hg : ∀ s, (g s).store = s.store) :
    Leads A (modify g) fun _ => A := by
  intro s u s' hs h
  cases h
  rw [hg]
  exact hs

theorem leads_emit (e : Event) : Leads A (emit e) fun _ => A := leads_modify fun _ => rfl

theorem leads_derivation (i : Nat) :
    Leads A (derivation i) fun d store => A store ∧ store.get? i = some d := by
  intro s d s' hs h
  obtain ⟨hd, rfl⟩ := eq_of_derivation_ok h
  exact ⟨hs, hd⟩

theorem disciplined_mark (i : Nat) (r : Step) : Disciplined (mark i r) := by
  intro s b s' hs h
  rw [eq_of_mark_ok h]
  exact hs.addMark i r

theorem mark_eq_not_has {b : Bool} (h : mark i r s = .ok b s') :
    ∃ d, s.store.get? i = some d ∧ b = !d.marks.has r := by
  rw [mark, Derivations.mark] at h
  cases hd : s.store.get? i with
  | none =>
    rw [hd] at h
    cases h
  | some d =>
    rw [hd] at h
    cases h
    exact ⟨d, rfl, rfl⟩

/-- A rule that marks what it is tried on, and goes on if the mark is new. -/
theorem leads_mark_then (hA : ∀ store d, A store → store.get? i = some d →
      store.Measured ∧ d.formula.allowance r = some n)
    (hact : Leads (Ready r i n) act fun _ => Measured) :
    Leads A (do if ← mark i r then act) fun _ => Measured := by
  intro s u s' hs h
  obtain ⟨b, s₁, hmark, h⟩ := exists_of_bind_ok h
  obtain ⟨d, hd, rfl⟩ := mark_eq_not_has hmark
  obtain ⟨hmeasured, hn⟩ := hA s.store d hs hd
  obtain rfl := eq_of_mark_ok hmark
  split at h
  · next hr => exact hact _ _ _ (ready_addMark hmeasured hd (by simpa using hr) hn) h
  · cases h
    exact hmeasured.addMark i r

/-- An action taken only if a rule is not marked. -/
theorem disciplined_unless_applied (hact : Leads (Untried r i) act fun _ => Measured) :
    Disciplined (do if !(← applied i r) then act) := by
  intro s u s' hs h
  obtain ⟨b, s₁, happlied, h⟩ := exists_of_bind_ok h
  obtain ⟨d, s₂, hderivation, hreturn⟩ := exists_of_bind_ok happlied
  obtain ⟨hd, hs₂⟩ := eq_of_derivation_ok hderivation
  rw [hs₂] at hreturn
  cases hreturn
  split at h
  · next hr => exact hact _ _ _ ⟨hs, d, hd, by simpa using hr⟩ h
  · cases h
    exact hs

theorem leads_discard_mark (hn : ∀ f : Formula, f.allowance r = some n) :
    Leads (Untried r i) (discard (mark i r)) fun _ => Ready r i n := by
  refine .discard fun s b s' hs h => ?_
  obtain ⟨hmeasured, d, hd, hr⟩ := hs
  rw [eq_of_mark_ok h]
  exact ready_addMark hmeasured hd hr (hn d.formula)

theorem leads_add (f : Formula) (js : List Nat) :
    Leads (Ready r i (k + 1)) (add f r (i :: js)) fun _ => Ready r i k := by
  intro s u s' hs h
  rcases add_gains h with hstore | ⟨tail, hgains, htail⟩
  · rw [hstore]
    exact hs.of_le (Nat.le_succ k)
  · exact hs.gains hgains htail

theorem leads_add_once (f : Formula) (js : List Nat) :
    Leads (Ready r i 1) (add f r (i :: js)) fun _ => Measured :=
  fun s u s' hs h => (leads_add (k := 0) f js s u s' hs h).1

theorem leads_add_both (f g : Formula) (js : List Nat) :
    Leads (Ready r i 2) (do add f r (i :: js); add g r (i :: js)) fun _ => Measured :=
  .bind (leads_add f js) fun _ => leads_add_once g js

theorem leads_mark_add (hn : ∀ f : Formula, f.allowance r = some 1) (f : Formula) (js : List Nat) :
    Leads (Untried r i) (do discard (mark i r); add f r (i :: js)) fun _ => Measured :=
  .bind (leads_discard_mark hn) fun _ => leads_add_once f js

theorem disciplined_add (hr : r.Unlimited) (f : Formula) (parents : List Nat) :
    Disciplined (add f r parents) := by
  intro s u s' hs h
  rcases add_gains h with hstore | ⟨tail, hgains, htail⟩
  · rw [hstore]
    exact hs
  · exact hs.gains_unlimited hgains htail hr

/-- Where a rule does not apply, it changes nothing. -/
theorem disciplined_skip : Disciplined (pure () : Derive Unit) := .pure fun _ h => h

/-! ## Propositional rules -/

theorem disciplined_conjunctionElimination (i : Nat) (f : Formula) :
    Disciplined (conjunctionElimination i f) := by
  rw [conjunctionElimination.eq_def]
  split
  · exact leads_mark_then (fun _ _ hs _ => ⟨hs, rfl⟩) (leads_add_both _ _ _)
  · exact disciplined_skip

theorem disciplined_doubleNegationElimination (i : Nat) (f : Formula) :
    Disciplined (doubleNegationElimination i f) := by
  rw [doubleNegationElimination.eq_def]
  split
  · exact leads_mark_then (fun _ _ hs _ => ⟨hs, rfl⟩) (leads_add_once _ _)
  · exact disciplined_skip

theorem disciplined_biconditionalElimination (i : Nat) (f : Formula) :
    Disciplined (biconditionalElimination i f) := by
  rw [biconditionalElimination.eq_def]
  split
  · exact leads_mark_then (fun _ _ hs _ => ⟨hs, rfl⟩) (leads_add_once _ _)
  · exact disciplined_skip

theorem disciplined_modusPonens (i : Nat) (f : Formula) : Disciplined (modusPonens i f) := by
  rw [modusPonens.eq_def]
  split
  · refine disciplined_unless_applied (.get fun s => ?_)
    split
    · exact leads_mark_add (fun _ => rfl) _ _
    · exact .pure fun _ hs => hs.1
  · exact disciplined_skip

theorem disciplined_modusTollens (i : Nat) (f : Formula) : Disciplined (modusTollens i f) := by
  rw [modusTollens.eq_def]
  split
  · refine disciplined_unless_applied (.get fun s => ?_)
    split
    · exact leads_mark_add (fun _ => rfl) _ _
    · exact .pure fun _ hs => hs.1
  · exact disciplined_skip

theorem disciplined_disjunctiveSyllogism (i : Nat) (f : Formula) :
    Disciplined (disjunctiveSyllogism i f) := by
  rw [disjunctiveSyllogism.eq_def]
  split
  · refine disciplined_unless_applied (.get fun s => ?_)
    split
    · exact leads_mark_add (fun _ => rfl) _ _
    · exact .pure fun _ hs => hs.1
  · exact disciplined_skip

theorem disciplined_applied (i : Nat) (r : Step) : Disciplined (applied i r) :=
  .bind (leads_derivation i) fun _ => .pure fun _ hs => hs.1

theorem disciplined_chain (i : Nat) (a : Formula) (js : List (Nat × Formula)) :
    Disciplined (chain i a js) := by
  induction js with
  | nil => exact disciplined_skip
  | cons x js ih =>
    obtain ⟨j, c⟩ := x
    refine .get fun s => .ite (.bind (disciplined_applied i _) fun _ => ?_) fun _ hs => hs
    refine .bind (disciplined_applied j _) fun _ => ?_
    dsimp only
    split
    · refine .bind (.discard (disciplined_mark i _)) fun _ => ?_
      refine .bind (.discard (disciplined_mark j _)) fun _ => ?_
      exact .bind (disciplined_add ⟨Step.noConfusion, fun _ => rfl⟩ _ _) fun _ => ih
    · exact ih

theorem disciplined_hypotheticalSyllogism (i : Nat) (f : Formula) :
    Disciplined (hypotheticalSyllogism i f) := by
  rw [hypotheticalSyllogism.eq_def]
  split
  · exact .get fun s => disciplined_chain _ _ _
  · exact disciplined_skip

/-- A dilemma marks the disjunction, and adds its result in both orders. -/
theorem leads_dilemma (hn : ∀ f : Formula, f.allowance r = some 2) (f g : Formula)
    (js : List Nat) :
    Leads (Untried r i) (do discard (mark i r); add f r (i :: js); add g r (i :: js))
      fun _ => Measured :=
  .bind (leads_discard_mark hn) fun _ => leads_add_both f g js

theorem disciplined_constructiveDilemma (i : Nat) (f : Formula) :
    Disciplined (constructiveDilemma i f) := by
  rw [constructiveDilemma.eq_def]
  split
  · refine disciplined_unless_applied (.get fun s => ?_)
    dsimp only
    split
    · exact leads_dilemma (fun _ => rfl) _ _ _
    · exact .pure fun _ hs => hs.1
  · exact disciplined_skip

theorem disciplined_destructiveDilemma (i : Nat) (f : Formula) :
    Disciplined (destructiveDilemma i f) := by
  rw [destructiveDilemma.eq_def]
  split
  · refine disciplined_unless_applied (.get fun s => ?_)
    dsimp only
    split
    · exact leads_dilemma (fun _ => rfl) _ _ _
    · exact .pure fun _ hs => hs.1
  · exact disciplined_skip

theorem disciplined_deMorgan (i : Nat) (f : Formula) : Disciplined (deMorgan i f) := by
  rw [deMorgan]
  split
  · refine .get fun s => .ite ?_ fun _ hs => hs
    exact leads_mark_then (fun _ _ hs _ => ⟨hs, rfl⟩) (leads_add_once _ _)
  · exact disciplined_skip

theorem disciplined_transposition (i : Nat) (f : Formula) : Disciplined (transposition i f) := by
  rw [transposition.eq_def]
  split
  · refine .get fun s => .ite ?_ fun _ hs => hs
    exact leads_mark_then (fun _ _ hs _ => ⟨hs, rfl⟩) (leads_add_once _ _)
  · exact disciplined_skip

theorem disciplined_materialImplication (i : Nat) (f : Formula) :
    Disciplined (materialImplication i f) := by
  rw [materialImplication]
  split
  · refine .get fun s => .ite (disciplined_unless_applied (.get fun t => ?_)) fun _ hs => hs
    refine .ite (.bind (leads_emit _) fun _ => ?_) fun _ hs => hs.1
    exact leads_mark_add (fun _ => rfl) _ _
  · exact disciplined_skip

theorem disciplined_doubleNegationIntroduction (i : Nat) (f : Formula) :
    Disciplined (doubleNegationIntroduction i f) := by
  refine disciplined_unless_applied (.get fun s => .ite ?_ fun _ hs => hs.1)
  exact leads_mark_add (fun _ => rfl) _ _

/-! ## Quantifiers -/

theorem leads_instanceOf (f : Formula) (c : Char) : Leads A (instanceOf f c) fun _ => A := by
  rw [instanceOf]
  split
  · exact .pure fun _ hs => hs
  · intro s p s' _ h
    cases h

theorem disciplined_existentialElimination (i : Nat) (f : Formula) :
    Disciplined (existentialElimination i f) := by
  rw [existentialElimination.eq_def]
  split
  · refine disciplined_unless_applied ?_
    split
    · exact leads_mark_add (fun _ => rfl) _ _
    · refine .get fun s => ?_
      split
      · refine .bind (leads_emit _) fun _ => .imp (fun _ hs => hs.1) (leads_modify fun _ => rfl)
      · refine .bind (leads_instanceOf _ _) fun p => .bind (leads_emit _) fun _ => ?_
        refine .bind (leads_discard_mark fun _ => rfl) fun _ => ?_
        exact .bind (leads_modify fun _ => rfl) fun _ => leads_add_once _ _
  · exact disciplined_skip

theorem leads_seedConstant : Leads A seedConstant fun _ => A := by
  refine .get fun s => .ite (.bind (leads_emit _) fun _ => ?_) fun _ hs => hs
  exact leads_modify fun _ => rfl

theorem instanceOf_quantified (q : Quantifier) (x c : Char) (p : Formula) :
    instanceOf (.quantified q x p) c = pure (p.substitute x c .const) := rfl

theorem leads_recordInstance {c : Char} {cs : List Char} (hnodup : (c :: cs).Nodup)
    (hv : ¬f.isVacuous) :
    Leads (Uninstantiated i f (c :: cs)) (recordInstance i c) fun _ => Primed i f c cs := by
  refine .bind (.discard fun s d s' hs h => (leads_derivation i s d s' hs h).1) fun _ => ?_
  intro s u s' hs h
  cases h
  exact hs.addInstantiated hnodup hv

/-- One instance after another: what is still to come has no instance yet. -/
theorem leads_instantiateEach {x : Char} {p : Formula} (hv : ¬(Formula.all x p).isVacuous)
    {cs : List Char} (hnodup : cs.Nodup) :
    Leads (Uninstantiated i (.all x p) cs) (instantiateEach i (.all x p) cs) fun _ => Measured := by
  induction cs with
  | nil => exact .pure fun _ hs => hs.1
  | cons c cs ih =>
    rw [instantiateEach, instanceOf_quantified, pure_bind]
    refine .bind (leads_emit _) fun _ => .bind (leads_recordInstance hnodup hv) fun _ => ?_
    refine .bind ?_ fun _ => ih (List.nodup_cons.1 hnodup).2
    intro s u s' hs h
    rcases add_gains h with hstore | ⟨tail, hgains, htail⟩
    · rw [hstore]
      exact hs.uninstantiated
    · exact hs.gains hv rfl hgains htail

theorem nodup_diff (known used : Symbols) : (known.diff used).Nodup := by
  refine List.Nodup.filter _ (known.ascending.imp ?_)
  rintro a _ hab rfl
  exact Char.lt_irrefl a hab

theorem leads_universalElimination (i : Nat) (f : Formula) :
    Leads (Holds i f) (universalElimination i f) fun _ => Measured := by
  rw [universalElimination.eq_def]
  split
  · split
    · next hv =>
      refine leads_mark_then (n := 1) (fun store d hs hd => ?_) (leads_add_once _ _)
      obtain ⟨hmeasured, e, he, hf⟩ := hs
      obtain rfl : d = e := Option.some.inj (hd.symm.trans he)
      exact ⟨hmeasured, by rw [hf, Formula.allowance, if_pos hv]⟩
    · next hv =>
      refine .bind leads_seedConstant fun _ => .get fun s => .bind (leads_derivation i) fun d => ?_
      dsimp only
      refine .ite (.bind ?_ fun _ => leads_instantiateEach hv (nodup_diff _ _)) fun _ hs => hs.1.1
      -- the mark leaves the constants as they are
      refine .discard fun t b t' ht h => ?_
      obtain ⟨⟨hmeasured, e, he, hf⟩, hd⟩ := ht
      obtain rfl : d = e := Option.some.inj (hd.symm.trans he)
      rw [eq_of_mark_ok h]
      refine ⟨hmeasured.addMark i _, { d with marks := d.marks.mark .universalElimination }, ?_, hf,
        fun c hc => (Symbols.mem_diff.1 hc).2⟩
      rw [addMark, get?_modify, if_pos rfl, hd, Option.map_some]
  · exact .pure fun _ hs => hs.1

/-! ## Passes -/

theorem leads_of_mem_rules {rule : Rule} (h : rule ∈ rules) (i : Nat) (f : Formula) :
    Leads (Holds i f) (rule i f) fun _ => Measured := by
  have hsteady : ∀ {m : Derive Unit}, Disciplined m → Leads (Holds i f) m fun _ => Measured :=
    fun hm => .imp (fun _ hs => hs.1) hm
  simp only [rules, List.mem_cons, List.not_mem_nil, or_false] at h
  rcases h with rfl | rfl | rfl | rfl | rfl | rfl | rfl | rfl | rfl | rfl | rfl | rfl | rfl | rfl | rfl
  · exact hsteady (disciplined_conjunctionElimination i f)
  · exact hsteady (disciplined_doubleNegationElimination i f)
  · exact hsteady (disciplined_biconditionalElimination i f)
  · exact hsteady (disciplined_modusPonens i f)
  · exact hsteady (disciplined_modusTollens i f)
  · exact hsteady (disciplined_disjunctiveSyllogism i f)
  · exact hsteady (disciplined_hypotheticalSyllogism i f)
  · exact hsteady (disciplined_constructiveDilemma i f)
  · exact hsteady (disciplined_destructiveDilemma i f)
  · exact hsteady (disciplined_deMorgan i f)
  · exact hsteady (disciplined_transposition i f)
  · exact hsteady (disciplined_materialImplication i f)
  · exact hsteady (disciplined_doubleNegationIntroduction i f)
  · exact hsteady (disciplined_existentialElimination i f)
  · exact leads_universalElimination i f

/-- A rule leaves the formula that it is tried on where it is. -/
theorem holds_of_mem_rules {rule : Rule} (h : rule ∈ rules) (i : Nat) (f : Formula) :
    Leads (Holds i f) (rule i f) fun _ => Holds i f := by
  intro s u s' hs hok
  refine ⟨leads_of_mem_rules h i f s u s' hs hok, ?_⟩
  have hturns := takesTurns_of_mem_rules h i f s u s' hok
  refine has_iff.1 (hturns.invariant (Q := fun t => t.Has i f) ?_ (has_iff.2 hs.2))
  exact fun t t' hturn ht => ht.of_turn hturn

theorem leads_tryAll {tried : List Rule} (h : ∀ rule ∈ tried, rule ∈ rules) (i : Nat) (f : Formula) :
    Leads (Holds i f) (tryAll i f tried) fun _ => Measured := by
  induction tried with
  | nil => exact .pure fun _ hs => hs.1
  | cons rule rest ih =>
    obtain ⟨hrule, hrest⟩ := List.forall_mem_cons.1 h
    exact .bind (holds_of_mem_rules hrule i f) fun _ => ih hrest

theorem disciplined_sweep (i count : Nat) : Disciplined (sweep i count) := by
  induction count generalizing i with
  | zero => exact disciplined_skip
  | succ n ih =>
    refine .get fun s => .ite (.bind (leads_derivation i) fun d => ?_) fun _ hs => hs
    refine .bind (.imp (fun store hs => ?_) (leads_tryAll (fun _ h => h) i d.formula))
      fun _ => ih (i + 1)
    exact ⟨hs.1, d, hs.2, rfl⟩

theorem leads_findInstance (f : Formula) (cs : List Char) : Leads A (findInstance f cs) fun _ => A := by
  induction cs with
  | nil => exact .pure fun _ hs => hs
  | cons c cs ih =>
    refine .bind (leads_instanceOf f c) fun p => .get fun s => ?_
    split
    · exact .pure fun _ hs => hs
    · exact ih

theorem disciplined_introduceConclusion : Disciplined introduceConclusion := by
  refine .get fun s => ?_
  dsimp only
  split
  case h_6 => exact disciplined_skip
  case' h_4 => refine .bind (leads_findInstance _ _) fun _ => ?_
  case' h_5 => refine .bind (leads_findInstance _ _) fun _ => ?_
  all_goals
    split
    · exact disciplined_add ⟨Step.noConfusion, fun _ => rfl⟩ _ _
    · exact disciplined_skip

theorem disciplined_pass : Disciplined pass := by
  refine .bind (leads_modify fun _ => rfl) fun _ => .get fun s => ?_
  refine .bind (disciplined_sweep _ _) fun _ => .get fun t => ?_
  dsimp only
  split
  · refine .bind disciplined_introduceConclusion fun _ => .get fun _ => .pure fun _ hs => hs
  · exact .get fun _ => .pure fun _ hs => hs

theorem disciplined_addPremises (ps : List Formula) : Disciplined (addPremises ps) := by
  induction ps with
  | nil => exact disciplined_skip
  | cons p ps ih =>
    exact .bind (disciplined_add ⟨Step.noConfusion, fun _ => rfl⟩ _ _) fun _ => ih

theorem disciplined_assume (premises : List Formula) (kind : ProofType) :
    Disciplined (assume premises kind) := by
  refine .bind (disciplined_addPremises _) fun _ => .ite (.get fun s => ?_) fun _ hs => hs
  exact disciplined_add ⟨Step.noConfusion, fun _ => rfl⟩ _ _

end Derive

/-! ## Rules by their limits -/

namespace Step

/-- The rules that give one thing from a derivation. -/
def single : List Step := [
  .modusPonens, .modusTollens, .disjunctiveSyllogism, .biconditionalElimination,
  .doubleNegationElimination, .deMorgan, .transposition, .materialImplication,
  .doubleNegationIntroduction, .existentialElimination]

/-- The rules that give two things. -/
def double : List Step := [.conjunctionElimination, .constructiveDilemma, .destructiveDilemma]

theorem allowance_of_mem_single {r : Step} (h : r ∈ single) (f : Formula) :
    f.allowance r = some 1 := by
  simp only [single, List.mem_cons, List.not_mem_nil, or_false] at h
  rcases h with rfl | rfl | rfl | rfl | rfl | rfl | rfl | rfl | rfl | rfl <;> rfl

theorem allowance_of_mem_double {r : Step} (h : r ∈ double) (f : Formula) :
    f.allowance r = some 2 := by
  simp only [double, List.mem_cons, List.not_mem_nil, or_false] at h
  rcases h with rfl | rfl | rfl <;> rfl

theorem inverse_of_mem_involutive {r : Step}
    (h : r ∈ [Step.deMorgan, .transposition, .materialImplication]) : r.inverse = some r := by
  simp only [List.mem_cons, List.not_mem_nil, or_false] at h
  rcases h with rfl | rfl | rfl <;> rfl

end Step

/-! ## States -/

namespace Search

variable {P : Problem} {limit : Nat} {s : Search}

theorem Opens.measured {n : Nat} (h : Opens P limit n s) : s.store.Measured := by
  induction h with
  | first h => exact Derive.disciplined_assume _ _ _ _ _ measured_empty h
  | @next n added s s' _ _ hpass ih =>
    have hpassed : s'.store.Measured := Derive.disciplined_pass s added s' ih hpass
    exact hpassed

theorem Opens.measured_sweep {n i : Nat} {s' : Search} (h : Opens P limit n s)
    (hsweep : Derive.sweep 0 i { s with added := 0 } = .ok () s') : s'.store.Measured :=
  Derive.disciplined_sweep 0 i { s with added := 0 } () s' h.measured hsweep

theorem Visits.measured (h : Visits P limit s) : s.store.Measured := by
  cases h with
  | assuming h => exact Derive.disciplined_addPremises _ _ _ _ measured_empty h
  | opens h => exact h.measured
  | sweeping h _ _ hsweep => exact h.measured_sweep hsweep
  | @trying n i k d _ _ _ h _ _ hsweep _ hd htry =>
    have hholds : Holds i d.formula _ := ⟨h.measured_sweep hsweep, d, hd, rfl⟩
    refine Derive.leads_tryAll (fun rule hrule => ?_) i d.formula _ _ _ hholds htry
    exact List.mem_of_mem_take hrule
  | proved h _ => exact h.measured

/-! ## What the discipline comes to -/

/-- Whether no rule has been applied twice to the derivation `d` at an index, nor to undo it, in what
has been derived. -/
structure Spares (es : List Inference) (i : Nat) (d : Derivation) : Prop where
  once : ∀ r ∈ Step.single, (applications es r i).length ≤ 1
  twice : ∀ r ∈ Step.double, (applications es r i).length ≤ 2
  /-- A universal has at most one instance for each constant that it was instantiated with. -/
  instances : ¬d.formula.isVacuous → ∃ cs : List Char, cs.Nodup ∧ (∀ c ∈ cs, c ∈ d.instantiated) ∧
    (applications es .universalElimination i).map (fun e => some e.formula) =
      cs.map d.formula.instantiate
  vacuous : d.formula.isVacuous → (applications es .universalElimination i).length ≤ 1
  /-- Rules that are their own inverse are not applied to their own results. -/
  involutive : ∀ r ∈ [Step.deMorgan, .transposition, .materialImplication], d.step = r →
    applications es r i = []
  negations : ∀ e ∈ es, i ∈ e.parents →
    (e.step = .doubleNegationElimination → d.step ≠ .doubleNegationIntroduction) ∧
    (e.step = .doubleNegationIntroduction → d.step ≠ .doubleNegationElimination)

theorem not_negation_of_introduces {step : Step} {ps : List Formula} {f : Formula}
    (h : Introduces step ps f) :
    ¬(step = .doubleNegationElimination ∨ step = .doubleNegationIntroduction) := by
  rintro (rfl | rfl) <;> cases h

/-- Double negations are added to, and removed from, one formula. -/
theorem Licensed.exists_parent {e : Inference} (h : s.Licensed P e)
    (he : e.step = .doubleNegationElimination ∨ e.step = .doubleNegationIntroduction) :
    ∃ j, e.parents = [j] := by
  cases h with
  | assumed h => rcases he with rfl | rfl <;> exact h.elim
  | @inferred step is ps f hi h =>
    have hps : ps.length = 1 := by
      cases h with
      | doubleNegation p => rfl
      | doubleNegate p => rfl
      | _ => rcases he with he | he <;> cases he
    exact List.length_eq_one_iff.1 (hi.length_eq.trans hps)
  | introduced hi h => exact absurd he (not_negation_of_introduces h)
  | _ => rcases he with he | he <;> cases he

/-- In every state that a search passes through, no rule has been applied to a derivation more often
than it may be, nor to undo another, and so it was at any moment before. -/
theorem visits_disciplined {es : List Inference} {i : Nat} {d : Derivation} (h : Visits P limit s)
    (hes : es <+: s.store.inferences) (hd : s.store.get? i = some d) : Spares es i d := by
  have hmeasured := h.measured i d hd
  have hbegins : ∀ r, applications es r i <+: applications s.store.inferences r i :=
    fun r => hes.filter _
  have hallowed : ∀ {r n}, d.formula.allowance r = some n → (applications es r i).length ≤ n := by
    intro r n hn
    have hle := hmeasured.allowed hn
    have hlength := (hbegins r).length_le
    split at hle <;> omega
  have hinverse : ∀ {r}, d.step.inverse = some r → applications es r i = [] := by
    intro r hr
    have hnil := hbegins r
    rw [(hmeasured.inverse hr).2] at hnil
    exact List.prefix_nil.1 hnil
  refine ⟨fun r hr => hallowed (Step.allowance_of_mem_single hr _),
    fun r hr => hallowed (Step.allowance_of_mem_double hr _), fun hv => ?_, fun hv => ?_, ?_, ?_⟩
  · -- the instances so far are for the first of the constants
    obtain ⟨cs, hnodup, hmem, hcs⟩ := hmeasured.instances hv
    obtain ⟨later, hlater⟩ := hbegins .universalElimination
    refine ⟨cs.take (applications es .universalElimination i).length, hnodup.take,
      fun c hc => hmem c (List.mem_of_mem_take hc), ?_⟩
    rw [List.map_take, ← hcs, ← hlater, List.map_append, List.take_left' (List.length_map _)]
  · exact hallowed (if_pos hv)
  · rintro r hr rfl
    exact hinverse (Step.inverse_of_mem_involutive hr)
  · intro e he hi
    have hundo : ∀ {r}, r = .doubleNegationElimination ∨ r = .doubleNegationIntroduction →
        e.step = r → d.step.inverse ≠ some r := by
      rintro r hr rfl hundone
      have hall := h.moves.forall_inference (fun _ _ hlicensed => hlicensed.exists_parent)
        (fun _ he => absurd he List.not_mem_nil)
      obtain ⟨j, hj⟩ := hall e (hes.subset he) hr
      rw [hj, List.mem_singleton] at hi
      have hmem : e ∈ applications es e.step i := mem_applications.2 ⟨he, rfl, by rw [hj, hi]; rfl⟩
      rw [hinverse hundone] at hmem
      exact List.not_mem_nil hmem
    constructor
    · exact fun hstep hd' => hundo (.inl rfl) hstep (hd' ▸ rfl)
    · exact fun hstep hd' => hundo (.inr rfl) hstep (hd' ▸ rfl)

/-- From `((∀x)Fx ∧ Ga) ∧ Gb` a search derives both conjuncts, and in time `Fa` and `Fb`. -/
theorem visits_disciplined_universal :
    let p : Formula := .all 'x' (.predicate 'F' [.var 'x'])
    let P : Problem :=
      ⟨[.and (.and p (.predicate 'G' [.const 'a'])) (.predicate 'G' [.const 'b'])], .atom 'C', .direct⟩
    ∃ s d, Visits P 0 s ∧ s.store.get? 3 = some d ∧ d.formula = p ∧
      (applications s.store.inferences .universalElimination 3).map Inference.formula =
        [.predicate 'F' [.const 'a'], .predicate 'F' [.const 'b']] ∧
      Spares s.store.inferences 3 d := by
  intro p P
  have h : (match Derive.assume P.premises P.kind (start P.premises P.conclusion 0) with
      | .ok _ s =>
        let t := (s.run 0 3).search
        (t.store.get? 3).map fun d => (d.formula,
          (applications t.store.inferences .universalElimination 3).map Inference.formula)
      | .error _ _ => none) =
        some (p, [.predicate 'F' [.const 'a'], .predicate 'F' [.const 'b']]) := by
    decide +kernel
  split at h
  · next s hassume =>
    have hvisits := (Opens.first hassume).visits_run 3
    obtain ⟨d, hd, heq⟩ := Option.map_eq_some_iff.1 h
    obtain ⟨hp, hinstances⟩ := Prod.mk.inj heq
    exact ⟨_, d, hvisits, hd, hp, hinstances,
      visits_disciplined hvisits (List.prefix_refl _) hd⟩
  · cases h

end Search

end Sequitur
