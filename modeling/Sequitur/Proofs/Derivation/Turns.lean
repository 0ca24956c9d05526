import Sequitur.Proofs.Derivation.Composition
import Sequitur.Proofs.Derivation.Passes

/-!
# When a search has use for what it derives

A move says why something may be derived. A turn (`Search.Turn`) says when the search has use for it:
what an action does to a search is to take up what it welcomes (`Search.Accepts`), or to change its
marks, its trace and the constants it knows. Every action of a search that ends without an error
amounts to turns, and a pass counts what it has taken up.
-/

namespace Sequitur

open Formula

variable {α : Type} {s s' : Search}

namespace Search

/-- The conclusion as it is drawn from falsum at an index, unless it is falsum itself. -/
def drawn (s : Search) (falsum : Nat) : List Inference :=
  if s.conclusion.formula.isFalsum then []
  else [⟨s.conclusion.formula, .contradictionElimination, [falsum]⟩]

/-- What a search may derive after a formula, without trying a rule: nothing, or the conclusion from
falsum, which may itself come from a contradiction. -/
inductive Sequel (s : Search) (f : Formula) : List Inference → Prop
  | none : Sequel s f []
  | falsum {i : Nat} (hf : f.isFalsum) : Sequel s f (s.drawn i)
  | contradiction {is : List Nat} {i : Nat} (hf : ¬f.isFalsum) :
    Sequel s f (⟨.falsum, .contradictionIntroduction, is⟩ :: s.drawn i)

theorem Sequel.congr {f : Formula} {es : List Inference} (h : s'.Sequel f es)
    (hc : s'.conclusion = s.conclusion) : s.Sequel f es := by
  have hdrawn : ∀ i, s'.drawn i = s.drawn i := by
    intro i
    unfold drawn
    rw [hc]
  cases h with
  | none => exact .none
  | falsum hf =>
    rw [hdrawn]
    exact .falsum hf
  | contradiction hf =>
    rw [hdrawn]
    exact .contradiction hf

/-- Whether a search has taken up an inference, and no more than that unless it is finished. The
conclusion, falsum and a contradiction finish it, and nothing is derived after the conclusion. -/
structure Accepts (s : Search) (e : Inference) (s' : Search) : Prop where
  inferences : ∃ es, s'.store.inferences = s.store.inferences ++ e :: es ∧
    s.Sequel e.formula es ∧ (e.formula.structurallyEquals s.conclusion.formula → es = [])
  conclusion : s'.conclusion = s.conclusion
  negationLimit : s'.negationLimit = s.negationLimit
  exhausted : s'.exhausted = s.exhausted
  known : s'.known = s.known
  added : s'.added = s.added + 1
  finished : s'.isFinished ∨ s'.store.inferences = s.store.inferences ++ [e]
  falsum : e.formula.isFalsum → s'.isFinished
  consistent : s'.isFinished ∨ Derive.contradiction? s' s.store.size e.formula = none

theorem Accepts.isPrefix {e : Inference} (h : s.Accepts e s') :
    s.store.inferences ++ [e] <+: s'.store.inferences := by
  obtain ⟨es, hes, -⟩ := h.inferences
  exact ⟨es, by rw [hes, List.append_assoc, List.singleton_append]⟩

/-- What a single action can do to a search. -/
inductive Turn : Search → Search → Prop
  | rest {s s' : Search} (h : s.Rests s') (hadded : s'.added = s.added) : Turn s s'
  | learn (s : Search) (known arbitrary : Symbols) :
    Turn s { s with known := known, arbitrary := arbitrary }
  | exhaust (s : Search) : Turn s { s with exhausted := true }
  | accept {s s' : Search} {content : Keyed} {step : Step} {parents : List Nat}
    (hwelcome : s.assess content step = .welcome)
    (h : s.Accepts ⟨content.formula, step, parents⟩ s')
    (hconclusion : content.reads s.conclusion.form → s'.isFinished) : Turn s s'

def Turns : Search → Search → Prop := Relation.ReflTransGen Turn

theorem Turn.isPrefix (h : Turn s s') : s.store.inferences <+: s'.store.inferences := by
  cases h with
  | rest h _ => rw [h.inferences]
  | accept _ h _ => exact (List.prefix_append _ _).trans h.isPrefix
  | _ => exact List.prefix_refl _

theorem Has.of_turn {i : Nat} {f : Formula} (hi : s.Has i f) (h : Turn s s') : s'.Has i f :=
  hi.of_isPrefix h.isPrefix

end Search

open Search

namespace Derive

/-! ## Ending a search -/

/-- Whether a search has come to an end with some more inferences than before. -/
structure Ended (s : Search) (es : List Inference) (s' : Search) : Prop where
  inferences : s'.store.inferences = s.store.inferences ++ es
  conclusion : s'.conclusion = s.conclusion
  negationLimit : s'.negationLimit = s.negationLimit
  exhausted : s'.exhausted = s.exhausted
  known : s'.known = s.known
  added : s'.added = s.added
  finished : s'.isFinished

theorem concludeFrom_ended {i : Nat} {u : Unit} (h : concludeFrom i s = .ok u s') :
    Ended s (s.drawn i) s' := by
  unfold drawn
  obtain ⟨conclusion, s₁, hget, h⟩ := exists_of_bind_ok h
  cases hget
  dsimp only at h
  split at h
  · next hfalsum =>
    cases h
    rw [if_pos hfalsum]
    exact ⟨(List.append_nil _).symm, rfl, rfl, rfl, rfl, rfl, rfl⟩
  · next hfalsum =>
    obtain ⟨j, s₂, hinsert, h⟩ := exists_of_bind_ok h
    obtain ⟨hlt, -, rfl⟩ := eq_of_insert_ok hinsert
    cases h
    rw [if_neg hfalsum]
    exact ⟨Derivations.inferences_push hlt, rfl, rfl, rfl, rfl, rfl, rfl⟩

/-- A check for contradictions ends the search, or it is none and changes nothing. -/
theorem checkContradiction_ended {i : Nat} {f : Formula} {u : Unit} (hi : s.Has i f)
    (h : checkContradiction i s = .ok u s') :
    (∃ es, s.Sequel f es ∧ Ended s es s') ∨
      ¬f.isFalsum ∧ contradiction? s i f = none ∧ s' = s := by
  obtain ⟨e, he, hf⟩ := has_iff.1 hi
  obtain ⟨d, s₁, hd, h⟩ := exists_of_bind_ok h
  obtain ⟨hd, hs⟩ := eq_of_derivation_ok hd
  obtain rfl := Option.some.inj (he.symm.trans hd)
  dsimp only at h
  rw [hs, hf] at h
  split at h
  · next hf => exact .inl ⟨_, .falsum hf, concludeFrom_ended h⟩
  · next hf =>
    obtain ⟨t, s₁, hget, h⟩ := exists_of_bind_ok h
    cases hget
    rcases hpair : contradiction? s i f with _ | ⟨positive, negative⟩
    · rw [hpair] at h
      cases h
      exact .inr ⟨hf, rfl, rfl⟩
    · rw [hpair] at h
      obtain ⟨_, s₂, hemit, h⟩ := exists_of_bind_ok h
      cases hemit
      obtain ⟨j, s₃, hinsert, h⟩ := exists_of_bind_ok h
      obtain ⟨hlt, -, rfl⟩ := eq_of_insert_ok hinsert
      have hended := concludeFrom_ended h
      have hinferences : s'.store.inferences = s.store.inferences ++
          ⟨.falsum, .contradictionIntroduction, [positive, negative]⟩ :: s.drawn j := by
        rw [hended.inferences, Derivations.inferences_push, List.append_assoc]
        rfl
      exact .inl ⟨_, .contradiction hf, { hended with inferences := hinferences }⟩

/-! ## Adding a derivation -/

theorem rests_of_mark_ok {i : Nat} {step : Step} {b : Bool} (h : mark i step s = .ok b s') :
    s.Rests s' ∧ s'.added = s.added := by
  obtain rfl := eq_of_mark_ok h
  exact ⟨.of_store (Derivations.inferences_modify fun _ => rfl), rfl⟩

theorem rests_of_markInverse_ok {i : Nat} {step : Step} {u : Unit}
    (h : markInverse i step s = .ok u s') : s.Rests s' ∧ s'.added = s.added := by
  rw [markInverse] at h
  cases hinverse : step.inverse with
  | some inverse =>
    rw [hinverse] at h
    obtain ⟨b, h⟩ := exists_of_discard_ok h
    exact rests_of_mark_ok h
  | none =>
    rw [hinverse] at h
    cases h
    exact ⟨⟨rfl, rfl, rfl, rfl, rfl, rfl, rfl⟩, rfl⟩

theorem accept_accepts {content : Keyed} {step : Step} {parents : List Nat} {u : Unit}
    (h : accept content step parents s = .ok u s') :
    s.Accepts ⟨content.formula, step, parents⟩ s' ∧
      (content.reads s.conclusion.form → s'.isFinished) := by
  obtain ⟨_, s₁, hemit, h⟩ := exists_of_bind_ok h
  cases hemit
  obtain ⟨i, s₂, hinsert, h⟩ := exists_of_bind_ok h
  obtain ⟨hlt, rfl, rfl⟩ := eq_of_insert_ok hinsert
  obtain ⟨_, s₃, hmodify, h⟩ := exists_of_bind_ok h
  cases hmodify
  obtain ⟨_, s₄, hmark, h⟩ := exists_of_bind_ok h
  obtain ⟨hrests, hadded⟩ := rests_of_markInverse_ok hmark
  have hstore : s₄.store.inferences = s.store.inferences ++ [⟨content.formula, step, parents⟩] :=
    hrests.inferences.trans (Derivations.inferences_push hlt)
  have hi : s₄.Has s.store.size content.formula := by
    refine ⟨⟨content.formula, step, parents⟩, ?_, rfl⟩
    rw [hstore, ← Derivations.length_inferences]
    exact List.getElem?_concat_length
  obtain ⟨t, s₅, hget, h⟩ := exists_of_bind_ok h
  cases hget
  rw [hrests.conclusion] at h
  split at h
  · cases h
    exact ⟨⟨⟨[], hstore, .none, fun _ => rfl⟩, hrests.conclusion, hrests.negationLimit,
      hrests.exhausted, hrests.known, hadded, .inl rfl, fun _ => rfl, .inl rfl⟩, fun _ => rfl⟩
  · next hreads =>
    have hreads : ¬content.reads s.conclusion.form := hreads
    rcases checkContradiction_ended hi h with ⟨es, hsequel, hended⟩ | ⟨hfalsum, hpair, rfl⟩
    · refine ⟨⟨⟨es, ?_, ?_, fun h => ?_⟩, hended.conclusion.trans hrests.conclusion,
        hended.negationLimit.trans hrests.negationLimit, hended.exhausted.trans hrests.exhausted,
        hended.known.trans hrests.known, hended.added.trans hadded, .inl hended.finished,
        fun _ => hended.finished, .inl hended.finished⟩, fun _ => hended.finished⟩
      · rw [hended.inferences, hstore, List.append_assoc, List.singleton_append]
      · exact hsequel.congr hrests.conclusion
      · rw [s.conclusion.form_eq, Keyed.reads_canonical] at hreads
        exact absurd h hreads
    · exact ⟨⟨⟨[], hstore, .none, fun _ => rfl⟩, hrests.conclusion, hrests.negationLimit,
        hrests.exhausted, hrests.known, hadded, .inr hstore, fun h => absurd h hfalsum,
        .inr hpair⟩, fun h => absurd h hreads⟩

/-- A search adds what it welcomes, and otherwise at most makes an entry in the trace. -/
theorem add_cases {f : Formula} {step : Step} {parents : List Nat} {u : Unit}
    (h : add f step parents s = .ok u s') :
    s.assess (.of f) step = .welcome ∧ accept (.of f) step parents s = .ok u s' ∨
      s.assess (.of f) step ≠ .welcome ∧ (s' = s ∨ ∃ e, s' = s.log e) := by
  obtain ⟨t, s₁, hget, h⟩ := exists_of_bind_ok h
  cases hget
  cases hassess : s.assess (.of f) step with
  | welcome =>
    rw [hassess] at h
    exact .inl ⟨rfl, h⟩
  | redundant =>
    rw [hassess] at h
    cases h
    exact .inr ⟨Assessment.noConfusion, .inr ⟨_, rfl⟩⟩
  | overNegated =>
    rw [hassess] at h
    cases h
    exact .inr ⟨Assessment.noConfusion, .inr ⟨_, rfl⟩⟩
  | tooLate =>
    rw [hassess] at h
    cases h
    exact .inr ⟨Assessment.noConfusion, .inl rfl⟩
  | known =>
    rw [hassess] at h
    cases h
    exact .inr ⟨Assessment.noConfusion, .inl rfl⟩

theorem add_turns {f : Formula} {step : Step} {parents : List Nat} {u : Unit}
    (h : add f step parents s = .ok u s') : Turns s s' := by
  rcases add_cases h with ⟨hwelcome, haccept⟩ | ⟨-, rfl | ⟨e, rfl⟩⟩
  · obtain ⟨haccepts, hconclusion⟩ := accept_accepts haccept
    exact .single (.accept hwelcome haccepts hconclusion)
  · exact .refl
  · exact .single (.rest (s.rests_log e) rfl)

/-! ## Passes -/

/-- Whether an action that ends without an error amounts to turns. -/
def TakesTurns (m : Derive α) : Prop := Relates Turns m

/-- Whatever the step, a basic action amounts to turns. -/
theorem spansConstants_turns : SpansConstants (fun _ => True) Turns where
  refl _ := .refl
  trans := .trans
  emit s e := .single (.rest (s.rests_log e) rfl)
  mark _ _ _ _ := .single (.rest (.of_store (Derivations.inferences_modify fun _ => rfl)) rfl)
  add _ h := add_turns h
  record _ _ _ := .single (.rest (.of_store (Derivations.inferences_modify fun _ => rfl)) rfl)
  learn s known arbitrary := .single (.learn s known arbitrary)
  exhaust s := .single (.exhaust s)

theorem takesTurns_of_mem_rules {rule : Rule} (h : rule ∈ rules) (i : Nat) (f : Formula) :
    TakesTurns (rule i f) :=
  spansConstants_turns.of_mem_rules (fun _ => trivial) h i f

theorem takesTurns_tryAll {rules : List Rule} {i : Nat} {f : Formula}
    (h : ∀ rule ∈ rules, TakesTurns (rule i f)) : TakesTurns (tryAll i f rules) :=
  spansConstants_turns.tryAll h

theorem takesTurns_sweep (i count : Nat) : TakesTurns (sweep i count) :=
  spansConstants_turns.sweep (fun _ hrule => takesTurns_of_mem_rules hrule) i count

theorem takesTurns_introduceConclusion : TakesTurns introduceConclusion :=
  spansConstants_turns.introduceConclusion fun _ => trivial

/-- A pass sweeps over the derivations that are there, and may then introduce the conclusion. -/
theorem pass_cases {added : Nat} (h : pass s = .ok added s') :
    ∃ s₁, sweep 0 s.store.size { s with added := 0 } = .ok () s₁ ∧
      (s' = s₁ ∨ introduceConclusion s₁ = .ok () s') ∧ added = s'.added := by
  obtain ⟨_, s₁, hmodify, h⟩ := exists_of_bind_ok h
  cases hmodify
  obtain ⟨_, s₂, hget, h⟩ := exists_of_bind_ok h
  cases hget
  obtain ⟨_, s₃, hsweep, h⟩ := exists_of_bind_ok h
  obtain ⟨_, s₄, hget, h⟩ := exists_of_bind_ok h
  cases hget
  refine ⟨s₃, hsweep, ?_⟩
  dsimp only at h
  split at h
  · obtain ⟨_, s₅, hintroduce, h⟩ := exists_of_bind_ok h
    cases h
    exact ⟨.inr hintroduce, rfl⟩
  · cases h
    exact ⟨.inl rfl, rfl⟩

/-- A pass takes turns from a count of nothing, and what it gives is the count it ends with. -/
theorem pass_turns {added : Nat} (h : pass s = .ok added s') :
    Turns { s with added := 0 } s' ∧ added = s'.added := by
  obtain ⟨s₁, hsweep, hs', hadded⟩ := pass_cases h
  have hturns := takesTurns_sweep _ _ _ _ _ hsweep
  refine ⟨?_, hadded⟩
  rcases hs' with rfl | hintroduce
  · exact hturns
  · exact hturns.trans (takesTurns_introduceConclusion _ _ _ hintroduce)

theorem takesTurns_assume (premises : List Formula) (kind : ProofType) :
    TakesTurns (assume premises kind) :=
  spansConstants_turns.assume trivial trivial premises kind

end Derive

end Sequitur
