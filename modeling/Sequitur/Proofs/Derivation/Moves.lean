import Mathlib.Logic.Relation
import Sequitur.Derivation.Proof
import Sequitur.Proofs.Derivation.Rules

/-!
# What a search can do

Whatever a search does is a sequence of moves (`Search.Moves`), of which only one adds to what has
been derived, and adds only what is licensed: an assumption, or what a rule gives for formulas that
have been derived before. So what a search has derived can be reasoned about without the procedures
that derive it.
-/

namespace Sequitur

open Formula

/-! ## What has been derived -/

/-- What a derivation says and why. -/
structure Inference where
  formula : Formula
  step : Step
  parents : List Nat
  deriving DecidableEq

def Derivation.inference (d : Derivation) : Inference := ⟨d.formula, d.step, d.parents⟩

namespace Derivations

def inferences (s : Derivations) : List Inference := s.items.toList.map Derivation.inference

@[simp] theorem length_inferences (s : Derivations) : s.inferences.length = s.size := by
  rw [inferences, List.length_map, Array.length_toList, size]

theorem getElem?_inferences (s : Derivations) (i : Nat) :
    s.inferences[i]? = (s.get? i).map Derivation.inference := by
  rw [inferences, List.getElem?_map, Array.getElem?_toList, get?]

theorem inferences_push {s : Derivations} {content : Keyed} {step : Step} {parents : List Nat}
    (h : ∀ p ∈ parents, p < s.size) :
    (s.push content step parents h).inferences =
      s.inferences ++ [⟨content.formula, step, parents⟩] := by
  rw [inferences, push, Array.toList_push, List.map_append]
  rfl

/-- A change that keeps what a derivation says and why. -/
theorem inferences_modify {s : Derivations} {i : Nat} {f : Derivation → Derivation}
    {hf : ∀ d, (f d).parents = d.parents} (h : ∀ d, (f d).inference = d.inference) :
    (s.modify i f hf).inferences = s.inferences := by
  refine List.ext_getElem? fun j => ?_
  rw [getElem?_inferences, getElem?_inferences, get?_modify]
  split
  · rw [Option.map_map]
    congr 1
    exact funext h
  · rfl

end Derivations

namespace Search

/-- Whether a formula was derived at an index. -/
def Has (s : Search) (i : Nat) (f : Formula) : Prop :=
  ∃ e, s.store.inferences[i]? = some e ∧ e.formula = f

/-- Whether formulas were derived at indices, in order. -/
def Cites (s : Search) : List Nat → List Formula → Prop := List.Forall₂ s.Has

end Search

/-! ## What may be derived -/

/-- An argument, and how it is to be proved. -/
structure Problem where
  premises : List Formula
  conclusion : Formula
  kind : ProofType

namespace Problem

/-- What may be taken up without proof, and by which step. -/
def Assumes (P : Problem) : Step → Formula → Prop
  | .premise, f => ∃ p ∈ P.premises, f = p.unrooted
  | .reductioAssumption, f => P.kind = .indirect ∧ f = .not P.conclusion.unrooted
  | _, _ => False

/-- The constants of the argument. -/
def constants (P : Problem) : Symbols :=
  P.premises.foldl (fun s p => s.union p.constants) P.conclusion.unrooted.constants

end Problem

namespace Search

/-- What a search may derive next. -/
inductive Licensed (P : Problem) (s : Search) : Inference → Prop
  | assumed {step : Step} {f : Formula} (h : P.Assumes step f) : Licensed P s ⟨f, step, []⟩
  | inferred {step : Step} {is : List Nat} {ps : List Formula} {f : Formula} (hi : s.Cites is ps)
    (h : Infers step ps f) : Licensed P s ⟨f, step, is⟩
  | instantiated {i : Nat} {x c : Char} {p : Formula} (hi : s.Has i (.all x p))
    (hx : p.mentions x) (hc : c ∈ s.known) :
    Licensed P s ⟨p.substitute x c .const, .universalElimination, [i]⟩
  /-- The constant of a witness is new to the argument and to all that has been derived. -/
  | witnessed {i : Nat} {x c : Char} {p : Formula} (hi : s.Has i (.ex x p)) (hx : p.mentions x)
    (hc : c ∈ s.known) (hnew : c ∉ P.constants ∧ c ∉ s.arbitrary)
    (hfresh : ∀ j f, s.Has j f → c ∉ f.constants) :
    Licensed P s ⟨p.substitute x c .const, .existentialElimination, [i]⟩
  | introduced {step : Step} {is : List Nat} {ps : List Formula} (hi : s.Cites is ps)
    (h : Introduces step ps s.conclusion.formula) :
    Licensed P s ⟨s.conclusion.formula, step, is⟩
  | generalized {i : Nat} {x c : Char} {p f : Formula} (hf : s.conclusion.formula = .all x p)
    (hc : c ∈ s.arbitrary) (hi : s.Has i f) (h : (p.substitute x c .const).Alike f) :
    Licensed P s ⟨s.conclusion.formula, .universalIntroduction, [i]⟩

/-! ## Moves -/

/-- Whether two states differ only in marks, counters and the trace. -/
structure Rests (s s' : Search) : Prop where
  inferences : s'.store.inferences = s.store.inferences
  conclusion : s'.conclusion = s.conclusion
  negationLimit : s'.negationLimit = s.negationLimit
  found : s'.found = s.found
  exhausted : s'.exhausted = s.exhausted
  known : s'.known = s.known
  arbitrary : s'.arbitrary = s.arbitrary

inductive Move (P : Problem) : Search → Search → Prop
  | rest {s s' : Search} (h : s.Rests s') : Move P s s'
  | derive {s : Search} {content : Keyed} {step : Step} {parents : List Nat}
    (hlt : ∀ p ∈ parents, p < s.store.size)
    (h : s.Licensed P ⟨content.formula, step, parents⟩) :
    Move P s { s with store := s.store.push content step parents hlt }
  | find {s : Search} {i : Nat} {f : Formula} (hi : s.Has i f)
    (hf : f.structurallyEquals s.conclusion.formula) : Move P s { s with found := some i }
  | learn {s : Search} {c : Char} (hc : isConstantSymbol c) :
    Move P s { s with known := s.known.insert c }
  | seed {s : Search} (h : s.known.isEmpty) :
    Move P s
      { s with
        known := s.known.insert firstConstant
        arbitrary := s.arbitrary.insert firstConstant }
  | exhaust (s : Search) : Move P s { s with exhausted := true }

def Moves (P : Problem) : Search → Search → Prop := Relation.ReflTransGen (Move P)

/-! ## What stays -/

variable {P : Problem} {s s' s'' : Search} {i : Nat} {f : Formula}

theorem Moves.trans (h : Moves P s s') (h' : Moves P s' s'') : Moves P s s'' :=
  Relation.ReflTransGen.trans h h'

theorem has_iff : s.Has i f ↔ ∃ d, s.store.get? i = some d ∧ d.formula = f := by
  simp only [Has, Derivations.getElem?_inferences, Option.map_eq_some_iff]
  constructor
  · rintro ⟨e, ⟨d, hd, rfl⟩, rfl⟩
    exact ⟨d, hd, rfl⟩
  · rintro ⟨d, hd, rfl⟩
    exact ⟨_, ⟨d, hd, rfl⟩, rfl⟩

theorem Has.lt_size (h : s.Has i f) : i < s.store.size := by
  obtain ⟨e, he, -⟩ := h
  rw [← Derivations.length_inferences]
  exact (List.getElem?_eq_some_iff.1 he).1

theorem Has.of_isPrefix (hi : s.Has i f) (h : s.store.inferences <+: s'.store.inferences) :
    s'.Has i f := by
  obtain ⟨e, he, hf⟩ := hi
  obtain ⟨added, hadded⟩ := h
  refine ⟨e, ?_, hf⟩
  rw [← hadded, List.getElem?_append_left (List.getElem?_eq_some_iff.1 he).1, he]

theorem exists_has (h : i < s.store.size) : ∃ f, s.Has i f := by
  rw [← Derivations.length_inferences] at h
  exact ⟨_, _, List.getElem?_eq_getElem h, rfl⟩

/-- A move leaves what has been derived, or adds one thing that is licensed. -/
theorem Move.inferences (h : Move P s s') : s'.store.inferences = s.store.inferences ∨
    ∃ e, s.Licensed P e ∧ s'.store.inferences = s.store.inferences ++ [e] := by
  cases h with
  | rest h => exact .inl h.inferences
  | derive hlt h => exact .inr ⟨_, h, Derivations.inferences_push hlt⟩
  | _ => exact .inl rfl

theorem Move.isPrefix (h : Move P s s') : s.store.inferences <+: s'.store.inferences := by
  rcases h.inferences with h | ⟨e, -, h⟩
  · exact ⟨[], by rw [h, List.append_nil]⟩
  · exact ⟨[e], h.symm⟩

theorem Moves.isPrefix (h : Moves P s s') : s.store.inferences <+: s'.store.inferences := by
  induction h with
  | refl => exact ⟨[], List.append_nil _⟩
  | tail _ h ih => exact ih.trans h.isPrefix

/-- What is true of all that is ever licensed is true of all that is derived. -/
theorem Moves.forall_inference {Q : Inference → Prop}
    (hQ : ∀ (s : Search) (e : Inference), s.Licensed P e → Q e) (h : Moves P s s')
    (hs : ∀ e ∈ s.store.inferences, Q e) : ∀ e ∈ s'.store.inferences, Q e := by
  induction h with
  | refl => exact hs
  | tail _ h ih =>
    rcases h.inferences with h | ⟨e, he, h⟩
    · rw [h]
      exact ih
    · rw [h, List.forall_mem_append, List.forall_mem_singleton]
      exact ⟨ih, hQ _ e he⟩

theorem Moves.size_le (h : Moves P s s') : s.store.size ≤ s'.store.size := by
  rw [← Derivations.length_inferences, ← Derivations.length_inferences]
  exact h.isPrefix.length_le

theorem Has.of_moves (hi : s.Has i f) (h : Moves P s s') : s'.Has i f :=
  hi.of_isPrefix h.isPrefix

theorem Cites.of_moves {is : List Nat} {ps : List Formula} (hi : s.Cites is ps)
    (h : Moves P s s') : s'.Cites is ps :=
  List.Forall₂.imp (fun _ _ hi => hi.of_moves h) hi

/-! ## The constants of a search -/

/-- Whether a search knows all the constants in play, and which of them are the argument's. -/
structure Covered (P : Problem) (s : Search) : Prop where
  conclusion : s.conclusion.formula = P.conclusion.unrooted
  argument : ∀ c ∈ P.constants, c ∈ s.known
  arbitrary : ∀ c ∈ s.arbitrary, c ∈ s.known ∧ c ∉ P.constants
  derived : ∀ i f, s.Has i f → ∀ c ∈ f.constants, c ∈ s.known

end Search

namespace Problem

variable {P : Problem} {c : Char}

theorem mem_foldl_union {ps : List Formula} {known : Symbols} :
    c ∈ ps.foldl (fun s p => s.union p.constants) known ↔
      c ∈ known ∨ ∃ p ∈ ps, c ∈ p.constants := by
  induction ps generalizing known with
  | nil => simp
  | cons p ps ih =>
    rw [List.foldl_cons, ih, Symbols.mem_union, List.exists_mem_cons_iff, or_assoc]

theorem mem_constants : c ∈ P.constants ↔
    c ∈ P.conclusion.constants ∨ ∃ p ∈ P.premises, c ∈ p.constants := by
  rw [constants, mem_foldl_union, Formula.mem_constants_unrooted]

/-- The assumptions bring in no constants. -/
theorem Assumes.constants {step : Step} {f : Formula} (h : P.Assumes step f)
    (hc : c ∈ f.constants) : c ∈ P.constants := by
  rw [mem_constants]
  cases step with
  | premise =>
    obtain ⟨p, hp, rfl⟩ := h
    exact .inr ⟨p, hp, Formula.mem_constants_unrooted.1 hc⟩
  | reductioAssumption =>
    obtain ⟨-, rfl⟩ := h
    exact .inl (Formula.mem_constants_unrooted.1 hc)
  | _ => exact h.elim

end Problem

namespace Search

variable {P : Problem} {s s' : Search}

theorem Cites.exists_has {is : List Nat} {ps : List Formula} (h : s.Cites is ps) {p : Formula}
    (hp : p ∈ ps) : ∃ i, s.Has i p := by
  induction h with
  | nil => exact absurd hp List.not_mem_nil
  | @cons i q is ps hi _ ih =>
    rcases List.mem_cons.1 hp with rfl | hp
    · exact ⟨i, hi⟩
    · exact ih hp

/-- What is licensed has no constants that the search does not know. -/
theorem Licensed.constants {e : Inference} (h : s.Licensed P e) (hs : s.Covered P) {c : Char}
    (hc : c ∈ e.formula.constants) : c ∈ s.known := by
  have hconclusion : c ∈ s.conclusion.formula.constants → c ∈ s.known := fun hc => by
    rw [hs.conclusion, Formula.mem_constants_unrooted] at hc
    exact hs.argument c (Problem.mem_constants.2 (.inl hc))
  have hinstance : ∀ {i k x d} {p : Formula}, s.Has i (.quantified k x p) → d ∈ s.known →
      c ∈ (p.substitute x d .const).constants → c ∈ s.known := fun hi hd hc =>
    Formula.forall_mem_constants_substitute (hs.derived _ _ hi) hd c hc
  cases h with
  | assumed h => exact hs.argument c (h.constants hc)
  | inferred hi h =>
    obtain ⟨p, hp, hcp⟩ := h.constants hc
    obtain ⟨i, hi⟩ := hi.exists_has hp
    exact hs.derived i p hi c hcp
  | instantiated hi _ hd => exact hinstance hi hd hc
  | witnessed hi _ hd => exact hinstance hi hd hc
  | introduced _ _ => exact hconclusion hc
  | generalized _ _ _ _ => exact hconclusion hc

theorem Rests.has_iff (h : s.Rests s') {i : Nat} {f : Formula} : s'.Has i f ↔ s.Has i f := by
  rw [Has, Has, h.inferences]

/-- What has been derived after a push was there before, or is what was pushed. -/
theorem Has.of_push {content : Keyed} {step : Step} {parents : List Nat}
    {hlt : ∀ p ∈ parents, p < s.store.size} {i : Nat} {f : Formula}
    (h : { s with store := s.store.push content step parents hlt }.Has i f) :
    s.Has i f ∨ f = content.formula := by
  obtain ⟨e, he, rfl⟩ := h
  rw [Derivations.inferences_push, List.getElem?_append] at he
  split at he
  · exact .inl ⟨e, he, rfl⟩
  · rw [List.getElem?_singleton] at he
    split at he
    · cases he
      exact .inr rfl
    · cases he

theorem Move.covered (h : Move P s s') (hs : s.Covered P) : s'.Covered P := by
  cases h with
  | rest h =>
    refine ⟨?_, ?_, ?_, fun i f hf => ?_⟩
    · rw [h.conclusion]
      exact hs.conclusion
    · rw [h.known]
      exact hs.argument
    · rw [h.known, h.arbitrary]
      exact hs.arbitrary
    · rw [h.known]
      exact hs.derived i f (h.has_iff.1 hf)
  | derive hlt h =>
    refine ⟨hs.conclusion, hs.argument, hs.arbitrary, fun i f hf c hc => ?_⟩
    rcases hf.of_push with hf | rfl
    · exact hs.derived i f hf c hc
    · exact h.constants hs hc
  | find hi hf => exact ⟨hs.conclusion, hs.argument, hs.arbitrary, hs.derived⟩
  | exhaust => exact ⟨hs.conclusion, hs.argument, hs.arbitrary, hs.derived⟩
  | @learn c hc =>
    have hwider : ∀ e, e ∈ s.known → e ∈ s.known.insert c := fun e he =>
      Symbols.mem_insert.2 (.inr he)
    exact ⟨hs.conclusion, fun e he => hwider e (hs.argument e he),
      fun e he => (hs.arbitrary e he).imp_left (hwider e),
      fun i f hf e he => hwider e (hs.derived i f hf e he)⟩
  | seed hempty =>
    have hnone := Symbols.isEmpty_iff.1 hempty
    refine ⟨hs.conclusion, fun e he => absurd (hs.argument e he) (hnone e), fun e he => ?_,
      fun i f hf e he => absurd (hs.derived i f hf e he) (hnone e)⟩
    rcases Symbols.mem_insert.1 he with rfl | he
    · exact ⟨Symbols.mem_insert.2 (.inl rfl), fun h => hnone _ (hs.argument _ h)⟩
    · exact absurd (hs.arbitrary e he).1 (hnone e)

theorem Moves.covered (h : Moves P s s') (hs : s.Covered P) : s'.Covered P := by
  induction h with
  | refl => exact hs
  | tail _ h ih => exact h.covered ih

/-- What is true of all that is licensed when it is derived, and stays true as more is derived, is true
of all that is derived. -/
theorem Moves.forall_licensed {Q : Search → Inference → Prop}
    (hQ : ∀ (s : Search) (e : Inference), s.Covered P → s.Licensed P e → Q s e)
    (hmono : ∀ (s s' : Search) (e : Inference), s.store.inferences <+: s'.store.inferences →
      Q s e → Q s' e) (h : Moves P s s') (hs : s.Covered P)
    (hall : ∀ e ∈ s.store.inferences, Q s e) : ∀ e ∈ s'.store.inferences, Q s' e := by
  induction h with
  | refl => exact hall
  | @tail s₁ s₂ hmoves hmove ih =>
    have hkept : ∀ e ∈ s₁.store.inferences, Q s₂ e := fun e he =>
      hmono s₁ s₂ e hmove.isPrefix (ih e he)
    rcases hmove.inferences with hsame | ⟨e, he, hadded⟩
    · rw [hsame]
      exact hkept
    · rw [hadded, List.forall_mem_append, List.forall_mem_singleton]
      exact ⟨hkept, hmono s₁ s₂ e hmove.isPrefix (hQ s₁ e (Moves.covered hmoves hs) he)⟩

/-- A search begins with the constants of the argument. -/
theorem covered_start (P : Problem) (limit : Nat) :
    (start P.premises P.conclusion limit).Covered P where
  conclusion := rfl
  argument _ hc := hc
  arbitrary c hc := absurd hc (Symbols.not_mem_empty c)
  derived i _ hf := absurd hf.lt_size (Nat.not_lt_zero i)


/-! ## The conclusion -/

/-- Whether what a search has found is the conclusion. -/
def Located (s : Search) : Prop :=
  ∀ i, s.found = some i → ∃ f, s.Has i f ∧ f.structurallyEquals s.conclusion.formula

theorem Move.located (h : Move P s s') (hs : s.Located) : s'.Located := by
  intro i hi
  have hkeep : s.found = some i → s'.conclusion = s.conclusion →
      ∃ f, s'.Has i f ∧ f.structurallyEquals s'.conclusion.formula := fun hi hc => by
    obtain ⟨f, hf, hlike⟩ := hs i hi
    rw [hc]
    exact ⟨f, hf.of_moves (.single h), hlike⟩
  cases h with
  | rest h => exact hkeep (h.found ▸ hi) h.conclusion
  | find hj hf =>
    cases hi
    exact ⟨_, hj, hf⟩
  | _ => exact hkeep hi rfl

theorem Moves.located (h : Moves P s s') (hs : s.Located) : s'.Located := by
  induction h with
  | refl => exact hs
  | tail _ h ih => exact h.located ih

end Search

end Sequitur
