import Sequitur.Proofs.Derivation.Inheritance

/-!
# Soundness of the search for a derivation

Whatever interpretation makes the assumptions of an argument true, some other values for the
constants that were brought in as witnesses make all that has been derived true, and the arbitrary
constants may have any value (`Search.Supported`). Every move preserves this, so a conclusion that a
search derives is true wherever the premises are (`Context.prove_sound`).
-/

namespace Sequitur

universe u

open Formula Search

variable {D : Type u} {P : Problem} {s s' : Search} {I J : Interpretation D} {v : Char → D}
  {e : Inference}

namespace Interpretation

/-- Whether `J` has the relations of `I` and its values for some constants. -/
structure Agrees (I J : Interpretation D) (scope : Char → Prop) : Prop where
  relation : J.relation = I.relation
  same : J.same = I.same
  constant : ∀ c, scope c → J.constant c = I.constant c

theorem Agrees.symmetric {scope : Char → Prop} (h : I.Agrees J scope) (hI : I.Symmetric) :
    J.Symmetric := by
  intro a b hab
  rw [h.same] at hab ⊢
  exact hI a b hab

theorem Agrees.reads {scope : Char → Prop} (h : I.Agrees J scope) {f : Formula} (hf : f.Sentence)
    (hc : ∀ c ∈ f.constants, scope c) (v : Char → D) : J.Reads ∅ v f ↔ I.Reads ∅ v f :=
  reads_congr hf h.relation h.same (fun c hcf => h.constant c (hc c hcf)) ∅ v

end Interpretation

/-! ## Sentences -/

namespace Problem

/-- Whether the premises and the conclusion are sentences. -/
structure Proper (P : Problem) : Prop where
  premises : ∀ p ∈ P.premises, p.Sentence
  conclusion : P.conclusion.Sentence

/-- Whether all that may be assumed is true. -/
def TrueIn (P : Problem) (I : Interpretation D) (v : Char → D) : Prop :=
  ∀ step f, P.Assumes step f → I.Reads ∅ v f

theorem Assumes.sentence {step : Step} {f : Formula} (h : P.Assumes step f) (hP : P.Proper) :
    f.Sentence := by
  cases step with
  | premise =>
    obtain ⟨p, hp, rfl⟩ := h
    exact (hP.premises p hp).unrooted
  | reductioAssumption =>
    obtain ⟨-, rfl⟩ := h
    exact hP.conclusion.unrooted
  | _ => exact h.elim

theorem Proper.isConstantSymbol (hP : P.Proper) {c : Char} (hc : c ∈ P.constants) :
    isConstantSymbol c := by
  rcases mem_constants.1 hc with hc | ⟨p, hp, hc⟩
  · exact hP.conclusion.isConstantSymbol hc
  · exact (hP.premises p hp).isConstantSymbol hc

theorem Proper.upholds (hP : P.Proper) : P.Upholds Sentence where
  assumed _ _ h := h.sentence hP
  conclusion := hP.conclusion.unrooted
  symbols _ := hP.isConstantSymbol

/-- A constant that the argument does not have may have any value. -/
theorem TrueIn.assign (h : P.TrueIn I v) (hP : P.Proper) {c : Char} (hc : c ∉ P.constants) (d : D) :
    P.TrueIn (I.assign c d) v := fun step f hf =>
  (I.reads_assign (hf.sentence hP) (fun h => hc (hf.constants h)) d ∅ v).2 (h step f hf)

end Problem

namespace Search

/-- Whether a search for a proper argument is made of sentences and constant symbols. -/
structure Formed (P : Problem) (s : Search) : Prop extends s.Covered P where
  sentence : ∀ i f, s.Has i f → f.Sentence
  symbols : ∀ c ∈ s.known, isConstantSymbol c

theorem Formed.conclusion_sentence (hs : s.Formed P) (hP : P.Proper) :
    s.conclusion.formula.Sentence := by
  rw [hs.conclusion]
  exact hP.conclusion.unrooted

theorem Formed.conclusion_constants (hs : s.Formed P) {c : Char}
    (hc : c ∈ s.conclusion.formula.constants) : c ∈ P.constants := by
  rw [hs.conclusion, mem_constants_unrooted] at hc
  exact Problem.mem_constants.2 (.inl hc)

theorem Formed.cites_sentence (hs : s.Formed P) {is : List Nat} {ps : List Formula}
    (hi : s.Cites is ps) : ∀ p ∈ ps, p.Sentence := fun p hp => by
  obtain ⟨i, hi⟩ := hi.exists_has hp
  exact hs.sentence i p hi

theorem formed_iff_upholds : s.Formed P ↔ s.Upholds Sentence P :=
  ⟨fun h => ⟨h.toCovered, h.sentence, h.symbols⟩, fun h => ⟨h.toCovered, h.formula, h.symbols⟩⟩

theorem Moves.formed (h : Moves P s s') (hs : s.Formed P) (hP : P.Proper) : s'.Formed P := by
  rw [formed_iff_upholds] at hs ⊢
  exact h.upholds handed_sentence hP.upholds hs

theorem formed_start (hP : P.Proper) (limit : Nat) :
    (start P.premises P.conclusion limit).Formed P where
  toCovered := covered_start P limit
  sentence i _ hf := absurd hf.lt_size (Nat.not_lt_zero i)
  symbols _ hc := hP.isConstantSymbol hc

/-! ## Truth -/

/-- The constants whose values are given: those of the argument, and the arbitrary ones. -/
def Given (P : Problem) (s : Search) (c : Char) : Prop := c ∈ P.constants ∨ c ∈ s.arbitrary

/-- Whether `J` makes all that has been derived true, with the given values of `I`. -/
structure Models (P : Problem) (s : Search) (I J : Interpretation D) (v : Char → D) : Prop where
  agrees : I.Agrees J (s.Given P)
  reads : ∀ i f, s.Has i f → J.Reads ∅ v f

/-- Whether all that has been derived is true with suitable witnesses, wherever the assumptions are
true. -/
def Supported (D : Type u) (P : Problem) (s : Search) : Prop :=
  ∀ (I : Interpretation D) (v : Char → D), I.Symmetric → P.TrueIn I v → ∃ J, s.Models P I J v

theorem Models.cites (h : s.Models P I J v) {is : List Nat} {ps : List Formula}
    (hi : s.Cites is ps) : ∀ p ∈ ps, J.Reads ∅ v p := fun p hp => by
  obtain ⟨i, hi⟩ := hi.exists_has hp
  exact h.reads i p hi

/-- A constant that is not given and occurs nowhere may have any value. -/
theorem Models.assign (h : s.Models P I J v) (hs : s.Formed P) {c : Char}
    (hc : ¬s.Given P c) (hfresh : ∀ i f, s.Has i f → c ∉ f.constants) (d : D) :
    s.Models P I (J.assign c d) v where
  agrees := by
    refine ⟨h.agrees.relation, h.agrees.same, fun e he => ?_⟩
    have hne : e ≠ c := fun heq => hc (heq ▸ he)
    rw [J.constant_assign_of_ne hne d]
    exact h.agrees.constant e he
  reads i f hf := (J.reads_assign (hs.sentence i f hf) (hfresh i f hf) d ∅ v).2 (h.reads i f hf)

/-- Where nothing has a constant yet, an arbitrary one may have the value that it is given. -/
theorem Models.seed (h : s.Models P I J v) (hs : s.Formed P) (hempty : s.known.isEmpty) (c : Char) :
    { s with known := s.known.insert c, arbitrary := s.arbitrary.insert c }.Models P I
      (J.assign c (I.constant c)) v := by
  have hnone := Symbols.isEmpty_iff.1 hempty
  have hfresh : ∀ i f, s.Has i f → c ∉ f.constants := fun i f hf hc => hnone c (hs.derived i f hf c hc)
  have hgiven : ∀ e, ¬s.Given P e := fun e he =>
    hnone e (he.elim (hs.argument e) fun he => (hs.arbitrary e he).1)
  have hassign := h.assign hs (hgiven c) hfresh (I.constant c)
  refine ⟨⟨hassign.agrees.relation, hassign.agrees.same, fun e he => ?_⟩, hassign.reads⟩
  rcases he with he | he
  · exact absurd (.inl he) (hgiven e)
  · rcases Symbols.mem_insert.1 he with rfl | he
    · exact J.constant_assign_self e _
    · exact absurd (.inr he) (hgiven e)

/-- A universal follows from its instance with an arbitrary constant. -/
theorem Supported.reads_generalized (hsupp : s.Supported D P) (hs : s.Formed P) (hP : P.Proper)
    (hI : I.Symmetric) (htrue : P.TrueIn I v) {i : Nat} {x c : Char} {p f : Formula}
    (hf : s.conclusion.formula = .all x p) (hc : c ∈ s.arbitrary) (hi : s.Has i f)
    (hlike : (p.substitute x c .const).Alike f) : I.Reads ∅ v (.all x p) := by
  have hall : (Formula.all x p).Sentence := hf ▸ hs.conclusion_sentence hP
  have hconstants : ∀ e ∈ p.constants, e ∈ P.constants := fun e he =>
    hs.conclusion_constants (hf ▸ he)
  obtain ⟨hknown, hnew⟩ := hs.arbitrary c hc
  refine (I.reads_quantified v _ p (Finset.notMem_empty x)).2 fun d => ?_
  -- whatever value the constant gets, the assumptions remain true, and so the instance is
  obtain ⟨J, hJ⟩ := hsupp (I.assign c d) v hI (htrue.assign hP hnew d)
  have hinstance : (p.substitute x c .const).Sentence := hall.instantiate (hs.symbols c hknown)
  have hreads : J.Reads ∅ v (p.substitute x c .const) :=
    (hlike.reads (hJ.agrees.symmetric hI) hinstance (hs.sentence i f hi) v).2 (hJ.reads i f hi)
  have hgiven : ∀ e ∈ (p.substitute x c .const).constants, s.Given P e :=
    forall_mem_constants_substitute (fun e he => .inl (hconstants e he)) (.inr hc)
  rw [hJ.agrees.reads hinstance hgiven, I.reads_assign_substitute hall.2
    (hall.2.const_not_mem_terms hall.1) fun h => hnew (hconstants c h)] at hreads
  exact hreads

/-- What is licensed is true with suitable witnesses. -/
theorem Licensed.models (h : s.Licensed P e) (hsupp : s.Supported D P) (hs : s.Formed P)
    (hP : P.Proper) (hI : I.Symmetric) (htrue : P.TrueIn I v) :
    ∃ J, s.Models P I J v ∧ J.Reads ∅ v e.formula := by
  obtain ⟨J, hJ⟩ := hsupp I v hI htrue
  have hJsymm := hJ.agrees.symmetric hI
  cases h with
  | assumed h =>
    refine ⟨J, hJ, (hJ.agrees.reads (h.sentence hP) (fun c hc => .inl ?_) v).2 (htrue _ _ h)⟩
    exact h.constants hc
  | inferred hi h => exact ⟨J, hJ, h.reads hJsymm (hs.cites_sentence hi) (hJ.cites hi)⟩
  | introduced hi h =>
    exact ⟨J, hJ, h.reads hJsymm (hs.conclusion_sentence hP) (hs.cites_sentence hi) (hJ.cites hi)⟩
  | @instantiated i x c p hi _ _ =>
    have hall := hs.sentence _ _ hi
    have hreads := (J.reads_quantified v _ p (Finset.notMem_empty x)).1 (hJ.reads _ _ hi)
    refine ⟨J, hJ, ?_⟩
    rw [J.reads_substitute (hall.2.const_not_mem_terms hall.1)]
    exact hreads _
  | @witnessed i x c p hi _ _ hnew hfresh =>
    have hex := hs.sentence _ _ hi
    obtain ⟨d, hd⟩ := (J.reads_quantified v _ p (Finset.notMem_empty x)).1 (hJ.reads _ _ hi)
    have hgiven : ¬s.Given P c := not_or.2 hnew
    have hbody : c ∉ p.constants := hfresh i (.ex x p) hi
    refine ⟨J.assign c d, hJ.assign hs hgiven hfresh d, ?_⟩
    exact (J.reads_assign_substitute hex.2 (hex.2.const_not_mem_terms hex.1) hbody d ∅ v).2 hd
  | generalized hf hc hi hlike =>
    refine ⟨J, hJ, ?_⟩
    refine (hJ.agrees.reads (hs.conclusion_sentence hP) (fun c hc => .inl ?_) v).2 ?_
    · exact hs.conclusion_constants hc
    · rw [hf]
      exact hsupp.reads_generalized hs hP hI htrue hf hc hi hlike

theorem Move.supported (h : Move P s s') (hsupp : s.Supported D P) (hs : s.Formed P)
    (hP : P.Proper) : s'.Supported D P := by
  intro I v hI htrue
  cases h with
  | rest h =>
    obtain ⟨J, hJ⟩ := hsupp I v hI htrue
    refine ⟨J, ?_, fun i f hf => hJ.reads i f (h.has_iff.1 hf)⟩
    have hgiven : s'.Given P = s.Given P := by
      unfold Given
      rw [h.arbitrary]
    rw [hgiven]
    exact hJ.agrees
  | derive hlt h =>
    obtain ⟨J, hJ, he⟩ := h.models hsupp hs hP hI htrue
    refine ⟨J, hJ.agrees, fun i f hf => ?_⟩
    rcases hf.of_push with hf | rfl
    · exact hJ.reads i f hf
    · exact he
  | seed hempty =>
    obtain ⟨J, hJ⟩ := hsupp I v hI htrue
    exact ⟨_, hJ.seed hs hempty firstConstant⟩
  | _ =>
    obtain ⟨J, hJ⟩ := hsupp I v hI htrue
    exact ⟨J, hJ.agrees, hJ.reads⟩

theorem Moves.supported (h : Moves P s s') (hsupp : s.Supported D P) (hs : s.Formed P)
    (hP : P.Proper) : s'.Supported D P := by
  induction h with
  | refl => exact hsupp
  | tail hmoves h ih => exact h.supported ih (Moves.formed hmoves hs hP) hP

theorem supported_start (P : Problem) (limit : Nat) :
    (start P.premises P.conclusion limit).Supported D P := fun I _ _ _ =>
  ⟨I, ⟨rfl, rfl, fun _ _ => rfl⟩, fun i _ hf => absurd hf.lt_size (Nat.not_lt_zero i)⟩

/-- A conclusion that a search has found is true wherever the assumptions are. -/
theorem Supported.reads_conclusion (hsupp : s.Supported D P) (hs : s.Formed P) (hP : P.Proper)
    (hlocated : s.Located) {i : Nat} (hi : s.found = some i) (hI : I.Symmetric)
    (htrue : P.TrueIn I v) : I.Reads ∅ v s.conclusion.formula := by
  obtain ⟨f, hf, hequal⟩ := hlocated i hi
  have hlike : f.Alike s.conclusion.formula := .inl hequal
  obtain ⟨J, hJ⟩ := hsupp I v hI htrue
  have hconclusion := hs.conclusion_sentence hP
  rw [← hJ.agrees.reads hconclusion (fun c hc => .inl (hs.conclusion_constants hc)) v]
  exact (hlike.reads (hJ.agrees.symmetric hI) (hs.sentence i f hf) hconclusion v).1 (hJ.reads i f hf)

end Search

/-! ## Proofs -/

/-- A conclusion that is proved is true in every interpretation in which the premises are, as long as
identity is read symmetrically. -/
theorem Context.reads_of_prove {ctx : Context} {lines : List Line} (hP : P.Proper)
    (h : (ctx.prove P.premises P.conclusion P.kind).2 = .ok (some lines)) (hI : I.Symmetric)
    (hreads : ∀ p ∈ P.premises, I.Reads ∅ v p) : I.Reads ∅ v P.conclusion := by
  obtain ⟨limit, s, s', i, hmoves, hi, -⟩ := exists_finish_of_prove h
  have hstart := formed_start hP limit
  have hs := hmoves.formed hstart hP
  have hsupp : s.Supported D P := hmoves.supported (supported_start P limit) hstart hP
  have hlocated := hmoves.located fun i hi => nomatch hi
  rw [← I.reads_unrooted, ← hs.conclusion]
  -- in an indirect proof the negation of the conclusion is assumed, so suppose that it is true
  by_contra hnot
  refine hnot (hsupp.reads_conclusion hs hP hlocated hi hI fun step f hf => ?_)
  cases step with
  | premise =>
    obtain ⟨p, hp, rfl⟩ := hf
    exact (I.reads_unrooted ∅ v p).2 (hreads p hp)
  | reductioAssumption =>
    obtain ⟨-, rfl⟩ := hf
    rw [hs.conclusion] at hnot
    exact hnot
  | _ => exact hf.elim

/-- A conclusion that is proved, directly or indirectly, is true in every structure in which the
premises are. -/
theorem Context.prove_sound (ctx : Context) (premises : List Formula) (conclusion : Formula)
    (kind : ProofType) (hp : ∀ p ∈ premises, p.Standard) (hc : conclusion.Standard)
    (lines : List Line) (h : (ctx.prove premises conclusion kind).2 = .ok (some lines))
    (S : Structure D) (v : Char → D) (hS : ∀ p ∈ premises, S.Holds v p) :
    S.Holds v conclusion := by
  have hP : Problem.Proper ⟨premises, conclusion, kind⟩ := ⟨fun p hmem => (hp p hmem).1, hc.1⟩
  refine (S.reading.reads_iff_holds hc.2 v).1 ?_
  refine reads_of_prove (I := S.reading) hP h S.symmetric_reading fun p hmem => ?_
  exact (S.reading.reads_iff_holds (hp p hmem).2 v).2 (hS p hmem)

/-- If all are `F` and `G` then all are `G`, which is proved by generalizing from an instance; and the
law of the excluded middle is proved indirectly. -/
theorem Context.prove_sound_generalization :
    (∃ lines, (({} : Context).prove
        [.all 'x' (.and (.predicate 'F' [.var 'x']) (.predicate 'G' [.var 'x']))]
        (.all 'y' (.predicate 'G' [.var 'y'])) .direct).2 = .ok (some lines) ∧
      ∀ (S : Structure Nat) (v : Char → Nat),
        (∀ p ∈ [.all 'x' (.and (.predicate 'F' [.var 'x']) (.predicate 'G' [.var 'x']))],
          S.Holds v p) → S.Holds v (.all 'y' (.predicate 'G' [.var 'y']))) ∧
    ∃ lines, (({} : Context).prove [] (.or (.atom 'A') (.not (.atom 'A'))) .indirect).2 =
        .ok (some lines) ∧
      ∀ (S : Structure Nat) (v : Char → Nat),
        (∀ p ∈ [], S.Holds v p) → S.Holds v (.or (.atom 'A') (.not (.atom 'A'))) := by
  refine ⟨Exists.imp (fun lines h => ⟨h, ?_⟩) (exists_lines (by decide +kernel)),
    Exists.imp (fun lines h => ⟨h, ?_⟩) (exists_lines (by decide +kernel))⟩
  · exact prove_sound {} _ _ .direct (by decide) (by decide) lines h
  · exact prove_sound {} _ _ .indirect (by decide) (by decide) lines h

end Sequitur
