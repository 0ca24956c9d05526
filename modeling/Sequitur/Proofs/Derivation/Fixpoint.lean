import Sequitur.Proofs.Derivation.Delivery
import Sequitur.Proofs.Derivation.Economy

/-!
# Propositional fixpoints

A search that is reported as not proved has come to rest. Nothing that it has derived is falsum, the
conclusion, or the negation of something else that it has derived and that is no negation, and it has
all that the five eliminations of propositional logic can give, but for what it refuses on principle
(`Context.exists_fixpoint`). What is derived counts up to structural equality throughout, in what the
eliminations take as well as in what they give.
-/

namespace Sequitur

open Formula Search

variable {P : Problem} {s s' : Search} {f g p q : Formula} {op : Connective} {n limit : Nat}

/-! ## Formulas that read alike -/

namespace Formula

theorem exists_not_of_plain (hf : f.Lacks .root) (h : f.plain = .not p) :
    ∃ p', f = .not p' ∧ p'.plain = p := by
  cases f with
  | not p' => exact ⟨p', rfl, Formula.not.inj h⟩
  | root p => exact absurd rfl hf.kind_ne
  | predicate l ps => cases ps <;> cases h
  | _ => cases h

theorem exists_binary_of_plain (hf : f.Lacks .root) (h : f.plain = .binary op p q) :
    ∃ p' q', f = .binary op p' q' ∧ p'.plain = p ∧ q'.plain = q := by
  cases f with
  | binary op' p' q' =>
    obtain ⟨rfl, hp, hq⟩ := Formula.binary.inj h
    exact ⟨p', q', rfl, hp, hq⟩
  | root p => exact absurd rfl hf.kind_ne
  | predicate l ps => cases ps <;> cases h
  | _ => cases h

theorem negationDepthBelow_plain (hf : f.Lacks .root) (n : Nat) :
    f.plain.negationDepthBelow n = f.negationDepthBelow n := by
  induction f generalizing n with
  | predicate l ps _ =>
    cases ps with
    | nil => simp [plain, negationDepthBelow, negationDepthOf]
    | cons p ps => rfl
  | not p ih =>
    rw [plain, negationDepthBelow, negationDepthBelow, ih (hf.of_mem_children (by simp [children]))]
  | binary op p q hp hq =>
    rw [plain, negationDepthBelow, negationDepthBelow, hp (hf.of_mem_children (by simp [children])),
      hq (hf.of_mem_children (by simp [children]))]
  | quantified k x p ih =>
    rw [plain, negationDepthBelow, negationDepthBelow, ih (hf.of_mem_children (by simp [children]))]
  | root p _ => exact absurd rfl hf.kind_ne
  | _ => rfl

namespace Regular

theorem equals_of_plain (hf : f.Regular) (hg : g.Regular) (h : f.plain = g.plain) :
    f.structurallyEquals g :=
  structurallyEquals_of_plain hf.1 hg.1 h

/-- But for identities and their denials, what is structurally equal reads alike. -/
theorem plain_eq (hf : f.Regular) (hg : g.Regular) (hequal : f.structurallyEquals g)
    (hcommuted : g.commuted = none) : f.plain = g.plain := by
  refine ((structurallyEquals_iff_plain hf.1 hg.1 hg.2).1 hequal).resolve_right fun h => ?_
  rw [exchanges_iff.1 h.symm] at hcommuted
  cases hcommuted

/-- What is structurally equal to a negation is one, and what they negate is structurally equal. -/
theorem exists_not (hf : f.Regular) (hg : g.Regular) (h : f.structurallyEquals (.not g)) :
    ∃ p, f = .not p ∧ p.structurallyEquals g := by
  have hnot : (Formula.not g).Regular := handed_regular.not.2 hg
  rcases (structurallyEquals_iff_plain hf.1 hnot.1 hnot.2).1 h with
    hplain | ⟨t, u, ⟨-, hg'⟩ | ⟨rfl, hg'⟩⟩
  · obtain ⟨p, rfl, hp⟩ := exists_not_of_plain hf.2 hplain
    exact ⟨p, rfl, (handed_regular.not.1 hf).equals_of_plain hg hp⟩
  · cases hg'
  · obtain rfl : g = .identity u t := Formula.not.inj hg'
    have hexchanges : (Formula.identity t u).Exchanges (.identity u t) :=
      ⟨t, u, .inl ⟨rfl, rfl⟩⟩
    exact ⟨_, rfl, hexchanges.structurallyEquals⟩

theorem isRedundant_of_plain (hf : f.Regular) (hg : g.Regular) (h : f.plain = g.plain)
    (hredundant : f.isRedundant) : g.isRedundant := by
  cases f with
  | binary op p q =>
    obtain ⟨p', q', rfl, hp, hq⟩ := exists_binary_of_plain hg.2 h.symm
    obtain ⟨fp, fq⟩ := handed_regular.binary.1 hf
    obtain ⟨gp, gq⟩ := handed_regular.binary.1 hg
    exact gp.trans fp gq (gp.equals_of_plain fp hp)
      (fp.trans fq gq hredundant (fq.equals_of_plain gq hq.symm))
  | identity t u =>
    rw [eq_identity_of_plain hg.2 h.symm]
    exact hredundant
  | _ => cases hredundant

end Regular

end Formula

/-! ## No contradiction -/

namespace Search

/-- Whether, as long as a search goes on, it has derived no negation of something it has derived that
is not itself a negation. -/
def Consistent (s : Search) : Prop :=
  ¬s.isFinished → ∀ d ∈ s.store.inferences, ∀ e ∈ s.store.inferences, e.formula.negated = none →
    ¬d.formula.structurallyEquals (.not e.formula)

theorem derives_of_mem {e : Inference} (he : e ∈ s.store.inferences)
    (h : e.formula.structurallyEquals f) : s.Derives f := by
  obtain ⟨i, hi⟩ := List.mem_iff_getElem?.1 he
  exact ⟨i, e.formula, ⟨e, hi, rfl⟩, h⟩

theorem not_derives_not_of_contradiction? {i : Nat} (h : Derive.contradiction? s i f = none)
    (hf : f.negated = none) : ¬s.Derives (.not f) := by
  rw [← isSome_position?_iff, Option.not_isSome_iff_eq_none]
  cases f with
  | not p => cases hf
  | _ => exact Option.map_eq_none_iff.1 h

theorem not_derives_of_contradiction? {i : Nat} (h : Derive.contradiction? s i (.not p) = none)
    (hp : p.negated = none) : ¬s.Derives p := by
  rw [← isSome_position?_iff, Option.not_isSome_iff_eq_none]
  cases p with
  | not p => cases hp
  | _ => exact Option.map_eq_none_iff.1 h

/-- What is structurally equal to what is no negation is none. -/
theorem negated_eq_none (hp : p.Regular) (hg : g.Regular) (h : p.structurallyEquals g)
    (hnegated : g.negated = none) : p.negated = none := by
  cases p with
  | not r =>
    obtain ⟨_, rfl, -⟩ := hg.exists_not (handed_regular.not.1 hp) (hp.symm hg h)
    cases hnegated
  | _ => rfl

theorem Consistent.of_rests (hs : s.Consistent) (h : s.Rests s') : s'.Consistent := by
  intro hopen
  rw [h.isFinished] at hopen
  rw [h.inferences]
  exact hs hopen

/-- A search stays consistent with every turn. -/
theorem Turn.consistent (h : Turn s s') (hregular : ∀ e ∈ s'.store.inferences, e.formula.Regular)
    (hs : s.Consistent) : s'.Consistent := by
  cases h with
  | rest h _ => exact hs.of_rests h
  | learn _ _ => exact hs
  | exhaust => exact fun hopen => absurd (Bool.or_true _) hopen
  | @accept _ content step parents hwelcome h _ =>
    intro hopen d hd e he hnegated hequal
    have hopen₀ : ¬s.isFinished := Bool.eq_false_iff.1 (of_assess_welcome hwelcome).1
    have hcheck := h.consistent.resolve_left hopen
    have hstore := h.finished.resolve_left hopen
    have hderives := derives_of_mem hd hequal
    have hd' := hd
    have he' := he
    rw [hstore, List.mem_append, List.mem_singleton] at hd' he'
    rcases he' with he' | rfl
    · rcases hd' with hd' | rfl
      · exact hs hopen₀ d hd' e he' hnegated hequal
      · -- the new formula denies one that is there
        obtain ⟨p, hp, hpe⟩ := (hregular _ hd).exists_not (hregular e he) hequal
        have hpregular : p.Regular := handed_regular.not.1 (hp ▸ hregular _ hd)
        have hnone := negated_eq_none hpregular (hregular e he) hpe hnegated
        rw [hp] at hcheck
        exact not_derives_of_contradiction? hcheck hnone
          (derives_of_mem he (hpregular.symm (hregular e he) hpe))
    · exact not_derives_not_of_contradiction? hcheck hnegated hderives

theorem Visits.thrifty_consistent (hP : P.Regular) (h : Visits P limit s) :
    s.Thrifty P ∧ s.Consistent := by
  have hkept : P.Vouches s.store.inferences → s.Thrifty P ∧ s.Consistent := by
    refine h.invariant (Q := fun s => P.Vouches s.store.inferences → s.Thrifty P ∧ s.Consistent)
      ?_ ?_ ?_
    · exact fun _ => ⟨thrifty_start hP limit, fun _ d hd => absurd hd List.not_mem_nil⟩
    · intro s s' hrests ih hvouches
      obtain ⟨hthrifty, hconsistent⟩ := ih (hrests.inferences ▸ hvouches)
      exact ⟨hthrifty.of_rests hrests, hconsistent.of_rests hrests⟩
    · intro s s' hturn ih hvouches
      obtain ⟨hthrifty, hconsistent⟩ := ih (hvouches.of_isPrefix hturn.isPrefix)
      exact ⟨hturn.thrifty hP hvouches hthrifty, hturn.consistent hvouches.regular hconsistent⟩
  exact hkept (h.vouches hP)

/-! ## What is derived counts in any form -/

section Regular

variable (hs : ∀ i f, s.Has i f → f.Regular)

include hs

theorem Derives.of_plain (hd : s.Derives f) (hf : f.Regular) (hg : g.Regular)
    (h : f.plain = g.plain) : s.Derives g := by
  obtain ⟨i, d, hi, hequal⟩ := hd
  exact ⟨i, d, hi, (hs i d hi).trans hf hg hequal (hf.equals_of_plain hg h)⟩

theorem Denies.of_plain (hd : s.Denies f) (hf : f.Regular) (hg : g.Regular)
    (h : f.plain = g.plain) : s.Denies g := by
  rcases hd with hd | ⟨p, rfl, hd⟩
  · refine .inl (hd.of_plain hs (handed_regular.not.2 hf) (handed_regular.not.2 hg) ?_)
    rw [plain, plain, h]
  · obtain ⟨p', rfl, hp⟩ := exists_not_of_plain hg.2 h.symm
    exact .inr ⟨p', rfl, hd.of_plain hs (handed_regular.not.1 hf) (handed_regular.not.1 hg) hp.symm⟩

theorem Handles.of_plain (hd : s.Handles f) (hf : f.Regular) (hg : g.Regular)
    (h : f.plain = g.plain) : s.Handles g := by
  rcases hd with hd | hredundant | hdepth
  · exact .inl (hd.of_plain hs hf hg h)
  · exact .inr (.inl (hf.isRedundant_of_plain hg h hredundant))
  · rw [negationDepth, ← negationDepthBelow_plain hf.2, h, negationDepthBelow_plain hg.2] at hdepth
    exact .inr (.inr hdepth)

/-- What reads as a compound is derived as one. -/
theorem Derives.exists_binary (hd : s.Derives (.binary op p q)) (hp : p.Regular)
    (hq : q.Regular) :
    ∃ i p' q', s.Has i (.binary op p' q') ∧ p'.Regular ∧ q'.Regular ∧
      p'.plain = p.plain ∧ q'.plain = q.plain := by
  obtain ⟨i, f, hi, hequal⟩ := hd
  have hplain := (hs i f hi).plain_eq (handed_regular.binary.2 ⟨hp, hq⟩) hequal rfl
  obtain ⟨p', q', rfl, hp', hq'⟩ := exists_binary_of_plain (hs i f hi).2 hplain
  obtain ⟨rp, rq⟩ := handed_regular.binary.1 (hs i _ hi)
  exact ⟨i, p', q', hi, rp, rq, hp', hq'⟩

end Regular

/-! ## Fixpoints -/

/-- Whether a search has come to rest: it has derived neither falsum nor the conclusion nor a
contradiction, and handles all that the five eliminations give for what it has derived. -/
structure Fixpoint (P : Problem) (s : Search) : Prop where
  regular : ∀ i f, s.Has i f → f.Regular
  falsum : ∀ i f, s.Has i f → ¬f.isFalsum
  conclusion : ∀ i f, s.Has i f → ¬f.structurallyEquals P.conclusion
  consistent : ∀ i f j g, s.Has i f → s.Has j g → g.negated = none →
    ¬f.structurallyEquals (.not g)
  conjunction : ∀ p q, p.Regular → q.Regular → s.Derives (.and p q) → s.Handles p ∧ s.Handles q
  doubleNegation : ∀ p, p.Regular → s.Derives (.not (.not p)) → s.Handles p
  biconditional : ∀ p q, p.Regular → q.Regular → s.Derives (.iff p q) →
    s.Handles (.and (.implies p q) (.implies q p))
  modusPonens : ∀ p q, p.Regular → q.Regular → s.Derives (.implies p q) → s.Derives p →
    s.Handles q
  modusTollens : ∀ p q, p.Regular → q.Regular → s.Derives (.implies p q) → s.Denies q →
    s.Handles (.not p)

/-- A search is at rest if it goes on, but has used up all that it has derived. -/
theorem Visits.fixpoint (hP : P.Regular) (h : Visits P limit s) (hopen : ¬s.isFinished)
    (hused : ∀ i f, s.Has i f → s.UsesUp f) : s.Fixpoint P := by
  have hregular : ∀ i f, s.Has i f → f.Regular := by
    rintro i f ⟨e, he, rfl⟩
    exact (h.vouches hP).regular e (List.mem_of_getElem? he)
  obtain ⟨hthrifty, hconsistent⟩ := h.thrifty_consistent hP
  have hpending := hthrifty.pending hopen
  refine ⟨hregular, ?_, ?_, ?_, ?_, ?_, ?_, ?_, ?_⟩
  · rintro i f ⟨e, he, rfl⟩
    exact (hpending e (List.mem_of_getElem? he)).2
  · rintro i f ⟨e, he, rfl⟩
    exact (hpending e (List.mem_of_getElem? he)).1
  · rintro i f j g ⟨d, hd, rfl⟩ ⟨e, he, rfl⟩
    exact hconsistent hopen d (List.mem_of_getElem? hd) e (List.mem_of_getElem? he)
  · intro p q hp hq hd
    obtain ⟨i, p', q', hi, rp, rq, hp', hq'⟩ := hd.exists_binary hregular hp hq
    have hyields := hused i _ hi .conjunctionElimination trivial
    exact ⟨(hyields p' (by simp [yields])).of_plain hregular rp hp hp',
      (hyields q' (by simp [yields])).of_plain hregular rq hq hq'⟩
  · rintro p hp ⟨i, f, hi, hequal⟩
    have hnot : (Formula.not (.not p)).Regular := handed_regular.not.2 (handed_regular.not.2 hp)
    obtain ⟨f', rfl, hf'⟩ :=
      exists_not_of_plain (hregular i f hi).2 ((hregular i f hi).plain_eq hnot hequal rfl)
    have rf' := handed_regular.not.1 (hregular i _ hi)
    obtain ⟨p', rfl, hp'⟩ := exists_not_of_plain rf'.2 hf'
    have hyields := hused i _ hi .doubleNegationElimination trivial p' (by simp [yields])
    exact hyields.of_plain hregular (handed_regular.not.1 rf') hp hp'
  · intro p q hp hq hd
    obtain ⟨i, p', q', hi, rp, rq, hp', hq'⟩ := hd.exists_binary hregular hp hq
    have hyields := hused i _ hi .biconditionalElimination trivial _ (List.mem_singleton_self _)
    have hboth {p q : Formula} (hp : p.Regular) (hq : q.Regular) :
        (Formula.and (.implies p q) (.implies q p)).Regular :=
      handed_regular.binary.2 ⟨handed_regular.binary.2 ⟨hp, hq⟩, handed_regular.binary.2 ⟨hq, hp⟩⟩
    refine hyields.of_plain hregular (hboth rp rq) (hboth hp hq) ?_
    simp only [plain, hp', hq']
  · intro p q hp hq hd hderives
    obtain ⟨i, p', q', hi, rp, rq, hp', hq'⟩ := hd.exists_binary hregular hp hq
    have hsupplies := hderives.of_plain hregular hp rp hp'.symm
    have hyields := hused i _ hi .modusPonens hsupplies q' (by simp [yields])
    exact hyields.of_plain hregular rq hq hq'
  · intro p q hp hq hd hdenies
    obtain ⟨i, p', q', hi, rp, rq, hp', hq'⟩ := hd.exists_binary hregular hp hq
    have hsupplies := hdenies.of_plain hregular hq rq hq'.symm
    have hyields := hused i _ hi .modusTollens hsupplies (.not p') (by simp [yields])
    refine hyields.of_plain hregular (handed_regular.not.2 rp) (handed_regular.not.2 hp) ?_
    rw [plain, plain, hp']

end Search

/-- What is reported as not proved was given up at a fixpoint. -/
theorem Context.exists_fixpoint (ctx : Context) (hP : P.Regular)
    (h : (ctx.prove P.premises P.conclusion P.kind).1.report = .notProved) :
    ∃ t, ctx.EndsIn P t ∧ t.Fixpoint P := by
  obtain ⟨n, s, s', hopens, hopen, hpass, hopen', hends⟩ := exists_last_pass h
  refine ⟨_, hends, ?_⟩
  have hvisits : Visits P _ (s'.log (.passed (n + 1) 0)) := .opens (.next hopens hopen hpass)
  refine hvisits.fixpoint hP hopen' fun i f hi => ?_
  exact (Derive.pass_usesUp hpass hopens.delivers hopen' i f hi).of_inferences rfl

/-- From `((A → ¬¬B) ∧ ¬B) ∧ ¬¬¬¬¬¬C` a search for `D` derives `¬A` by modus tollens, since `¬¬B`
negates `¬B`, and refuses the sixfold negation. -/
theorem Context.exists_fixpoint_tollens :
    let ctx : Context := {}
    let p : Formula := .implies (.atom 'A') (.not (.not (.atom 'B')))
    let q : Formula := .not (.atom 'B')
    let r : Formula := .not (.not (.not (.not (.not (.not (.atom 'C'))))))
    let P : Problem := ⟨[.and (.and p q) r], .atom 'D', .direct⟩
    P.Regular ∧ (ctx.prove P.premises P.conclusion P.kind).1.report = .notProved ∧
      ∃ t, ctx.EndsIn P t ∧ t.Fixpoint P ∧ t.store.inferences.map Inference.formula =
        [.and (.and p q) r, .and p q, p, q, .not (.atom 'A'),
          .implies (.not (.not (.not (.atom 'B')))) (.not (.atom 'A'))] := by
  intro ctx p q r P
  have hpremise : (Formula.and (.and p q) r).Sentence := by decide
  have hconclusion : P.conclusion.Sentence := by decide
  have hP : P.Regular :=
    ⟨List.forall_mem_singleton.2 ⟨hpremise.lettered, by decide⟩, hconclusion.lettered, by decide⟩
  have hreport : (ctx.prove P.premises P.conclusion P.kind).1.report = .notProved := by
    decide +kernel
  have h : (match Derive.assume P.premises P.kind
        (start P.premises P.conclusion ctx.settings.negationLimit.value) with
      | .ok _ s => (s.run 0 ctx.settings.deductionLimit.value).search.store.inferences.map
          Inference.formula
      | .error _ _ => []) =
        [.and (.and p q) r, .and p q, p, q, .not (.atom 'A'),
          .implies (.not (.not (.not (.atom 'B')))) (.not (.atom 'A'))] := by
    decide +kernel
  obtain ⟨t, ⟨s, hassume, rfl⟩, hfixpoint⟩ := ctx.exists_fixpoint hP hreport
  rw [hassume] at h
  exact ⟨hP, hreport, _, ⟨s, hassume, rfl⟩, hfixpoint, h⟩

end Sequitur
