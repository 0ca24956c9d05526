import Sequitur.Derivation.Propositional
import Sequitur.Proofs.Semantics.Likeness
import Sequitur.Proofs.Tableau.Rules

/-!
# What the rules of deduction say

The table of rules, for formulas and with structural equality wherever a search compares: `Infers`
has the rules by which a search goes on from what it has derived, `Introduces` those by which it
introduces a formula it has set out to derive. What they give is true where what they are applied to
is (`Infers.reads`, `Introduces.reads`).

A witness for an existential, an instance of a universal and a generalization from an instance are not
here, since they depend on the constants that the search knows.
-/

namespace Sequitur

universe u

namespace Formula

/-- Whether formulas are structurally equal, one way or the other. -/
def Alike (f g : Formula) : Prop := f.structurallyEquals g ∨ g.structurallyEquals f

theorem Alike.refl (f : Formula) : f.Alike f := .inl f.structurallyEquals_refl

/-- Whether `q` reads as the negation of `p`, or as what `p` negates. -/
def Contrary (p q : Formula) : Prop := (Formula.not p).Alike q ∨ ∃ r, p = .not r ∧ r.Alike q

/-- The laws of De Morgan, with those for a negated implication and a negated biconditional. -/
inductive DeMorgan : Formula → Formula → Prop
  | notAnd (p q : Formula) : DeMorgan (.not (.and p q)) (.or (.not p) (.not q))
  | notOr (p q : Formula) : DeMorgan (.not (.or p q)) (.and (.not p) (.not q))
  | notImplies (p q : Formula) : DeMorgan (.not (.implies p q)) (.and p (.not q))
  | notIff (p q : Formula) :
    DeMorgan (.not (.iff p q)) (.or (.and p (.not q)) (.and (.not p) q))
  | orNot (p q : Formula) : DeMorgan (.or (.not p) (.not q)) (.not (.and p q))
  | andNot (p q : Formula) : DeMorgan (.and (.not p) (.not q)) (.not (.or p q))

/-- An implication as a disjunction, and a disjunction as an implication. -/
inductive Conditional : Formula → Formula → Prop
  | disjunction (p q : Formula) : Conditional (.implies p q) (.or (.not p) q)
  | implication (p q : Formula) : Conditional (.or (.not p) q) (.implies p q)
  | denied (p q : Formula) : Conditional (.or p q) (.implies (.not p) q)

theorem deMorgan_of_deMorganDual {f g : Formula} (h : f.deMorganDual = some g) : f.DeMorgan g := by
  rw [deMorganDual.eq_def] at h
  split at h <;> cases h <;> constructor

theorem conditional_of_implicationDual {f g : Formula} (h : f.implicationDual = some g) :
    f.Conditional g := by
  rw [implicationDual.eq_def] at h
  split at h <;> cases h <;> constructor

end Formula

open Formula

/-- The rules that lead from formulas to another, and what they rest on, in order. -/
inductive Infers : Step → List Formula → Formula → Prop
  | leftConjunct (p q : Formula) : Infers .conjunctionElimination [.and p q] p
  | rightConjunct (p q : Formula) : Infers .conjunctionElimination [.and p q] q
  | doubleNegation (p : Formula) : Infers .doubleNegationElimination [.not (.not p)] p
  | biconditional (p q : Formula) :
    Infers .biconditionalElimination [.iff p q] (.and (.implies p q) (.implies q p))
  | modusPonens {p q p' : Formula} (h : p.Alike p') : Infers .modusPonens [.implies p q, p'] q
  | modusTollens {p q r : Formula} (h : q.Contrary r) :
    Infers .modusTollens [.implies p q, r] (.not p)
  | rightDisjunct {p q r : Formula} (h : p.Contrary r) : Infers .disjunctiveSyllogism [.or p q, r] q
  | leftDisjunct {p q r : Formula} (h : q.Contrary r) : Infers .disjunctiveSyllogism [.or p q, r] p
  | chain {a b b' c : Formula} (h : b.Alike b') :
    Infers .hypotheticalSyllogism [.implies a b, .implies b' c] (.implies a c)
  | constructive {p q p' q' r s : Formula} (hp : p.Alike p') (hq : q.Alike q') :
    Infers .constructiveDilemma [.or p q, .implies p' r, .implies q' s] (.or r s)
  | constructiveSwapped {p q p' q' r s : Formula} (hp : p.Alike p') (hq : q.Alike q') :
    Infers .constructiveDilemma [.or p q, .implies p' r, .implies q' s] (.or s r)
  | destructive {p q r r' s s' : Formula} (hr : r.Contrary r') (hs : s.Contrary s') :
    Infers .destructiveDilemma [.or r s, .implies p r', .implies q s'] (.or (.not p) (.not q))
  | destructiveSwapped {p q r r' s s' : Formula} (hr : r.Contrary r') (hs : s.Contrary s') :
    Infers .destructiveDilemma [.or r s, .implies p r', .implies q s'] (.or (.not q) (.not p))
  | deMorgan {f g : Formula} (h : f.DeMorgan g) : Infers .deMorgan [f] g
  | transposition (p q : Formula) :
    Infers .transposition [.implies p q] (.implies (.not q) (.not p))
  | materialImplication {f g : Formula} (h : f.Conditional g) : Infers .materialImplication [f] g
  | doubleNegate (p : Formula) : Infers .doubleNegationIntroduction [p] (.not (.not p))
  | vacuousExistential {x : Char} {p : Formula} (h : ¬p.mentions x) :
    Infers .existentialElimination [.ex x p] p
  | vacuousUniversal {x : Char} {p : Formula} (h : ¬p.mentions x) :
    Infers .universalElimination [.all x p] p
  | contradicted {p q : Formula} (h : (Formula.not p).Alike q) :
    Infers .contradictionIntroduction [p, q] .falsum
  | contradicting {p q : Formula} (h : p.Alike q) :
    Infers .contradictionIntroduction [q, .not p] .falsum

/-- The rules that introduce a formula by its form, or from falsum. -/
inductive Introduces : Step → List Formula → Formula → Prop
  | conjunction {p q p' q' : Formula} (hp : p.Alike p') (hq : q.Alike q') :
    Introduces .conjunctionIntroduction [p', q'] (.and p q)
  | leftDisjunct {p q p' : Formula} (h : p.Alike p') :
    Introduces .disjunctionIntroduction [p'] (.or p q)
  | rightDisjunct {p q q' : Formula} (h : q.Alike q') :
    Introduces .disjunctionIntroduction [q'] (.or p q)
  | biconditional {p q f g : Formula} (hf : (Formula.implies p q).Alike f)
    (hg : (Formula.implies q p).Alike g) : Introduces .biconditionalIntroduction [f, g] (.iff p q)
  | existential {x c : Char} {p f : Formula} (hc : isConstantSymbol c)
    (h : (p.substitute x c .const).Alike f) : Introduces .existentialIntroduction [f] (.ex x p)
  | falsum (f : Formula) : Introduces .contradictionElimination [.falsum] f

theorem forall_mem_pair {α : Type} {P : α → Prop} {a b : α} :
    (∀ x ∈ [a, b], P x) ↔ P a ∧ P b := by
  rw [List.forall_mem_cons, List.forall_mem_singleton]

theorem forall_mem_triple {α : Type} {P : α → Prop} {a b c : α} :
    (∀ x ∈ [a, b, c], P x) ↔ P a ∧ P b ∧ P c := by
  rw [List.forall_mem_cons, forall_mem_pair]

/-! ## Truth -/

section Truth

variable {D : Type u} {I : Interpretation D}

theorem Formula.Alike.reads {f g : Formula} (h : f.Alike g) (hI : I.Symmetric) (hf : f.Sentence)
    (hg : g.Sentence) (v : Char → D) : I.Reads ∅ v f ↔ I.Reads ∅ v g := by
  rcases h with h | h
  · exact I.reads_of_structurallyEquals hI hf.lettered hg.lettered h ∅ v
  · exact (I.reads_of_structurallyEquals hI hg.lettered hf.lettered h ∅ v).symm

/-- Of contrary formulas one is true. -/
theorem Formula.Contrary.reads {p q : Formula} (h : p.Contrary q) (hI : I.Symmetric)
    (hp : p.Sentence) (hq : q.Sentence) (v : Char → D) : I.Reads ∅ v q ↔ ¬I.Reads ∅ v p := by
  rcases h with h | ⟨r, rfl, h⟩
  · exact (h.reads hI hp hq v).symm
  · rw [I.reads_not, not_not]
    exact (h.reads hI hp hq v).symm

theorem Formula.DeMorgan.reads {f g : Formula} (h : f.DeMorgan g) (v : Char → D) :
    I.Reads ∅ v f ↔ I.Reads ∅ v g := by
  cases h <;>
    simp only [I.reads_not, I.reads_and, I.reads_or, I.reads_implies, I.reads_iff] <;> tauto

theorem Formula.Conditional.reads {f g : Formula} (h : f.Conditional g) (v : Char → D) :
    I.Reads ∅ v f ↔ I.Reads ∅ v g := by
  cases h <;> simp only [I.reads_not, I.reads_or, I.reads_implies] <;> tauto

theorem reads_constructive {p q p' q' r s : Formula} (hp : p.Alike p') (hq : q.Alike q')
    (hI : I.Symmetric) {v : Char → D}
    (hs : ∀ f ∈ [.or p q, .implies p' r, .implies q' s], Sentence f)
    (ht : ∀ f ∈ [.or p q, .implies p' r, .implies q' s], I.Reads ∅ v f) :
    I.Reads ∅ v (.or r s) := by
  obtain ⟨hpq, hpr, hqs⟩ := forall_mem_triple.1 ht
  obtain ⟨hspq, hspr, hsqs⟩ := forall_mem_triple.1 hs
  rcases hpq with h | h
  · exact Or.inl (hpr ((hp.reads hI hspq.1 hspr.1 v).1 h))
  · exact Or.inr (hqs ((hq.reads hI hspq.2 hsqs.1 v).1 h))

theorem reads_destructive {p q r r' s s' : Formula} (hr : r.Contrary r') (hs' : s.Contrary s')
    (hI : I.Symmetric) {v : Char → D}
    (hs : ∀ f ∈ [.or r s, .implies p r', .implies q s'], Sentence f)
    (ht : ∀ f ∈ [.or r s, .implies p r', .implies q s'], I.Reads ∅ v f) :
    I.Reads ∅ v (.or (.not p) (.not q)) := by
  obtain ⟨hrs, hpr, hqs⟩ := forall_mem_triple.1 ht
  obtain ⟨hsrs, hspr, hsqs⟩ := forall_mem_triple.1 hs
  rcases hrs with h | h
  · exact Or.inl fun hp => (hr.reads hI hsrs.1 hspr.2 v).1 (hpr hp) h
  · exact Or.inr fun hq => (hs'.reads hI hsrs.2 hsqs.2 v).1 (hqs hq) h

/-- What a rule infers from true sentences is true. -/
theorem Infers.reads {step : Step} {ps : List Formula} {f : Formula} (h : Infers step ps f)
    (hI : I.Symmetric) {v : Char → D} (hs : ∀ p ∈ ps, p.Sentence) (ht : ∀ p ∈ ps, I.Reads ∅ v p) :
    I.Reads ∅ v f := by
  cases h with
  | leftConjunct p q =>
    have hpq := List.forall_mem_singleton.1 ht
    exact hpq.1
  | rightConjunct p q =>
    have hpq := List.forall_mem_singleton.1 ht
    exact hpq.2
  | doubleNegation p =>
    have hp := List.forall_mem_singleton.1 ht
    exact not_not.1 hp
  | biconditional p q =>
    have hpq := List.forall_mem_singleton.1 ht
    exact iff_iff_implies_and_implies.1 hpq
  | modusPonens h =>
    obtain ⟨hpq, hp⟩ := forall_mem_pair.1 ht
    obtain ⟨hspq, hsp⟩ := forall_mem_pair.1 hs
    exact hpq ((h.reads hI hspq.1 hsp v).2 hp)
  | modusTollens h =>
    obtain ⟨hpq, hr⟩ := forall_mem_pair.1 ht
    obtain ⟨hspq, hsr⟩ := forall_mem_pair.1 hs
    exact mt hpq ((h.reads hI hspq.2 hsr v).1 hr)
  | rightDisjunct h =>
    obtain ⟨hpq, hr⟩ := forall_mem_pair.1 ht
    obtain ⟨hspq, hsr⟩ := forall_mem_pair.1 hs
    exact Or.resolve_left hpq ((h.reads hI hspq.1 hsr v).1 hr)
  | leftDisjunct h =>
    obtain ⟨hpq, hr⟩ := forall_mem_pair.1 ht
    obtain ⟨hspq, hsr⟩ := forall_mem_pair.1 hs
    exact Or.resolve_right hpq ((h.reads hI hspq.2 hsr v).1 hr)
  | chain h =>
    obtain ⟨hab, hbc⟩ := forall_mem_pair.1 ht
    obtain ⟨hsab, hsbc⟩ := forall_mem_pair.1 hs
    exact fun ha => hbc ((h.reads hI hsab.2 hsbc.1 v).1 (hab ha))
  | constructive hp hq => exact reads_constructive hp hq hI hs ht
  | constructiveSwapped hp hq => exact Or.symm (reads_constructive hp hq hI hs ht)
  | destructive hr hs' => exact reads_destructive hr hs' hI hs ht
  | destructiveSwapped hr hs' => exact Or.symm (reads_destructive hr hs' hI hs ht)
  | deMorgan h => exact (h.reads v).1 (List.forall_mem_singleton.1 ht)
  | transposition p q =>
    have hpq := List.forall_mem_singleton.1 ht
    exact mt hpq
  | materialImplication h => exact (h.reads v).1 (List.forall_mem_singleton.1 ht)
  | doubleNegate p => exact not_not.2 (List.forall_mem_singleton.1 ht)
  | vacuousExistential h =>
    have hex := List.forall_mem_singleton.1 hs
    exact (I.reads_vacuous hex.2 h _ ∅ v).1 (List.forall_mem_singleton.1 ht)
  | vacuousUniversal h =>
    have hall := List.forall_mem_singleton.1 hs
    exact (I.reads_vacuous hall.2 h _ ∅ v).1 (List.forall_mem_singleton.1 ht)
  | contradicted h =>
    obtain ⟨hp, hq⟩ := forall_mem_pair.1 ht
    obtain ⟨hsp, hsq⟩ := forall_mem_pair.1 hs
    exact (h.reads hI hsp hsq v).2 hq hp
  | contradicting h =>
    obtain ⟨hq, hp⟩ := forall_mem_pair.1 ht
    obtain ⟨hsq, hsp⟩ := forall_mem_pair.1 hs
    exact hp ((h.reads hI hsp hsq v).2 hq)

/-- What is introduced from true sentences is true. -/
theorem Introduces.reads {step : Step} {ps : List Formula} {f : Formula} (h : Introduces step ps f)
    (hI : I.Symmetric) {v : Char → D} (hf : f.Sentence) (hs : ∀ p ∈ ps, p.Sentence)
    (ht : ∀ p ∈ ps, I.Reads ∅ v p) : I.Reads ∅ v f := by
  cases h with
  | conjunction hp hq =>
    obtain ⟨hp', hq'⟩ := forall_mem_pair.1 ht
    obtain ⟨hsp, hsq⟩ := forall_mem_pair.1 hs
    exact ⟨(hp.reads hI hf.1 hsp v).2 hp', (hq.reads hI hf.2 hsq v).2 hq'⟩
  | leftDisjunct h =>
    have hsp := List.forall_mem_singleton.1 hs
    exact Or.inl ((h.reads hI hf.1 hsp v).2 (List.forall_mem_singleton.1 ht))
  | rightDisjunct h =>
    have hsq := List.forall_mem_singleton.1 hs
    exact Or.inr ((h.reads hI hf.2 hsq v).2 (List.forall_mem_singleton.1 ht))
  | biconditional hpq hqp =>
    obtain ⟨hf', hg'⟩ := forall_mem_pair.1 ht
    obtain ⟨hsf, hsg⟩ := forall_mem_pair.1 hs
    exact ⟨(hpq.reads hI hf hsf v).2 hf', (hqp.reads hI ⟨hf.2, hf.1⟩ hsg v).2 hg'⟩
  | @existential x c p f hc h =>
    have hsf := List.forall_mem_singleton.1 hs
    have hinstance := (h.reads hI (hf.instantiate hc) hsf v).2 (List.forall_mem_singleton.1 ht)
    rw [I.reads_substitute (hf.2.const_not_mem_terms hf.1)] at hinstance
    exact (I.reads_quantified v _ p (Finset.notMem_empty x)).2 ⟨_, hinstance⟩
  | falsum f => exact (List.forall_mem_singleton.1 ht).elim

end Truth

/-! ## Sentences and constants -/

section Heredity

variable {P : Formula → Prop}

theorem Formula.DeMorgan.hereditary {f g : Formula} (h : f.DeMorgan g) (hP : Hereditary P)
    (hf : P f) : P g := by
  cases h <;> simp only [hP.not, hP.binary] at hf ⊢ <;> tauto

theorem Formula.Conditional.hereditary {f g : Formula} (h : f.Conditional g) (hP : Hereditary P)
    (hf : P f) : P g := by
  cases h <;> simp only [hP.not, hP.binary] at hf ⊢ <;> exact hf

/-- The rules hand on what the connectives do, if it is true of falsum and passes from a vacuous
quantifier to its body. -/
theorem Infers.hereditary {step : Step} {ps : List Formula} {f : Formula} (h : Infers step ps f)
    (hP : Hereditary P) (hfalsum : P .falsum)
    (hbody : ∀ {k x p}, ¬p.mentions x → P (.quantified k x p) → P p) (hps : ∀ p ∈ ps, P p) :
    P f := by
  cases h with
  | deMorgan h => exact h.hereditary hP (List.forall_mem_singleton.1 hps)
  | materialImplication h => exact h.hereditary hP (List.forall_mem_singleton.1 hps)
  | vacuousExistential h => exact hbody h (List.forall_mem_singleton.1 hps)
  | vacuousUniversal h => exact hbody h (List.forall_mem_singleton.1 hps)
  | contradicted h => exact hfalsum
  | contradicting h => exact hfalsum
  | _ =>
    simp only [List.forall_mem_cons, hP.not, hP.binary] at hps ⊢
    tauto

/-- What is inferred has no constants of its own. -/
theorem Infers.constants {step : Step} {ps : List Formula} {f : Formula} (h : Infers step ps f)
    {c : Char} (hc : c ∈ f.constants) : ∃ p ∈ ps, c ∈ p.constants := by
  have hterms : f.terms ⊆ ps.flatMap Formula.terms :=
    h.hereditary (hereditary_terms _) (List.nil_subset _) (fun _ hp => hp) fun p hp t ht =>
      List.mem_flatMap.2 ⟨p, hp, ht⟩
  obtain ⟨p, hp, hcp⟩ := List.mem_flatMap.1 (hterms (mem_constants_iff.1 hc))
  exact ⟨p, hp, mem_constants_iff.2 hcp⟩

end Heredity

end Sequitur
