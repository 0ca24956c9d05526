import Sequitur.Proofs.Semantics.Reading

/-!
# What the rules say

A formula is true exactly if what its rule gives is (`reads_iff_truth`), and what the rule gives for a
sentence are sentences again, with no constants but those of the formula and of the instances.
-/

namespace Sequitur

universe u

namespace Decomposition

/-- The formulas that the rule gives as they are. -/
def parts : Decomposition → List Formula
  | .stack fs => fs
  | .split left lefts right rights => left :: lefts ++ right :: rights
  | .nothing | .witness _ _ | .instances _ _ | .replace _ _ | .unexpected => []

/-- Whether the rule is one for connectives: it brings no terms into play. -/
def IsPropositional : Decomposition → Prop
  | .nothing | .stack _ | .split _ _ _ _ => True
  | .witness _ _ | .instances _ _ | .replace _ _ | .unexpected => False

/-- Whether the rule says the same as the formula. -/
def IsFaithful : Decomposition → Prop
  | .stack _ | .split _ _ _ _ | .witness _ _ | .instances _ _ => True
  | .nothing | .replace _ _ | .unexpected => False

/-- What the rule says. -/
def Truth {D : Type u} (I : Interpretation D) (v : Char → D) : Decomposition → Prop
  | .stack fs => ∀ f ∈ fs, I.Reads ∅ v f
  | .split left lefts right rights =>
    (∀ f ∈ left :: lefts, I.Reads ∅ v f) ∨ ∀ f ∈ right :: rights, I.Reads ∅ v f
  | .witness x p => ∃ d, I.Reads (insert x ∅) (Function.update v x d) p
  | .instances x p => ∀ d, I.Reads (insert x ∅) (Function.update v x d) p
  | .nothing | .replace _ _ | .unexpected => True

theorem truth_of_not_isFaithful {D : Type u} (I : Interpretation D) (v : Char → D)
    {d : Decomposition} (h : ¬d.IsFaithful) : d.Truth I v := by
  cases d with
  | nothing => exact trivial
  | replace a b => exact trivial
  | unexpected => exact trivial
  | _ => exact absurd trivial h

end Decomposition

namespace Formula

/-! ## The rules for negations -/

@[simp] theorem decomposeNegation_and (p q : Formula) :
    (Formula.and p q).decomposeNegation = .stack [.or (.not p) (.not q)] := rfl

@[simp] theorem decomposeNegation_or (p q : Formula) :
    (Formula.or p q).decomposeNegation = .stack [.and (.not p) (.not q)] := rfl

@[simp] theorem decomposeNegation_implies (p q : Formula) :
    (Formula.implies p q).decomposeNegation = .stack [p, .not q] := rfl

@[simp] theorem decomposeNegation_iff (p q : Formula) :
    (Formula.iff p q).decomposeNegation = .split p [.not q] (.not p) [q] := rfl

@[simp] theorem decomposeNegation_xor (p q : Formula) :
    (Formula.xor p q).decomposeNegation = .split p [q] (.not p) [.not q] := rfl

@[simp] theorem decomposeNegation_not (p : Formula) :
    (Formula.not p).decomposeNegation = .stack [p] := rfl

@[simp] theorem decomposeNegation_root (p : Formula) :
    (root p).decomposeNegation = .stack [p.flip] := rfl

@[simp] theorem decomposeNegation_quantified (k : Quantifier) (x : Char) (p : Formula) :
    (quantified k x p).decomposeNegation = .stack [(quantified k x p).flip] := rfl

/-! ## Truth -/

section Truth

variable {D : Type u} (I : Interpretation D) (v : Char → D)

theorem truth_decomposeNegation {p : Formula} (hp : p.decomposeNegation.IsFaithful) :
    I.Reads ∅ v (.not p) ↔ p.decomposeNegation.Truth I v := by
  have hflip : I.Reads ∅ v (.not p) ↔ (Decomposition.stack [p.flip]).Truth I v := by
    rw [Decomposition.Truth, List.forall_mem_singleton, I.reads_flip, I.reads_not]
  cases p with
  | atom s => exact hp.elim
  | predicate s ps => exact hp.elim
  | identity p q => exact hp.elim
  | falsum => exact hp.elim
  | binary op p q =>
    cases op with
    | and => exact hflip
    | or => exact hflip
    | implies =>
      simp only [decomposeNegation_implies, Decomposition.Truth, List.forall_mem_cons, I.reads_not,
        I.reads_implies, List.not_mem_nil,
        false_implies, implies_true, and_true]
      tauto
    | iff =>
      simp only [decomposeNegation_iff, Decomposition.Truth, List.forall_mem_cons, I.reads_not,
        I.reads_iff, List.not_mem_nil,
        false_implies, implies_true, and_true]
      tauto
    | xor =>
      simp only [decomposeNegation_xor, Decomposition.Truth, List.forall_mem_cons, I.reads_not,
        I.reads_xor, List.not_mem_nil,
        false_implies, implies_true, and_true]
      tauto
  | _ => exact hflip

theorem decompose_of_mentions {k : Quantifier} {x : Char} {p : Formula} (h : p.mentions x) :
    (quantified k x p).decompose = match k with
      | .universal => .instances x p
      | .existential => .witness x p := by
  have hv : (quantified k x p).isVacuous = false := by rw [isVacuous, h]; rfl
  cases k <;> rw [decompose, hv] <;> rfl

theorem decompose_of_not_mentions {k : Quantifier} {x : Char} {p : Formula} (h : ¬p.mentions x) :
    (quantified k x p).decompose = .stack [p] := by
  have hv : (quantified k x p).isVacuous = true := by rw [isVacuous, Bool.eq_false_iff.2 h]; rfl
  cases k <;> rw [decompose, hv] <;> rfl

theorem truth_decompose_quantified {k : Quantifier} {x : Char} {p : Formula}
    (h : (quantified k x p).Sentence) :
    I.Reads ∅ v (.quantified k x p) ↔ (quantified k x p).decompose.Truth I v := by
  by_cases hx : p.mentions x
  · rw [I.reads_quantified v k p (Finset.notMem_empty x), decompose_of_mentions hx]
    cases k <;> rfl
  · rw [decompose_of_not_mentions hx, Decomposition.Truth, List.forall_mem_singleton,
      I.reads_vacuous h.2 hx]

/-- A formula says what its rule gives. -/
theorem reads_iff_truth {f : Formula} (h : f.Sentence) (hf : f.decompose.IsFaithful) :
    I.Reads ∅ v f ↔ f.decompose.Truth I v := by
  cases f with
  | not p => exact truth_decomposeNegation I v hf
  | quantified k x p => exact truth_decompose_quantified I v h
  | binary op p q =>
    cases op <;> simp only [decompose, Decomposition.Truth, List.forall_mem_cons, I.reads_not,
      I.reads_and, I.reads_or, I.reads_implies, I.reads_iff, I.reads_xor, List.not_mem_nil,
      false_implies, implies_true, and_true] <;>
      tauto
  | root p => simp [decompose, Decomposition.Truth]
  | identity p q =>
    rw [decompose] at hf
    split at hf
    · split at hf <;> exact hf.elim
    · exact hf.elim
  | _ => exact hf.elim

/-- What is true makes what its rule gives true. -/
theorem truth_of_reads {f : Formula} (h : f.Sentence) (hf : I.Reads ∅ v f) :
    f.decompose.Truth I v := by
  by_cases hd : f.decompose.IsFaithful
  · exact (reads_iff_truth I v h hd).1 hf
  · exact Decomposition.truth_of_not_isFaithful I v hd

end Truth

/-! ## Which formulas have which rule -/

theorem isPropositional_decomposeNegation (p : Formula) : p.decomposeNegation.IsPropositional := by
  cases p with
  | binary op p q => cases op <;> exact trivial
  | _ => exact trivial

/-- Only quantifiers, identities and terms have rules of their own. -/
theorem isPropositional_decompose {f : Formula} (hq : ∀ k x p, f ≠ .quantified k x p)
    (hi : ∀ p q, f ≠ .identity p q) (ht : ∀ k s, f ≠ .term k s) : f.decompose.IsPropositional := by
  cases f with
  | not p => exact isPropositional_decomposeNegation p
  | binary op p q => cases op <;> exact trivial
  | quantified k x p => exact absurd rfl (hq k x p)
  | identity p q => exact absurd rfl (hi p q)
  | term k s => exact absurd rfl (ht k s)
  | _ => exact trivial

theorem decompose_identity (p q : Formula) :
    (identity p q).decompose = .nothing ∨ (identity p q).decompose = .unexpected ∨
      ∃ a b, p.symbol = some a ∧ q.symbol = some b ∧ (identity p q).decompose = .replace a b := by
  rw [decompose]
  split
  · next a b ha hb =>
    split
    · exact .inl rfl
    · exact .inr (.inr ⟨a, b, ha, hb, rfl⟩)
  · exact .inr (.inl rfl)

theorem eq_of_decompose {f : Formula} (hd : ¬f.decompose.IsPropositional)
    (hu : f.decompose ≠ .unexpected) :
    (∃ k x p, f = .quantified k x p ∧ p.mentions x) ∨
      ∃ p q a b, f = .identity p q ∧ p.symbol = some a ∧ q.symbol = some b ∧
        f.decompose = .replace a b := by
  cases f with
  | quantified k x p =>
    refine .inl ⟨k, x, p, rfl, ?_⟩
    by_contra hx
    rw [decompose_of_not_mentions hx] at hd
    exact hd trivial
  | identity p q =>
    rcases decompose_identity p q with h | h | ⟨a, b, ha, hb, h⟩
    · exact absurd (h ▸ trivial) hd
    · exact absurd h hu
    · exact .inr ⟨p, q, a, b, rfl, ha, hb, h⟩
  | term k s => exact absurd rfl hu
  | _ =>
    refine absurd (isPropositional_decompose ?_ ?_ ?_) hd <;> simp

theorem eq_of_decompose_witness {f p : Formula} {x : Char} (h : f.decompose = .witness x p) :
    f = .ex x p ∧ p.mentions x := by
  have hd : ¬f.decompose.IsPropositional := h ▸ id
  have hu : f.decompose ≠ .unexpected := h ▸ Decomposition.noConfusion
  rcases eq_of_decompose hd hu with ⟨k, y, q, rfl, hy⟩ | ⟨_, _, _, _, -, -, -, hr⟩
  · rw [decompose_of_mentions hy] at h
    cases k with
    | universal => cases h
    | existential => cases h; exact ⟨rfl, hy⟩
  · rw [h] at hr
    cases hr

theorem eq_of_decompose_instances {f p : Formula} {x : Char} (h : f.decompose = .instances x p) :
    f = .all x p ∧ p.mentions x := by
  have hd : ¬f.decompose.IsPropositional := h ▸ id
  have hu : f.decompose ≠ .unexpected := h ▸ Decomposition.noConfusion
  rcases eq_of_decompose hd hu with ⟨k, y, q, rfl, hy⟩ | ⟨_, _, _, _, -, -, -, hr⟩
  · rw [decompose_of_mentions hy] at h
    cases k with
    | universal => cases h; exact ⟨rfl, hy⟩
    | existential => cases h
  · rw [h] at hr
    cases hr

theorem eq_of_decompose_replace {f : Formula} {a b : Char} (h : f.decompose = .replace a b) :
    ∃ p q, f = .identity p q ∧ p.symbol = some a ∧ q.symbol = some b := by
  have hd : ¬f.decompose.IsPropositional := h ▸ id
  have hu : f.decompose ≠ .unexpected := h ▸ Decomposition.noConfusion
  rcases eq_of_decompose hd hu with ⟨k, y, q, rfl, hy⟩ | ⟨p, q, a', b', rfl, ha, hb, hr⟩
  · rw [decompose_of_mentions hy] at h
    cases k <;> cases h
  · rw [h] at hr
    cases hr
    exact ⟨p, q, rfl, ha, hb⟩

/-! ## Sentences and terms -/

/-- A property of formulas that the rules for the connectives hand down. -/
structure Hereditary (P : Formula → Prop) : Prop where
  not : ∀ {p}, P (.not p) ↔ P p
  root : ∀ {p}, P (.root p) → P p
  binary : ∀ {op p q}, P (.binary op p q) ↔ P p ∧ P q
  quantified : ∀ {k l x p}, P (.quantified k x p) → P (.quantified l x (.not p))

theorem Hereditary.flip {P : Formula → Prop} (hP : Hereditary P) {f : Formula} (h : P f) :
    P f.flip := by
  induction f with
  | root p ih => exact ih (hP.root h)
  | not p _ => exact hP.not.1 h
  | binary op p q _ _ =>
    obtain ⟨hp, hq⟩ := hP.binary.1 h
    have hp' : P (.not p) := hP.not.2 hp
    have hq' : P (.not q) := hP.not.2 hq
    cases op with
    | and => exact hP.binary.2 ⟨hp', hq'⟩
    | or => exact hP.binary.2 ⟨hp', hq'⟩
    | implies => exact hP.binary.2 ⟨hp, hq'⟩
    | iff => exact hP.binary.2 ⟨hP.binary.2 ⟨hp, hq'⟩, hP.binary.2 ⟨hp', hq⟩⟩
    | xor => exact hP.binary.2 ⟨hp, hq⟩
  | quantified k x p _ => cases k <;> exact hP.quantified h
  | _ => exact hP.not.2 h

/-- What holds of a connective holds of its sides, affirmed or denied. -/
theorem Hereditary.sides {P : Formula → Prop} (hP : Hereditary P) {op : Connective} {p q : Formula}
    (h : P (.binary op p q)) : ∀ g ∈ [p, .not p, q, .not q], P g := by
  obtain ⟨hp, hq⟩ := hP.binary.1 h
  simp only [List.forall_mem_cons]
  exact ⟨hp, hP.not.2 hp, hq, hP.not.2 hq, fun _ h => absurd h List.not_mem_nil⟩

theorem Hereditary.negationParts {P : Formula → Prop} (hP : Hereditary P) {p g : Formula} (h : P p)
    (hg : g ∈ p.decomposeNegation.parts) : P g := by
  have hflip : g ∈ [p.flip] → P g := fun h' => List.mem_singleton.1 h' ▸ hP.flip h
  cases p with
  | atom s => exact absurd hg List.not_mem_nil
  | predicate s ps => exact absurd hg List.not_mem_nil
  | identity p q => exact absurd hg List.not_mem_nil
  | falsum => exact absurd hg List.not_mem_nil
  | binary op p q =>
    cases op with
    | and => exact hflip hg
    | or => exact hflip hg
    | _ =>
      refine hP.sides h g ?_
      simp only [decomposeNegation_implies, decomposeNegation_iff, decomposeNegation_xor,
        Decomposition.parts, List.mem_cons, List.mem_append] at hg ⊢
      tauto
  | _ => exact hflip hg

/-- What holds of a formula, and of the body of a vacuous quantifier, holds of what its rule gives. -/
theorem Hereditary.parts {P : Formula → Prop} (hP : Hereditary P) {f g : Formula} (h : P f)
    (hbody : ∀ k x p, f = .quantified k x p → ¬p.mentions x → P p) (hg : g ∈ f.decompose.parts) :
    P g := by
  cases f with
  | not p => exact hP.negationParts (hP.not.1 h) hg
  | root p => exact List.mem_singleton.1 hg ▸ hP.root h
  | binary op p q =>
    refine hP.sides h g ?_
    cases op <;> simp only [decompose, Decomposition.parts, List.mem_cons, List.mem_append] at hg ⊢ <;>
      tauto
  | quantified k x p =>
    by_cases hx : p.mentions x
    · rw [decompose_of_mentions hx] at hg
      cases k <;> exact absurd hg List.not_mem_nil
    · rw [decompose_of_not_mentions hx] at hg
      exact List.mem_singleton.1 hg ▸ hbody k x p rfl hx
  | identity p q =>
    rw [decompose] at hg
    split at hg
    · split at hg <;> exact absurd hg List.not_mem_nil
    · exact absurd hg List.not_mem_nil
  | _ => exact absurd hg List.not_mem_nil

theorem hereditary_sentence : Hereditary Sentence where
  not := Iff.rfl
  root h := h
  binary := Iff.rfl
  quantified h := h

theorem hereditary_unrepeated : Hereditary (Unrepeated ∅) where
  not := Iff.rfl
  root h := h
  binary := Iff.rfl
  quantified h := h

theorem hereditary_terms (ts : List (TermKind × Char)) : Hereditary fun f => f.terms ⊆ ts where
  not := Iff.rfl
  root h := h
  binary := by
    intro op p q
    rw [terms_binary, List.append_subset]
  quantified h := h

/-- What the rule for a sentence gives are sentences. -/
theorem Sentence.parts {f g : Formula} (h : f.Sentence) (hg : g ∈ f.decompose.parts) : g.Sentence :=
  hereditary_sentence.parts h (fun _ _ _ hf hx => Sentence.body (hf ▸ h) hx) hg

theorem terms_parts {f g : Formula} (hg : g ∈ f.decompose.parts) : g.terms ⊆ f.terms :=
  (hereditary_terms f.terms).parts (List.Subset.refl _)
    (fun _ _ _ hf _ => hf ▸ List.Subset.refl _) hg

theorem constants_parts {f g : Formula} (hg : g ∈ f.decompose.parts) {c : Char}
    (hc : c ∈ g.constants) : c ∈ f.constants :=
  mem_constants_iff.2 (terms_parts hg (mem_constants_iff.1 hc))

end Formula

end Sequitur
