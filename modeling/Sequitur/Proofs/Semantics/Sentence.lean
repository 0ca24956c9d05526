import Mathlib.Data.Finset.Basic
import Sequitur.Constant
import Sequitur.Formula.Build
import Sequitur.Proofs.Formula.Terms
import Sequitur.Tableau.Decomposition

/-!
# Sentences

Letters are `A` to `Z`, constants `a` to `t` and variables `u` to `z`. A formula is well formed in a
scope if its terms stand where terms belong and each of its variables is bound, by the scope or by a
quantifier of the formula; a sentence is well formed in no scope at all. In a standard sentence no
quantifier stands within another that binds the same variable.
-/

namespace Sequitur

def isLetter (c : Char) : Bool := 'A' ≤ c ∧ c ≤ 'Z'

def isVariableSymbol (c : Char) : Bool := 'u' ≤ c ∧ c ≤ 'z'

theorem isVariableSymbol_of_isConstantSymbol {c : Char} (h : isConstantSymbol c) :
    isVariableSymbol c = false := by
  simp only [isConstantSymbol, isVariableSymbol, decide_eq_true_eq, decide_eq_false_iff_not] at *
  exact fun h' => absurd (Char.le_trans h'.1 h.2) (by decide)

theorem isConstantSymbol_of_mem {c : Char} (h : c ∈ constantSymbols) : isConstantSymbol c := by
  have hall : constantSymbols.all isConstantSymbol := by decide
  exact List.all_eq_true.1 hall c h

theorem isConstantSymbol_firstConstant : isConstantSymbol firstConstant := by decide

namespace Formula

/-! ## Well-formed formulas -/

/-- Whether the formula is a term: a constant, or a variable of the scope. -/
def IsTermIn (scope : Finset Char) : Formula → Prop
  | .term .const c => isConstantSymbol c
  | .term .var x => isVariableSymbol x ∧ x ∈ scope
  | _ => False

def WellFormed (scope : Finset Char) : Formula → Prop
  | .atom s => isLetter s
  | .predicate s ps => isLetter s ∧ ∀ p ∈ ps, p.IsTermIn scope
  | .term _ _ => False
  | .not p => p.WellFormed scope
  | .binary _ p q => p.WellFormed scope ∧ q.WellFormed scope
  | .identity p q => p.IsTermIn scope ∧ q.IsTermIn scope
  | .quantified _ x p => isVariableSymbol x ∧ p.WellFormed (insert x scope)
  | .falsum => True
  | .root p => p.WellFormed scope

/-- Whether no quantifier binds a variable that the scope, or a quantifier around it, binds. -/
def Unrepeated (scope : Finset Char) : Formula → Prop
  | .atom _ | .predicate _ _ | .term _ _ | .identity _ _ | .falsum => True
  | .not p | .root p => p.Unrepeated scope
  | .binary _ p q => p.Unrepeated scope ∧ q.Unrepeated scope
  | .quantified _ x p => x ∉ scope ∧ p.Unrepeated (insert x scope)

/-- A well-formed formula without free variables. -/
def Sentence (f : Formula) : Prop := f.WellFormed ∅

/-- A sentence in which no quantifier binds again what a quantifier around it binds. -/
def Standard (f : Formula) : Prop := f.Sentence ∧ f.Unrepeated ∅

instance decidableIsTermIn (scope : Finset Char) (f : Formula) : Decidable (f.IsTermIn scope) :=
  match f with
  | .term .const c => inferInstanceAs (Decidable (isConstantSymbol c = true))
  | .term .var x => inferInstanceAs (Decidable (isVariableSymbol x = true ∧ x ∈ scope))
  | .atom _ | .predicate _ _ | .not _ | .binary _ _ _ | .identity _ _ | .quantified _ _ _ | .falsum
  | .root _ => inferInstanceAs (Decidable False)

instance decidableWellFormed (scope : Finset Char) : (f : Formula) → Decidable (f.WellFormed scope)
  | .atom s => inferInstanceAs (Decidable (isLetter s = true))
  | .predicate s ps => inferInstanceAs (Decidable (isLetter s = true ∧ ∀ p ∈ ps, p.IsTermIn scope))
  | .term _ _ => inferInstanceAs (Decidable False)
  | .not p | .root p => decidableWellFormed scope p
  | .binary _ p q =>
    have := decidableWellFormed scope p
    have := decidableWellFormed scope q
    inferInstanceAs (Decidable (p.WellFormed scope ∧ q.WellFormed scope))
  | .identity p q => inferInstanceAs (Decidable (p.IsTermIn scope ∧ q.IsTermIn scope))
  | .quantified _ x p =>
    have := decidableWellFormed (insert x scope) p
    inferInstanceAs (Decidable (isVariableSymbol x = true ∧ p.WellFormed (insert x scope)))
  | .falsum => inferInstanceAs (Decidable True)

instance decidableUnrepeated (scope : Finset Char) : (f : Formula) → Decidable (f.Unrepeated scope)
  | .atom _ | .predicate _ _ | .term _ _ | .identity _ _ | .falsum =>
    inferInstanceAs (Decidable True)
  | .not p | .root p => decidableUnrepeated scope p
  | .binary _ p q =>
    have := decidableUnrepeated scope p
    have := decidableUnrepeated scope q
    inferInstanceAs (Decidable (p.Unrepeated scope ∧ q.Unrepeated scope))
  | .quantified _ x p =>
    have := decidableUnrepeated (insert x scope) p
    inferInstanceAs (Decidable (x ∉ scope ∧ p.Unrepeated (insert x scope)))

instance (f : Formula) : Decidable f.Sentence := inferInstanceAs (Decidable (f.WellFormed ∅))

instance (f : Formula) : Decidable f.Standard :=
  inferInstanceAs (Decidable (f.Sentence ∧ f.Unrepeated ∅))

/-! ## Scopes -/

theorem IsTermIn.mono {scope wider : Finset Char} (hs : scope ⊆ wider) {t : Formula}
    (h : t.IsTermIn scope) : t.IsTermIn wider := by
  cases t with
  | term k s =>
    cases k with
    | var => exact ⟨h.1, hs h.2⟩
    | const => exact h
  | _ => exact h.elim

theorem WellFormed.mono {scope wider : Finset Char} (hs : scope ⊆ wider) {f : Formula}
    (h : f.WellFormed scope) : f.WellFormed wider := by
  induction f generalizing scope wider with
  | atom s => exact h
  | falsum => exact h
  | term k s => exact h
  | predicate s ps _ => exact ⟨h.1, fun p hp => (h.2 p hp).mono hs⟩
  | not p ih => exact ih hs h
  | root p ih => exact ih hs h
  | binary op p q hp hq => exact ⟨hp hs h.1, hq hs h.2⟩
  | identity p q _ _ => exact ⟨h.1.mono hs, h.2.mono hs⟩
  | quantified k x p ih => exact ⟨h.1, ih (Finset.insert_subset_insert x hs) h.2⟩

/-! ## Replacement -/

theorem IsTermIn.substitute {scope : Finset Char} {t : Formula} (h : t.IsTermIn scope) (a : Char)
    {b : Char} (hb : isConstantSymbol b) :
    (t.substitute a b .const).IsTermIn (scope.erase a) := by
  cases t with
  | term k s =>
    by_cases hs : s = a
    · rw [Formula.substitute, if_pos hs]
      exact hb
    · rw [Formula.substitute, if_neg hs]
      cases k with
      | var => exact ⟨h.1, Finset.mem_erase.2 ⟨hs, h.2⟩⟩
      | const => exact h
  | _ => exact h.elim

/-- What a constant replaces no longer needs to be in scope. -/
theorem WellFormed.substitute {scope : Finset Char} {f : Formula} (h : f.WellFormed scope)
    (a : Char) {b : Char} (hb : isConstantSymbol b) :
    (f.substitute a b .const).WellFormed (scope.erase a) := by
  induction f generalizing scope with
  | atom s => exact h
  | falsum => exact h
  | term k s => exact h.elim
  | predicate s ps _ =>
    rw [substitute_predicate]
    refine ⟨h.1, fun p hp => ?_⟩
    obtain ⟨q, hq, rfl⟩ := List.mem_map.1 hp
    exact (h.2 q hq).substitute a hb
  | not p ih => exact ih h
  | root p ih => exact ih h
  | binary op p q hp hq => exact ⟨hp h.1, hq h.2⟩
  | identity p q _ _ => exact ⟨h.1.substitute a hb, h.2.substitute a hb⟩
  | quantified k x p ih =>
    refine ⟨h.1, (ih h.2).mono fun y hy => ?_⟩
    rw [Finset.mem_erase, Finset.mem_insert] at hy
    rw [Finset.mem_insert, Finset.mem_erase]
    exact hy.2.imp_right fun hs => ⟨hy.1, hs⟩

/-- The instances of a sentence are sentences. -/
theorem Sentence.instantiate {k : Quantifier} {x c : Char} {p : Formula}
    (h : (quantified k x p).Sentence) (hc : isConstantSymbol c) :
    (p.substitute x c .const).Sentence :=
  (h.2.substitute x hc).mono (Finset.erase_insert_subset x ∅)

/-- The body of a quantifier that binds nothing is a sentence. -/
theorem Sentence.body {k : Quantifier} {x : Char} {p : Formula} (h : (quantified k x p).Sentence)
    (hx : ¬p.mentions x) : p.Sentence := by
  rw [← substitute_of_not_mentions (b := firstConstant) (k := .const) hx]
  exact h.instantiate isConstantSymbol_firstConstant

theorem Sentence.replace {f : Formula} (h : f.Sentence) (a : Char) {b : Char}
    (hb : isConstantSymbol b) : (f.substitute a b .const).Sentence :=
  (WellFormed.substitute h a hb).mono (Finset.erase_subset a ∅)

theorem Sentence.unrooted {f : Formula} (h : f.Sentence) : f.unrooted.Sentence := by
  induction f with
  | root p ih => exact ih h
  | _ => exact h

/-! ## Terms -/

theorem IsTermIn.terms {scope : Finset Char} {t : Formula} (h : t.IsTermIn scope) {k : TermKind}
    {c : Char} (hc : (k, c) ∈ t.terms) :
    (k = .const ∧ isConstantSymbol c) ∨ (k = .var ∧ isVariableSymbol c) := by
  cases t with
  | term l s =>
    obtain ⟨rfl, rfl⟩ : k = l ∧ c = s := by simpa using hc
    cases k with
    | var => exact Or.inr ⟨rfl, h.1⟩
    | const => exact Or.inl ⟨rfl, h⟩
  | _ => exact h.elim

/-- The symbol of a term shows what kind of term it is. -/
theorem WellFormed.terms {scope : Finset Char} {f : Formula} (h : f.WellFormed scope) {k : TermKind}
    {c : Char} (hc : (k, c) ∈ f.terms) :
    (k = .const ∧ isConstantSymbol c) ∨ (k = .var ∧ isVariableSymbol c) := by
  induction f generalizing scope with
  | atom s => simp at hc
  | falsum => simp at hc
  | term l s => exact h.elim
  | predicate s ps _ =>
    rw [terms_predicate] at hc
    obtain ⟨p, hp, hpc⟩ := List.mem_flatMap.1 hc
    exact (h.2 p hp).terms hpc
  | not p ih => exact ih h hc
  | root p ih => exact ih h hc
  | binary op p q hp hq =>
    rw [terms_binary, List.mem_append] at hc
    exact hc.elim (hp h.1) (hq h.2)
  | identity p q _ _ =>
    rw [terms_identity, List.mem_append] at hc
    exact hc.elim h.1.terms h.2.terms
  | quantified l x p ih => exact ih h.2 hc

theorem WellFormed.const_not_mem_terms {scope : Finset Char} {f : Formula} (h : f.WellFormed scope)
    {x : Char} (hx : isVariableSymbol x) : (.const, x) ∉ f.terms := by
  intro hm
  rcases h.terms hm with ⟨-, hc⟩ | ⟨hk, -⟩
  · rw [isVariableSymbol_of_isConstantSymbol hc] at hx
    exact Bool.noConfusion hx
  · exact TermKind.noConfusion hk

theorem WellFormed.var_not_mem_terms {scope : Finset Char} {f : Formula} (h : f.WellFormed scope)
    {a : Char} (ha : isConstantSymbol a) : (.var, a) ∉ f.terms := by
  intro hm
  rcases h.terms hm with ⟨hk, -⟩ | ⟨-, hv⟩
  · exact TermKind.noConfusion hk
  · rw [isVariableSymbol_of_isConstantSymbol ha] at hv
    exact Bool.noConfusion hv

theorem WellFormed.isConstantSymbol {scope : Finset Char} {f : Formula} (h : f.WellFormed scope)
    {c : Char} (hc : c ∈ f.constants) : isConstantSymbol c := by
  rcases h.terms (mem_constants_iff.1 hc) with ⟨-, hs⟩ | ⟨hk, -⟩
  · exact hs
  · exact TermKind.noConfusion hk

/-- The sides of an identity that is a sentence are constants. -/
theorem IsTermIn.exists_const {t : Formula} (h : t.IsTermIn ∅) :
    ∃ c, t = .const c ∧ Sequitur.isConstantSymbol c := by
  cases t with
  | term k s =>
    cases k with
    | var => exact absurd h.2 (Finset.notMem_empty s)
    | const => exact ⟨s, rfl, h⟩
  | _ => exact h.elim

end Formula

end Sequitur
