import Sequitur.Canonical.Spelling
import Sequitur.Formula.Text

/-!
# Structural equality

Formulas are compared by the canonical forms of their texts, and an identity, or the negation of
one, also with its sides exchanged. `Keyed` is a formula with its canonical forms worked out once,
so that comparing it costs no more than comparing two texts.
-/

namespace Sequitur

namespace Formula

def canonical (f : Formula) : Canonical := canonicalForm f.chars

/-- An identity, or the negation of one, with its sides exchanged. -/
def commuted : Formula → Option Formula
  | .identity p q => some (.identity q p)
  | .not (.identity p q) => some (.not (.identity q p))
  | _ => none

/-- The canonical form, and that of the formula with its sides exchanged. -/
def canonicalForms (f : Formula) : List Canonical :=
  f.canonical :: (f.commuted.map canonical).toList

/-- Structural equality: `f` reads as `g` does, perhaps with the sides of `f` exchanged. -/
def structurallyEquals (f g : Formula) : Bool :=
  f.canonical == g.canonical || f.commuted.any (·.canonical == g.canonical)

theorem structurallyEquals_iff {f g : Formula} :
    f.structurallyEquals g ↔ g.canonical ∈ f.canonicalForms := by
  unfold structurallyEquals canonicalForms
  cases f.commuted <;> simp <;> grind

theorem structurallyEquals_refl (f : Formula) : f.structurallyEquals f := by
  simp [structurallyEquals]

/-- Whether both sides are structurally equal, as in `A ∧ A` or `A → A`. -/
def isRedundant (f : Formula) : Bool :=
  match f.operands with
  | some (p, q) => p.structurallyEquals q
  | none => false

end Formula

/-- A formula with its canonical forms. -/
structure Keyed where
  formula : Formula
  form : Canonical
  commutedForm : Option Canonical
  form_eq : form = formula.canonical
  commutedForm_eq : commutedForm = formula.commuted.map Formula.canonical

namespace Keyed

def of (f : Formula) : Keyed := ⟨f, f.canonical, f.commuted.map Formula.canonical, rfl, rfl⟩

instance : Inhabited Keyed := ⟨of .falsum⟩

@[simp] theorem formula_of (f : Formula) : (of f).formula = f := rfl

/-- Whether a formula of the canonical form `g` is structurally equal to this one. -/
def reads (k : Keyed) (g : Canonical) : Bool := k.form == g || k.commutedForm == some g

theorem reads_canonical (k : Keyed) (g : Formula) :
    k.reads g.canonical = k.formula.structurallyEquals g := by
  rw [reads, k.form_eq, k.commutedForm_eq, Formula.structurallyEquals]
  cases k.formula.commuted <;> simp

end Keyed

end Sequitur
