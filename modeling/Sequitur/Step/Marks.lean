import Sequitur.Step.Basic

/-!
# Marks

The set of rules that have been tried on a derivation.
-/

namespace Sequitur

/-- A set of steps. -/
structure Marks where
  steps : List Step
  nodup : steps.Nodup
  deriving DecidableEq

namespace Marks

/-- No marks. -/
def none : Marks := ⟨[], List.nodup_nil⟩

instance : Inhabited Marks := ⟨none⟩

def has (m : Marks) (s : Step) : Bool := s ∈ m.steps

/-- The set with `s` marked. -/
def mark (m : Marks) (s : Step) : Marks :=
  if h : s ∈ m.steps then m else ⟨s :: m.steps, List.nodup_cons.2 ⟨h, m.nodup⟩⟩

/-- How many steps are marked. -/
def count (m : Marks) : Nat := m.steps.length

/-- The marked steps, in the order of `Step.all`. -/
def listed (m : Marks) : List Step := Step.all.filter m.has

@[simp] theorem has_none (s : Step) : none.has s = false := by simp [has, none]

@[simp] theorem has_mark {m : Marks} {s t : Step} : (m.mark s).has t ↔ t = s ∨ m.has t := by
  unfold has mark
  split
  · simp only [decide_eq_true_eq, iff_or_self]; rintro rfl; assumption
  · simp

end Marks

end Sequitur
