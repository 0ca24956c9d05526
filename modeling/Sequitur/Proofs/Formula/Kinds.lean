import Sequitur.Formula.Kind
import Sequitur.Proofs.Formula.Terms

/-!
# Kinds that are nowhere in a formula

A formula lacks a kind if none of its parts, itself included, is of that kind. Replacing a term by a
constant brings in no other kind.
-/

namespace Sequitur.Formula

/-- Whether no formula of the kind is in the formula. -/
def Lacks (k : Kind) (f : Formula) : Prop := ∀ g ∈ f.subformulas, g.kind ≠ k

instance (k : Kind) (f : Formula) : Decidable (f.Lacks k) :=
  inferInstanceAs (Decidable (∀ g ∈ f.subformulas, g.kind ≠ k))

theorem lacks_iff {k : Kind} {f : Formula} :
    f.Lacks k ↔ f.kind ≠ k ∧ ∀ g ∈ f.children, g.Lacks k := by
  rw [Lacks, subformulas_eq, List.forall_mem_cons]
  refine and_congr_right fun _ => ?_
  simp only [List.mem_flatMap, Lacks]
  exact ⟨fun h g hg e he => h e ⟨g, hg, he⟩, fun h e ⟨g, hg, he⟩ => h g hg e he⟩

theorem Lacks.kind_ne {k : Kind} {f : Formula} (h : f.Lacks k) : f.kind ≠ k := (lacks_iff.1 h).1

theorem Lacks.of_mem_children {k : Kind} {f g : Formula} (h : f.Lacks k) (hg : g ∈ f.children) :
    g.Lacks k := (lacks_iff.1 h).2 g hg

theorem Lacks.unrooted_eq {f : Formula} (h : f.Lacks .root) : f.unrooted = f := by
  cases f with
  | root g => exact absurd rfl h.kind_ne
  | _ => rfl

theorem kind_eq_identity_iff {f : Formula} : f.kind = .identity ↔ ∃ t u, f = .identity t u := by
  constructor
  · intro h
    cases f with
    | identity t u => exact ⟨t, u, rfl⟩
    | term k s => cases k <;> cases h
    | binary op p q => cases op <;> cases h
    | quantified k x p => cases k <;> cases h
    | _ => cases h
  · rintro ⟨t, u, rfl⟩
    rfl

theorem children_substitute (a b : Char) (k : TermKind) (f : Formula) :
    (f.substitute a b k).children = f.children.map (substitute a b k) := by
  cases f with
  | term l s =>
    rw [substitute]
    split <;> rfl
  | predicate s ps => rw [substitute_predicate, children, children]
  | _ => rfl

theorem kind_substitute (a b : Char) (f : Formula) :
    (f.substitute a b .const).kind = f.kind ∨ (f.substitute a b .const).kind = .const := by
  cases f with
  | term l s =>
    rw [substitute]
    split
    · exact .inr rfl
    · exact .inl rfl
  | _ => exact .inl rfl

theorem Lacks.substitute {k : Kind} (hk : .const ≠ k) {f : Formula} (h : f.Lacks k) (a b : Char) :
    (f.substitute a b .const).Lacks k := by
  rw [lacks_iff, children_substitute, List.forall_mem_map]
  refine ⟨?_, fun g hg => (h.of_mem_children hg).substitute hk a b⟩
  rcases kind_substitute a b f with he | he
  · exact he ▸ h.kind_ne
  · exact he ▸ hk
termination_by f
decreasing_by exact sizeOf_lt_of_mem_children hg

end Sequitur.Formula
