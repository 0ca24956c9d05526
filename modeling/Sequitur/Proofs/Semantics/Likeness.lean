import Sequitur.Proofs.Canonical.Readability
import Sequitur.Proofs.Semantics.Reading

/-!
# Structural equality respects meaning

Formulas over the usual symbols that are structurally equal have the same terms, and are true in the
same interpretations, as long as these read identity symmetrically.
-/

namespace Sequitur

universe u

namespace Formula

theorem commuted_lettered {f g : Formula} (hf : f.Lettered) (h : f.commuted = some g) :
    g.Lettered := by
  rw [commuted.eq_def] at h
  split at h
  · obtain rfl := Option.some.inj h
    exact ⟨hf.2, hf.1⟩
  · obtain rfl := Option.some.inj h
    exact ⟨hf.2, hf.1⟩
  · simp at h

theorem mem_terms_commuted {f g : Formula} (h : f.commuted = some g) (t : TermKind × Char) :
    t ∈ g.terms ↔ t ∈ f.terms := by
  rw [commuted.eq_def] at h
  split at h
  · obtain rfl := Option.some.inj h
    simp only [terms_identity, List.mem_append, or_comm]
  · obtain rfl := Option.some.inj h
    simp only [terms_not, terms_identity, List.mem_append, or_comm]
  · simp at h

/-- What structural equality comes to: one formula, or one identity with its sides exchanged. -/
theorem plain_of_structurallyEquals {f g : Formula} (hf : f.Lettered) (hg : g.Lettered)
    (h : f.structurallyEquals g) :
    f.plain = g.plain ∨ ∃ f', f.commuted = some f' ∧ f'.plain = g.plain := by
  rw [structurallyEquals, Bool.or_eq_true, beq_iff_eq] at h
  rcases h with h | h
  · exact Or.inl ((canonical_eq_iff hf hg).1 h)
  · obtain ⟨f', hf', hcan⟩ := (Option.any_eq_true _ _).1 h
    rw [beq_iff_eq] at hcan
    exact Or.inr ⟨f', hf', (canonical_eq_iff (commuted_lettered hf hf') hg).1 hcan⟩

theorem mem_terms_of_structurallyEquals {f g : Formula} (hf : f.Lettered) (hg : g.Lettered)
    (h : f.structurallyEquals g) (t : TermKind × Char) : t ∈ f.terms ↔ t ∈ g.terms := by
  rcases plain_of_structurallyEquals hf hg h with he | ⟨f', hf', he⟩
  · rw [← terms_plain f, he, terms_plain]
  · rw [← mem_terms_commuted hf', ← terms_plain f', he, terms_plain]

theorem mem_constants_of_structurallyEquals {f g : Formula} (hf : f.Lettered) (hg : g.Lettered)
    (h : f.structurallyEquals g) (c : Char) : c ∈ f.constants ↔ c ∈ g.constants := by
  rw [mem_constants_iff, mem_constants_iff]
  exact mem_terms_of_structurallyEquals hf hg h _

end Formula

namespace Interpretation

variable {D : Type u}

/-- Whether identity is read symmetrically. -/
def Symmetric (I : Interpretation D) : Prop := ∀ a b, I.same a b → I.same b a

variable {I : Interpretation D}

theorem reads_plain (bound : Finset Char) (v : Char → D) (f : Formula) :
    I.Reads bound v f.plain ↔ I.Reads bound v f := by
  induction f generalizing bound v with
  | predicate s ps _ => cases ps <;> rfl
  | not p ih => exact not_congr (ih bound v)
  | binary op p q hp hq => rw [Formula.plain, Reads, Reads, hp, hq]
  | quantified k x p ih =>
    rw [Formula.plain, Reads, Reads]
    simp only [ih]
  | root p ih => exact ih bound v
  | _ => rfl

theorem reads_commuted (hI : I.Symmetric) {f g : Formula} (h : f.commuted = some g)
    (bound : Finset Char) (v : Char → D) : I.Reads bound v g ↔ I.Reads bound v f := by
  rw [Formula.commuted.eq_def] at h
  split at h
  · obtain rfl := Option.some.inj h
    exact ⟨hI _ _, hI _ _⟩
  · obtain rfl := Option.some.inj h
    exact not_congr ⟨hI _ _, hI _ _⟩
  · simp at h

/-- Structurally equal formulas are true together. -/
theorem reads_of_structurallyEquals (hI : I.Symmetric) {f g : Formula} (hf : f.Lettered)
    (hg : g.Lettered) (h : f.structurallyEquals g) (bound : Finset Char) (v : Char → D) :
    I.Reads bound v f ↔ I.Reads bound v g := by
  rcases Formula.plain_of_structurallyEquals hf hg h with he | ⟨f', hf', he⟩
  · rw [← reads_plain bound v f, he, reads_plain]
  · rw [← reads_commuted hI hf', ← reads_plain bound v f', he, reads_plain]

end Interpretation

theorem Structure.symmetric_reading {D : Type u} (S : Structure D) : S.reading.Symmetric :=
  fun _ _ h => Eq.symm h

end Sequitur
