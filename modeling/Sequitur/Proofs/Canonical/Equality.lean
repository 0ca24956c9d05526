import Sequitur.Proofs.Formula.Kinds
import Sequitur.Proofs.Semantics.Likeness

/-!
# What structural equality is

Over the usual symbols, and without wrappers, two formulas are structurally equal if they are one
tree, up to how an atom is written, or if they are one identity, or one denied identity, with its
sides exchanged (`structurallyEquals_iff_plain`). Nothing else is identified, and the relation is an
equivalence: an identity is only ever compared as a whole, so exchanging twice leads back.

A wrapper breaks this. An identity that is wrapped, or whose denial has a wrapper, has the canonical
form of the bare one but is no longer commuted, so it is equal to that one and not to its exchange;
the exchange is equal to it all the same (`wrapped_of_structurallyEquals`).
-/

namespace Sequitur.Formula

/-! ## Exchanged sides -/

/-- Whether both formulas are identities, or both denied identities, and the second has the sides of
the first exchanged. -/
def Exchanges (f g : Formula) : Prop :=
  ∃ s t, f = .identity s t ∧ g = .identity t s ∨
    f = .not (.identity s t) ∧ g = .not (.identity t s)

theorem exchanges_iff {f g : Formula} : f.Exchanges g ↔ f.commuted = some g := by
  constructor
  · rintro ⟨s, t, ⟨rfl, rfl⟩ | ⟨rfl, rfl⟩⟩ <;> rfl
  · intro h
    rw [commuted.eq_def] at h
    split at h
    · exact ⟨_, _, Or.inl ⟨rfl, (Option.some.inj h).symm⟩⟩
    · exact ⟨_, _, Or.inr ⟨rfl, (Option.some.inj h).symm⟩⟩
    · cases h

theorem Exchanges.symm {f g : Formula} (h : f.Exchanges g) : g.Exchanges f := by
  obtain ⟨s, t, ⟨rfl, rfl⟩ | ⟨rfl, rfl⟩⟩ := h
  · exact ⟨t, s, Or.inl ⟨rfl, rfl⟩⟩
  · exact ⟨t, s, Or.inr ⟨rfl, rfl⟩⟩

/-- Exchanging the sides twice leads back. -/
theorem Exchanges.eq_of_exchanges {f g h : Formula} (hfg : f.Exchanges g) (hgh : g.Exchanges h) :
    f = h := by
  rw [exchanges_iff] at hfg hgh
  obtain ⟨s, t, ⟨rfl, rfl⟩ | ⟨rfl, rfl⟩⟩ := exchanges_iff.2 hfg
  · exact Option.some.inj hgh
  · exact Option.some.inj hgh

/-! ## Identities behind a plain formula -/

theorem eq_identity_of_plain {f s t : Formula} (hf : f.Lacks .root)
    (h : f.plain = .identity s t) : f = .identity s t := by
  cases f with
  | identity p q => exact h
  | root p => exact absurd rfl hf.kind_ne
  | predicate l ps => cases ps <;> cases h
  | _ => cases h

theorem eq_denial_of_plain {f s t : Formula} (hf : f.Lacks .root)
    (h : f.plain = .not (.identity s t)) : f = .not (.identity s t) := by
  cases f with
  | not p =>
    have hp : p.Lacks .root := hf.of_mem_children (List.mem_singleton_self _)
    rw [eq_identity_of_plain hp (Formula.not.inj h)]
  | root p => exact absurd rfl hf.kind_ne
  | predicate l ps => cases ps <;> cases h
  | _ => cases h

/-- A formula that reads as an identity or its denial is written as one. -/
theorem Exchanges.eq_of_plain {f g g' : Formula} (h : g.Exchanges g') (hf : f.Lacks .root)
    (he : f.plain = g.plain) : f = g := by
  obtain ⟨s, t, ⟨rfl, -⟩ | ⟨rfl, -⟩⟩ := h
  · exact eq_identity_of_plain hf he
  · exact eq_denial_of_plain hf he

/-! ## Structural equality -/

theorem structurallyEquals_of_plain {f g : Formula} (hf : f.Lettered) (hg : g.Lettered)
    (h : f.plain = g.plain) : f.structurallyEquals g := by
  rw [structurallyEquals_iff, canonicalForms]
  exact List.mem_cons.2 (Or.inl ((canonical_eq_iff hf hg).2 h).symm)

theorem Exchanges.structurallyEquals {f g : Formula} (h : f.Exchanges g) :
    f.structurallyEquals g := by
  rw [structurallyEquals_iff, canonicalForms, exchanges_iff.1 h]
  simp

theorem structurallyEquals_iff_plain {f g : Formula} (hf : f.Lettered) (hg : g.Lettered)
    (hroot : g.Lacks .root) :
    f.structurallyEquals g ↔ f.plain = g.plain ∨ f.Exchanges g := by
  constructor
  · intro h
    obtain he | ⟨f', hf', he⟩ := plain_of_structurallyEquals hf hg h
    · exact Or.inl he
    · have hx : f.Exchanges f' := exchanges_iff.2 hf'
      have : g = f' := hx.symm.eq_of_plain hroot he.symm
      exact Or.inr (this ▸ hx)
  · rintro (he | hx)
    · exact structurallyEquals_of_plain hf hg he
    · exact hx.structurallyEquals

theorem structurallyEquals_symm {f g : Formula} (hf : f.Lettered) (hg : g.Lettered)
    (hroot : g.Lacks .root) (h : f.structurallyEquals g) : g.structurallyEquals f := by
  rcases (structurallyEquals_iff_plain hf hg hroot).1 h with he | hx
  · exact structurallyEquals_of_plain hg hf he.symm
  · exact hx.symm.structurallyEquals

/-- Where structural equality fails in one direction, the other is left with exchanged sides. -/
theorem structurallyEquals_iff_exchanges {f g : Formula} (h : ¬g.structurallyEquals f) :
    f.structurallyEquals g ↔ ∃ f', f.Exchanges f' ∧ f'.canonical = g.canonical := by
  have hne : f.canonical ≠ g.canonical := by
    intro he
    rw [structurallyEquals_iff, he] at h
    exact h List.mem_cons_self
  rw [structurallyEquals, Bool.or_eq_true, beq_iff_eq, Option.any_eq_true]
  simp only [hne, false_or, exchanges_iff, beq_iff_eq]

/-- Over the usual symbols it fails in one direction only for a wrapped identity, or a wrapped denial
of one: its own sides are not exchanged, though those of the other are. -/
theorem wrapped_of_structurallyEquals {f g : Formula} (hf : f.Lettered) (hg : g.Lettered)
    (h : ¬g.structurallyEquals f) (heq : f.structurallyEquals g) :
    (∃ f', f.Exchanges f' ∧ f'.plain = g.plain) ∧ ¬g.Lacks .root := by
  refine ⟨?_, fun hroot => h (structurallyEquals_symm hf hg hroot heq)⟩
  obtain ⟨f', hx, he⟩ := (structurallyEquals_iff_exchanges h).1 heq
  exact ⟨f', hx, (canonical_eq_iff (commuted_lettered hf (exchanges_iff.1 hx)) hg).1 he⟩

theorem structurallyEquals_trans {f g h : Formula} (hf : f.Lettered) (hg : g.Lettered)
    (hh : h.Lettered) (rf : f.Lacks .root) (rg : g.Lacks .root) (rh : h.Lacks .root)
    (hfg : f.structurallyEquals g) (hgh : g.structurallyEquals h) : f.structurallyEquals h := by
  rw [structurallyEquals_iff_plain hf hg rg] at hfg
  rw [structurallyEquals_iff_plain hg hh rh] at hgh
  rw [structurallyEquals_iff_plain hf hh rh]
  rcases hfg with hfg | hfg <;> rcases hgh with hgh | hgh
  · exact Or.inl (hfg.trans hgh)
  · exact Or.inr (hgh.eq_of_plain rf hfg ▸ hgh)
  · exact Or.inr (hfg.symm.eq_of_plain rh hgh.symm ▸ hfg)
  · exact Or.inl (congrArg plain (hfg.eq_of_exchanges hgh))

theorem structurallyEquals_equivalence :
    Equivalence fun f g : {f : Formula // f.Lettered ∧ f.Lacks .root} =>
      f.1.structurallyEquals g.1 = true where
  refl f := structurallyEquals_refl f.1
  symm {f g} h := structurallyEquals_symm f.2.1 g.2.1 g.2.2 h
  trans {f g h} hfg hgh :=
    structurallyEquals_trans f.2.1 g.2.1 h.2.1 f.2.2 g.2.2 h.2.2 hfg hgh

/-- The canonical form loses wrappers and the way an atom is written, and nothing else. Structural
equality of unwrapped formulas adds exchanged sides of an identity, and is an equivalence. -/
theorem structurallyEquals_faithful :
    (∀ f g : Formula, f.Lettered → g.Lettered →
      (f.canonical = g.canonical ↔ f.plain = g.plain)) ∧
    (∀ f g : Formula, f.Lettered → g.Lettered → f.Lacks .root → g.Lacks .root →
      (f.structurallyEquals g ↔ f.plain = g.plain ∨ f.Exchanges g)) ∧
    Equivalence fun f g : {f : Formula // f.Lettered ∧ f.Lacks .root} =>
      f.1.structurallyEquals g.1 = true := by
  refine ⟨?_, ?_, structurallyEquals_equivalence⟩
  · intro f g hf hg
    exact canonical_eq_iff hf hg
  · intro f g hf hg _ rg
    exact structurallyEquals_iff_plain hf hg rg

/-- A wrapped letter without parameters reads as an atom, and a denied identity equals its exchange,
in both directions. -/
theorem structurallyEquals_faithful_denial :
    (Formula.root (.not (.predicate 'A' []))).canonical = (Formula.not (.atom 'A')).canonical ∧
    (Formula.not (.identity (.const 'a') (.const 'b'))).structurallyEquals
      (.not (.identity (.const 'b') (.const 'a'))) ∧
    (Formula.not (.identity (.const 'b') (.const 'a'))).structurallyEquals
      (.not (.identity (.const 'a') (.const 'b'))) := by
  have lettered {f : Formula} (h : f.Sentence) : f.Lettered := h.lettered
  have hab : (Formula.not (.identity (.const 'a') (.const 'b'))).Lettered := lettered (by decide)
  have hba : (Formula.not (.identity (.const 'b') (.const 'a'))).Lettered := lettered (by decide)
  obtain ⟨canonical, equals, equivalence⟩ := structurallyEquals_faithful
  have h := (equals _ _ hab hba (by decide) (by decide)).2
    (Or.inr ⟨.const 'a', .const 'b', Or.inr ⟨rfl, rfl⟩⟩)
  refine ⟨(canonical _ _ (lettered (by decide)) (lettered (by decide))).2 rfl, h, ?_⟩
  exact equivalence.symm (x := ⟨_, hab, by decide⟩) (y := ⟨_, hba, by decide⟩) h

end Sequitur.Formula
