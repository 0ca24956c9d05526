import Sequitur.Proofs.Derivation.Soundness
import Sequitur.Proofs.Tableau.Completeness

/-!
# The two procedures agree

What is proved is never found invalid. The tableau rules do not decide identity, so an open branch
need not have a model in which identity is equality. Both procedures treat identity alike in one
respect, however: they use no more of it than that it is symmetric. So a finished branch is read as an
interpretation whose identity is what the branch says it is (`Path.reading`). All of the branch is
true in it, identities included, while a proof preserves truth in it.
-/

namespace Sequitur

open Tableau Expand Expansion

variable {p : Path} {f g : Formula}

/-! ## The reading of a branch -/

namespace Path

/-- The interpretation over the constants of a branch that identifies two of them exactly if the
branch does, in either order. -/
def reading (p : Path) : Interpretation p.Domain where
  constant := p.model.constant
  relation := p.model.relation
  same c d := .identity (.const c.1) (.const d.1) ∈ p.formulas ∨
    .identity (.const d.1) (.const c.1) ∈ p.formulas

theorem symmetric_reading (p : Path) : p.reading.Symmetric := fun _ _ => Or.symm

/-- An identity between constants of the branch is true exactly if it is on the branch, in either
order. -/
theorem reads_reading_identity {a b : Char} (ha : a ∈ p.constants) (hb : b ∈ p.constants)
    (v : Char → p.Domain) :
    p.reading.Reads ∅ v (.identity (.const a) (.const b)) ↔
      .identity (.const a) (.const b) ∈ p.formulas ∨
        .identity (.const b) (.const a) ∈ p.formulas := by
  show p.reading.same (p.model.constant a) (p.model.constant b) ↔ _
  rw [constant_model ha, constant_model hb]
  exact Iff.rfl

/-- Apart from identities, an atomic formula has the truth value that it has in the model. -/
theorem reads_reading_iff (hidentity : f.kind ≠ .identity) (hatomic : f.isAtomic)
    (v : Char → p.Domain) : p.reading.Reads ∅ v f ↔ p.model.reading.Reads ∅ v f := by
  cases f with
  | atom s => exact Iff.rfl
  | predicate s ps => exact Iff.rfl
  | identity t u => exact absurd rfl hidentity
  | _ => exact absurd hatomic Bool.false_ne_true

theorem exists_const_of_identity {t u : Formula} (hs : (Formula.identity t u).Sentence)
    (hc : ∀ c ∈ (Formula.identity t u).constants, c ∈ p.constants) :
    ∃ a ∈ p.constants, ∃ b ∈ p.constants, t = .const a ∧ u = .const b := by
  obtain ⟨a, rfl, -⟩ := hs.1.exists_const
  obtain ⟨b, rfl, -⟩ := hs.2.exists_const
  exact ⟨a, hc a (by simp [Formula.mem_constants_iff]), b,
    hc b (by simp [Formula.mem_constants_iff]), rfl, rfl⟩

theorem reads_reading_of_mem (hp : p.Formed) (hf : f ∈ p.formulas) (hatomic : f.isAtomic)
    (v : Char → p.Domain) : p.reading.Reads ∅ v f := by
  by_cases hidentity : f.kind = .identity
  · obtain ⟨t, u, rfl⟩ := Formula.kind_eq_identity_iff.1 hidentity
    obtain ⟨a, ha, b, hb, rfl, rfl⟩ := exists_const_of_identity (hp.sentence _ hf) (hp.covers _ hf)
    exact (reads_reading_identity ha hb v).2 (.inl hf)
  · exact (reads_reading_iff hidentity hatomic v).2 (reads_model_of_mem hp hidentity hf hatomic v)

theorem not_reads_reading (hp : p.Formed) (hopen : p.isClosed = false) (hg : .not g ∈ p.formulas)
    (hatomic : g.isAtomic) (v : Char → p.Domain) : ¬p.reading.Reads ∅ v g := by
  by_cases hidentity : g.kind = .identity
  · obtain ⟨t, u, rfl⟩ := Formula.kind_eq_identity_iff.1 hidentity
    obtain ⟨a, ha, b, hb, rfl, rfl⟩ := exists_const_of_identity
      (hp.sentence (.not _) hg) (hp.covers (.not _) hg)
    -- a branch with the identity is closed, whichever way round it stands there
    rw [reads_reading_identity ha hb]
    rintro (h | h)
    · exact not_structurallyEquals_of_isOpen hopen h hg rfl rfl (Formula.structurallyEquals_refl _)
    · refine not_structurallyEquals_of_isOpen hopen h hg rfl rfl ?_
      exact Formula.structurallyEquals_iff.2 (List.mem_cons_of_mem _ (List.mem_singleton_self _))
  · rw [reads_reading_iff hidentity hatomic]
    exact not_reads_model hp hopen hidentity hg hatomic v

/-- A finished branch is true in its reading. -/
theorem Finished.isTrue_reading (h : p.Finished) (v : Char → p.Domain) : p.IsTrue p.reading v := by
  refine h.isTrue p.symmetric_reading ?_ ?_ named_model
  · intro f hf hatomic
    exact reads_reading_of_mem h.formed hf hatomic v
  · intro g hg hatomic
    exact not_reads_reading h.formed h.isOpen hg hatomic v

end Path

/-! ## Arguments -/

theorem Interpretation.reads_counterexample {D : Type} (I : Interpretation D) (v : Char → D)
    (premises : List Formula) (conclusion : Formula) :
    I.Reads ∅ v (counterexample premises conclusion) ↔
      (∀ p ∈ premises, I.Reads ∅ v p) ∧ ¬I.Reads ∅ v conclusion :=
  counterexample_iff (I.reads_unrooted ∅ v) (fun _ => Iff.rfl) (fun _ _ => Iff.rfl) premises conclusion

/-- An argument that is found invalid fails in an interpretation that reads identity symmetrically. -/
theorem Context.exists_reads_of_checkArgument {ctx : Context}
    (hr : ctx.settings.requeueUniversals.value) {premises : List Formula} {conclusion : Formula}
    (hs : ∀ f ∈ conclusion :: premises, f.Sentence)
    (hroot : ∀ f ∈ conclusion :: premises, f.unrooted.Lacks .root)
    (h : (ctx.checkArgument premises conclusion).2 = .ok .invalid) :
    ∃ (D : Type) (I : Interpretation D) (v : Char → D), I.Symmetric ∧
      (∀ p ∈ premises, I.Reads ∅ v p) ∧ ¬I.Reads ∅ v conclusion := by
  obtain ⟨ctx', t, r, hexpand, hverdict⟩ := expand_of_checkArgument h
  obtain rfl := Report.eq_unclosed_of_ofCounterexample hverdict
  have hsentence := Formula.hereditary_sentence.counterexample fun f hf => (hs f hf).unrooted
  have hlacks := (Formula.inherited_lacks (.inl rfl)).counterexample hroot
  have hwake : ∀ s₀ s, Begins s₀ (counterexample premises conclusion)
      ctx.reset.settings.requeueUniversals.value → Steps s₀ s → s.Wakeful :=
    fun s₀ s h₀ hsteps => .inl ((hsteps.requeues_eq.trans h₀.requeues).trans hr)
  obtain ⟨⟨l, hl, hopen⟩, hall⟩ := finished_of_expand hsentence hlacks hwake hexpand
  obtain ⟨hmem, hfinished, -⟩ := hall l hl hopen
  let p := t.path l
  refine ⟨p.Domain, p.reading, fun _ => p.origin, p.symmetric_reading, ?_⟩
  exact (p.reading.reads_counterexample _ premises conclusion).1 (hfinished.isTrue_reading _ _ hmem)

/-- An argument of which one procedure has a proof is not found invalid by the other, whatever the
limits of either. -/
theorem Context.checkArgument_of_prove (ctx ctx' : Context)
    (hr : ctx'.settings.requeueUniversals.value) (premises : List Formula) (conclusion : Formula)
    (kind : ProofType) (hs : ∀ f ∈ conclusion :: premises, f.Sentence)
    (hroot : ∀ f ∈ conclusion :: premises, f.unrooted.Lacks .root) (lines : List Line)
    (h : (ctx.prove premises conclusion kind).2 = .ok (some lines)) :
    (ctx'.checkArgument premises conclusion).2 ≠ .ok .invalid := by
  intro hinvalid
  obtain ⟨D, I, v, hI, hpremises, hconclusion⟩ := exists_reads_of_checkArgument hr hs hroot hinvalid
  have hP : Problem.Proper ⟨premises, conclusion, kind⟩ :=
    ⟨fun p hp => hs p (List.mem_cons_of_mem _ hp), hs conclusion List.mem_cons_self⟩
  exact hconclusion (reads_of_prove hP h hI hpremises)

/-- If `a` is `b`, and all things are `F` should `b` be `a`, then `c` is `F`. It is proved with the sides
of the identity exchanged, and the tableau does not call it invalid. -/
theorem Context.checkArgument_of_prove_identity :
    ∃ lines, (({} : Context).prove [.and (.identity (.const 'a') (.const 'b'))
        (.implies (.identity (.const 'b') (.const 'a')) (.all 'x' (.predicate 'F' [.var 'x'])))]
        (.predicate 'F' [.const 'c']) .direct).2 = .ok (some lines) ∧
      (({} : Context).checkArgument [.and (.identity (.const 'a') (.const 'b'))
        (.implies (.identity (.const 'b') (.const 'a')) (.all 'x' (.predicate 'F' [.var 'x'])))]
        (.predicate 'F' [.const 'c'])).2 ≠ .ok .invalid := by
  refine Exists.imp (fun lines h => ⟨h, ?_⟩) (exists_lines (by decide +kernel))
  exact checkArgument_of_prove {} {} rfl _ _ .direct (by decide) (by decide) lines h

end Sequitur
