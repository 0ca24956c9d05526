import Sequitur.Proofs.Accounts
import Sequitur.Proofs.Limits
import Sequitur.Proofs.Tableau.Completeness

/-!
# Verdicts with and without requeueing

A setting says whether a dormant node is woken when a constant comes to its branch. Without it a run can
finish with a branch that is open only because a universal formula has missed a constant, and it reports
that branch as open all the same (`Context.requeueing_changes_verdict`). This is the only way in which
two verdicts on a sentence can oppose each other (`Context.opposite_verdicts`):

* what is at the root of a tableau that closes is true in no structure, woken or not
  (`Context.not_reads_of_expand`);
* a branch that stays open although dormant nodes are woken is true in its model
  (`Context.exists_reads_of_expand`);
* two runs with the same setting are one run, as long as no limit stops them
  (`Context.expand_unique`).

Truth is here that of `Interpretation.Reads`, under which a variable belongs to the outermost quantifier
that binds it. Only where no quantifier repeats a variable is it truth proper, and only there is the
open branch known to mislead.
-/

namespace Sequitur

open Tableau Expand Expansion

variable {f : Formula}

/-! ## Formulas without quantifiers -/

namespace Formula

/-- Whether no quantifier occurs in a formula. -/
def QuantifierFree (f : Formula) : Prop := f.Lacks .universal ∧ f.Lacks .existential

instance (f : Formula) : Decidable f.QuantifierFree :=
  inferInstanceAs (Decidable (f.Lacks .universal ∧ f.Lacks .existential))

theorem QuantifierFree.of_mem_children {g : Formula} (h : f.QuantifierFree) (hg : g ∈ f.children) :
    g.QuantifierFree :=
  ⟨h.1.of_mem_children hg, h.2.of_mem_children hg⟩

theorem QuantifierFree.ne_quantified (h : f.QuantifierFree) (k : Quantifier) (x : Char) (p : Formula) :
    f ≠ .quantified k x p := by
  rintro rfl
  cases k with
  | universal => exact h.1.kind_ne rfl
  | existential => exact h.2.kind_ne rfl

/-- No rule for a connective brings in a quantifier. -/
theorem inherited_quantifierFree : Inherited QuantifierFree where
  not := by
    intro p
    refine ⟨fun h => h.of_mem_children (List.mem_singleton_self _), fun h => ?_⟩
    constructor <;> rw [lacks_iff, children, List.forall_mem_singleton]
    · exact ⟨Kind.noConfusion, h.1⟩
    · exact ⟨Kind.noConfusion, h.2⟩
  root h := h.of_mem_children (List.mem_singleton_self _)
  binary := by
    intro op p q
    refine ⟨fun h => ⟨h.of_mem_children List.mem_cons_self,
      h.of_mem_children (List.mem_cons_of_mem _ (List.mem_singleton_self _))⟩, ?_⟩
    rintro ⟨hp, hq⟩
    constructor <;> rw [lacks_iff, children, List.forall_mem_cons, List.forall_mem_singleton]
    · exact ⟨by cases op <;> exact Kind.noConfusion, hp.1, hq.1⟩
    · exact ⟨by cases op <;> exact Kind.noConfusion, hp.2, hq.2⟩
  quantified h := absurd rfl (h.ne_quantified _ _ _)
  body h := h.of_mem_children (List.mem_singleton_self _)
  substitute a b h := ⟨h.1.substitute Kind.noConfusion a b, h.2.substitute Kind.noConfusion a b⟩

end Formula

/-- Without quantifiers and identities, no node ever lies dormant. -/
theorem Expansion.Steps.wakeful_of_unrooted {s s' : Expansion} {requeues : Bool} (h : Steps s s')
    (h₀ : Begins s f requeues) (hf : f.Sentence) (hidentity : f.unrooted.Lacks .identity)
    (hfree : f.unrooted.QuantifierFree) : s'.Wakeful := by
  refine .inr fun l hl g hg => ?_
  have hinherits : ∀ {P : Formula → Prop}, Formula.Inherited P → P f.unrooted → P g :=
    fun hP hPf => h.forall_formula hP h₀ hPf l hl g hg
  refine Formula.isPropositional_decompose ?_ ?_ ?_
  · exact (hinherits Formula.inherited_quantifierFree hfree).ne_quantified
  · rintro p q rfl
    exact (hinherits (Formula.inherited_lacks (.inr rfl)) hidentity).kind_ne rfl
  · rintro k s rfl
    exact (h.formed h₀ hf l hl).sentence _ hg

theorem Expansion.Steps.wakeful {s s' : Expansion} {requeues : Bool} (h : Steps s s')
    (h₀ : Begins s f requeues) (hf : f.Sentence) (hroot : f.Lacks .root) (hidentity : f.Lacks .identity)
    (hfree : f.QuantifierFree) : s'.Wakeful := by
  refine h.wakeful_of_unrooted h₀ hf ?_ ?_
  · rwa [hroot.unrooted_eq]
  · rwa [hroot.unrooted_eq]

/-- Two runs from one beginning that their limits do not stop are the same run. -/
theorem Expansion.run_eq_of_ne_timeout {s : Expansion} {made m n : Nat}
    (hm : (s.run made m).outcome ≠ .ok .timeout) (hn : (s.run made n).outcome ≠ .ok .timeout) :
    s.run made m = s.run made n := by
  rcases Nat.le_total m n with hle | hle
  · obtain ⟨k, rfl⟩ := Nat.exists_eq_add_of_le hle
    exact (run_add k hm).symm
  · obtain ⟨k, rfl⟩ := Nat.exists_eq_add_of_le hle
    exact run_add k hn

namespace Context

variable {ctx ctx' c c' : Context} {t t' : Tableau} {r r' : Report}

/-! ## Open branches -/

/-- If the expansion of a sentence without wrappers and identities finishes with an open branch, some
structure makes the sentence true as the rules read it. -/
theorem exists_reads_of_expand (hf : f.Sentence) (hroot : f.Lacks .root) (hidentity : f.Lacks .identity)
    (hwake : ∀ s₀ s, Begins s₀ f ctx.settings.requeueUniversals.value → Steps s₀ s → s.Wakeful)
    (h : ctx.expand (.start f) = (c, t, .ok .unclosed)) :
    ∃ (D : Type) (S : Structure D) (v : Char → D), S.reading.Reads ∅ v f := by
  obtain ⟨⟨l, hl, hopen⟩, hall⟩ := finished_of_expand hf hroot hwake h
  obtain ⟨hmem, hfinished, hinherits⟩ := hall l hl hopen
  have hlacks := hinherits (Formula.inherited_lacks (.inr rfl)) hidentity
  exact ⟨_, (t.path l).model, fun _ => (t.path l).origin, hfinished.isTrue_model hlacks _ f hmem⟩

/-! ## Runs with the same setting -/

/-- The expansions of a formula with the same setting for requeueing are all runs from one beginning. -/
theorem exists_run_of_expand (f : Formula) (requeues : Bool) :
    ∃ s₀ : Expansion, ∀ {ctx c : Context} {t : Tableau} {r : Report},
      ctx.settings.requeueUniversals.value = requeues →
      ctx.reset.expand (.start f) = (c, t, .ok r) →
      let run := s₀.run 0 ctx.settings.tableauLimit.value
      run.outcome = .ok t.status ∧ t = { run.expansion.tableau with status := t.status } ∧
        r = t.verdict := by
  obtain ⟨s₀, -, hrun⟩ := expand_eq f requeues
  refine ⟨s₀, fun {ctx c t r} hr h => ?_⟩
  obtain ⟨herror, hok⟩ := hrun ctx.reset hr _ rfl
  intro run
  cases hout : run.outcome with
  | error cause =>
    have hexpand := herror cause hout
    rw [h] at hexpand
    cases hexpand
  | ok status =>
    obtain ⟨c', hexpand, hreport⟩ := hok status hout
    rw [h] at hexpand
    cases hexpand
    exact ⟨rfl, rfl, hreport⟩

/-- Two expansions of a formula with the same setting for requeueing come to the same, if their limits
do not stop them. -/
theorem expand_unique
    (hr : ctx.settings.requeueUniversals.value = ctx'.settings.requeueUniversals.value)
    (h : ctx.reset.expand (.start f) = (c, t, .ok r)) (hne : t.status ≠ .timeout)
    (h' : ctx'.reset.expand (.start f) = (c', t', .ok r')) (hne' : t'.status ≠ .timeout) : r = r' := by
  obtain ⟨s₀, hrun⟩ := exists_run_of_expand f ctx.settings.requeueUniversals.value
  obtain ⟨hout, ht, rfl⟩ := hrun rfl h
  obtain ⟨hout', ht', rfl⟩ := hrun hr.symm h'
  have heq : s₀.run 0 ctx.settings.tableauLimit.value = s₀.run 0 ctx'.settings.tableauLimit.value := by
    apply Expansion.run_eq_of_ne_timeout
    · rw [hout]
      exact fun htimeout => hne (Except.ok.inj htimeout)
    · rw [hout']
      exact fun htimeout => hne' (Except.ok.inj htimeout)
  have hstatus : t.status = t'.status := by
    rw [heq, hout'] at hout
    exact (Except.ok.inj hout).symm
  rw [ht, ht', heq, hstatus]

/-- A run with a verdict has finished. -/
theorem status_of_verdict (h : ctx.reset.expand (.start f) = (c, t, .ok r)) (hr : r ≠ .unknown) :
    t.status = .complete := by
  obtain ⟨-, -, hends⟩ := ends_of_expand h
  have hreport := report_of_expand h
  cases hends with
  | shut _ hstatus _ _ => exact hstatus
  | ajar _ hstatus _ _ => exact hstatus
  | timeout _ _ hunknown _ _ => exact absurd (hreport.symm.trans hunknown) hr
  | exhausted _ _ hunknown _ => exact absurd (hreport.symm.trans hunknown) hr

/-! ## Opposite verdicts -/

/-- An expansion that fails leaves the report as it is. -/
theorem report_of_expand_error {e : Error} (h : (ctx.expand t).2.2 = .error e) :
    (ctx.expand t).1.report = ctx.report := by
  unfold expand at h ⊢
  cases hseed : seed (.start t ctx.settings.requeueUniversals.value) with
  | error cause s => rfl
  | ok _ s =>
    rw [hseed] at h
    dsimp only at h ⊢
    cases hout : (s.run ctx.counters.dispatches
        (ctx.settings.tableauLimit.value - ctx.counters.dispatches)).outcome with
    | error cause => rfl
    | ok status =>
      rw [hout] at h
      cases h

/-- A verdict that is reported after the tableau of a formula was asked for is one on that tableau. -/
theorem expand_of_report (h : (ctx.buildTableau f).1.report = r) (hr : r ≠ .unknown) :
    ∃ t, ctx.reset.expand (.start f) = ((ctx.buildTableau f).1, t, .ok r) := by
  cases hbuild : (ctx.buildTableau f).2 with
  | ok t =>
    refine ⟨t, ?_⟩
    rw [expand_of_buildTableau (Prod.ext rfl hbuild), h]
  | error e =>
    rw [buildTableau_eq_map] at h hbuild
    cases hexpand : (ctx.reset.expand (.start f)).2.2 with
    | ok report =>
      rw [hexpand] at hbuild
      cases hbuild
    | error e' => exact absurd (h.symm.trans (report_of_expand_error hexpand)) hr

/-- Two verdicts on a sentence without wrappers and identities oppose each other in one way only: the
run that closes every branch wakes dormant nodes, the one that leaves a branch open does not, and there
is a quantifier in the sentence. No structure makes the sentence true as the rules read it. If no
quantifier repeats a variable the sentence is true in none, and so it is the open branch that misleads.
-/
theorem opposite_verdicts {w : Formula} (hw : w.Sentence) (hroot : w.Lacks .root)
    (hidentity : w.Lacks .identity) (ctx ctx' : Context)
    (hclosed : (ctx.buildTableau w).1.report = .closed)
    (hunclosed : (ctx'.buildTableau w).1.report = .unclosed) :
    ctx.settings.requeueUniversals.value = true ∧ ctx'.settings.requeueUniversals.value = false ∧
      ¬w.QuantifierFree ∧
      ∀ (D : Type) (S : Structure D) (v : Char → D),
        ¬S.reading.Reads ∅ v w ∧ (w.Standard → ¬S.Holds v w) := by
  obtain ⟨t, hexpand⟩ := expand_of_report hclosed Report.noConfusion
  obtain ⟨t', hexpand'⟩ := expand_of_report hunclosed Report.noConfusion
  have hfalse : ∀ (D : Type) (S : Structure D) (v : Char → D), ¬S.reading.Reads ∅ v w :=
    fun D S v => not_reads_of_expand hw hexpand S v
  -- a run that leaves nothing dormant could not have ended with an open branch
  have hasleep : ¬∀ s₀ s, Begins s₀ w ctx'.reset.settings.requeueUniversals.value → Steps s₀ s →
      s.Wakeful := by
    intro hwake
    obtain ⟨D, S, v, hreads⟩ := exists_reads_of_expand hw hroot hidentity hwake hexpand'
    exact hfalse D S v hreads
  have hoff : ctx'.settings.requeueUniversals.value = false := by
    rw [Bool.eq_false_iff]
    intro hon
    exact hasleep fun s₀ s h₀ h => .inl ((h.requeues_eq.trans h₀.requeues).trans hon)
  have hon : ctx.settings.requeueUniversals.value = true := by
    rw [← Bool.not_eq_false]
    intro hsame
    have hne : t.status ≠ .timeout := status_of_verdict hexpand Report.noConfusion ▸ Status.noConfusion
    have hne' : t'.status ≠ .timeout :=
      status_of_verdict hexpand' Report.noConfusion ▸ Status.noConfusion
    cases expand_unique (hsame.trans hoff.symm) hexpand hne hexpand' hne'
  refine ⟨hon, hoff, fun hfree => ?_, fun D S v => ⟨hfalse D S v, fun hstandard => ?_⟩⟩
  · exact hasleep fun s₀ s h₀ h => h.wakeful h₀ hw hroot hidentity hfree
  · exact not_holds_of_expand hstandard hexpand S v

/-- "All things are such that something is `P` and they are not" is true in no structure, but without
requeueing its tableau ends with an open branch. -/
theorem opposite_verdicts_denied :
    let w : Formula :=
      .all 'x' (.and (.ex 'y' (.predicate 'P' [.var 'y'])) (.not (.predicate 'P' [.var 'x'])))
    let ctx : Context :=
      { settings := { requeueUniversals := ⟨"requeue_universals", false, true, false⟩ } }
    (({} : Context).buildTableau w).1.report = .closed ∧ (ctx.buildTableau w).1.report = .unclosed ∧
      ¬w.QuantifierFree ∧ ∀ (D : Type) (S : Structure D) (v : Char → D), ¬S.Holds v w := by
  intro w ctx
  have hclosed : (({} : Context).buildTableau w).1.report = .closed := by decide +kernel
  have hunclosed : (ctx.buildTableau w).1.report = .unclosed := by decide +kernel
  obtain ⟨-, -, hquantified, hfalse⟩ :=
    opposite_verdicts (by decide) (by decide) (by decide) {} ctx hclosed hunclosed
  exact ⟨hclosed, hunclosed, hquantified, fun D S v => (hfalse D S v).2 (by decide)⟩

/-- Requeueing can turn one verdict into its opposite. The universal formula is instantiated once, and
the constant for which its instance would close the branch comes only after that. -/
theorem requeueing_changes_verdict :
    ¬∀ w : Formula, w.Sentence → w.Lacks .root → w.Lacks .identity → ∀ ctx ctx' : Context,
      ¬((ctx.buildTableau w).1.report = .closed ∧ (ctx'.buildTableau w).1.report = .unclosed) := by
  intro h
  refine h
    (.all 'x' (.and (.ex 'y' (.predicate 'P' [.var 'y'])) (.not (.predicate 'P' [.var 'x']))))
    (by decide) (by decide) (by decide) {}
    { settings := { requeueUniversals := ⟨"requeue_universals", false, true, false⟩ } }
    ⟨by decide +kernel, by decide +kernel⟩

end Context

end Sequitur
