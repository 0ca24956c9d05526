import Sequitur.Proofs.Semantics.Propositional
import Sequitur.Proofs.Tableau.Completeness
import Sequitur.Proofs.Tableau.Termination

/-!
# Tableaux decide propositional validity

The tableau of a propositional formula is finished within some number of dispatches, whether dormant
nodes are woken or not, and neither constants nor kinds of formula get in the way. As the verdict is
right either way, an argument is found valid exactly if every valuation that makes its premises true
makes its conclusion true.
-/

namespace Sequitur

open Tableau Expand Expansion

variable {s s' : Expansion} {f : Formula} {requeues : Bool}

/-! ## Propositional formulas only -/

theorem Formula.inherited_propositional : Inherited Propositional where
  not := Iff.rfl
  root h := h.elim
  binary := Iff.rfl
  quantified h := h.elim
  body h := h.elim
  substitute := by
    intro p a b h
    induction p with
    | atom s => exact h
    | falsum => exact h
    | not p ih => exact ih h
    | binary op p q hp hq => exact ⟨hp h.1, hq h.2⟩
    | _ => exact h.elim

theorem Formula.Propositional.isPropositional_decompose (h : f.Propositional) :
    f.decompose.IsPropositional := by
  refine Formula.isPropositional_decompose ?_ ?_ ?_
  · rintro k x p rfl
    exact h
  · rintro p q rfl
    exact h
  · rintro k s rfl
    exact h

namespace Expansion

/-- Whether all formulas are propositional. -/
def Propositional (s : Expansion) : Prop :=
  ∀ l, s.tableau.IsLeaf l → ∀ f ∈ (s.tableau.path l).formulas, f.Propositional

theorem Steps.propositional (h : Steps s s') (h₀ : Begins s f requeues)
    (hf : f.unrooted.Propositional) : s'.Propositional :=
  h.forall_formula Formula.inherited_propositional h₀ hf

theorem Propositional.wakeful (hs : s.Propositional) : s.Wakeful :=
  .inr fun l hl f hf => (hs l hl f hf).isPropositional_decompose

/-- The formula of a node that is dispatched is propositional. -/
theorem Propositional.of_mem (hs : s.Propositional) (hc : s.Coherent) {k : Nat} {m : Node}
    (hL : s.tableau.openLeavesBelow k ≠ []) (hm : s.tableau.node? k = some m) :
    m.formula.Propositional := by
  obtain ⟨l, hl⟩ := List.exists_mem_of_ne_nil _ hL
  obtain ⟨hleaf, hkey, -⟩ := (mem_openLeavesBelow hc).1 hl
  exact hs l hleaf _ (formula_mem_path hkey hm)

/-- A run over propositional formulas that is not stopped by its limit finishes. -/
theorem Begins.outcome_eq (h₀ : Begins s f requeues) (hf : f.unrooted.Propositional)
    {made remaining : Nat} (h : (s.run made remaining).outcome ≠ .ok .timeout) :
    (s.run made remaining).outcome = .ok .complete := by
  obtain ⟨s', hsteps, hend⟩ := run_ends h₀.valid made remaining
  have hs' := hsteps.propositional h₀ hf
  have hcoherent := (hsteps.valid h₀.valid).toCoherent
  generalize s.run made remaining = r at h hend
  cases hend with
  | closed h => rfl
  | finished h => rfl
  | timeout _ => exact absurd rfl h
  | @exhausted e rest trace m x body made ha hm hd hc =>
    obtain ⟨l, hl, -⟩ := hc firstConstant (by decide)
    have hprop := (hs'.of_mem hcoherent (List.ne_nil_of_mem hl) hm).isPropositional_decompose
    rw [hd] at hprop
    exact hprop.elim
  | @failed e rest m r made ha hL hm hd =>
    have hprop := (hs'.of_mem hcoherent hL hm).isPropositional_decompose
    rw [hd] at hprop
    exact hprop.elim

end Expansion

/-- The tableau of a propositional formula has a verdict as soon as the limit is large enough. -/
theorem Context.exists_verdict (hf : f.unrooted.Propositional) (requeues : Bool) :
    ∃ N, ∀ ctx : Context, ctx.settings.requeueUniversals.value = requeues →
      ctx.counters.dispatches = 0 → N ≤ ctx.settings.tableauLimit.value →
      ∃ ctx' t r, ctx.expand (.start f) = (ctx', t, .ok r) ∧ (r = .closed ∨ r = .unclosed) := by
  obtain ⟨s₀, h₀, hrun⟩ := expand_eq f requeues
  obtain ⟨N, hN⟩ := exists_bound h₀.orderly.acc h₀.valid
  refine ⟨N, fun ctx hr hzero hle => ?_⟩
  have hlimit : N ≤ ctx.settings.tableauLimit.value - ctx.counters.dispatches := by omega
  have hcomplete := h₀.outcome_eq hf (hN ctx.counters.dispatches _ hlimit)
  obtain ⟨ctx', hexpand, hreport⟩ := (hrun ctx hr _ rfl).2 _ hcomplete
  refine ⟨ctx', _, _, hexpand, ?_⟩
  rw [hreport, verdict]
  split
  · exact .inl rfl
  · exact .inr rfl

/-! ## Validity -/

/-- Whether every valuation that makes the premises true makes the conclusion true. -/
def Entails (premises : List Formula) (conclusion : Formula) : Prop :=
  ∀ valuation : Char → Bool,
    (∀ p ∈ premises, p.evaluate valuation) → conclusion.evaluate valuation

theorem Formula.Propositional.lacks (h : f.Propositional) {k : Kind}
    (hk : k = .root ∨ k = .identity) : f.Lacks k := by
  have hleaf : ∀ {g : Formula}, g.children = [] → g.kind ≠ k → g.Lacks k := by
    intro g hg hkind
    rw [lacks_iff, hg]
    exact ⟨hkind, fun _ h => absurd h List.not_mem_nil⟩
  induction f with
  | atom s => exact hleaf rfl (by rcases hk with rfl | rfl <;> exact Kind.noConfusion)
  | falsum => exact hleaf rfl (by rcases hk with rfl | rfl <;> exact Kind.noConfusion)
  | not p ih => exact (inherited_lacks hk).not.2 (ih h)
  | binary op p q hp hq => exact (inherited_lacks hk).binary.2 ⟨hp h.1, hq h.2⟩
  | _ => exact h.elim

theorem Formula.Propositional.relational (h : f.Propositional) : f.Relational :=
  ⟨h.standard, h.lacks (.inl rfl), h.lacks (.inr rfl)⟩

/-- The structure with one thing in which the letters have the values of a valuation. -/
def valuationStructure (valuation : Char → Bool) : Structure Unit where
  constant _ := ()
  relation s _ := valuation s

section Arguments

variable {premises : List Formula} {conclusion : Formula}
  (h : ∀ f ∈ conclusion :: premises, f.unrooted.Propositional)

include h

/-- The counterexample is true in a structure exactly if the valuation of its letters shows that the
argument is not valid. -/
theorem holds_counterexample_iff {D : Type} {S : Structure D} {valuation : Char → Bool}
    (hS : ∀ s, S.relation s [] ↔ valuation s) (v : Char → D) :
    S.Holds v (counterexample premises conclusion) ↔
      (∀ p ∈ premises, p.evaluate valuation) ∧ ¬conclusion.evaluate valuation := by
  have hvalue : ∀ f ∈ conclusion :: premises, S.Holds v f ↔ f.evaluate valuation := by
    intro f hf
    rw [← S.holds_unrooted, S.holds_iff_evaluate hS (h f hf), Formula.evaluate_unrooted]
  obtain ⟨hconclusion, hpremises⟩ := List.forall_mem_cons.1 hvalue
  rw [S.holds_counterexample, hconclusion]
  exact and_congr_left fun _ => forall₂_congr hpremises

theorem propositional_counterexample : (counterexample premises conclusion).Propositional :=
  Formula.inherited_propositional.counterexample h

theorem entails_of_expand {ctx ctx' : Context} {t : Tableau}
    (hexpand : ctx.expand (.start (counterexample premises conclusion)) = (ctx', t, .ok .closed)) :
    Entails premises conclusion := by
  intro valuation hpremises
  by_contra hnot
  refine Context.not_holds_of_expand (propositional_counterexample h).standard hexpand
    (valuationStructure valuation) (fun _ => ()) ?_
  exact (holds_counterexample_iff h (fun _ => Iff.rfl) _).2 ⟨hpremises, hnot⟩

theorem not_entails_of_expand {ctx ctx' : Context} {t : Tableau}
    (hexpand : ctx.expand (.start (counterexample premises conclusion)) = (ctx', t, .ok .unclosed)) :
    ¬Entails premises conclusion := by
  have hprop := propositional_counterexample h
  obtain ⟨D, S, v, hS⟩ := Context.exists_holds_of_expand hprop.relational (fun s₀ s h₀ hsteps =>
    (hsteps.propositional h₀ (hprop.relational.unrooted_eq.symm ▸ hprop)).wakeful) hexpand
  classical
  let valuation : Char → Bool := fun s => decide (S.relation s [])
  have hvalue : ∀ s, S.relation s [] ↔ valuation s := fun s => decide_eq_true_iff.symm
  obtain ⟨hpremises, hnot⟩ := (holds_counterexample_iff h hvalue v).1 hS
  exact fun hentails => hnot (hentails _ hpremises)

end Arguments

/-- With a limit that is large enough, an argument in propositional formulas is found valid if every
valuation that makes its premises true makes its conclusion true, and invalid otherwise. -/
theorem Context.checkArgument_decides (premises : List Formula) (conclusion : Formula)
    (h : ∀ f ∈ conclusion :: premises, f.unrooted.Propositional) :
    ∃ N, ∀ ctx : Context, N ≤ ctx.settings.tableauLimit.value →
      (Entails premises conclusion → (ctx.checkArgument premises conclusion).2 = .ok .valid) ∧
      (¬Entails premises conclusion → (ctx.checkArgument premises conclusion).2 = .ok .invalid) := by
  have hprop := propositional_counterexample h
  have hunrooted := hprop.relational.unrooted_eq.symm ▸ hprop
  obtain ⟨N, hN⟩ := exists_verdict hunrooted true
  obtain ⟨M, hM⟩ := exists_verdict hunrooted false
  refine ⟨max N M, fun ctx hle => ?_⟩
  obtain ⟨ctx', t, r, hexpand, hr⟩ : ∃ ctx' t r,
      ctx.reset.expand (.start (counterexample premises conclusion)) = (ctx', t, .ok r) ∧
        (r = .closed ∨ r = .unclosed) := by
    cases hrequeues : ctx.reset.settings.requeueUniversals.value with
    | true => exact hN ctx.reset hrequeues rfl (Nat.le_trans (Nat.le_max_left N M) hle)
    | false => exact hM ctx.reset hrequeues rfl (Nat.le_trans (Nat.le_max_right N M) hle)
  have hcheck : (ctx.checkArgument premises conclusion).2 = .ok r.ofCounterexample := by
    rw [checkArgument, hexpand]
  rcases hr with rfl | rfl
  · exact ⟨fun _ => hcheck, fun hnot => absurd (entails_of_expand h hexpand) hnot⟩
  · exact ⟨fun hentails => absurd hentails (not_entails_of_expand h hexpand), fun _ => hcheck⟩

/-- Modus tollens is found valid, and affirming a disjunct is found invalid. -/
theorem Context.checkArgument_decides_disjunct : ∃ N, ∀ ctx : Context,
    N ≤ ctx.settings.tableauLimit.value →
      (ctx.checkArgument [.root (.implies (.atom 'A') (.atom 'B')), .not (.atom 'B')]
        (.not (.atom 'A'))).2 = .ok .valid ∧
      (ctx.checkArgument [.or (.atom 'A') (.atom 'B')] (.atom 'A')).2 = .ok .invalid := by
  obtain ⟨N, hN⟩ := checkArgument_decides
    [.root (.implies (.atom 'A') (.atom 'B')), .not (.atom 'B')] (.not (.atom 'A')) (by decide)
  obtain ⟨M, hM⟩ := checkArgument_decides [.or (.atom 'A') (.atom 'B')] (.atom 'A') (by decide)
  refine ⟨max N M, fun ctx hle => ⟨?_, ?_⟩⟩
  · refine (hN ctx (Nat.le_trans (Nat.le_max_left N M) hle)).1 fun valuation => ?_
    cases hA : valuation 'A' <;> cases hB : valuation 'B' <;>
      simp [Formula.evaluate, Connective.evaluate, hA, hB]
  · refine (hM ctx (Nat.le_trans (Nat.le_max_right N M) hle)).2 fun hentails => ?_
    exact absurd (hentails (· == 'B') (by decide)) (by decide)

end Sequitur
