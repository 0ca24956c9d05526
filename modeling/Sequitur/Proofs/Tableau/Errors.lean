import Sequitur.Argument
import Sequitur.Proofs.Tableau.Inheritance
import Sequitur.Proofs.Tableau.Soundness

/-!
# The errors of a tableau

An expansion looks for nodes and adds children at every step, and each of these can fail. None of
them does: the one error that comes out is that a formula has no rule, and such a formula is a term
or an identity of what has no symbol. No rule moves a term to a place where terms do not belong, so
neither is met if the terms of the formula at the root are in place.
-/

namespace Sequitur

open Tableau Expand Expansion

namespace Formula

/-! ## Terms in place -/

/-- Whether what stands directly inside the formula are terms. -/
def takesTerms : Formula → Bool
  | .predicate _ _ | .identity _ _ => true
  | _ => false

/-- Whether the parameters of predicates and the sides of identities are terms, and nothing else in
the formula is one. -/
def TermsInPlace (f : Formula) : Prop :=
  f.isTerm = false ∧ ∀ g ∈ f.subformulas, ∀ p ∈ g.children, p.isTerm = g.takesTerms

instance (f : Formula) : Decidable f.TermsInPlace :=
  inferInstanceAs (Decidable (f.isTerm = false ∧
    ∀ g ∈ f.subformulas, ∀ p ∈ g.children, p.isTerm = g.takesTerms))

theorem isTerm_iff {f : Formula} : f.isTerm ↔ ∃ k s, f = .term k s := by
  cases f <;> simp [isTerm]

theorem isTerm_substitute (a b : Char) (k : TermKind) (f : Formula) :
    (f.substitute a b k).isTerm = f.isTerm := by
  cases f with
  | term l s =>
    unfold substitute
    split <;> rfl
  | _ => rfl

theorem takesTerms_substitute (a b : Char) (k : TermKind) (f : Formula) :
    (f.substitute a b k).takesTerms = f.takesTerms := by
  cases f with
  | term l s =>
    unfold substitute
    split <;> rfl
  | _ => rfl

/-- What is in place, from outside in. -/
theorem termsInPlace_iff {f : Formula} :
    f.TermsInPlace ↔ f.isTerm = false ∧
      ∀ p ∈ f.children, if f.takesTerms then p.isTerm = true else p.TermsInPlace := by
  unfold TermsInPlace
  refine and_congr_right fun _ => ?_
  rw [subformulas_eq, List.forall_mem_cons]
  simp only [List.mem_flatMap]
  constructor
  · rintro ⟨hf, hbelow⟩ p hp
    have hterm := hf p hp
    split
    · next ht => rw [hterm, ht]
    · next ht => exact ⟨by rw [hterm, Bool.eq_false_iff.2 ht], fun g hg => hbelow g ⟨p, hp, hg⟩⟩
  · intro h
    refine ⟨fun p hp => ?_, fun g ⟨p, hp, hg⟩ => ?_⟩
    · have hp := h p hp
      split at hp
      · next ht => rw [hp, ht]
      · next ht => rw [hp.1, Bool.eq_false_iff.2 ht]
    · have hp := h p hp
      split at hp
      · -- nothing is inside a term
        obtain ⟨k, s, rfl⟩ := isTerm_iff.1 hp
        obtain rfl := List.mem_singleton.1 hg
        exact fun q hq => absurd hq List.not_mem_nil
      · exact hp.2 g hg

theorem TermsInPlace.isTerm {f p : Formula} (h : f.TermsInPlace) (hf : f.takesTerms)
    (hp : p ∈ f.children) : p.isTerm := by
  have := (termsInPlace_iff.1 h).2 p hp
  rwa [if_pos hf] at this

theorem TermsInPlace.of_mem_children {f p : Formula} (h : f.TermsInPlace)
    (hf : f.takesTerms = false) (hp : p ∈ f.children) : p.TermsInPlace := by
  have := (termsInPlace_iff.1 h).2 p hp
  rwa [if_neg (Bool.eq_false_iff.1 hf)] at this

theorem termsInPlace_of_forall_children {f : Formula} (hterm : f.isTerm = false)
    (hf : f.takesTerms = false) (h : ∀ p ∈ f.children, p.TermsInPlace) : f.TermsInPlace := by
  refine termsInPlace_iff.2 ⟨hterm, fun p hp => ?_⟩
  rw [if_neg (Bool.eq_false_iff.1 hf)]
  exact h p hp

theorem TermsInPlace.substitute {f : Formula} (h : f.TermsInPlace) (a b : Char) :
    (f.substitute a b .const).TermsInPlace := by
  obtain ⟨hterm, hchildren⟩ := termsInPlace_iff.1 h
  rw [termsInPlace_iff, isTerm_substitute, takesTerms_substitute, children_substitute,
    List.forall_mem_map]
  refine ⟨hterm, fun p hp => ?_⟩
  have hp' := hchildren p hp
  split
  · next ht => rwa [if_pos ht, ← isTerm_substitute a b .const] at hp'
  · next ht =>
    rw [if_neg ht] at hp'
    exact hp'.substitute a b
termination_by f
decreasing_by exact sizeOf_lt_of_mem_children hp

/-- The rules leave terms where they are. -/
theorem inherited_termsInPlace : Inherited TermsInPlace where
  not := by
    intro p
    refine ⟨fun h => h.of_mem_children rfl (List.mem_singleton_self p), fun h => ?_⟩
    exact termsInPlace_of_forall_children rfl rfl (List.forall_mem_singleton.2 h)
  root h := h.of_mem_children rfl (List.mem_singleton_self _)
  binary := by
    intro op p q
    constructor
    · intro h
      exact ⟨h.of_mem_children rfl List.mem_cons_self,
        h.of_mem_children rfl (List.mem_cons_of_mem p (List.mem_singleton_self q))⟩
    · rintro ⟨hp, hq⟩
      refine termsInPlace_of_forall_children rfl rfl ?_
      exact List.forall_mem_cons.2 ⟨hp, List.forall_mem_singleton.2 hq⟩
  quantified := by
    intro k l x p h
    have hp := h.of_mem_children rfl (List.mem_singleton_self p)
    have hnot : TermsInPlace (.not p) :=
      termsInPlace_of_forall_children rfl rfl (List.forall_mem_singleton.2 hp)
    exact termsInPlace_of_forall_children rfl rfl (List.forall_mem_singleton.2 hnot)
  body h := h.of_mem_children rfl (List.mem_singleton_self _)
  substitute a b h := h.substitute a b

theorem TermsInPlace.unrooted {f : Formula} (h : f.TermsInPlace) : f.unrooted.TermsInPlace := by
  induction f with
  | root p ih => exact ih (inherited_termsInPlace.root h)
  | _ => exact h

/-- There is a rule for every formula with its terms in place. -/
theorem TermsInPlace.decompose_ne {f : Formula} (h : f.TermsInPlace) :
    f.decompose ≠ .unexpected := by
  intro hd
  have hnot : ¬f.decompose.IsPropositional := hd ▸ id
  cases f with
  | term k s => cases h.1
  | identity p q =>
    -- both sides are terms, so that both have symbols
    obtain ⟨k, s, rfl⟩ := isTerm_iff.1 (h.isTerm rfl List.mem_cons_self)
    obtain ⟨l, t, rfl⟩ :=
      isTerm_iff.1 (h.isTerm rfl (List.mem_cons_of_mem _ (List.mem_singleton_self q)))
    simp only [decompose, symbol] at hd
    split at hd <;> cases hd
  | quantified k x p =>
    by_cases hx : p.mentions x
    · rw [decompose_of_mentions hx] at hd
      cases k <;> cases hd
    · rw [decompose_of_not_mentions hx] at hd
      cases hd
  | _ => exact hnot (isPropositional_decompose (by simp) (by simp) (by simp))

end Formula

/-! ## Failures -/

namespace Expansion

variable {s s' : Expansion} {f : Formula} {requeues : Bool}

/-- What the formula at the root has, a formula that is dispatched with open leaves below it has
inherited. -/
theorem Steps.formula_of_open {P : Formula → Prop} (hP : Formula.Inherited P) (h : Steps s s')
    (h₀ : Begins s f requeues) (hf : P f.unrooted) {k : Nat} {m : Node}
    (hL : s'.tableau.openLeavesBelow k ≠ []) (hm : s'.tableau.node? k = some m) : P m.formula := by
  obtain ⟨l, hl⟩ := List.exists_mem_of_ne_nil _ hL
  obtain ⟨hleaf, hkey, -⟩ := (mem_openLeavesBelow (h.valid h₀.valid).toCoherent).1 hl
  exact h.forall_formula hP h₀ hf l hleaf _ (formula_mem_path hkey hm)

/-- A run fails for want of a rule, and only over terms out of place. -/
theorem Begins.failure (h₀ : Begins s f requeues) {made remaining : Nat} {cause : TableauError}
    (h : (s.run made remaining).outcome = .error cause) :
    cause = .unexpectedKind ∧ ¬f.TermsInPlace := by
  obtain ⟨s', hsteps, hend⟩ := run_ends h₀.valid made remaining
  generalize s.run made remaining = r at h hend
  cases hend with
  | failed ha hL hm hd =>
    cases h
    refine ⟨rfl, fun hf => ?_⟩
    exact (hsteps.formula_of_open Formula.inherited_termsInPlace h₀ hf.unrooted hL hm).decompose_ne hd
  | _ => cases h

end Expansion

namespace Context

theorem expand_failure {ctx : Context} {f : Formula} {e : Error}
    (h : (ctx.expand (.start f)).2.2 = .error e) :
    e = .tableau .unexpectedKind ∧ ¬f.TermsInPlace := by
  obtain ⟨s₀, h₀, hrun⟩ := expand_eq f ctx.settings.requeueUniversals.value
  obtain ⟨herror, hok⟩ := hrun ctx rfl _ rfl
  cases hout : (s₀.run ctx.counters.dispatches
      (ctx.settings.tableauLimit.value - ctx.counters.dispatches)).outcome with
  | ok status =>
    obtain ⟨ctx', hexpand, -⟩ := hok status hout
    rw [hexpand] at h
    cases h
  | error cause =>
    rw [herror cause hout] at h
    cases h
    obtain ⟨rfl, hf⟩ := h₀.failure hout
    exact ⟨rfl, hf⟩

theorem buildTableau_snd (ctx : Context) (f : Formula) :
    (ctx.buildTableau f).2 =
      (ctx.reset.expand (.start f)).2.2.map fun _ => (ctx.reset.expand (.start f)).2.1 := by
  unfold buildTableau
  split <;> simp [*, Except.map]

theorem checkArgument_snd (ctx : Context) (premises : List Formula) (conclusion : Formula) :
    (ctx.checkArgument premises conclusion).2 =
      (ctx.reset.expand (.start (counterexample premises conclusion))).2.2.map
        Report.ofCounterexample := by
  unfold checkArgument
  split <;> simp [*, Except.map]

theorem exists_of_termsInPlace (ctx : Context) {f : Formula} (h : f.TermsInPlace) :
    ∃ report, (ctx.expand (.start f)).2.2 = .ok report := by
  cases hexpand : (ctx.expand (.start f)).2.2 with
  | ok report => exact ⟨report, rfl⟩
  | error e => exact absurd h (expand_failure hexpand).2

/-- The one error of a tableau is that a formula has no rule, and with its terms in place every
formula and every argument has a verdict. -/
theorem tableau_errors (ctx : Context) :
    (∀ f e, (ctx.buildTableau f).2 = .error e → e = .tableau .unexpectedKind) ∧
    (∀ f, f.TermsInPlace → ∃ t, (ctx.buildTableau f).2 = .ok t) ∧
    ∀ premises conclusion, (∀ f ∈ conclusion :: premises, f.TermsInPlace) →
      ∃ report, (ctx.checkArgument premises conclusion).2 = .ok report := by
  refine ⟨fun f e h => ?_, fun f hf => ?_, fun premises conclusion h => ?_⟩
  · rw [buildTableau_snd] at h
    cases hexpand : (ctx.reset.expand (.start f)).2.2 with
    | ok report =>
      rw [hexpand] at h
      cases h
    | error cause =>
      rw [hexpand] at h
      cases h
      exact (expand_failure hexpand).1
  · obtain ⟨report, hexpand⟩ := exists_of_termsInPlace ctx.reset hf
    exact ⟨_, by rw [buildTableau_snd, hexpand]; rfl⟩
  · have hf : (counterexample premises conclusion).TermsInPlace :=
      Formula.inherited_termsInPlace.counterexample fun f hf => (h f hf).unrooted
    obtain ⟨report, hexpand⟩ := exists_of_termsInPlace ctx.reset hf
    exact ⟨_, by rw [checkArgument_snd, hexpand]; rfl⟩

/-- A term alone has no rule; a formula with quantifiers and an identity has a tableau, also as the
conclusion of an argument. -/
theorem tableau_errors_identity :
    let f : Formula := .all 'x' (.or (.predicate 'F' [.var 'x']) (.identity (.var 'x') (.const 'a')))
    let ctx : Context := {}
    (ctx.buildTableau (.not (.not (.var 'x')))).2 = .error (.tableau .unexpectedKind) ∧
    (f.TermsInPlace ∧ ∃ t, (ctx.buildTableau (.root f)).2 = .ok t) ∧
    ∃ report, (ctx.checkArgument [.root f] (.ex 'y' f)).2 = .ok report := by
  intro f ctx
  obtain ⟨hcause, hbuild, hcheck⟩ := tableau_errors ctx
  have hfails : (ctx.buildTableau (.not (.not (.var 'x')))).2.isOk = false := by decide +kernel
  refine ⟨?_, ⟨by decide, hbuild _ (by decide)⟩, hcheck _ _ (by decide)⟩
  cases h : (ctx.buildTableau (.not (.not (.var 'x')))).2 with
  | ok t =>
    rw [h] at hfails
    cases hfails
  | error e => rw [hcause _ _ h]

end Context

end Sequitur
