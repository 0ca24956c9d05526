import Sequitur.Argument
import Sequitur.Proofs.Semantics.Likeness
import Sequitur.Proofs.Tableau.Descent

/-!
# Soundness of tableaux

A rule makes of a branch that is true in some structure at least one that is true in a structure with
the same domain (`Path.exists_true_of_grow`): the structure changes only where a fresh constant is
given a value. A closed branch is true in none (`Path.isClosed_eq_false`). So what is at the root of a
closed tableau is true in no structure, and an argument whose counterexample is at the root is valid.

On a branch truth is that of `Interpretation.Reads`, where a variable belongs to its outermost
quantifier. For sentences that repeat no variable it is truth proper (`Context.not_holds_of_expand`),
for others it need not be.
-/

namespace Sequitur

open Tableau Expand Expansion

universe u

variable {D : Type u} {v : Char → D} {p q : Path} {f : Formula} {c : Char} {others : List Formula}

namespace Path

/-- Whether every formula of a branch is true. -/
def IsTrue (p : Path) (I : Interpretation D) (v : Char → D) : Prop :=
  ∀ f ∈ p.formulas, I.Reads ∅ v f

/-! ## Closed branches -/

theorem reads_of_isTrivialIdentity {I : Interpretation D} (hf : f.Sentence)
    (h : f.isTrivialIdentity) (hrefl : ∀ d, I.same d d) : I.Reads ∅ v f := by
  cases f with
  | identity t u =>
    obtain ⟨a, rfl, -⟩ := hf.1.exists_const
    obtain ⟨b, rfl, -⟩ := hf.2.exists_const
    obtain rfl : a = b := by simpa [Formula.isTrivialIdentity, Formula.symbol] using h
    exact hrefl _
  | _ => exact absurd h Bool.false_ne_true

theorem isClosed_eq_false {I : Interpretation D} (hp : ∀ f ∈ p.formulas, f.Sentence)
    (hI : I.same = Eq) (htrue : p.IsTrue I v) : p.isClosed = false := by
  have hsymm : I.Symmetric := fun a b h => by
    rw [hI] at h ⊢
    exact h.symm
  rw [Bool.eq_false_iff]
  intro hclosed
  rcases isClosed_iff.1 hclosed with h | ⟨g, hg, htrivial⟩ | ⟨f, g, hf, hg, -, -, hlike⟩
  · exact htrue _ h
  · have hsg : g.Sentence := hp (.not g) hg
    exact htrue _ hg (reads_of_isTrivialIdentity hsg htrivial fun d => by rw [hI])
  · have hsg : g.Sentence := hp (.not g) hg
    have hlike' := I.reads_of_structurallyEquals hsymm hsg.lettered (hp f hf).lettered hlike
    exact htrue _ hg ((hlike' ∅ v).2 (htrue f hf))

/-! ## Rules -/

section Rules

variable {I : Interpretation D} {K : Char → Prop}

theorem IsTrue.stack {fs : List Formula} (hp : p.IsTrue I v) (h : ∀ g ∈ fs, I.Reads ∅ v g) :
    (p.stack fs).IsTrue I v :=
  fun g hg => (mem_of_mem_stack hg).elim (hp g) (h g)

theorem IsTrue.push (hp : p.IsTrue I v) (h : I.Reads ∅ v f) : (p.push f).IsTrue I v :=
  List.forall_mem_cons.2 ⟨h, hp⟩

/-- A fresh constant can be given any value. -/
theorem IsTrue.assign (hp : ∀ f ∈ p.formulas, f.Sentence) (hc : ∀ f ∈ p.formulas, c ∉ f.constants)
    (htrue : p.IsTrue I v) (d : D) : p.IsTrue (I.assign c d) v := fun g hg =>
  (I.reads_assign (hp g hg) (hc g hg) d ∅ v).2 (htrue g hg)

/-- Where an identity is true, what it replaces and what it puts in have the same value. -/
theorem FormedBut.equals_of_replacement (hp : p.FormedBut K) (hI : I.same = Eq)
    (htrue : p.IsTrue I v) (hf : f ∈ p.formulas) {a b target replacement : Char} {g : Formula}
    (hd : f.decompose = .replace a b) (hr : replacement? a b g = some (target, replacement)) :
    I.constant target = I.constant replacement ∧ isConstantSymbol target := by
  obtain ⟨rfl, hca, hcb⟩ := hp.identity hf hd
  have hab : I.constant a = I.constant b := by
    have hsame : I.same (I.constant a) (I.constant b) := htrue _ hf
    rwa [hI] at hsame
  rcases (replacement?_eq_some hr).2 with ⟨rfl, rfl⟩ | ⟨rfl, rfl⟩
  · exact ⟨hab, hca⟩
  · exact ⟨hab.symm, hcb⟩

/-- One of the branches that a rule makes of a true branch is true, with a value for the constant of a
witness if that is not one of those that the branch may be missing. -/
theorem exists_true_of_grow (hp : p.FormedBut K) (ha : p.Admits f c others)
    (hK : ∀ x body, f.decompose = .witness x body → ¬K c) (hI : I.same = Eq)
    (htrue : p.IsTrue I v) : ∃ q ∈ p.grow c others f.decompose,
      ∃ J : Interpretation D, J.same = Eq ∧ q.IsTrue J v := by
  have hf := hp.sentence f ha.mem
  have htruth := Formula.truth_of_reads I v hf (htrue f ha.mem)
  cases hd : f.decompose with
  | nothing => exact ⟨p, List.mem_singleton_self p, I, hI, htrue⟩
  | unexpected => exact ⟨p, List.mem_singleton_self p, I, hI, htrue⟩
  | stack fs =>
    rw [hd] at htruth
    exact ⟨_, List.mem_singleton_self _, I, hI, htrue.stack htruth⟩
  | split left lefts right rights =>
    rw [hd] at htruth
    rcases htruth with h | h
    · obtain ⟨hleft, hlefts⟩ := List.forall_mem_cons.1 h
      exact ⟨_, List.mem_cons_self, I, hI, (htrue.push hleft).stack hlefts⟩
    · obtain ⟨hright, hrights⟩ := List.forall_mem_cons.1 h
      exact ⟨_, List.mem_cons_of_mem _ List.mem_cons_self, I, hI, (htrue.push hright).stack hrights⟩
  | witness x body =>
    rw [hd] at htruth
    obtain ⟨d, hbody⟩ := htruth
    have hfresh : ∀ g ∈ p.formulas, c ∉ g.constants := fun g hg hcg =>
      (hp.covers g hg c hcg).elim (ha.fresh x body hd).2 (hK x body hd)
    obtain ⟨rfl, -⟩ := Formula.eq_of_decompose_witness hd
    have hconst : c ∉ body.constants := hfresh (.ex x body) ha.mem
    refine ⟨_, List.mem_singleton_self _, I.assign c d, hI, fun g hg => ?_⟩
    rcases mem_of_mem_witness hg with hg | ⟨rfl, -⟩
    · exact htrue.assign hp.sentence hfresh d g hg
    · have hx := hf.2.const_not_mem_terms hf.1
      exact (I.reads_assign_substitute hf.2 hx hconst d ∅ v).2 hbody
  | instances x body =>
    rw [hd] at htruth
    obtain ⟨rfl, -⟩ := Formula.eq_of_decompose_instances hd
    refine ⟨_, List.mem_singleton_self _, I, hI, fun g hg => ?_⟩
    rcases mem_of_mem_instantiateEach hg with hg | ⟨e, -, rfl⟩
    · exact htrue g (formulas_seed p ▸ hg)
    · have hx := hf.2.const_not_mem_terms hf.1
      exact (I.reads_substitute hx ∅ v).2 (htruth _)
  | replace a b =>
    refine ⟨_, List.mem_singleton_self _, I, hI, fun g hg => ?_⟩
    rcases mem_of_mem_replaceEach hg with hg | ⟨h, hh, target, replacement, hr, rfl⟩
    · exact htrue g hg
    · obtain ⟨heq, htarget⟩ := hp.equals_of_replacement hI htrue ha.mem hd hr
      have hs := hp.sentence h (ha.copied h hh)
      exact (I.reads_substitute_of_eq heq (hs.var_not_mem_terms htarget) ∅ v).2
        (htrue h (ha.copied h hh))

end Rules

end Path

/-! ## Runs -/

namespace Expansion

/-- Whether some branch is true in a structure over the domain. -/
def Satisfiable (s : Expansion) (v : Char → D) : Prop :=
  ∃ l, s.tableau.IsLeaf l ∧ ∃ I : Interpretation D, I.same = Eq ∧ (s.tableau.path l).IsTrue I v

variable {s s' : Expansion}

theorem Step.satisfiable (h : Step s s') (hs : s.Valid)
    (hformed : ∀ l, s.tableau.IsLeaf l → (s.tableau.path l).Formed) (hsat : s.Satisfiable v) :
    s'.Satisfiable v := by
  obtain ⟨l, hl, I, hI, htrue⟩ := hsat
  rcases h.reaches hs hl with ⟨hl', hp⟩ | ⟨f, c, others, ha, hall⟩
  · exact ⟨l, hl', I, hI, hp ▸ htrue⟩
  · obtain ⟨q, hq, J, hJ, htrue'⟩ := Path.exists_true_of_grow
      (Path.Formed.formedBut_iff.2 (hformed l hl)) ha (fun _ _ _ => id) hI htrue
    obtain ⟨l', hl', rfl⟩ := hall q hq
    exact ⟨l', hl', J, hJ, htrue'⟩

theorem Steps.satisfiable {requeues : Bool} (h : Steps s s') (h₀ : Begins s f requeues)
    (hf : f.Sentence) (hsat : s.Satisfiable v) : s'.Satisfiable v := by
  induction h with
  | refl => exact hsat
  | tail hsteps hstep ih =>
    exact hstep.satisfiable (Steps.valid hsteps h₀.valid) (Steps.formed hsteps h₀ hf) ih

theorem Satisfiable.not_allClosed (hsat : s.Satisfiable v)
    (hformed : ∀ l, s.tableau.IsLeaf l → (s.tableau.path l).Formed) : ¬s.AllClosed := by
  obtain ⟨l, hl, I, hI, htrue⟩ := hsat
  intro hall
  have hopen := Path.isClosed_eq_false (hformed l hl).sentence hI htrue
  exact Bool.false_ne_true (hopen ▸ hall l hl)

end Expansion

/-! ## Verdicts -/

/-- If the expansion of a sentence ends with every branch closed, no structure makes the sentence true
as the rules read it. -/
theorem Context.not_reads_of_expand {ctx ctx' : Context} {t : Tableau} (hf : f.Sentence)
    (h : ctx.expand (.start f) = (ctx', t, .ok .closed)) (S : Structure D) (v : Char → D) :
    ¬S.reading.Reads ∅ v f := by
  intro hreads
  obtain ⟨s₀, s, h₀, hsteps, ⟨e, herror⟩ | ⟨c', status, hexpand, hreport, -⟩⟩ := ctx.expand_spec f
  · rw [h] at herror
    cases herror
  · have hs := hsteps.valid h₀.valid
    have hformed := hsteps.formed h₀ hf
    rw [h] at hexpand
    obtain ⟨rfl, rfl, hclosed⟩ : ctx' = c' ∧ _ ∧ Report.closed = c'.report := by
      simpa using hexpand
    have hall : s.AllClosed :=
      (verdict_eq_closed_iff hs.toCoherent status).1 (hreport ▸ hclosed.symm)
    refine (hsteps.satisfiable h₀ hf (v := v) ?_).not_allClosed hformed hall
    refine ⟨root, h₀.leaf, S.reading, rfl, ?_⟩
    rw [h₀.path]
    refine List.forall_mem_singleton.2 ?_
    rw [Interpretation.reads_unrooted]
    exact hreads

theorem Context.not_holds_of_expand {ctx ctx' : Context} {t : Tableau} (hf : f.Standard)
    (h : ctx.expand (.start f) = (ctx', t, .ok .closed)) (S : Structure D) (v : Char → D) :
    ¬S.Holds v f := by
  intro hholds
  exact not_reads_of_expand hf.1 h S v ((Interpretation.reads_iff_holds _ hf.2 v).2 hholds)

/-! ## Arguments -/

/-- What the connectives hand down holds of the counterexample if it holds of the premises and of the
conclusion. -/
theorem Formula.Hereditary.counterexample {P : Formula → Prop} (hP : Hereditary P)
    {premises : List Formula} {conclusion : Formula}
    (h : ∀ f ∈ conclusion :: premises, P f.unrooted) : P (counterexample premises conclusion) := by
  obtain ⟨hconclusion, hpremises⟩ := List.forall_mem_cons.1 h
  clear h
  induction premises with
  | nil => exact hP.not.2 hconclusion
  | cons p ps ih =>
    obtain ⟨hp, hps⟩ := List.forall_mem_cons.1 hpremises
    exact hP.binary.2 ⟨hp, ih hps⟩

theorem Formula.Standard.unrooted (h : f.Standard) : f.unrooted.Standard := by
  induction f with
  | root g ih => exact ih h
  | _ => exact h

theorem standard_counterexample {premises : List Formula} {conclusion : Formula}
    (h : ∀ f ∈ conclusion :: premises, f.unrooted.Standard) :
    (counterexample premises conclusion).Standard :=
  ⟨Formula.hereditary_sentence.counterexample fun f hf => (h f hf).1,
    Formula.hereditary_unrepeated.counterexample fun f hf => (h f hf).2⟩

/-- A verdict on an argument is one on the tableau of its counterexample. -/
theorem Context.expand_of_checkArgument {ctx : Context} {premises : List Formula}
    {conclusion : Formula} {r : Report} (h : (ctx.checkArgument premises conclusion).2 = .ok r) :
    ∃ ctx' t r', ctx.reset.expand (.start (counterexample premises conclusion)) = (ctx', t, .ok r') ∧
      r'.ofCounterexample = r := by
  rw [checkArgument] at h
  split at h
  · cases h
  · next c₁ t₁ r' hexpand => exact ⟨c₁, t₁, r', hexpand, Except.ok.inj h⟩

theorem Structure.holds_unrooted (S : Structure D) (v : Char → D) (f : Formula) :
    S.Holds v f.unrooted ↔ S.Holds v f := by
  induction f with
  | root g ih => exact ih
  | _ => exact Iff.rfl

/-- The counterexample says that the premises are true and the conclusion is not, by any notion of
truth that reads negations and conjunctions as usual. -/
theorem counterexample_iff {T : Formula → Prop} (hroot : ∀ f, T f.unrooted ↔ T f)
    (hnot : ∀ f, T (.not f) ↔ ¬T f) (hand : ∀ f g, T (.and f g) ↔ T f ∧ T g)
    (premises : List Formula) (conclusion : Formula) :
    T (counterexample premises conclusion) ↔ (∀ p ∈ premises, T p) ∧ ¬T conclusion := by
  induction premises with
  | nil =>
    refine (hnot _).trans ((not_congr (hroot conclusion)).trans ?_)
    exact ⟨fun h => ⟨fun _ hp => absurd hp List.not_mem_nil, h⟩, And.right⟩
  | cons p ps ih =>
    refine (hand _ _).trans ((and_congr (hroot p) ih).trans ?_)
    rw [List.forall_mem_cons, and_assoc]

theorem Structure.holds_counterexample (S : Structure D) (v : Char → D) (premises : List Formula)
    (conclusion : Formula) : S.Holds v (counterexample premises conclusion) ↔
      (∀ p ∈ premises, S.Holds v p) ∧ ¬S.Holds v conclusion :=
  counterexample_iff (S.holds_unrooted v) (fun _ => Iff.rfl) (fun _ _ => Iff.rfl) premises conclusion

theorem Report.eq_closed_of_ofCounterexample {r : Report} (h : r.ofCounterexample = .valid) :
    r = .closed := by
  cases r <;> simp [ofCounterexample] at h ⊢

theorem Report.eq_unclosed_of_ofCounterexample {r : Report} (h : r.ofCounterexample = .invalid) :
    r = .unclosed := by
  cases r <;> simp [ofCounterexample] at h ⊢

/-- A standard sentence whose tableau closes is true in no structure, and an argument that is found
valid is valid: its conclusion is true wherever its premises are. -/
theorem Context.tableau_sound (ctx : Context) :
    (∀ w : Formula, w.Standard → ∀ ctx' t, ctx.buildTableau w = (ctx', .ok t) →
      ctx'.report = .closed → ∀ (S : Structure D) (v : Char → D), ¬S.Holds v w) ∧
    ∀ (premises : List Formula) (conclusion : Formula), (∀ p ∈ premises, p.Standard) →
      conclusion.Standard → (ctx.checkArgument premises conclusion).2 = .ok .valid →
      ∀ (S : Structure D) (v : Char → D), (∀ p ∈ premises, S.Holds v p) → S.Holds v conclusion := by
  refine ⟨fun w hw ctx' t hbuild hreport S v => ?_, fun premises conclusion hp hc hcheck S v hS => ?_⟩
  · have hexpand := expand_of_buildTableau hbuild
    rw [hreport] at hexpand
    exact not_holds_of_expand hw hexpand S v
  · obtain ⟨ctx', t, r, hexpand, hr⟩ := expand_of_checkArgument hcheck
    obtain rfl := Report.eq_closed_of_ofCounterexample hr
    have hstandard := standard_counterexample (List.forall_mem_cons.2
      ⟨hc.unrooted, fun p hmem => (hp p hmem).unrooted⟩)
    by_contra hnot
    exact not_holds_of_expand hstandard hexpand S v
      ((S.holds_counterexample v premises conclusion).2 ⟨hS, hnot⟩)

/-- That something is `F` and nothing is has a closed tableau; and if one thing is `R` to all, then to
each there is one that is `R` to it. -/
theorem Context.tableau_sound_quantifiers :
    (∃ ctx' t, ({} : Context).buildTableau (.and (.ex 'x' (.predicate 'F' [.var 'x']))
        (.all 'y' (.not (.predicate 'F' [.var 'y'])))) = (ctx', .ok t) ∧ ctx'.report = .closed ∧
      ∀ (S : Structure Nat) (v : Char → Nat), ¬S.Holds v (.and (.ex 'x' (.predicate 'F' [.var 'x']))
        (.all 'y' (.not (.predicate 'F' [.var 'y']))))) ∧
    ∀ (S : Structure Nat) (v : Char → Nat),
      S.Holds v (.ex 'x' (.all 'y' (.predicate 'R' [.var 'x', .var 'y']))) →
        S.Holds v (.all 'y' (.ex 'x' (.predicate 'R' [.var 'x', .var 'y']))) := by
  refine ⟨?_, fun S v hp => ?_⟩
  · obtain ⟨t, hbuild⟩ := exists_of_isOk_buildTableau (c := {})
      (f := .and (.ex 'x' (.predicate 'F' [.var 'x'])) (.all 'y' (.not (.predicate 'F' [.var 'y']))))
      (by decide +kernel)
    refine ⟨_, t, hbuild, by decide +kernel, ?_⟩
    exact (tableau_sound {}).1 _ (by decide) _ t hbuild (by decide +kernel)
  · exact (tableau_sound {}).2 [.ex 'x' (.all 'y' (.predicate 'R' [.var 'x', .var 'y']))] _ (by decide)
      (by decide) (by decide +kernel) S v (List.forall_mem_singleton.2 hp)

end Sequitur
