import Sequitur.Proofs.Tableau.Saturation
import Sequitur.Proofs.Tableau.Soundness
import Sequitur.Proofs.Tableau.Weight

/-!
# Completeness of tableaux

A saturated branch that is open and has no wrappers is true in every interpretation that agrees with
its atomic formulas and in which its constants name everything (`Path.Finished.isTrue`). Without
identities there is such an interpretation: the things are the constants themselves, and what holds
of them is what stands on the branch (`Path.model`). So if an expansion finishes with an open branch,
what is at the root is true in the model of that branch.
-/

namespace Sequitur

open Tableau Expand Expansion

universe u

variable {D : Type u} {v : Char → D} {p : Path} {f g : Formula}

/-! ## Truth on a saturated branch -/

namespace Formula

theorem eq_of_decompose_nothing (h : f.decompose = .nothing) :
    f.isAtomic ∨ f = .falsum ∨ ∃ g, f = .not g ∧ (g.isAtomic ∨ g = .falsum) := by
  cases f with
  | not p =>
    refine .inr (.inr ⟨p, rfl, ?_⟩)
    cases p with
    | binary op p q => cases op <;> cases h
    | falsum => exact .inr rfl
    | atom s => exact .inl rfl
    | predicate s ps => exact .inl rfl
    | identity p q => exact .inl rfl
    | _ => cases h
  | binary op p q => cases op <;> cases h
  | quantified k x p =>
    by_cases hx : p.mentions x
    · rw [decompose_of_mentions hx] at h
      cases k <;> cases h
    · rw [decompose_of_not_mentions hx] at h
      cases h
  | falsum => exact .inr (.inl rfl)
  | root p => cases h
  | term k s => cases h
  | _ => exact .inl rfl

theorem Sentence.decompose_ne_unexpected (hf : f.Sentence) : f.decompose ≠ .unexpected := by
  cases f with
  | not p =>
    intro h
    exact (h ▸ isPropositional_decomposeNegation p : Decomposition.unexpected.IsPropositional)
  | identity p q =>
    obtain ⟨a, rfl, -⟩ := hf.1.exists_const
    obtain ⟨b, rfl, -⟩ := hf.2.exists_const
    rw [decompose]
    by_cases hab : a = b
    · simp [symbol, hab]
    · simp [symbol, hab]
  | quantified k x p =>
    by_cases hx : p.mentions x
    · rw [decompose_of_mentions hx]
      cases k <;> exact Decomposition.noConfusion
    · rw [decompose_of_not_mentions hx]
      exact Decomposition.noConfusion
  | binary op p q => cases op <;> exact Decomposition.noConfusion
  | term k s => exact hf.elim
  | _ => exact Decomposition.noConfusion

end Formula

namespace Path

variable {I : Interpretation D}

/-- A formula is true if the branch meets its rule and all lighter formulas on the branch are true. -/
theorem reads_of_meets (hf : f.Sentence) (hroot : f.Lacks .root) (hd : f.decompose.IsFaithful)
    (hp : p.Formed) (hmeets : p.Meets f.decompose)
    (hnamed : (∃ c, c ∈ p.constants) → ∀ d, ∃ c ∈ p.constants, I.constant c = d)
    (hless : ∀ g : Formula, p.contains g → g.Sentence → g.Lacks .root →
      g.weight false < f.weight false → I.Reads ∅ v g) : I.Reads ∅ v f := by
  have hlacks := Formula.inherited_lacks (k := .root) (.inl rfl)
  have hload := Formula.load_lt_weight (f := f) (by rintro k s rfl; exact hf)
  have hparts : ∀ fs ∈ f.decompose.alternatives, fs ⊆ f.decompose.parts →
      (∀ g ∈ fs, p.contains g) → ∀ g ∈ fs, I.Reads ∅ v g := by
    intro fs hfs hsub hcontains g hg
    refine hless g (hcontains g hg) (hf.parts (hsub hg)) ?_ ?_
    · exact hlacks.parts hroot (fun k x p he _ => hlacks.body (he ▸ hroot)) (hsub hg)
    · exact Nat.lt_of_le_of_lt (Formula.weight_le_load hg) (hload fs hfs)
  have hinstance : ∀ {k x body c}, f = .quantified k x body → [body] ∈ f.decompose.alternatives →
      c ∈ p.constants → p.contains (body.substitute x c .const) →
      I.Reads (insert x ∅) (Function.update v x (I.constant c)) body := by
    rintro k x body c rfl hbody hc hcontains
    refine (I.reads_substitute (hf.2.const_not_mem_terms hf.1) ∅ v).1 ?_
    refine hless _ hcontains (hf.instantiate (hp.symbol c hc)) ?_ ?_
    · exact hlacks.substitute x c (hlacks.body hroot)
    · rw [Formula.weight_substitute]
      exact hload [body] hbody
  rw [Formula.reads_iff_truth I v hf hd]
  cases he : f.decompose with
  | stack fs =>
    rw [he] at hmeets hparts
    exact hparts fs (List.mem_singleton_self _) (List.Subset.refl _) hmeets
  | split left lefts right rights =>
    rw [he] at hmeets hparts
    refine hmeets.imp (hparts _ List.mem_cons_self (List.subset_append_left _ _)) ?_
    exact hparts _ (List.mem_cons_of_mem _ List.mem_cons_self) (List.subset_append_right _ _)
  | witness x body =>
    rw [he] at hmeets hinstance
    obtain ⟨c, hc, hcontains⟩ := hmeets
    have hf := (Formula.eq_of_decompose_witness he).1
    exact ⟨I.constant c, hinstance hf (List.mem_singleton_self _) hc hcontains⟩
  | instances x body =>
    rw [he] at hmeets hinstance
    intro d
    obtain ⟨c, hc, rfl⟩ := hnamed hmeets.1 d
    have hf := (Formula.eq_of_decompose_instances he).1
    exact hinstance hf (List.mem_singleton_self _) hc (hmeets.2 c hc)
  | _ =>
    rw [he] at hd
    exact hd.elim

/-- A formula without a faithful rule is atomic, or denies what is, or is plainly true. -/
theorem reads_of_not_isFaithful (hf : f.Sentence) (hd : ¬f.decompose.IsFaithful) (hfalsum : f ≠ .falsum)
    (hpos : f.isAtomic → I.Reads ∅ v f)
    (hneg : ∀ g, f = .not g → g.isAtomic → ¬I.Reads ∅ v g) : I.Reads ∅ v f := by
  cases he : f.decompose with
  | nothing =>
    rcases Formula.eq_of_decompose_nothing he with h | h | ⟨g, rfl, h | rfl⟩
    · exact hpos h
    · exact absurd h hfalsum
    · exact hneg g rfl h
    · exact id
  | replace a b =>
    obtain ⟨t, u, rfl, -⟩ := Formula.eq_of_decompose_replace he
    exact hpos rfl
  | unexpected => exact absurd he hf.decompose_ne_unexpected
  | _ =>
    rw [he] at hd
    exact absurd trivial hd

/-- An open branch without wrappers on which nothing is left to do. -/
structure Finished (p : Path) : Prop where
  formed : p.Formed
  unwrapped : ∀ f ∈ p.formulas, f.Lacks .root
  saturated : p.Saturated
  isOpen : p.isClosed = false

/-- A finished branch is true wherever its atomic formulas are, and nothing that it denies, if its
constants name everything. -/
theorem Finished.isTrue (h : p.Finished) (hsymm : I.Symmetric)
    (hpos : ∀ f ∈ p.formulas, f.isAtomic → I.Reads ∅ v f)
    (hneg : ∀ g, .not g ∈ p.formulas → g.isAtomic → ¬I.Reads ∅ v g)
    (hnamed : (∃ c, c ∈ p.constants) → ∀ d, ∃ c ∈ p.constants, I.constant c = d) :
    p.IsTrue I v := by
  intro f hf
  induction hn : f.weight false using Nat.strongRecOn generalizing f with
  | _ n ih =>
    have hs := h.formed.sentence f hf
    by_cases hd : f.decompose.IsFaithful
    · refine reads_of_meets hs (h.unwrapped f hf) hd h.formed (h.saturated f hf) hnamed
        fun g hg hgs hgr hlt => ?_
      -- What the branch contains is structurally equal to what is on it, and as light.
      obtain ⟨e, he, hlike⟩ := contains_iff.1 hg
      have hlettered := (h.formed.sentence e he).lettered
      have hweight := Formula.weight_of_structurallyEquals hlettered hgs.lettered (h.unwrapped e he)
        hgr hlike false
      refine (I.reads_of_structurallyEquals hsymm hlettered hgs.lettered hlike ∅ v).1 ?_
      exact ih (e.weight false) (by omega) e he rfl
    · refine reads_of_not_isFaithful hs hd ?_ (hpos f hf) fun g hg => hneg g (hg ▸ hf)
      rintro rfl
      exact Bool.false_ne_true (h.isOpen ▸ isClosed_iff.2 (.inl hf))

/-! ## The model of a branch -/

/-- The constants of a branch, or one thing if it has none. -/
def Domain (p : Path) : Type :=
  { c : Char // c ∈ p.constants ∨ (∀ d, d ∉ p.constants) ∧ c = firstConstant }

/-- Some thing of the domain. -/
def origin (p : Path) : p.Domain :=
  match h : p.constants.members with
  | [] => ⟨firstConstant, .inr ⟨Symbols.isEmpty_iff.1 (List.isEmpty_iff.2 h), rfl⟩⟩
  | c :: _ => ⟨c, .inl (show c ∈ p.constants.members from h ▸ List.mem_cons_self)⟩

/-- The structure over the constants of a branch in which each of them denotes itself, and an atom or
predicate is true exactly if it stands on the branch. -/
def model (p : Path) : Structure p.Domain where
  constant c := if h : c ∈ p.constants then ⟨c, .inl h⟩ else p.origin
  relation s args :=
    .predicate s (args.map fun c => .const c.1) ∈ p.formulas ∨ args = [] ∧ .atom s ∈ p.formulas

theorem constant_model {c : Char} (h : c ∈ p.constants) : p.model.constant c = ⟨c, .inl h⟩ :=
  dif_pos h

theorem named_model (h : ∃ c, c ∈ p.constants) (d : p.Domain) :
    ∃ c ∈ p.constants, p.model.constant c = d := by
  obtain ⟨c, hc | ⟨hempty, -⟩⟩ := d
  · exact ⟨c, hc, constant_model hc⟩
  · obtain ⟨e, he⟩ := h
    exact absurd he (hempty e)

/-- The values of the parameters of a predicate are what the parameters are. -/
theorem map_value_model {ps : List Formula} (hps : ∀ t ∈ ps, t.IsTermIn ∅)
    (hc : ∀ t ∈ ps, ∀ c ∈ t.constants, c ∈ p.constants) (v : Char → p.Domain) :
    (ps.map (p.model.reading.value v)).map (fun c => Formula.const c.1) = ps := by
  rw [List.map_map]
  refine (List.map_congr_left fun t ht => ?_).trans (List.map_id ps)
  obtain ⟨c, rfl, -⟩ := (hps t ht).exists_const
  have hmem : c ∈ p.constants := hc _ ht c (by simp [Formula.mem_constants_iff])
  exact congrArg (fun d : p.Domain => Formula.const d.1) (constant_model hmem)

theorem reads_model_of_mem (hp : p.Formed) (hidentity : f.kind ≠ .identity) (hf : f ∈ p.formulas)
    (hatomic : f.isAtomic) (v : Char → p.Domain) : p.model.reading.Reads ∅ v f := by
  cases f with
  | atom s => exact .inr ⟨rfl, hf⟩
  | predicate s ps =>
    refine .inl ?_
    rw [map_value_model (hp.sentence _ hf).2 fun t ht c hc =>
      hp.covers _ hf c (Formula.mem_constants_of_mem_params ht hc)]
    exact hf
  | identity t u => exact absurd rfl hidentity
  | _ => exact absurd hatomic Bool.false_ne_true

/-- What is true in the model stands on the branch, with or without the form of a predicate. -/
theorem exists_of_reads_model (hidentity : f.kind ≠ .identity) (hf : f.Sentence)
    (hc : ∀ c ∈ f.constants, c ∈ p.constants) (hatomic : f.isAtomic) {v : Char → p.Domain}
    (h : p.model.reading.Reads ∅ v f) : ∃ g ∈ p.formulas, g.isAtomic ∧ f.plain = g.plain := by
  cases f with
  | atom s =>
    rcases h with h | ⟨-, h⟩
    · exact ⟨_, h, rfl, rfl⟩
    · exact ⟨_, h, rfl, rfl⟩
  | predicate s ps =>
    rcases h with h | ⟨hnil, h⟩
    · rw [map_value_model hf.2 fun t ht c hc' => hc c (Formula.mem_constants_of_mem_params ht hc')]
        at h
      exact ⟨_, h, rfl, rfl⟩
    · obtain rfl := List.map_eq_nil_iff.1 hnil
      exact ⟨_, h, rfl, rfl⟩
  | identity t u => exact absurd rfl hidentity
  | _ => exact absurd hatomic Bool.false_ne_true

/-- What an open branch denies, it does not have in any form. -/
theorem not_structurallyEquals_of_isOpen (hopen : p.isClosed = false) (hf : f ∈ p.formulas)
    (hg : .not g ∈ p.formulas) (hfatomic : f.isAtomic) (hgatomic : g.isAtomic) :
    ¬g.structurallyEquals f := by
  intro hlike
  have hclosed : p.isClosed := isClosed_iff.2 (.inr (.inr ⟨f, g, hf, hg, hfatomic, hgatomic, hlike⟩))
  exact Bool.false_ne_true (hopen.symm.trans hclosed)

theorem not_reads_model (hp : p.Formed) (hopen : p.isClosed = false) (hidentity : g.kind ≠ .identity)
    (hg : .not g ∈ p.formulas) (hatomic : g.isAtomic) (v : Char → p.Domain) :
    ¬p.model.reading.Reads ∅ v g := by
  intro h
  have hs : g.Sentence := hp.sentence (.not g) hg
  obtain ⟨f, hf, hfatomic, hplain⟩ := exists_of_reads_model hidentity hs
    (hp.covers (.not g) hg) hatomic h
  refine not_structurallyEquals_of_isOpen hopen hf hg hfatomic hatomic ?_
  rw [Formula.structurallyEquals, (Formula.canonical_eq_iff hs.lettered
    (hp.sentence f hf).lettered).2 hplain, beq_self_eq_true, Bool.true_or]

/-- A finished branch without identities is true in its model. -/
theorem Finished.isTrue_model (h : p.Finished) (hidentity : ∀ f ∈ p.formulas, f.Lacks .identity)
    (v : Char → p.Domain) : p.IsTrue p.model.reading v := by
  refine h.isTrue p.model.symmetric_reading ?_ ?_ named_model
  · exact fun f hf hatomic => reads_model_of_mem h.formed (hidentity f hf).kind_ne hf hatomic v
  · intro g hg hatomic
    have hlacks : g.Lacks .identity := (hidentity _ hg).of_mem_children (List.mem_singleton_self g)
    exact not_reads_model h.formed h.isOpen hlacks.kind_ne hg hatomic v

end Path

/-! ## Verdicts -/

/-- A standard sentence in which neither a wrapper nor an identity occurs. -/
def Formula.Relational (f : Formula) : Prop := f.Standard ∧ f.Lacks .root ∧ f.Lacks .identity

instance (f : Formula) : Decidable f.Relational :=
  inferInstanceAs (Decidable (f.Standard ∧ f.Lacks .root ∧ f.Lacks .identity))

theorem Formula.Relational.unrooted_eq (h : f.Relational) : f.unrooted = f := h.2.1.unrooted_eq

/-- If the expansion of a sentence finishes with an open branch, each such branch is saturated, has the
sentence on it, and all that is on it has what the rules hand down. -/
theorem Context.saturated_of_expand {ctx ctx' : Context} {t : Tableau} (hf : f.Sentence)
    (hwake : ∀ s₀ s, Begins s₀ f ctx.settings.requeueUniversals.value → Steps s₀ s → s.Wakeful)
    (h : ctx.expand (.start f) = (ctx', t, .ok .unclosed)) :
    (∃ l, t.IsLeaf l ∧ t.isClosed l = false) ∧
      ∀ l, t.IsLeaf l → t.isClosed l = false → f.unrooted ∈ (t.path l).formulas ∧
        (t.path l).Formed ∧ (t.path l).Saturated ∧ (t.path l).isClosed = false ∧
        ∀ {P : Formula → Prop}, Formula.HandsDown P → P f.unrooted →
          ∀ g ∈ (t.path l).formulas, P g := by
  obtain ⟨s₀, s, h₀, hsteps, ⟨e, herror⟩ | ⟨c', status, hexpand, hreport, hcomplete⟩⟩ :=
    ctx.expand_spec f
  · rw [h] at herror
    cases herror
  have hs := hsteps.valid h₀.valid
  rw [h] at hexpand
  obtain ⟨rfl, rfl, hunclosed⟩ : ctx' = c' ∧ _ ∧ Report.unclosed = c'.report := by
    simpa using hexpand
  obtain ⟨rfl, hnot⟩ :=
    (verdict_eq_unclosed_iff hs.toCoherent status).1 (hreport ▸ hunclosed.symm)
  have hagenda : s.agenda = [] := (hcomplete rfl).resolve_left hnot
  have hmark : ∀ l, s.tableau.IsLeaf l → s.tableau.isClosed l = (s.tableau.path l).isClosed :=
    fun l hl => isClosed_iff hs.toCoherent hl
  refine ⟨?_, fun l hl hopen => ?_⟩
  · obtain ⟨l, hl, hopen⟩ : ∃ l, s.tableau.IsLeaf l ∧ ¬(s.tableau.path l).isClosed := by
      simpa [AllClosed] using hnot
    exact ⟨l, hl, (hmark l hl).trans (Bool.eq_false_iff.2 hopen)⟩
  · have hopen' : (s.tableau.path l).isClosed = false := (hmark l hl).symm.trans hopen
    exact ⟨hsteps.mem_path h₀ l hl, hsteps.formed h₀ hf l hl,
      hsteps.saturated h₀ hf (fun s' => hwake s₀ s' h₀) hagenda hl hopen', hopen',
      fun hP hPf => hsteps.forall_handedDown hP h₀ hPf l hl⟩

/-- If the expansion of a sentence without wrappers finishes with an open branch, each such branch is
finished, has the sentence on it and all that is on it inherits from the sentence. -/
theorem Context.finished_of_expand {ctx ctx' : Context} {t : Tableau} (hf : f.Sentence)
    (hroot : f.Lacks .root)
    (hwake : ∀ s₀ s, Begins s₀ f ctx.settings.requeueUniversals.value → Steps s₀ s → s.Wakeful)
    (h : ctx.expand (.start f) = (ctx', t, .ok .unclosed)) :
    (∃ l, t.IsLeaf l ∧ t.isClosed l = false) ∧
      ∀ l, t.IsLeaf l → t.isClosed l = false → f ∈ (t.path l).formulas ∧ (t.path l).Finished ∧
        ∀ {P : Formula → Prop}, Formula.Inherited P → P f → ∀ g ∈ (t.path l).formulas, P g := by
  obtain ⟨hexists, hall⟩ := saturated_of_expand hf hwake h
  refine ⟨hexists, fun l hl hopen => ?_⟩
  obtain ⟨hmem, hformed, hsaturated, hopen', hhanded⟩ := hall l hl hopen
  rw [hroot.unrooted_eq] at hmem hhanded
  have hinherits : ∀ {P : Formula → Prop}, Formula.Inherited P → P f →
      ∀ g ∈ (t.path l).formulas, P g := fun hP => hhanded hP.handsDown
  exact ⟨hmem, ⟨hformed, hinherits (Formula.inherited_lacks (.inl rfl)) hroot, hsaturated, hopen'⟩,
    hinherits⟩

/-- If the expansion finishes with an open branch, all that is on it is true in its model. -/
theorem Context.holds_model_of_expand {ctx ctx' : Context} {t : Tableau} (hf : f.Relational)
    (hwake : ∀ s₀ s, Begins s₀ f ctx.settings.requeueUniversals.value → Steps s₀ s → s.Wakeful)
    (h : ctx.expand (.start f) = (ctx', t, .ok .unclosed)) :
    (∃ l, t.IsLeaf l ∧ t.isClosed l = false) ∧
      ∀ l, t.IsLeaf l → t.isClosed l = false → f ∈ (t.path l).formulas ∧
        ∀ g ∈ (t.path l).formulas, ∀ v, (t.path l).model.Holds v g := by
  obtain ⟨hexists, hall⟩ := finished_of_expand hf.1.1 hf.2.1 hwake h
  refine ⟨hexists, fun l hl hopen => ?_⟩
  obtain ⟨hmem, hfinished, hinherits⟩ := hall l hl hopen
  refine ⟨hmem, fun g hg v => ?_⟩
  have htrue := hfinished.isTrue_model (hinherits (Formula.inherited_lacks (.inr rfl)) hf.2.2) v g hg
  have hunrepeated := hinherits Formula.inherited_unrepeated hf.1.2 g hg
  exact (Interpretation.reads_iff_holds _ hunrepeated v).1 htrue

theorem Context.exists_holds_of_expand {ctx ctx' : Context} {t : Tableau} (hf : f.Relational)
    (hwake : ∀ s₀ s, Begins s₀ f ctx.settings.requeueUniversals.value → Steps s₀ s → s.Wakeful)
    (h : ctx.expand (.start f) = (ctx', t, .ok .unclosed)) :
    ∃ (D : Type) (S : Structure D) (v : Char → D), S.Holds v f := by
  obtain ⟨⟨l, hl, hopen⟩, hall⟩ := holds_model_of_expand hf hwake h
  obtain ⟨hmem, htrue⟩ := hall l hl hopen
  exact ⟨_, (t.path l).model, fun _ => (t.path l).origin, htrue f hmem _⟩

theorem relational_counterexample {premises : List Formula} {conclusion : Formula}
    (h : ∀ f ∈ conclusion :: premises, f.unrooted.Relational) :
    (counterexample premises conclusion).Relational := by
  refine ⟨standard_counterexample fun f hf => (h f hf).1, ?_, ?_⟩
  · exact (Formula.inherited_lacks (.inl rfl)).counterexample fun f hf => (h f hf).2.1
  · exact (Formula.inherited_lacks (.inr rfl)).counterexample fun f hf => (h f hf).2.2

/-- With dormant nodes woken, an open branch of a finished tableau is true in its own model, the formula
at the root with it; and an argument that is found invalid has a structure in which its premises are
true and its conclusion is not. -/
theorem Context.tableau_complete (ctx : Context) (hr : ctx.settings.requeueUniversals.value) :
    (∀ w : Formula, w.Relational → ∀ ctx' t, ctx.buildTableau w = (ctx', .ok t) →
      ctx'.report = .unclosed →
      (∀ l, t.IsLeaf l → t.isClosed l = false → w ∈ (t.path l).formulas ∧
        ∀ f ∈ (t.path l).formulas, ∀ v, (t.path l).model.Holds v f) ∧
      ∃ (D : Type) (S : Structure D) (v : Char → D), S.Holds v w) ∧
    ∀ (premises : List Formula) (conclusion : Formula),
      (∀ f ∈ conclusion :: premises, f.unrooted.Relational) →
      (ctx.checkArgument premises conclusion).2 = .ok .invalid →
      ∃ (D : Type) (S : Structure D) (v : Char → D),
        (∀ p ∈ premises, S.Holds v p) ∧ ¬S.Holds v conclusion := by
  have hwake : ∀ w s₀ s, Begins s₀ w ctx.reset.settings.requeueUniversals.value → Steps s₀ s →
      s.Wakeful := fun w s₀ s h₀ h => .inl ((h.requeues_eq.trans h₀.requeues).trans hr)
  refine ⟨fun w hw ctx' t hbuild hreport => ?_, fun premises conclusion h hcheck => ?_⟩
  · have hexpand := expand_of_buildTableau hbuild
    rw [hreport] at hexpand
    exact ⟨(holds_model_of_expand hw (hwake w) hexpand).2, exists_holds_of_expand hw (hwake w) hexpand⟩
  · obtain ⟨ctx', t, r, hexpand, hverdict⟩ := expand_of_checkArgument hcheck
    obtain rfl := Report.eq_unclosed_of_ofCounterexample hverdict
    obtain ⟨D, S, v, hS⟩ :=
      exists_holds_of_expand (relational_counterexample h) (hwake _) hexpand
    exact ⟨D, S, v, (S.holds_counterexample v premises conclusion).1 hS⟩

/-- The tableau of "something is not `F`, and all are `F` or `G`" has an open branch, and from
"something is `F`" and "something is `G`" it does not follow that something is both. -/
theorem Context.tableau_complete_disjunction :
    (∃ ctx' t, ({} : Context).buildTableau (.and (.ex 'x' (.not (.predicate 'F' [.var 'x'])))
        (.all 'y' (.or (.predicate 'F' [.var 'y']) (.predicate 'G' [.var 'y'])))) = (ctx', .ok t) ∧
      ctx'.report = .unclosed ∧
      (∀ l, t.IsLeaf l → t.isClosed l = false →
        ∀ f ∈ (t.path l).formulas, ∀ v, (t.path l).model.Holds v f) ∧
      ∃ (D : Type) (S : Structure D) (v : Char → D), S.Holds v
        (.and (.ex 'x' (.not (.predicate 'F' [.var 'x'])))
          (.all 'y' (.or (.predicate 'F' [.var 'y']) (.predicate 'G' [.var 'y']))))) ∧
    ∃ (D : Type) (S : Structure D) (v : Char → D),
      (∀ p ∈ [.ex 'x' (.predicate 'F' [.var 'x']), .ex 'x' (.predicate 'G' [.var 'x'])],
        S.Holds v p) ∧
      ¬S.Holds v (.ex 'x' (.and (.predicate 'F' [.var 'x']) (.predicate 'G' [.var 'x']))) := by
  refine ⟨?_, ?_⟩
  · obtain ⟨t, hbuild⟩ := exists_of_isOk_buildTableau (c := {})
      (f := .and (.ex 'x' (.not (.predicate 'F' [.var 'x'])))
        (.all 'y' (.or (.predicate 'F' [.var 'y']) (.predicate 'G' [.var 'y']))))
      (by decide +kernel)
    obtain ⟨hleaves, hsat⟩ := (tableau_complete {} rfl).1 _ (by decide) _ t hbuild
      (by decide +kernel)
    exact ⟨_, t, hbuild, by decide +kernel, fun l hl hopen => (hleaves l hl hopen).2, hsat⟩
  · exact (tableau_complete {} rfl).2
      [.ex 'x' (.predicate 'F' [.var 'x']), .ex 'x' (.predicate 'G' [.var 'x'])]
      (.ex 'x' (.and (.predicate 'F' [.var 'x']) (.predicate 'G' [.var 'x'])))
      (by decide) (by decide +kernel)

end Sequitur
