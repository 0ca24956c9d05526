import Sequitur.Argument
import Sequitur.Proofs.Derivation.Outcome
import Sequitur.Proofs.Tableau.Run

/-!
# Every run is accounted for

What a run reports and what it notes agree with each other and with how the run ended: a verdict comes
with no diagnostics, and a run without one notes the one resource that it lacked
(`Context.Accounts`, `Context.AccountsForSearch`). A run stays within its limit, and notes that it was
stopped by it only if it has used it up.
-/

namespace Sequitur

open Tableau Expand Expansion

/-! ## Expansions -/

namespace Expansion

variable {s : Expansion}

/-- An expansion makes no more dispatches than it may. If its limit stops it, it has made them all and
some branch is open. -/
theorem run_dispatches (s : Expansion) (made remaining : Nat) :
    (s.run made remaining).dispatches ≤ made + remaining ∧
      ((s.run made remaining).outcome = .ok .timeout →
        (s.run made remaining).dispatches = made + remaining ∧
          ¬(s.run made remaining).expansion.tableau.allClosedBelow root) := by
  fun_induction Expansion.run s made remaining with
  | case1 => exact ⟨Nat.le_add_right _ _, fun h => nomatch h⟩
  | case2 => exact ⟨Nat.le_add_right _ _, fun h => nomatch h⟩
  | case3 s made hopen => exact ⟨Nat.le_refl _, fun _ => ⟨rfl, hopen⟩⟩
  | case4 s made _ e rest _ t n s' _ ih =>
    obtain ⟨hle, htimeout⟩ := ih
    refine ⟨by omega, fun h => ?_⟩
    obtain ⟨heq, hopen⟩ := htimeout h
    exact ⟨by omega, hopen⟩
  | case5 => exact ⟨Nat.add_le_add_left (Nat.le_add_left 1 _) _, fun h => nomatch h⟩
  | case6 => exact ⟨Nat.add_le_add_left (Nat.le_add_left 1 _) _, fun h => nomatch h⟩

theorem not_allClosed_of_exhausted (hs : s.Coherent) {key : Nat}
    (hc : ∀ c ∈ constantSymbols, ∃ l ∈ s.tableau.openLeavesBelow key,
      c ∈ (s.tableau.path l).constants) : ¬s.AllClosed := by
  intro hclosed
  obtain ⟨l, hl, -⟩ := hc firstConstant (by decide)
  obtain ⟨hleaf, -, hopen⟩ := (mem_openLeavesBelow hs).1 hl
  exact Bool.false_ne_true (hopen.symm.trans (hclosed l hleaf))

/-- How an expansion that does not fail can end: it is complete, or it lacks a resource and some branch
is open. -/
theorem status_of_run (hs : s.Valid) {made remaining : Nat} {status : Status}
    (h : (s.run made remaining).outcome = .ok status) :
    IsTree { (s.run made remaining).expansion.tableau with status := status } ∧
      (status = .complete ∨
        (status = .timeout ∧ (s.run made remaining).dispatches = made + remaining ∨
          status = .constantsExhausted) ∧
        ¬hasAllClosed { (s.run made remaining).expansion.tableau with status := status }) := by
  obtain ⟨s', hsteps, hend⟩ := run_ends hs made remaining
  have hs' := (hsteps.valid hs).toCoherent
  have htree : ∀ status, IsTree { s'.tableau with status := status } := fun status =>
    ⟨hs'.tree.root, hs'.tree.parent, hs'.tree.child, hs'.tree.distinct⟩
  have hdispatches := (s.run_dispatches made remaining).2
  generalize s.run made remaining = r at h hend hdispatches
  cases hend with
  | closed _ =>
    cases h
    exact ⟨htree _, .inl rfl⟩
  | finished _ =>
    cases h
    exact ⟨htree _, .inl rfl⟩
  | timeout _ =>
    cases h
    obtain ⟨heq, hopen⟩ := hdispatches rfl
    refine ⟨htree _, .inr ⟨.inl ⟨rfl, heq⟩, ?_⟩⟩
    show ¬hasAllClosed { s'.tableau with status := .timeout }
    rw [hasAllClosed_iff hs', ← allClosedBelow_iff hs']
    exact hopen
  | exhausted _ _ _ hc =>
    cases h
    refine ⟨htree _, .inr ⟨.inr rfl, ?_⟩⟩
    show ¬hasAllClosed { s'.tableau with status := .constantsExhausted }
    rw [hasAllClosed_iff hs']
    exact not_allClosed_of_exhausted hs' hc
  | failed _ _ _ _ => cases h

end Expansion

/-! ## Accounts -/

namespace Context

/-- Whether a context accounts for the expansion that led to a tableau within a limit on dispatches,
where `shut` is the verdict if every branch is closed and `ajar` the verdict if the tableau is complete
and some branch is not. -/
structure Accounts (c : Context) (t : Tableau) (limit : Nat) (shut ajar : Report) : Prop where
  report_cases : c.report = shut ∨ c.report = ajar ∨ c.report = .unknown
  shut_iff : c.report = shut ↔ ∀ l, t.IsLeaf l → t.isClosed l
  status_of_shut : c.report = shut → t.status = .complete
  ajar_iff : c.report = ajar ↔ t.status = .complete ∧ ∃ l, t.IsLeaf l ∧ ¬t.isClosed l
  unknown_iff : c.report = .unknown ↔
    (t.status = .timeout ∧ c.diagnostics = [.tableauTimeout limit] ∧ c.counters.dispatches = limit) ∨
      (t.status = .constantsExhausted ∧ c.diagnostics = [.constantsExhausted])
  diagnostics_of_verdict : c.report ≠ .unknown → c.diagnostics = []
  dispatches_le : c.counters.dispatches ≤ limit

/-- The ways in which an expansion can end, and what is told of each. -/
inductive Ends (c : Context) (t : Tableau) (limit : Nat) (shut ajar : Report) : Prop
  | shut (h : t.hasAllClosed) (hstatus : t.status = .complete) (hreport : c.report = shut)
    (hdiagnostics : c.diagnostics = []) : Ends c t limit shut ajar
  | ajar (h : ¬t.hasAllClosed) (hstatus : t.status = .complete) (hreport : c.report = ajar)
    (hdiagnostics : c.diagnostics = []) : Ends c t limit shut ajar
  | timeout (h : ¬t.hasAllClosed) (hstatus : t.status = .timeout) (hreport : c.report = .unknown)
    (hdiagnostics : c.diagnostics = [.tableauTimeout limit])
    (hdispatches : c.counters.dispatches = limit) : Ends c t limit shut ajar
  | exhausted (h : ¬t.hasAllClosed) (hstatus : t.status = .constantsExhausted)
    (hreport : c.report = .unknown) (hdiagnostics : c.diagnostics = [.constantsExhausted]) :
    Ends c t limit shut ajar

variable {c : Context} {t : Tableau} {limit : Nat} {shut ajar : Report}

/-- Each way of ending decides everything that is to be accounted for. -/
theorem Ends.accounts (h : c.Ends t limit shut ajar) (ht : IsTree t) (hle : c.counters.dispatches ≤ limit)
    (hne : shut ≠ ajar) (hshut : shut ≠ .unknown) (hajar : ajar ≠ .unknown) :
    c.Accounts t limit shut ajar := by
  have hall := ht.hasAllClosed_iff
  have hsome : (∃ l, t.IsLeaf l ∧ ¬t.isClosed l) ↔ ¬t.hasAllClosed := by
    rw [hall]
    simp only [not_forall, exists_prop]
  constructor
  case report_cases => cases h <;> grind
  case shut_iff =>
    rw [← hall]
    cases h <;> grind
  case status_of_shut => cases h <;> grind
  case ajar_iff =>
    rw [hsome]
    cases h <;> grind
  case unknown_iff => cases h <;> grind
  case diagnostics_of_verdict => cases h <;> grind
  case dispatches_le => exact hle

/-- The expansion of a formula, as a new run, ends in one of the ways there are. -/
theorem ends_of_expand {ctx c : Context} {f : Formula} {t : Tableau} {r : Report}
    (h : ctx.reset.expand (.start f) = (c, t, .ok r)) :
    IsTree t ∧ c.counters.dispatches ≤ ctx.settings.tableauLimit.value ∧
      c.Ends t ctx.settings.tableauLimit.value .closed .unclosed := by
  obtain ⟨s, hseed, hs⟩ := seed_ok f ctx.settings.requeueUniversals.value
  have hle := (s.run_dispatches 0 ctx.settings.tableauLimit.value).1
  rw [Nat.zero_add] at hle
  unfold expand at h
  dsimp only [reset] at h
  rw [hseed] at h
  dsimp only [Nat.sub_zero] at h
  cases hout : (s.run 0 ctx.settings.tableauLimit.value).outcome with
  | error cause =>
    rw [hout] at h
    cases h
  | ok status =>
    rw [hout] at h
    obtain ⟨htree, hstatus⟩ := status_of_run hs.valid hout
    rw [Nat.zero_add] at hstatus
    rcases hstatus with rfl | ⟨⟨rfl, hdispatches⟩ | rfl, hopen⟩
    · cases h
      refine ⟨htree, hle, ?_⟩
      by_cases hall :
        hasAllClosed
          { (s.run 0 ctx.settings.tableauLimit.value).expansion.tableau with status := .complete }
      · exact .shut hall rfl (if_pos hall) rfl
      · exact .ajar hall rfl (if_neg hall) rfl
    · cases h
      refine ⟨htree, hle, .timeout hopen rfl (if_neg hopen) ?_ hdispatches⟩
      exact congrArg (fun n => [Diagnostic.tableauTimeout n]) hdispatches
    · cases h
      exact ⟨htree, hle, .exhausted hopen rfl (if_neg hopen) rfl⟩

theorem Ends.ofCounterexample (h : c.Ends t limit .closed .unclosed) :
    { c with report := c.report.ofCounterexample }.Ends t limit .valid .invalid := by
  cases h with
  | shut h hstatus hreport hdiagnostics =>
    exact .shut h hstatus (congrArg Report.ofCounterexample hreport) hdiagnostics
  | ajar h hstatus hreport hdiagnostics =>
    exact .ajar h hstatus (congrArg Report.ofCounterexample hreport) hdiagnostics
  | timeout h hstatus hreport hdiagnostics hdispatches =>
    exact .timeout h hstatus (congrArg Report.ofCounterexample hreport) hdiagnostics hdispatches
  | exhausted h hstatus hreport hdiagnostics =>
    exact .exhausted h hstatus (congrArg Report.ofCounterexample hreport) hdiagnostics

/-- An argument is checked by the tableau of its counterexample. -/
theorem accounts_of_checkArgument {ctx : Context} {premises : List Formula} {conclusion : Formula}
    {r : Report} (h : (ctx.checkArgument premises conclusion).2 = .ok r) :
    r = (ctx.checkArgument premises conclusion).1.report ∧
      ∃ t, (ctx.buildTableau (counterexample premises conclusion)).2 = .ok t ∧
        (ctx.checkArgument premises conclusion).1.Accounts t ctx.settings.tableauLimit.value
          .valid .invalid := by
  unfold checkArgument at h ⊢
  unfold buildTableau
  generalize hexpand : ctx.reset.expand (.start (counterexample premises conclusion)) = result at h ⊢
  obtain ⟨c, t, _ | report⟩ := result
  · cases h
  · cases h
    obtain ⟨htree, hle, hends⟩ := ends_of_expand hexpand
    obtain rfl := report_of_expand hexpand
    exact ⟨rfl, t, rfl, hends.ofCounterexample.accounts htree hle Report.noConfusion
      Report.noConfusion Report.noConfusion⟩

/-! ## Searches -/

/-- Whether a context accounts for a search for a derivation within a limit on passes, which has come
to a proof or to none. -/
structure AccountsForSearch (c : Context) (lines? : Option (List Line)) (limit : Nat) : Prop where
  report_cases : c.report = .proved ∨ c.report = .notProved ∨ c.report = .unknown
  proved_iff : c.report = .proved ↔ lines?.isSome
  proved_iff_diagnostics : c.report = .proved ↔ c.diagnostics = []
  notProved_iff : c.report = .notProved ↔ c.diagnostics = [.deductionExhausted c.counters.passes]
  unknown_iff : c.report = .unknown ↔
    (c.diagnostics = [.deductionTimeout limit] ∧ c.counters.passes = limit) ∨
      c.diagnostics = [.constantsExhausted]
  passes_le : c.counters.passes ≤ limit

theorem accounts_of_told {ending : Ending} {n : Nat}
    {result : Context × Except Error (Option (List Line))} (h : ending.Told n result) (hle : n ≤ limit)
    (htimeout : ending = .timeout → n = limit) :
    ∃ lines?, result.2 = .ok lines? ∧ result.1.AccountsForSearch lines? limit := by
  obtain ⟨lines?, hlines, hsome⟩ := h.lines
  have hpasses := h.passes
  have hreport := h.report
  have hdiagnostics := h.diagnostics
  refine ⟨lines?, hlines, ?_⟩
  constructor
  case passes_le => exact hpasses ▸ hle
  all_goals cases ending <;> grind [Ending.report, Ending.diagnostics]

theorem accounts_of_prove (ctx : Context) (premises : List Formula) (conclusion : Formula)
    (kind : ProofType) :
    ∃ lines?, (ctx.prove premises conclusion kind).2 = .ok lines? ∧
      (ctx.prove premises conclusion kind).1.AccountsForSearch lines?
        ctx.settings.deductionLimit.value := by
  obtain ⟨s, ending, -, -, hending, htold⟩ := ctx.prove_told ⟨premises, conclusion, kind⟩
  obtain ⟨hle, htimeout⟩ := s.run_passes 0 ctx.settings.deductionLimit.value
  rw [Nat.zero_add] at hle htimeout
  refine accounts_of_told htold hle fun h => htimeout ?_
  rw [hending, h]

/-! ## The account of a run -/

/-- Every run is accounted for by its report and diagnostics: the tableau of a formula, the check of an
argument by the tableau of its counterexample, and the search for a derivation. -/
theorem runs_accounted (ctx : Context) :
    (∀ w t, (ctx.buildTableau w).2 = .ok t →
      (ctx.buildTableau w).1.Accounts t ctx.settings.tableauLimit.value .closed .unclosed) ∧
    (∀ premises conclusion r, (ctx.checkArgument premises conclusion).2 = .ok r →
      r = (ctx.checkArgument premises conclusion).1.report ∧
        ∃ t, (ctx.buildTableau (counterexample premises conclusion)).2 = .ok t ∧
          (ctx.checkArgument premises conclusion).1.Accounts t ctx.settings.tableauLimit.value
            .valid .invalid) ∧
    ∀ premises conclusion kind, ∃ lines?, (ctx.prove premises conclusion kind).2 = .ok lines? ∧
      (ctx.prove premises conclusion kind).1.AccountsForSearch lines?
        ctx.settings.deductionLimit.value := by
  refine ⟨fun w t h => ?_, fun premises conclusion r h => accounts_of_checkArgument h,
    ctx.accounts_of_prove⟩
  obtain ⟨htree, hle, hends⟩ := ends_of_expand (expand_of_buildTableau (Prod.ext rfl h))
  exact hends.accounts htree hle Report.noConfusion Report.noConfusion Report.noConfusion

/-- A tableau that is stopped after one dispatch, of the counterexample to an argument that follows. -/
theorem runs_accounted_timeout :
    let ctx : Context := { settings := { tableauLimit := ⟨"tableau_limit", 1, wordMax, 1⟩ } }
    let p : Formula := .and (.atom 'A') (.atom 'B')
    ∃ t, (ctx.buildTableau (counterexample [p] (.atom 'A'))).2 = .ok t ∧ t.status = .timeout ∧
      (ctx.buildTableau (counterexample [p] (.atom 'A'))).1.Accounts t 1 .closed .unclosed ∧
      (ctx.checkArgument [p] (.atom 'A')).2 = .ok .unknown ∧
      ∃ t, (ctx.buildTableau (counterexample [p] (.atom 'A'))).2 = .ok t ∧
        (ctx.checkArgument [p] (.atom 'A')).1.Accounts t 1 .valid .invalid := by
  intro ctx p
  obtain ⟨htableau, hargument, -⟩ := ctx.runs_accounted
  obtain ⟨t, hbuild⟩ := exists_of_isOk_buildTableau
    (c := ctx) (f := counterexample [p] (.atom 'A')) (by decide +kernel)
  have hok : (ctx.buildTableau (counterexample [p] (.atom 'A'))).2 = .ok t := by rw [hbuild]
  have hstatus : (ctx.buildTableau (counterexample [p] (.atom 'A'))).2.toOption.map Tableau.status =
      some .timeout := by decide +kernel
  rw [hok] at hstatus
  have hcheck : (ctx.checkArgument [p] (.atom 'A')).2 = .ok .unknown := by decide +kernel
  exact ⟨t, hok, Option.some.inj hstatus, htableau _ t hok, hcheck, (hargument _ _ _ hcheck).2⟩

end Context

end Sequitur
