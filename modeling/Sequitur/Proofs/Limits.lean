import Sequitur.Derivation.Proof
import Sequitur.Tableau.Run

/-!
# Limits only extend a run

A run reads its limit only to see whether it may go on. So a run that its limit has not stopped is the
same with any greater limit (`Expansion.run_add`, `Search.run_add`), and so is all that comes of it
(`Context.limit_extends`).
-/

namespace Sequitur

/-! ## Runs -/

/-- An expansion that its limit has not stopped is the same with a greater one. -/
theorem Expansion.run_add {s : Expansion} {made n : Nat} (k : Nat)
    (h : (s.run made n).outcome ≠ .ok .timeout) : s.run made (n + k) = s.run made n := by
  fun_induction Expansion.run s made n with
  | case1 n s made hclosed =>
    unfold run
    rw [if_pos hclosed]
  | case2 n s made hopen hagenda =>
    unfold run
    rw [if_neg hopen, hagenda]
  | case3 => exact absurd rfl h
  | case4 s made hopen e rest hagenda t n s' hadvance ih =>
    rw [Nat.succ_add, run, if_neg hopen]
    simp only [hagenda]
    rw [hadvance]
    exact ih h
  | case5 s made hopen e rest hagenda t n s' hadvance =>
    rw [Nat.succ_add, run, if_neg hopen]
    simp only [hagenda]
    rw [hadvance]
  | case6 s made hopen e rest hagenda t n cause s' hadvance =>
    rw [Nat.succ_add, run, if_neg hopen]
    simp only [hagenda]
    rw [hadvance]

/-- A search that its limit has not stopped is the same with a greater one. -/
theorem Search.run_add {s : Search} {made n : Nat} (k : Nat)
    (h : (s.run made n).outcome ≠ .ok .timeout) : s.run made (n + k) = s.run made n := by
  fun_induction Search.run s made n with
  | case1 n s made i hfound =>
    unfold run
    rw [hfound]
  | case2 n s made hfound hexhausted =>
    unfold run
    rw [hfound]
    exact if_pos hexhausted
  | case3 => exact absurd rfl h
  | case4 s made hfound hexhausted n e s' hpass =>
    rw [Nat.succ_add, run.eq_def, hfound]
    simp only [if_neg hexhausted, hpass]
  | case5 s made hfound hexhausted n added s' hpass t hdone =>
    rw [Nat.succ_add, run.eq_def, hfound]
    simp only [if_neg hexhausted, hpass]
    exact if_pos hdone
  | case6 s made hfound hexhausted n added s' hpass t hdone ih =>
    rw [Nat.succ_add, run.eq_def, hfound]
    simp only [if_neg hexhausted, hpass]
    rw [if_neg hdone]
    exact ih h

/-! ## Contexts -/

namespace Context

/-- The context with another limit on dispatches. -/
def withTableauLimit (c : Context) (limit : Nat) : Context :=
  { c with settings.tableauLimit.value := limit }

/-- The context with another limit on passes. -/
def withDeductionLimit (c : Context) (limit : Nat) : Context :=
  { c with settings.deductionLimit.value := limit }

/-- An expansion that its limit has not stopped comes to the same with a greater one. -/
theorem expand_withTableauLimit {c : Context} {t : Tableau} {L L' : Nat} (hle : L ≤ L')
    (h : ((c.withTableauLimit L).expand t).2.2.isOk →
      ((c.withTableauLimit L).expand t).2.1.status ≠ .timeout) :
    (c.withTableauLimit L').expand t =
      (((c.withTableauLimit L).expand t).1.withTableauLimit L',
        ((c.withTableauLimit L).expand t).2) := by
  cases hseed : Expand.seed (.start t c.settings.requeueUniversals.value) with
  | error cause s =>
    unfold expand
    dsimp only [withTableauLimit]
    rw [hseed]
  | ok _ s =>
    have hne : (s.run c.counters.dispatches (L - c.counters.dispatches)).outcome ≠ .ok .timeout := by
      intro htimeout
      unfold expand at h
      dsimp only [withTableauLimit] at h
      rw [hseed] at h
      dsimp only at h
      rw [htimeout] at h
      exact h rfl rfl
    obtain ⟨k, hk⟩ := Nat.exists_eq_add_of_le
      (Nat.sub_le_sub_right hle c.counters.dispatches)
    have hrun := Expansion.run_add k hne
    rw [← hk] at hrun
    unfold expand
    dsimp only [withTableauLimit]
    rw [hseed]
    dsimp only
    rw [hrun]
    cases (s.run c.counters.dispatches (L - c.counters.dispatches)).outcome with
    | error cause => rfl
    | ok status => cases status <;> rfl

theorem buildTableau_eq_map (c : Context) (w : Formula) :
    c.buildTableau w = ((c.reset.expand (.start w)).1,
      (c.reset.expand (.start w)).2.2.map fun _ => (c.reset.expand (.start w)).2.1) := by
  unfold buildTableau
  split
  · next h => rw [h]; rfl
  · next h => rw [h]; rfl

theorem reset_withTableauLimit (c : Context) (limit : Nat) :
    (c.withTableauLimit limit).reset = c.reset.withTableauLimit limit := rfl

theorem buildTableau_withTableauLimit {c : Context} {w : Formula} {L L' : Nat} (hle : L ≤ L')
    (h : ∀ t, ((c.withTableauLimit L).buildTableau w).2 = .ok t → t.status ≠ .timeout) :
    (c.withTableauLimit L').buildTableau w =
      (((c.withTableauLimit L).buildTableau w).1.withTableauLimit L',
        ((c.withTableauLimit L).buildTableau w).2) := by
  simp only [buildTableau_eq_map, reset_withTableauLimit] at h ⊢
  have hstatus : ((c.reset.withTableauLimit L).expand (.start w)).2.2.isOk →
      ((c.reset.withTableauLimit L).expand (.start w)).2.1.status ≠ .timeout := by
    intro hok
    apply h
    cases hresult : ((c.reset.withTableauLimit L).expand (.start w)).2.2 with
    | ok report => rfl
    | error e =>
      rw [hresult] at hok
      cases hok
  rw [expand_withTableauLimit hle hstatus]

/-- A search that its limit has not stopped comes to the same with a greater one. -/
theorem prove_withDeductionLimit {c : Context} {premises : List Formula} {conclusion : Formula}
    {kind : ProofType} {L L' : Nat} (hle : L ≤ L')
    (h : ∀ n, .deductionTimeout n ∉
      ((c.withDeductionLimit L).prove premises conclusion kind).1.diagnostics) :
    (c.withDeductionLimit L').prove premises conclusion kind =
      (((c.withDeductionLimit L).prove premises conclusion kind).1.withDeductionLimit L',
        ((c.withDeductionLimit L).prove premises conclusion kind).2) := by
  cases hassume : Derive.assume premises kind
      (.start premises conclusion c.settings.negationLimit.value) with
  | error e s =>
    unfold prove
    dsimp only [withDeductionLimit, reset]
    rw [hassume]
    rfl
  | ok _ s =>
    have hne : (s.run 0 L).outcome ≠ .ok .timeout := by
      intro htimeout
      unfold prove at h
      dsimp only [withDeductionLimit, reset] at h
      rw [hassume] at h
      dsimp only at h
      rw [htimeout] at h
      exact h _ (List.mem_singleton_self _)
    obtain ⟨k, rfl⟩ := Nat.exists_eq_add_of_le hle
    have hrun := Search.run_add k hne
    unfold prove
    dsimp only [withDeductionLimit, reset]
    rw [hassume]
    dsimp only
    rw [hrun]
    cases (s.run 0 L).outcome with
    | error e => rfl
    | ok ending =>
      cases ending with
      | proved i =>
        dsimp only
        cases Derive.finish i (s.run 0 L).search <;> rfl
      | _ => rfl

/-- Raising a limit only extends a run: what its limit has not stopped comes to the same result, and
leaves all of the context the same but for the limit. -/
theorem limit_extends (c : Context) {L L' : Nat} (hle : L ≤ L') :
    (∀ w, (∀ t, ((c.withTableauLimit L).buildTableau w).2 = .ok t → t.status ≠ .timeout) →
      (c.withTableauLimit L').buildTableau w =
        (((c.withTableauLimit L).buildTableau w).1.withTableauLimit L',
          ((c.withTableauLimit L).buildTableau w).2)) ∧
    ∀ premises conclusion kind,
      (∀ n, .deductionTimeout n ∉
        ((c.withDeductionLimit L).prove premises conclusion kind).1.diagnostics) →
      (c.withDeductionLimit L').prove premises conclusion kind =
        (((c.withDeductionLimit L).prove premises conclusion kind).1.withDeductionLimit L',
          ((c.withDeductionLimit L).prove premises conclusion kind).2) :=
  ⟨fun _ h => buildTableau_withTableauLimit hle h,
    fun _ _ _ h => prove_withDeductionLimit hle h⟩

/-- A tableau that is complete after seven dispatches, and a search that has nothing left to derive
after two passes, with no more than that as their limits. -/
theorem limit_extends_exact :
    let w : Formula :=
      .all 'x' (.and (.ex 'y' (.predicate 'P' [.var 'y'])) (.not (.predicate 'P' [.var 'x'])))
    let p : Formula := .implies (.atom 'P') (.atom 'Q')
    let r := (({} : Context).withTableauLimit 7).buildTableau w
    let r' := (({} : Context).withDeductionLimit 2).prove [p] (.atom 'R') .direct
    r.1.counters.dispatches = 7 ∧ r'.1.counters.passes = 2 ∧
      (({} : Context).withTableauLimit 1000).buildTableau w = (r.1.withTableauLimit 1000, r.2) ∧
      (({} : Context).withDeductionLimit 1000).prove [p] (.atom 'R') .direct =
        (r'.1.withDeductionLimit 1000, r'.2) := by
  intro w p r r'
  have hstatus : r.2.toOption.map Tableau.status = some .complete := by decide +kernel
  have hdiagnostics : r'.1.diagnostics = [.deductionExhausted 2] := by decide +kernel
  refine ⟨by decide +kernel, by decide +kernel, ?_, ?_⟩
  · refine (limit_extends {} (by decide : 7 ≤ 1000)).1 w fun t ht htimeout => ?_
    rw [show r.2 = .ok t from ht] at hstatus
    cases htimeout.symm.trans (Option.some.inj hstatus)
  · refine (limit_extends {} (by decide : 2 ≤ 1000)).2 [p] _ .direct fun n hn => ?_
    rw [show r'.1.diagnostics = _ from hdiagnostics] at hn
    cases List.mem_singleton.1 hn

end Context

end Sequitur
