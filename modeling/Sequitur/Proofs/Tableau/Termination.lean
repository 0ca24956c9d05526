import Sequitur.Proofs.Tableau.Burden

/-!
# Termination

If no endless succession of steps leads away from an expansion, a large enough limit is never reached
(`exists_bound`). There is none that begins with one formula (`Orderly.acc`): with each step the sum
of the costs of the branches falls, or it stays what it was and the agenda gets shorter.
-/

namespace Sequitur

open Tableau Expand Expansion

variable {s s' : Expansion}

/-! ## Bounds -/

namespace Expansion

theorem exists_bound (h : Acc (fun s' s => Step s s') s) (hs : s.Valid) :
    ∃ N, ∀ made remaining, N ≤ remaining → (s.run made remaining).outcome ≠ .ok .timeout := by
  induction h with
  | intro s _ ih =>
    -- What is left of the limit when the first node has been dispatched.
    obtain ⟨N, hN⟩ : ∃ N, ∀ made n, N ≤ n →
        ¬s.tableau.allClosedBelow root → (s.run made (n + 1)).outcome ≠ .ok .timeout := by
      cases ha : s.agenda with
      | nil =>
        refine ⟨0, fun made n _ hopen => ?_⟩
        rw [run, if_neg hopen]
        simp [ha]
      | cons e rest =>
        rcases advance_cases hs ha with ⟨s₁, hadv, hstep⟩ | ⟨r, hadv, -⟩ | ⟨cause, r, hadv, -⟩
        · obtain ⟨N, hN⟩ := ih s₁ hstep (hstep.valid hs)
          refine ⟨N, fun made n hle hopen => ?_⟩
          rw [run, if_neg hopen]
          simp only [ha, hadv]
          exact hN _ _ hle
        · refine ⟨0, fun made n _ hopen => ?_⟩
          rw [run, if_neg hopen]
          simp [ha, hadv]
        · refine ⟨0, fun made n _ hopen => ?_⟩
          rw [run, if_neg hopen]
          simp [ha, hadv]
    refine ⟨N + 1, fun made remaining hle => ?_⟩
    obtain ⟨n, rfl⟩ : ∃ n, remaining = n + 1 := ⟨remaining - 1, by omega⟩
    by_cases hclosed : s.tableau.allClosedBelow root
    · rw [run, if_pos hclosed]
      simp
    · exact hN made n (by omega) hclosed

end Expansion

namespace Expansion

variable {B : Nat}

/-! ## Steps -/

section Orderly

variable {e : Entry} {rest : Agenda} {d : Decomposition} {c : Char} {n : Nat}

/-- What waits or lies dormant after a rule was applied are new nodes and such as did so before. -/
theorem exists_perm (ha : s.agenda = e :: rest)
    (h : Applies { s with agenda := rest } s' e.key d c n) :
    ∃ old : List Nat, old.Subperm (s.keys ++ s.dormant) ∧
      (s'.keys ++ s'.dormant).Perm (List.range' s.tableau.size n ++ old) := by
  have hkeys := h.keys
  have hdormant := h.dormant
  have hrouse := d.rouse_append s.requeues e.key n s.dormant
  generalize d.rouse s.requeues e.key n s.dormant = r at hkeys hdormant hrouse
  refine ⟨rest.map (·.key) ++ (r.1 ++ r.2), ?_, ?_⟩
  · rw [keys, ha, List.map_cons]
    rcases hrouse with he | ⟨-, he⟩
    · rw [he]
      exact (List.sublist_cons_self _ _).subperm
    · rw [he, ← List.append_assoc]
      exact (List.perm_append_singleton _ _).subperm
  · rw [hdormant, ← List.append_assoc, ← List.append_assoc]
    exact (hkeys.trans List.perm_append_comm).append_right r.2

theorem Step.orderly (h : Step s s') (hs : s.Orderly B) : s'.Orderly B := by
  have hbulk := h.forall_path (P := fun p => ∀ f ∈ p.formulas, f.bulk ≤ B)
    (fun p f c others q hp ha hq => Path.bulk_grow hp ha hq) hs.toValid hs.bulk
  have hvalid := h.valid hs.toValid
  cases h with
  | @idle e rest trace ha h =>
    have hnodup := hs.nodup
    have hbounded := hs.bounded
    rw [keys, ha, List.map_cons] at hnodup hbounded
    exact ⟨hvalid, (List.nodup_cons.1 hnodup).2, (List.forall_mem_cons.1 hbounded).2, hs.repeatable,
      hbulk⟩
  | @applied e rest m c n _ ha hL hm hd hc h =>
    obtain ⟨old, hold, hperm⟩ := exists_perm ha h
    have hlt : ∀ k ∈ old, k < s.tableau.size := by
      intro k hk
      exact (List.mem_append.1 (hold.subset hk)).elim (hs.bounded k) (hs.dormant k)
    refine ⟨hvalid, ?_, fun k hk => ?_, fun k hk m' hm' => ?_, hbulk⟩
    · rw [hperm.nodup_iff, List.nodup_append]
      obtain ⟨t, ht, hsub⟩ := hold
      refine ⟨List.nodup_range', ht.nodup_iff.1 (hs.nodup.sublist hsub), ?_⟩
      rintro k hk j hj rfl
      exact Nat.not_le_of_lt (hlt k hj) (List.mem_range'_1.1 hk).1
    · rw [h.size]
      rcases List.mem_append.1 (hperm.subset (List.mem_append_left _ hk)) with hnew | hmem
      · exact (List.mem_range'_1.1 hnew).2
      · exact Nat.lt_add_right n (hlt k hmem)
    · rw [h.dormant] at hk
      rcases Decomposition.mem_of_mem_rouse (List.mem_append_right _ hk) with hk | ⟨hrep, rfl⟩
      · obtain ⟨m₀, hm₀⟩ := node?_eq_some_of_lt (hs.dormant k hk)
        rw [h.tableau.formula_eq hm₀ hm']
        exact hs.repeatable k hk m₀ hm₀
      · rw [h.tableau.formula_eq hm hm']
        exact hrep

end Orderly

/-- Nothing changes in what the branches cost if no open branch goes through the first node. -/
theorem costBelow_of_idle {e : Entry} {rest : Agenda} (hs : s.Valid) (ha : s.agenda = e :: rest)
    (h : s.tableau.openLeavesBelow e.key = []) (trace : Trace) :
    costBelow B { s with agenda := rest, trace := trace } root = s.costBelow B root := by
  refine congrArg List.sum (List.map_congr_left fun l hl => ?_)
  unfold cost burden
  by_cases hclosed : (s.tableau.path l).isClosed
  · rw [if_pos hclosed, if_pos hclosed]
  · have hkey : e.key ∉ s.tableau.branch l := by
      intro hkey
      have hmem := (mem_openLeavesBelow hs.toCoherent).2
        ⟨(hs.tree.mem_leavesBelow.1 hl).1, hkey, Bool.eq_false_iff.2 hclosed⟩
      exact absurd (h ▸ hmem) List.not_mem_nil
    have hpending : pending { s with agenda := rest, trace := trace } l = s.pending l :=
      loadOf_rest_of_not_mem ha hkey
    rw [if_neg hclosed, if_neg hclosed, hpending]

theorem Step.decreases (h : Step s s') (hs : s.Orderly B) :
    Prod.Lex (· < ·) (· < ·) (s'.costBelow B root, s'.agenda.length)
      (s.costBelow B root, s.agenda.length) := by
  cases h with
  | @idle e rest trace ha h =>
    rw [costBelow_of_idle hs.toValid ha h, ha]
    exact Prod.Lex.right _ (Nat.lt_succ_self _)
  | @applied e rest m c n _ ha hL hm hd hc h =>
    by_cases hr : m.formula.decompose.IsRepeatable
    · have hcost := fun l hl => (costBelow_le hs ha hm h hc hr (l := l) hl).1
      by_cases hn : n = 0
      · rcases Nat.lt_or_eq_of_le (costBelow_root_le hs ha hm h hcost) with hlt | heq
        · exact Prod.Lex.left _ _ hlt
        · rw [heq]
          exact Prod.Lex.right _ (length_agenda_lt ha h hn)
      · obtain ⟨l, hl, l', hl', hlonger⟩ := exists_longer hs h hn
        have hlt := (costBelow_le hs ha hm h hc hr hl).2 l' hl' hlonger
        exact Prod.Lex.left _ _ (costBelow_root_lt hs ha hm h hcost hl hlt)
    · obtain ⟨l, hl⟩ := List.exists_mem_of_ne_nil _ hL
      have hcost := fun l hl => costBelow_lt hs ha hm h hc hr (l := l) hl
      exact Prod.Lex.left _ _
        (costBelow_root_lt hs ha hm h (fun l hl => Nat.le_of_lt (hcost l hl)) hl (hcost l hl))

/-- No endless succession of steps leads away from an orderly expansion. -/
theorem Orderly.acc (hs : s.Orderly B) : Acc (fun s' s => Step s s') s := by
  have hwf : WellFounded (Prod.Lex (· < ·) (· < ·) : Nat × Nat → Nat × Nat → Prop) :=
    (Prod.lex Nat.lt_wfRel Nat.lt_wfRel).wf
  generalize hm : (s.costBelow B root, s.agenda.length) = measure
  induction measure using hwf.induction generalizing s with
  | _ measure ih =>
    refine ⟨s, fun s' hstep => ih _ ?_ (hstep.orderly hs) rfl⟩
    rw [← hm]
    exact hstep.decreases hs

/-! ## Runs -/

theorem Begins.orderly {f : Formula} {requeues : Bool} (h : Begins s f requeues) :
    s.Orderly f.unrooted.bulk where
  toValid := h.valid
  nodup := by
    rw [h.keys, h.dormant]
    exact List.nodup_singleton _
  bounded := by
    rw [h.keys, h.size]
    exact List.forall_mem_singleton.2 Nat.one_pos
  repeatable := by
    rw [h.dormant]
    exact fun k hk => absurd hk List.not_mem_nil
  bulk := by
    intro l hl
    rw [h.eq_root hl.lt_size, h.path]
    exact List.forall_mem_singleton.2 (Nat.le_refl _)

/-- A run that is not stopped by its limit fails at a formula without a rule, is finished, or is out
of constants. -/
theorem outcome_of_ne_timeout (hs : s.Valid) {made remaining : Nat}
    (h : (s.run made remaining).outcome ≠ .ok .timeout) :
    (s.run made remaining).outcome = .error .unexpectedKind ∨
      (s.run made remaining).outcome = .ok .complete ∨
      (s.run made remaining).outcome = .ok .constantsExhausted := by
  obtain ⟨s', -, hend⟩ := run_ends hs made remaining
  generalize s.run made remaining = r at h hend
  cases hend with
  | closed _ => exact .inr (.inl rfl)
  | finished _ => exact .inr (.inl rfl)
  | timeout _ => exact absurd rfl h
  | exhausted _ _ _ _ => exact .inr (.inr rfl)
  | failed _ _ _ _ => exact .inl rfl

end Expansion

theorem Context.exists_limit (w : Formula) (requeues : Bool) :
    ∃ N, ∀ ctx : Context, ctx.settings.requeueUniversals.value = requeues →
      N ≤ ctx.settings.tableauLimit.value →
      (ctx.buildTableau w).2 = .error (.tableau .unexpectedKind) ∨
        ∃ t, (ctx.buildTableau w).2 = .ok t ∧
          (t.status = .complete ∨ t.status = .constantsExhausted) := by
  obtain ⟨s₀, h₀, hrun⟩ := buildTableau_eq w requeues
  obtain ⟨N, hN⟩ := exists_bound h₀.orderly.acc h₀.valid
  refine ⟨N, fun ctx hrequeues hle => ?_⟩
  obtain ⟨herror, hok⟩ := hrun ctx hrequeues _ rfl
  rcases outcome_of_ne_timeout h₀.valid (hN 0 _ hle) with hout | hout | hout
  · exact .inl (herror _ hout)
  · exact .inr ⟨_, hok _ hout, .inl rfl⟩
  · exact .inr ⟨_, hok _ hout, .inr rfl⟩

/-- With a limit that is large enough, and whether dormant nodes are woken or not, the limit plays no
part in how the tableau of a formula ends: it fails at a formula without a rule, or it is complete, or
the constants are exhausted. -/
theorem Context.buildTableau_ends (w : Formula) :
    ∃ N, ∀ ctx : Context, N ≤ ctx.settings.tableauLimit.value →
      (ctx.buildTableau w).2 = .error (.tableau .unexpectedKind) ∨
        ∃ t, (ctx.buildTableau w).2 = .ok t ∧
          (t.status = .complete ∨ t.status = .constantsExhausted) := by
  obtain ⟨N, hN⟩ := exists_limit w true
  obtain ⟨M, hM⟩ := exists_limit w false
  refine ⟨max N M, fun ctx hle => ?_⟩
  cases hrequeues : ctx.settings.requeueUniversals.value with
  | true => exact hN ctx hrequeues (Nat.le_trans (Nat.le_max_left N M) hle)
  | false => exact hM ctx hrequeues (Nat.le_trans (Nat.le_max_right N M) hle)

/-- That everything bears a relation to something calls for one constant after another. -/
theorem Context.buildTableau_ends_serial : ∃ N, ∀ requeues : Bool, ∃ ctx : Context,
    ctx.settings.tableauLimit.value = N ∧ ctx.settings.requeueUniversals.value = requeues ∧
      ((ctx.buildTableau (.all 'x' (.ex 'y' (.predicate 'R' [.var 'x', .var 'y'])))).2 =
          .error (.tableau .unexpectedKind) ∨
        ∃ t, (ctx.buildTableau (.all 'x' (.ex 'y' (.predicate 'R' [.var 'x', .var 'y'])))).2 = .ok t ∧
          (t.status = .complete ∨ t.status = .constantsExhausted)) := by
  obtain ⟨N, hN⟩ := buildTableau_ends (.all 'x' (.ex 'y' (.predicate 'R' [.var 'x', .var 'y'])))
  let settings (requeues : Bool) : Settings :=
    { tableauLimit := ⟨"tableau_limit", 1, wordMax, N⟩
      requeueUniversals := ⟨"requeue_universals", false, true, requeues⟩ }
  refine ⟨N, fun requeues => ⟨{ settings := settings requeues }, rfl, rfl, ?_⟩⟩
  exact hN _ (Nat.le_refl N)

end Sequitur
