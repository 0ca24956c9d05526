import Mathlib.Logic.Relation
import Sequitur.Proofs.Tableau.Dispatch
import Sequitur.Tableau.Run

/-!
# Runs of an expansion

An expansion takes one step after another, each of them the dispatch of the first node of the agenda
(`Expansion.Step`). It begins with the root alone (`Begins`), and where it ends is said by `Ends`.
What is kept by every step holds at the end of a run (`expand_spec`).
-/

namespace Sequitur

open Tableau Expand

variable {s s' : Expansion}

namespace Expansion

/-- What holds between the dispatches of an expansion. -/
structure Valid (s : Expansion) : Prop extends Coherent s where
  dormant : ∀ k ∈ s.dormant, k < s.tableau.size

/-- Whether the nodes that wait are in order and those that lie dormant may have more to add. -/
structure Arranged (s : Expansion) : Prop extends Ordered s where
  dormant : ∀ k ∈ s.dormant, s.tableau.Repeats k

/-- The dispatch of the first node of the agenda, as far as it bears on what follows. -/
inductive Step (s : Expansion) : Expansion → Prop
  | idle {e : Entry} {rest : Agenda} {trace : Trace} (ha : s.agenda = e :: rest)
    (h : s.tableau.openLeavesBelow e.key = []) : Step s { s with agenda := rest, trace := trace }
  | applied {e : Entry} {rest : Agenda} {m : Node} {c : Char} {n : Nat} {s' : Expansion}
    (ha : s.agenda = e :: rest) (hL : s.tableau.openLeavesBelow e.key ≠ [])
    (hm : s.tableau.node? e.key = some m) (hd : m.formula.decompose ≠ .unexpected)
    (hc : ∀ x body, m.formula.decompose = .witness x body → isConstantSymbol c ∧
      ∀ l ∈ s.tableau.openLeavesBelow e.key, c ∉ (s.tableau.path l).constants)
    (h : Applies { s with agenda := rest } s' e.key m.formula.decompose c n) : Step s s'

/-- One step after another. -/
def Steps : Expansion → Expansion → Prop := Relation.ReflTransGen Step

/-- The dispatch of the first node of the agenda, as it is carried out. -/
def Advances (s s' : Expansion) : Prop :=
  ∃ e rest, s.agenda = e :: rest ∧ advance e.key { s with agenda := rest } = .ok false s'

/-- One dispatch after another. -/
def Runs : Expansion → Expansion → Prop := Relation.ReflTransGen Advances

/-- How a run that has come to the expansion `s` ends there. -/
inductive Ends (s : Expansion) : Run → Prop
  | closed {made : Nat} (h : s.tableau.allClosedBelow root) : Ends s ⟨s, made, .ok .complete⟩
  | finished {made : Nat} (h : s.agenda = []) : Ends s ⟨s, made, .ok .complete⟩
  | timeout {e : Entry} {rest : Agenda} {made : Nat} (h : s.agenda = e :: rest) :
    Ends s ⟨{ s with agenda := rest }, made, .ok .timeout⟩
  | exhausted {e : Entry} {rest : Agenda} {trace : Trace} {m : Node} {x : Char} {body : Formula}
    {made : Nat} (ha : s.agenda = e :: rest) (hm : s.tableau.node? e.key = some m)
    (hd : m.formula.decompose = .witness x body)
    (hc : ∀ c ∈ constantSymbols, ∃ l ∈ s.tableau.openLeavesBelow e.key,
      c ∈ (s.tableau.path l).constants) :
    Ends s ⟨{ s with agenda := rest, trace := trace }, made, .ok .constantsExhausted⟩
  | failed {e : Entry} {rest : Agenda} {m : Node} {s' : Expansion} {made : Nat}
    (ha : s.agenda = e :: rest) (hL : s.tableau.openLeavesBelow e.key ≠ [])
    (hm : s.tableau.node? e.key = some m) (hd : m.formula.decompose = .unexpected) :
    Ends s ⟨s', made, .error .unexpectedKind⟩

theorem isRepeatable_of_decompose {n : Node} (h : n.formula.decompose.IsRepeatable) :
    n.isRepeatable := by
  rw [Node.isRepeatable]
  cases hd : n.formula.decompose with
  | instances x p =>
    rw [(Formula.eq_of_decompose_instances hd).1]
    rfl
  | replace a b =>
    obtain ⟨p, q, hf, -, -⟩ := Formula.eq_of_decompose_replace hd
    rw [hf]
    rfl
  | _ => exact (hd ▸ h).elim

/-! ## One step -/

/-- The ways in which the first node of the agenda can be dispatched. -/
theorem advance_cases {e : Entry} {rest : Agenda} (hs : s.Valid) (ha : s.agenda = e :: rest) :
    (∃ s', advance e.key { s with agenda := rest } = .ok false s' ∧ Step s s') ∨
    (∃ r, advance e.key { s with agenda := rest } = .ok true r ∧
      ∀ made, Ends s ⟨r, made, .ok .constantsExhausted⟩) ∨
    ∃ cause r, advance e.key { s with agenda := rest } = .error cause r ∧
      ∀ made, Ends s ⟨r, made, .error cause⟩ := by
  have hout : Outcome { s with agenda := rest } e.key (dispatch e.key { s with agenda := rest }) :=
    dispatch_outcome ⟨hs.tree, hs.marked⟩ hs.dormant
  generalize hr : dispatch e.key { s with agenda := rest } = r at hout
  cases hout with
  | idle h => exact .inl ⟨_, bind_ok hr, .idle ha h⟩
  | @applied m c n s' hL hm hd hc h =>
    refine .inl ?_
    cases n with
    | zero => exact ⟨s', bind_ok hr, .applied ha hL hm hd hc h⟩
    | succ n => exact ⟨_, bind_ok hr, .applied ha hL hm hd hc (h.of_trace _)⟩
  | exhausted hm hd hc => exact .inr (.inl ⟨_, bind_ok hr, fun _ => .exhausted ha hm hd hc⟩)
  | unexpected hL hm hd => exact .inr (.inr ⟨_, _, bind_error hr, fun _ => .failed ha hL hm hd⟩)

theorem Advances.step (h : Advances s s') (hs : s.Valid) : Step s s' := by
  obtain ⟨e, rest, ha, hadvance⟩ := h
  rcases advance_cases hs ha with ⟨s₁, hadv, hstep⟩ | ⟨r, hadv, -⟩ | ⟨cause, r, hadv, -⟩
  · cases hadvance.symm.trans hadv
    exact hstep
  · cases hadvance.symm.trans hadv
  · cases hadvance.symm.trans hadv

theorem Step.valid (h : Step s s') (hs : s.Valid) : s'.Valid := by
  cases h with
  | idle ha h => exact ⟨⟨hs.tree, hs.marked⟩, hs.dormant⟩
  | @applied e rest m c n _ ha hL hm hd hc h =>
    refine ⟨⟨h.tableau.tree, h.marked⟩, fun k hk => ?_⟩
    have hkey := lt_size_of_node? hm
    rw [h.dormant] at hk
    rcases Decomposition.mem_of_mem_rouse (List.mem_append_right _ hk) with hk | ⟨-, rfl⟩
    · exact h.tableau.lt_size (hs.dormant k hk)
    · exact h.tableau.lt_size hkey

theorem Steps.valid (h : Steps s s') (hs : s.Valid) : s'.Valid := by
  induction h with
  | refl => exact hs
  | tail _ hstep ih => exact hstep.valid ih

theorem Runs.steps (h : Runs s s') (hs : s.Valid) : Steps s s' := by
  induction h with
  | refl => exact .refl
  | tail _ hadvances ih => exact ih.tail (hadvances.step (Steps.valid ih hs))

theorem Step.arranged (h : Step s s') (hs : s.Arranged) : s'.Arranged := by
  have hrest : ∀ {e rest}, s.agenda = e :: rest → { s with agenda := rest }.Ordered := by
    intro e rest ha
    obtain ⟨hdated, hsorted, hentry⟩ := hs.toOrdered
    rw [ha] at hsorted hentry
    exact ⟨hdated, (List.pairwise_cons.1 hsorted).2,
      fun d hd => hentry d (List.mem_cons_of_mem e hd)⟩
  cases h with
  | idle ha _ => exact ⟨(hrest ha).congr rfl rfl, hs.dormant⟩
  | @applied e rest m c n _ ha _ hm _ _ h =>
    have hrouse : ∀ k ∈ (m.formula.decompose.rouse s.requeues e.key n s.dormant).1 ++
        (m.formula.decompose.rouse s.requeues e.key n s.dormant).2, s.tableau.Repeats k := by
      intro k hk
      rcases Decomposition.mem_of_mem_rouse hk with hk | ⟨hd, rfl⟩
      · exact hs.dormant k hk
      · exact ⟨m, hm, isRepeatable_of_decompose hd⟩
    refine ⟨h.ordered (fun k hk => hrouse k (List.mem_append_left _ hk)) (hrest ha), fun k hk => ?_⟩
    rw [h.dormant] at hk
    exact (hrouse k (List.mem_append_right _ hk)).of_extends h.tableau

theorem Steps.arranged (h : Steps s s') (hs : s.Arranged) : s'.Arranged := by
  induction h with
  | refl => exact hs
  | tail _ hstep ih => exact hstep.arranged ih

/-! ## The run -/

/-- A run makes dispatches and ends. -/
theorem run_ends_runs (hs : s.Valid) (made remaining : Nat) :
    ∃ s', Runs s s' ∧ Ends s' (s.run made remaining) := by
  induction remaining generalizing s made with
  | zero =>
    refine ⟨s, .refl, ?_⟩
    rw [run]
    split
    · next h => exact .closed h
    · cases ha : s.agenda with
      | nil => exact .finished ha
      | cons e rest => exact .timeout ha
  | succ remaining ih =>
    rw [run]
    split
    · next h => exact ⟨s, .refl, .closed h⟩
    · cases ha : s.agenda with
      | nil => exact ⟨s, .refl, .finished ha⟩
      | cons e rest =>
        rcases advance_cases hs ha with ⟨s₁, hadv, hstep⟩ | ⟨r, hadv, hend⟩ | ⟨cause, r, hadv, hend⟩
        · obtain ⟨s', hruns, hend⟩ := ih (hstep.valid hs) (made + 1)
          refine ⟨s', .head ⟨e, rest, ha, hadv⟩ hruns, ?_⟩
          simp only [hadv]
          exact hend
        · refine ⟨s, .refl, ?_⟩
          simp only [hadv]
          exact hend _
        · refine ⟨s, .refl, ?_⟩
          simp only [hadv]
          exact hend _

/-- A run takes steps and ends. -/
theorem run_ends (hs : s.Valid) (made remaining : Nat) :
    ∃ s', Steps s s' ∧ Ends s' (s.run made remaining) := by
  obtain ⟨s', hruns, hend⟩ := run_ends_runs hs made remaining
  exact ⟨s', hruns.steps hs, hend⟩

/-! ## The beginning -/

/-- Whether an expansion is at its beginning, with the formula `f` at the root. -/
structure Begins (s : Expansion) (f : Formula) (requeues : Bool) : Prop where
  tableau : s.tableau = (Tableau.start f).checked root
  valid : s.Valid
  size : s.tableau.size = 1
  leaf : s.tableau.IsLeaf root
  path : s.tableau.path root = ⟨[f.unrooted], f.unrooted.constants⟩
  keys : s.keys = [root]
  ordered : s.Ordered
  dormant : s.dormant = []
  requeues : s.requeues = requeues

theorem Begins.arranged {f : Formula} {requeues : Bool} (h : Begins s f requeues) : s.Arranged := by
  refine ⟨h.ordered, fun k hk => ?_⟩
  rw [h.dormant] at hk
  exact absurd hk List.not_mem_nil

theorem Begins.eq_root {f : Formula} {requeues : Bool} (h : Begins s f requeues) {k : Nat}
    (hk : k < s.tableau.size) : k = root := by
  rw [h.size] at hk
  exact Nat.lt_one_iff.1 hk

theorem path_start (f : Formula) :
    (Tableau.start f).path root = ⟨[f.unrooted], f.unrooted.constants⟩ := rfl

theorem seed_ok (f : Formula) (requeues : Bool) :
    ∃ s, seed (.start (.start f) requeues) = .ok () s ∧ Begins s f requeues := by
  have hn : (Tableau.start f).node? root = some (.new 0 f.unrooted [] none f.unrooted.constants) :=
    rfl
  have hbelow : (Tableau.start f).leavesBelow root = [root] := leavesBelow_of_isLeaf hn rfl
  have hn' := node?_checked_self hn rfl
  obtain ⟨trace, hseed⟩ : ∃ trace, seed (.start (.start f) requeues) = .ok ()
      { start (.start f) requeues with
        tableau := (Tableau.start f).checked root
        agenda := [⟨f.unrooted.precedence, 0, root⟩]
        trace := trace } := by
    rw [seed, bind_ok (tableau_ok _)]
    refine ⟨?_, (congrArg (fun l => enqueueLeaves l _) hbelow).trans ?_⟩
    rotate_left
    · refine (bind_ok (checkClosure_ok (by exact hn) rfl)).trans ?_
      refine (bind_ok (enqueue_ok (by exact hn'))).trans ?_
      rfl
  refine ⟨_, hseed, rfl, ⟨⟨(isTree_start f).checked, fun k n hk _ => ?_⟩, ?_⟩, ?_, ?_, ?_, ?_, ?_, ?_, ?_⟩
  · have hlt := lt_size_of_node? hk
    rw [size_checked] at hlt
    obtain rfl : k = root := Nat.lt_one_iff.1 hlt
    rw [path_checked]
    rw [hn', Option.some.injEq] at hk
    rw [← hk]
  · exact fun k hk => absurd hk List.not_mem_nil
  · exact size_checked
  · exact ⟨_, hn', rfl⟩
  · exact (path_checked root).trans (path_start f)
  · rfl
  · refine ⟨?_, List.pairwise_singleton _ _, ?_⟩
    · exact (dated_start f).checked
    · exact List.forall_mem_singleton.2 ⟨_, hn', rfl, Nat.le_refl _, fun _ => rfl⟩
  · rfl
  · rfl

/-! ## The verdict -/

/-- Whether every branch is closed. -/
def AllClosed (s : Expansion) : Prop := ∀ l, s.tableau.IsLeaf l → (s.tableau.path l).isClosed

theorem isClosed_iff {l : Nat} (hs : s.Coherent) (hl : s.tableau.IsLeaf l) :
    s.tableau.isClosed l = (s.tableau.path l).isClosed := by
  obtain ⟨n, hn, hleaf⟩ := hl
  rw [← hs.marked l n hn hleaf, Tableau.isClosed, hn]
  rfl

theorem hasAllClosed_iff (hs : s.Coherent) (status : Status) :
    hasAllClosed { s.tableau with status := status } ↔ s.AllClosed := by
  have ht : IsTree { s.tableau with status := status } :=
    ⟨hs.tree.root, hs.tree.parent, hs.tree.child, hs.tree.distinct⟩
  rw [ht.hasAllClosed_iff]
  exact forall₂_congr fun l hl => isClosed_iff hs hl ▸ Iff.rfl

theorem allClosedBelow_iff (hs : s.Coherent) :
    s.tableau.allClosedBelow root ↔ s.AllClosed := by
  rw [allClosedBelow_eq, List.all_eq_true]
  constructor
  · intro h l hl
    rw [← isClosed_iff hs hl]
    exact h l (hs.tree.mem_leavesBelow.2 ⟨hl, hs.tree.root_mem_branch hl.lt_size⟩)
  · intro h l hmem
    have hl := (hs.tree.mem_leavesBelow.1 hmem).1
    rw [isClosed_iff hs hl]
    exact h l hl

theorem verdict_eq_closed_iff (hs : s.Coherent) (status : Status) :
    verdict { s.tableau with status := status } = .closed ↔ s.AllClosed := by
  rw [← hasAllClosed_iff hs status, verdict]
  split
  · next h => exact iff_of_true rfl h
  · next h => split <;> exact iff_of_false Report.noConfusion h

theorem verdict_eq_unclosed_iff (hs : s.Coherent) (status : Status) :
    verdict { s.tableau with status := status } = .unclosed ↔ status = .complete ∧ ¬s.AllClosed := by
  rw [← hasAllClosed_iff hs status, verdict]
  split
  · next h => exact iff_of_false Report.noConfusion fun hne => hne.2 h
  · next h => split <;> simp_all

end Expansion

/-! ## The expansion of a tableau -/

open Expansion

/-- The run behind the expansion of a tableau. -/
theorem Context.expand_of_seed {c : Context} {t : Tableau} {s₀ : Expansion}
    (hseed : seed (.start t c.settings.requeueUniversals.value) = .ok () s₀) {r : Run}
    (hr : r = s₀.run c.counters.dispatches
      (c.settings.tableauLimit.value - c.counters.dispatches)) :
    (∀ cause, r.outcome = .error cause → (c.expand t).2.2 = .error (.tableau cause)) ∧
      ∀ status, r.outcome = .ok status →
        ∃ c', c.expand t = (c', { r.expansion.tableau with status := status }, .ok c'.report) ∧
          c'.report = verdict { r.expansion.tableau with status := status } := by
  subst hr
  refine ⟨fun cause hcause => ?_, fun status hstatus => ?_⟩
  · simp only [Context.expand, hseed, hcause]
  · simp only [Context.expand, hseed, hstatus]
    exact ⟨_, rfl, rfl⟩

/-- The expansion of a tableau makes dispatches. Unless it fails, the verdict is on the tableau it has
come to, and if that is complete then every branch is closed or no node waits. -/
theorem Context.exists_runs_of_seed {c : Context} {t : Tableau} {s₀ : Expansion}
    (hseed : seed (.start t c.settings.requeueUniversals.value) = .ok () s₀) (hs₀ : s₀.Valid) :
    ∃ s, Runs s₀ s ∧
      ((∃ e, (c.expand t).2.2 = .error e) ∨
        ∃ c' status,
          c.expand t = (c', { s.tableau with status := status }, .ok c'.report) ∧
          c'.report = verdict { s.tableau with status := status } ∧
          (status = .complete → s.AllClosed ∨ s.agenda = [])) := by
  obtain ⟨herror, hok⟩ := expand_of_seed hseed rfl
  obtain ⟨s, hruns, hend⟩ := run_ends_runs hs₀ c.counters.dispatches
    (c.settings.tableauLimit.value - c.counters.dispatches)
  refine ⟨s, hruns, ?_⟩
  have hs := (hruns.steps hs₀).valid hs₀
  generalize s₀.run c.counters.dispatches
    (c.settings.tableauLimit.value - c.counters.dispatches) = r at herror hok hend
  cases hend with
  | closed h =>
    obtain ⟨c', hexpand, hreport⟩ := hok _ rfl
    exact .inr ⟨c', _, hexpand, hreport, fun _ => .inl ((allClosedBelow_iff hs.toCoherent).1 h)⟩
  | finished h =>
    obtain ⟨c', hexpand, hreport⟩ := hok _ rfl
    exact .inr ⟨c', _, hexpand, hreport, fun _ => .inr h⟩
  | timeout h =>
    obtain ⟨c', hexpand, hreport⟩ := hok _ rfl
    exact .inr ⟨c', _, hexpand, hreport, fun h => absurd h Status.noConfusion⟩
  | exhausted ha hm hd hc =>
    obtain ⟨c', hexpand, hreport⟩ := hok _ rfl
    exact .inr ⟨c', _, hexpand, hreport, fun h => absurd h Status.noConfusion⟩
  | failed ha hL hm hd => exact .inl ⟨_, herror _ rfl⟩

/-! ## The expansion of a formula -/

theorem Context.expand_eq (f : Formula) (requeues : Bool) :
    ∃ s₀, Begins s₀ f requeues ∧ ∀ c : Context, c.settings.requeueUniversals.value = requeues →
      ∀ r, r = s₀.run c.counters.dispatches
          (c.settings.tableauLimit.value - c.counters.dispatches) →
        (∀ cause, r.outcome = .error cause →
          (c.expand (.start f)).2.2 = .error (.tableau cause)) ∧
        ∀ status, r.outcome = .ok status →
          ∃ c', c.expand (.start f) =
              (c', { r.expansion.tableau with status := status }, .ok c'.report) ∧
            c'.report = verdict { r.expansion.tableau with status := status } := by
  obtain ⟨s₀, hseed, h₀⟩ := seed_ok f requeues
  refine ⟨s₀, h₀, fun c hc r hr => ?_⟩
  subst hc
  exact expand_of_seed hseed hr

/-- The expansion of a formula takes steps from its beginning. Unless it fails, the verdict is on the
tableau it has come to, and if that is complete then every branch is closed or no node waits. -/
theorem Context.expand_spec (c : Context) (f : Formula) :
    ∃ s₀ s, Begins s₀ f c.settings.requeueUniversals.value ∧ Steps s₀ s ∧
      ((∃ e, (c.expand (.start f)).2.2 = .error e) ∨
        ∃ c' status,
          c.expand (.start f) = (c', { s.tableau with status := status }, .ok c'.report) ∧
          c'.report = verdict { s.tableau with status := status } ∧
          (status = .complete → s.AllClosed ∨ s.agenda = [])) := by
  obtain ⟨s₀, hseed, h₀⟩ := seed_ok f c.settings.requeueUniversals.value
  obtain ⟨s, hruns, h⟩ := exists_runs_of_seed hseed h₀.valid
  exact ⟨s₀, s, h₀, hruns.steps h₀.valid, h⟩

theorem Context.report_of_expand {c c' : Context} {f : Formula} {t : Tableau} {r : Report}
    (h : c.expand (.start f) = (c', t, .ok r)) : c'.report = r := by
  obtain ⟨_, _, -, -, ⟨e, herror⟩ | ⟨c₁, status, hexpand, -, -⟩⟩ := c.expand_spec f
  · rw [h] at herror
    cases herror
  · rw [h] at hexpand
    cases hexpand
    rfl

theorem Context.expand_of_buildTableau {c c' : Context} {f : Formula} {t : Tableau}
    (h : c.buildTableau f = (c', .ok t)) : c.reset.expand (.start f) = (c', t, .ok c'.report) := by
  rw [buildTableau] at h
  split at h
  · next c₁ t₁ r hexpand =>
    cases h
    rw [hexpand, report_of_expand hexpand]
  · cases h

theorem Context.exists_of_isOk_buildTableau {c : Context} {f : Formula}
    (h : (c.buildTableau f).2.isOk) : ∃ t, c.buildTableau f = ((c.buildTableau f).1, .ok t) := by
  generalize c.buildTableau f = r at h ⊢
  obtain ⟨c', _ | t⟩ := r
  · exact absurd h Bool.false_ne_true
  · exact ⟨t, rfl⟩

/-- A tableau that is built has what a computation finds in it. -/
theorem Context.exists_of_any_buildTableau {c : Context} {w : Formula} {P : Tableau → Prop}
    [DecidablePred P] (h : (c.buildTableau w).2.toOption.any (fun t => P t) = true) :
    ∃ t, (c.buildTableau w).2 = .ok t ∧ P t := by
  cases hr : (c.buildTableau w).2 with
  | error cause =>
    rw [hr] at h
    cases h
  | ok t =>
    rw [hr] at h
    exact ⟨t, rfl, of_decide_eq_true h⟩

/-- The run behind the tableau of a formula. -/
theorem Context.buildTableau_eq (f : Formula) (requeues : Bool) :
    ∃ s₀, Begins s₀ f requeues ∧ ∀ c : Context, c.settings.requeueUniversals.value = requeues →
      ∀ r, r = s₀.run 0 c.settings.tableauLimit.value →
        (∀ cause, r.outcome = .error cause → (c.buildTableau f).2 = .error (.tableau cause)) ∧
        ∀ status, r.outcome = .ok status →
          (c.buildTableau f).2 = .ok { r.expansion.tableau with status := status } := by
  obtain ⟨s₀, h₀, hrun⟩ := expand_eq f requeues
  refine ⟨s₀, h₀, fun c hc r hr => ?_⟩
  obtain ⟨herror, hok⟩ := hrun c.reset hc r hr
  refine ⟨fun cause hcause => ?_, fun status hstatus => ?_⟩
  · have hexpand := herror cause hcause
    rw [buildTableau]
    split
    · next heq =>
      rw [heq] at hexpand
      cases hexpand
    · next heq =>
      rw [heq] at hexpand
      cases hexpand
      rfl
  · obtain ⟨c', hexpand, -⟩ := hok status hstatus
    rw [buildTableau, hexpand]

end Sequitur
