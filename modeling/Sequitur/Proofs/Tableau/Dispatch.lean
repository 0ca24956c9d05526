import Sequitur.Proofs.Semantics.Sentence
import Sequitur.Proofs.Tableau.Placement

/-!
# What a dispatch does

A dispatch applies the rule of a formula to every open leaf below its node. `dispatch_ok` says so in
full: the branch of each of these leaves is replaced by what `Path.grow` makes of it, no other leaf
changes, the new nodes are put on the agenda, and what lies dormant is woken as `Settles` says.
-/

namespace Sequitur

open Tableau Expansion

variable {s s' s'' : Expansion}

/-! ## Steps that add no node -/

namespace Expansion

theorem Grows.of_trace (hs : s.Coherent) (L : List Nat) (trace : Trace) :
    Grows s { s with trace := trace } L 0 :=
  ⟨.refl hs.tree L, hs.marked, rfl, .refl _, fun h => h.congr rfl rfl, rfl, rfl⟩

theorem Lengthens.of_trace {leaf : Nat} (hs : s.Coherent) (hl : s.tableau.IsLeaf leaf)
    (trace : Trace) : Lengthens s { s with trace := trace } leaf leaf 0 (s.tableau.path leaf) where
  toGrows := .of_trace hs [leaf] trace
  below := (Lengthens.refl hs hl).below
  path := rfl

/-- A change of a leaf that keeps the formula, or of another node that keeps all. -/
theorem Lengthens.of_modify {leaf key : Nat} {g : Node → Node}
    {hg : ∀ n, (g n).children = n.children} (hs : s.Coherent) (hl : s.tableau.IsLeaf leaf)
    (hstays : ∀ n : Node, n.Stays (g n)) (hrests : key ≠ leaf → ∀ n : Node, n.Rests (g n)) :
    Lengthens s { s with tableau := s.tableau.modify key g hg } leaf leaf 0
      ((s.tableau.modify key g hg).path leaf) := by
  have hext : s.tableau.Extends (s.tableau.modify key g hg) [leaf] := by
    refine (Extends.refl hs.tree [leaf]).modify (fun n => (hstays n).ancestors) fun _ n => ?_
    exact ⟨hstays n, fun hmem => hrests (fun he => hmem (List.mem_singleton.2 he)) n⟩
  have hmarked : (s.tableau.modify key g hg).LeavesMarked := hs.marked.modify hstays
  have hbelow : (s.tableau.modify key g hg).leavesBelow leaf = [leaf] := leavesBelow_modify hl
  have hdated : s.tableau.Dated → (s.tableau.modify key g hg).Dated := fun h =>
    h.modify fun n => (hstays n).id
  exact
    { tableau := hext
      marked := hmarked
      size := size_modify hg
      keys := .refl _
      ordered := fun h => h.of_extends rfl hext (hdated h.dated)
      dormant := rfl
      requeues := rfl
      below := hbelow
      path := rfl }

theorem Lengthens.of_addConstant {leaf : Nat} (hs : s.Coherent) (hl : s.tableau.IsLeaf leaf)
    (c : Char) : Lengthens s { s with tableau := s.tableau.addConstant leaf c } leaf leaf 0
      ((s.tableau.path leaf).addConstant c) := by
  rw [← path_addConstant hl.lt_size]
  exact .of_modify hs hl (fun _ => ⟨rfl, rfl, rfl, rfl, rfl⟩) fun hne => absurd rfl hne

theorem Lengthens.of_recordReplacement {leaf : Nat} (hs : s.Coherent) (hl : s.tableau.IsLeaf leaf)
    (key : Nat) (a b : Char) :
    Lengthens s { s with tableau := s.tableau.recordReplacement key a b } leaf leaf 0
      (s.tableau.path leaf) := by
  have hpath : (s.tableau.recordReplacement key a b).path leaf = s.tableau.path leaf := by
    refine path_modify ?_ ?_ ?_ leaf <;> exact fun _ => rfl
  rw [← hpath]
  exact .of_modify hs hl (fun _ => ⟨rfl, rfl, rfl, rfl, rfl⟩) fun _ _ => ⟨rfl, rfl, rfl⟩

end Expansion

namespace Expand

/-! ## Quantifiers -/

theorem witness_ok {leaf : Nat} (source : Nat) (f : Formula) (c : Char) (hs : s.Coherent)
    (hl : s.tableau.IsLeaf leaf) : ∃ last n s', (do
        if (← tableau).branchContains leaf f then
          return 0
        else
          let child ← place leaf f source .center
          update (·.addConstant child c)
          return 1 : Expand Nat) s = .ok n s' ∧
      Lengthens s s' leaf last n ((s.tableau.path leaf).witness f c) := by
  rw [bind_ok (tableau_ok s), branchContains_eq, Path.witness]
  split
  · exact ⟨leaf, 0, s, rfl, .refl hs hl⟩
  · obtain ⟨s₁, hplace, h₁⟩ := place_leaf_ok source f .center hs hl
    have h₂ := Lengthens.of_addConstant h₁.coherent h₁.isLeaf c
    rw [h₁.path] at h₂
    rw [bind_ok hplace, bind_ok (update_ok _ s₁)]
    exact ⟨_, 1, _, rfl, h₁.trans hs hl h₂⟩

theorem seedConstants_ok {leaf : Nat} (hs : s.Coherent) (hl : s.tableau.IsLeaf leaf) :
    ∃ s', seedConstants leaf s = .ok (s.tableau.path leaf).seed.constants s' ∧
      Lengthens s s' leaf leaf 0 (s.tableau.path leaf).seed := by
  obtain ⟨n, hn, -, hconstants⟩ := node_leaf_ok hs hl
  rw [seedConstants, bind_ok hn, hconstants, Path.seed]
  split
  · have h₁ := Lengthens.of_addConstant hs hl firstConstant
    obtain ⟨m, hm, -, hm'⟩ := node_leaf_ok h₁.coherent h₁.isLeaf
    rw [h₁.path] at hm'
    refine ⟨_, ?_, h₁⟩
    rw [bind_ok (update_ok _ s), ← hm']
    exact bind_ok hm
  · refine ⟨s, ?_, .refl hs hl⟩
    rw [← hconstants]
    exact bind_ok hn

/-- After the first instance, the others are stacked unless the branch has closed. -/
theorem instantiateEach_cons {tip last n : Nat} {source : Nat} (f : Formula) {x c : Char}
    {body : Formula} (cs : List Char)
    (hstack : stack source tip [body.substitute x c .const] s = .ok (last, n) s') :
    ∃ trace, instantiateEach source f x body tip (c :: cs) s = (do
        if (← node last).closed then
          return n
        else
          return n + (← instantiateEach source f x body last cs) : Expand Nat)
        { s' with trace := trace } := by
  rw [instantiateEach, bind_ok hstack]
  by_cases hn : n > 0
  · refine ⟨s'.trace.push (.instantiatedWith f c), ?_⟩
    simp only [if_pos hn]
    exact bind_ok (emit_ok _ s')
  · exact ⟨s'.trace, by simp only [if_neg hn]⟩

theorem instantiateEach_ok {tip : Nat} (source : Nat) (f : Formula) (x : Char) (body : Formula)
    (cs : List Char) (hs : s.Coherent) (hl : s.tableau.IsLeaf tip) :
    ∃ last n s', instantiateEach source f x body tip cs s = .ok n s' ∧
      Lengthens s s' tip last n ((s.tableau.path tip).instantiateEach x body cs) := by
  induction cs generalizing s tip with
  | nil => exact ⟨tip, 0, s, rfl, .refl hs hl⟩
  | cons c cs ih =>
    obtain ⟨last, n, s₁, hstack, h₁⟩ := stack_ok source [body.substitute x c .const] hs hl
    obtain ⟨trace, hrest⟩ := instantiateEach_cons f cs hstack
    have h₂ := h₁.trans hs hl (.of_trace h₁.coherent h₁.isLeaf trace)
    obtain ⟨m, hm, hclosed, -⟩ := node_leaf_ok h₂.coherent h₂.isLeaf
    rw [h₂.path] at hclosed
    rw [hrest, bind_ok hm, hclosed, h₁.path, Path.instantiateEach]
    split
    · exact ⟨last, n, _, rfl, h₁.path ▸ h₂⟩
    · obtain ⟨last', m', s₂, heach, h₃⟩ := ih h₂.coherent h₂.isLeaf
      rw [h₂.path, h₁.path] at h₃
      rw [bind_ok heach]
      exact ⟨last', n + m', s₂, rfl, h₂.trans hs hl h₃⟩

/-- A universal is instantiated at one leaf. -/
theorem instances_ok {leaf : Nat} (source : Nat) (f : Formula) (x : Char) (body : Formula)
    (hs : s.Coherent) (hl : s.tableau.IsLeaf leaf) : ∃ last n s', (do
        let constants ← seedConstants leaf
        instantiateEach source f x body leaf constants.members : Expand Nat) s = .ok n s' ∧
      Lengthens s s' leaf last n ((s.tableau.path leaf).seed.instantiateEach x body
        (s.tableau.path leaf).seed.constants.members) := by
  obtain ⟨s₁, hseed, h₁⟩ := seedConstants_ok hs hl
  obtain ⟨last, n, s₂, heach, h₂⟩ := instantiateEach_ok source f x body
    (s.tableau.path leaf).seed.constants.members h₁.coherent h₁.isLeaf
  rw [h₁.path] at h₂
  rw [bind_ok hseed]
  exact ⟨last, n, s₂, heach, Nat.zero_add n ▸ h₁.trans hs hl h₂⟩

/-! ## Identity -/

theorem replaceEach_ok {tip : Nat} (source : Nat) (f : Formula) (a b : Char) (fs : List Formula)
    (hs : s.Coherent) (hl : s.tableau.IsLeaf tip) :
    ∃ last n s', replaceEach source f a b tip fs s = .ok n s' ∧
      Lengthens s s' tip last n ((s.tableau.path tip).replaceEach a b fs) := by
  induction fs generalizing s tip with
  | nil => exact ⟨tip, 0, s, rfl, .refl hs hl⟩
  | cons g fs ih =>
    rw [replaceEach, Path.replaceEach]
    cases hr : replacement? a b g with
    | none => exact ih hs hl
    | some r =>
      obtain ⟨target, replacement⟩ := r
      simp only
      rw [bind_ok (tableau_ok s), branchContains_eq]
      split
      · exact ih hs hl
      · have h₀ := Lengthens.of_trace hs hl
          (s.trace.push (.replaced g (g.substitute target replacement .const) f))
        obtain ⟨s₁, hplace, h₁⟩ := place_leaf_ok source (g.substitute target replacement .const)
          .center h₀.coherent h₀.isLeaf
        have h₂ := Lengthens.of_recordReplacement h₁.coherent h₁.isLeaf source target replacement
        rw [h₁.path] at h₂
        have h₃ := h₀.trans hs hl (h₁.trans h₀.coherent h₀.isLeaf h₂)
        obtain ⟨n, hn, hclosed, -⟩ := node_leaf_ok h₃.coherent h₃.isLeaf
        rw [h₃.path, h₀.path] at hclosed
        rw [bind_ok (emit_ok _ s), bind_ok hplace, bind_ok (update_ok _ s₁), bind_ok hn, hclosed]
        split
        · exact ⟨_, _, _, rfl, h₃⟩
        · obtain ⟨last, m, s₂, heach, h₄⟩ := ih h₃.coherent h₃.isLeaf
          rw [h₃.path, h₀.path] at h₄
          rw [bind_ok heach]
          exact ⟨last, 1 + m, s₂, rfl, h₃.trans hs hl h₄⟩

/-! ## Many leaves -/

/-- Whether a step at a leaf succeeds and makes of its branch what `F` says. -/
def Realizes (step : Nat → Expand Nat) (source : Nat) (F : Path → List Formula → List Path) :
    Prop :=
  ∀ ⦃s : Expansion⦄ ⦃leaf : Nat⦄, s.Coherent → s.tableau.IsLeaf leaf →
    ∃ n s', step leaf s = .ok n s' ∧ Grows s s' [leaf] n ∧
      (s'.tableau.leavesBelow leaf).map s'.tableau.path =
        F (s.tableau.path leaf) (closableOn s.tableau source leaf)

/-- What a step does at one leaf, `total` does at each leaf of a list. -/
theorem total_ok {step : Nat → Expand Nat} {source : Nat} {F : Path → List Formula → List Path}
    (hstep : Realizes step source F) {L : List Nat} (hs : s.Coherent)
    (hL : ∀ l ∈ L, s.tableau.IsLeaf l) (hnodup : L.Nodup) :
    ∃ n s', total step L s = .ok n s' ∧ Grows s s' L n ∧
      ∀ l ∈ L, (s'.tableau.leavesBelow l).map s'.tableau.path =
        F (s.tableau.path l) (closableOn s.tableau source l) := by
  induction L generalizing s with
  | nil => exact ⟨0, s, rfl, .refl hs [], fun l hl => absurd hl List.not_mem_nil⟩
  | cons l L ih =>
    obtain ⟨hl, hL⟩ := List.forall_mem_cons.1 hL
    obtain ⟨hlL, hnodup⟩ := List.nodup_cons.1 hnodup
    obtain ⟨n, s₁, hone, h₁, hpaths⟩ := hstep hs hl
    -- The other leaves are as they were.
    have hne : ∀ k ∈ L, k ∉ [l] := fun k hk hmem => hlL (List.mem_singleton.1 hmem ▸ hk)
    have hL₁ : ∀ k ∈ L, s₁.tableau.IsLeaf k := fun k hk =>
      h₁.tableau.isLeaf_of_not_mem (hL k hk) (hne k hk)
    obtain ⟨m, s₂, hrest, h₂, hpaths₂⟩ := ih h₁.coherent hL₁ hnodup
    rw [total, bind_ok hone, bind_ok hrest]
    refine ⟨n + m, s₂, rfl, ?_, List.forall_mem_cons.2 ⟨?_, fun k hk => ?_⟩⟩
    · refine (h₁.mono fun k hk => ?_).trans h₂ fun k hk _ => List.mem_cons_of_mem l hk
      exact List.mem_singleton.1 hk ▸ List.mem_cons_self
    · have hout : ∀ k ∈ s₁.tableau.leavesBelow l, k ∉ L := by
        intro k hk hkL
        have hbranch := (h₁.tableau.tree.mem_leavesBelow.1 hk).2
        rw [h₁.tableau.branch (hL k hkL).lt_size] at hbranch
        exact hlL (hs.tree.eq_of_mem_branch_leaf hl hbranch ▸ hkL)
      rw [← hpaths, h₂.tableau.leavesBelow_eq h₁.tableau.tree (h₁.tableau.lt_size hl.lt_size) hL₁ hout]
      refine List.map_congr_left fun k hk => ?_
      have hleaf := (h₁.tableau.tree.mem_leavesBelow.1 hk).1
      exact h₂.tableau.path_of_not_mem h₁.tableau.tree hleaf.lt_size (hout k hk)
    · have hlt := (hL k hk).lt_size
      rw [hpaths₂ k hk, h₁.tableau.path_of_not_mem hs.tree hlt (hne k hk),
        h₁.tableau.closableOn hs.tree hlt]

/-! ## What lies dormant -/

/-- Whether the given nodes were put on the agenda again, and `dormant` are left to lie. -/
structure Rouses (s s' : Expansion) (woken dormant : List Nat) : Prop where
  tableau : s.tableau.Extends s'.tableau []
  marked : s'.tableau.LeavesMarked
  size : s'.tableau.size = s.tableau.size
  keys : s'.keys.Perm (woken ++ s.keys)
  ordered : (∀ k ∈ woken, s.tableau.Repeats k) → s.Ordered → s'.Ordered
  dormant : s'.dormant = dormant
  requeues : s'.requeues = s.requeues

theorem Rouses.refl (hs : s.Coherent) : Rouses s s [] s.dormant :=
  ⟨.refl hs.tree [], hs.marked, rfl, .refl _, fun _ => id, rfl, rfl⟩

theorem Rouses.trans {a b d d' : List Nat} (h : Rouses s s' a d) (h' : Rouses s' s'' b d') :
    Rouses s s'' (a ++ b) d' where
  tableau := h.tableau.trans h'.tableau fun _ hk => absurd hk List.not_mem_nil
  marked := h'.marked
  size := h'.size.trans h.size
  keys := by
    refine (h'.keys.trans (h.keys.append_left b)).trans ?_
    rw [← List.append_assoc]
    exact List.perm_append_comm.append_right _
  ordered hrepeats hs := by
    refine h'.ordered (fun k hk => ?_) (h.ordered (fun k hk => ?_) hs)
    · exact (hrepeats k (List.mem_append_right _ hk)).of_extends h.tableau
    · exact hrepeats k (List.mem_append_left _ hk)
  dormant := h'.dormant
  requeues := h'.requeues.trans h.requeues

theorem requeue_ok {key : Nat} (hs : s.Coherent) (hk : key < s.tableau.size) :
    ∃ s', requeue key s = .ok () s' ∧ Rouses s s' [key] s.dormant := by
  obtain ⟨n, hn⟩ := node?_eq_some_of_lt hk
  rw [requeue, bind_ok (node_ok hn)]
  refine ⟨_, rfl, ⟨?_, fun k n hk => ?_⟩, ?_, rfl, ?_, fun hrepeats hordered => ?_, rfl, rfl⟩
  · exact ⟨hs.tree.root, hs.tree.parent, hs.tree.child, hs.tree.distinct⟩
  · exact ⟨n, hk, .refl n, fun _ => .refl n⟩
  · exact hs.marked
  · exact (Agenda.push_perm _ _).map _
  · obtain ⟨n', hn', hrepeats⟩ := hrepeats key (List.mem_singleton_self key)
    obtain rfl : n' = n := Option.some.inj (hn'.symm.trans hn)
    have hid := (hordered.dated.id_lt key n' hn).le
    have hpushed := hordered.push (e := ⟨n'.precedence, s.tableau.nextId, key⟩) hn
      ⟨rfl, hid, fun hnot => absurd hrepeats hnot⟩
    exact ⟨hpushed.dated.skipId, hpushed.sorted, hpushed.entry⟩

theorem wakeAll_ok {keys : List Nat} (hs : s.Coherent) (hk : ∀ k ∈ keys, k < s.tableau.size) :
    ∃ s', wakeAll keys s = .ok () s' ∧ Rouses s s' keys s.dormant := by
  induction keys generalizing s with
  | nil => exact ⟨s, rfl, .refl hs⟩
  | cons k keys ih =>
    obtain ⟨hk, hkeys⟩ := List.forall_mem_cons.1 hk
    have h₀ : Rouses s { s with trace := s.trace.push (.woken k) } [] s.dormant :=
      ⟨.refl hs.tree [], hs.marked, rfl, .refl _, fun _ h => h.congr rfl rfl, rfl, rfl⟩
    obtain ⟨s₁, hone, h₁⟩ := requeue_ok (s := { s with trace := s.trace.push (.woken k) })
      ⟨hs.tree, hs.marked⟩ hk
    obtain ⟨s₂, hrest, h₂⟩ := ih ⟨h₁.tableau.tree, h₁.marked⟩ fun j hj => h₁.size ▸ hkeys j hj
    rw [wakeAll, bind_ok (emit_ok _ s), bind_ok hone]
    have hall := h₀.trans (h₁.trans h₂)
    rw [h₁.dormant] at hall
    exact ⟨s₂, hrest, hall⟩

theorem wake_ok (hs : s.Coherent) (hk : ∀ k ∈ s.dormant, k < s.tableau.size) :
    ∃ s', wake s = .ok () s' ∧ Rouses s s' s.dormant [] := by
  obtain ⟨s₁, hwake, h₁⟩ := wakeAll_ok (s := { s with dormant := [] }) ⟨hs.tree, hs.marked⟩ hk
  exact ⟨s₁, hwake, h₁.tableau, h₁.marked, h₁.size, h₁.keys,
    fun hrepeats h => h₁.ordered hrepeats (h.congr rfl rfl), h₁.dormant, h₁.requeues⟩

end Expand

/-- Which nodes are put on the agenda again after a rule was applied for the node `key` with `n` new
nodes, and which are left to lie. -/
def Decomposition.rouse (d : Decomposition) (requeues : Bool) (key n : Nat) (dormant : List Nat) :
    List Nat × List Nat :=
  match d with
  | .witness _ _ => if n > 0 ∧ requeues then (dormant, []) else ([], dormant)
  | .instances _ _ | .replace _ _ =>
    if requeues then if n = 0 then ([], dormant ++ [key]) else (dormant ++ [key], [])
    else ([], dormant)
  | .nothing | .stack _ | .split _ _ _ _ | .unexpected => ([], dormant)

/-- Whether the rule may have more to add later. -/
def Decomposition.IsRepeatable : Decomposition → Prop
  | .instances _ _ | .replace _ _ => True
  | _ => False

instance : DecidablePred Decomposition.IsRepeatable
  | .instances _ _ | .replace _ _ => .isTrue trivial
  | .nothing | .stack _ | .split _ _ _ _ | .witness _ _ | .unexpected => .isFalse id

theorem Decomposition.rouse_of_isRepeatable {d : Decomposition} (hd : d.IsRepeatable)
    (requeues : Bool) (key n : Nat) (dormant : List Nat) : d.rouse requeues key n dormant =
      if requeues then if n = 0 then ([], dormant ++ [key]) else (dormant ++ [key], [])
      else ([], dormant) := by
  cases d with
  | instances x body => rfl
  | replace a b => rfl
  | _ => exact hd.elim

theorem Decomposition.rouse_zero (d : Decomposition) (requeues : Bool) (key : Nat)
    (dormant : List Nat) : (d.rouse requeues key 0 dormant).1 = [] := by
  cases d with
  | instances x body => cases requeues <;> rfl
  | replace a b => cases requeues <;> rfl
  | _ => rfl

/-- No dormant node gets lost, and no node is added but the one that is dispatched. -/
theorem Decomposition.rouse_append (d : Decomposition) (requeues : Bool) (key n : Nat)
    (dormant : List Nat) :
    (d.rouse requeues key n dormant).1 ++ (d.rouse requeues key n dormant).2 = dormant ∨
      d.IsRepeatable ∧ (d.rouse requeues key n dormant).1 ++ (d.rouse requeues key n dormant).2 =
        dormant ++ [key] := by
  by_cases hd : d.IsRepeatable
  · rw [rouse_of_isRepeatable hd]
    split
    · split
      · exact .inr ⟨hd, rfl⟩
      · exact .inr ⟨hd, List.append_nil _⟩
    · exact .inl rfl
  · cases d with
    | instances x body => exact absurd trivial hd
    | replace a b => exact absurd trivial hd
    | witness x body =>
      rw [rouse]
      split
      · exact .inl (List.append_nil _)
      · exact .inl rfl
    | _ => exact .inl rfl

theorem Decomposition.mem_of_mem_rouse {d : Decomposition} {requeues : Bool} {key n k : Nat}
    {dormant : List Nat}
    (h : k ∈ (d.rouse requeues key n dormant).1 ++ (d.rouse requeues key n dormant).2) :
    k ∈ dormant ∨ d.IsRepeatable ∧ k = key := by
  rcases d.rouse_append requeues key n dormant with he | ⟨hd, he⟩
  · exact .inl (he ▸ h)
  · rw [he, List.mem_append, List.mem_singleton] at h
    exact h.imp_right fun h => ⟨hd, h⟩

namespace Expand

theorem get_ok (s : Expansion) : (get : Expand Expansion) s = .ok s s := rfl

theorem settle_ok {key : Nat} {d : Decomposition} (hd : d.IsRepeatable) (n : Nat) (hs : s.Coherent)
    (hkey : key < s.tableau.size) (hk : ∀ k ∈ s.dormant, k < s.tableau.size) :
    ∃ s', settle key n s = .ok () s' ∧ Rouses s s' (d.rouse s.requeues key n s.dormant).1
      (d.rouse s.requeues key n s.dormant).2 := by
  rw [settle, bind_ok (get_ok s), Decomposition.rouse_of_isRepeatable hd]
  by_cases hr : s.requeues
  · rw [if_pos hr, if_pos hr]
    by_cases hn : n = 0
    · rw [if_pos hn, if_pos hn]
      exact ⟨_, rfl, .refl hs.tree [], hs.marked, rfl, .refl _, fun _ h => h.congr rfl rfl, rfl, rfl⟩
    · rw [if_neg hn, if_neg hn]
      obtain ⟨s₁, hwake, h₁⟩ := wake_ok hs hk
      have hkey₁ : key < s₁.tableau.size := h₁.size ▸ hkey
      obtain ⟨s₂, hone, h₂⟩ := requeue_ok ⟨h₁.tableau.tree, h₁.marked⟩ hkey₁
      rw [h₁.dormant] at h₂
      rw [bind_ok hwake]
      exact ⟨s₂, hone, h₁.trans h₂⟩
  · rw [if_neg hr, if_neg hr]
    exact ⟨s, rfl, .refl hs⟩

/-! ## The dispatch -/

theorem constantsOf_ok {leaves : List Nat} (hs : s.Coherent)
    (hL : ∀ l ∈ leaves, s.tableau.IsLeaf l) : ∃ u, constantsOf leaves s = .ok u s ∧
      ∀ c, c ∈ u ↔ ∃ l ∈ leaves, c ∈ (s.tableau.path l).constants := by
  induction leaves with
  | nil => exact ⟨∅, rfl, fun c => by simp⟩
  | cons l leaves ih =>
    obtain ⟨hl, hL⟩ := List.forall_mem_cons.1 hL
    obtain ⟨n, hn, -, hconstants⟩ := node_leaf_ok hs hl
    obtain ⟨u, hu, hmem⟩ := ih hL
    rw [constantsOf, bind_ok hn, bind_ok hu]
    refine ⟨n.constants.union u, rfl, fun c => ?_⟩
    rw [Symbols.mem_union, hmem, hconstants]
    simp

/-- Whether the rule `d` was applied at the open leaves below the node `key`, with `n` new nodes and
the constant `c` for a witness. -/
structure Applies (s s' : Expansion) (key : Nat) (d : Decomposition) (c : Char) (n : Nat) :
    Prop where
  tableau : s.tableau.Extends s'.tableau (s.tableau.openLeavesBelow key)
  marked : s'.tableau.LeavesMarked
  size : s'.tableau.size = s.tableau.size + n
  simple : d = .nothing → n = 0
  paths : ∀ l ∈ s.tableau.openLeavesBelow key, (s'.tableau.leavesBelow l).map s'.tableau.path =
    (s.tableau.path l).grow c (closableOn s.tableau key l) d
  keys : s'.keys.Perm
    ((d.rouse s.requeues key n s.dormant).1 ++ (List.range' s.tableau.size n ++ s.keys))
  ordered : (∀ k ∈ (d.rouse s.requeues key n s.dormant).1, s.tableau.Repeats k) → s.Ordered →
    s'.Ordered
  dormant : s'.dormant = (d.rouse s.requeues key n s.dormant).2
  requeues : s'.requeues = s.requeues

theorem Applies.of_trace {key n : Nat} {d : Decomposition} {c : Char} (h : Applies s s' key d c n)
    (trace : Trace) : Applies s { s' with trace := trace } key d c n :=
  ⟨h.tableau, h.marked, h.size, h.simple, h.paths, h.keys,
    fun hrepeats hs => (h.ordered hrepeats hs).congr rfl rfl, h.dormant, h.requeues⟩

/-- The ways in which a dispatch can end. -/
inductive Outcome (s : Expansion) (key : Nat) :
    EStateM.Result TableauError Expansion Dispatched → Prop
  /-- Every branch through the node is closed. -/
  | idle (h : s.tableau.openLeavesBelow key = []) : Outcome s key (.ok (.added 0) s)
  | applied {m : Node} {c : Char} {n : Nat} {s' : Expansion}
    (hL : s.tableau.openLeavesBelow key ≠ []) (hm : s.tableau.node? key = some m)
    (hd : m.formula.decompose ≠ .unexpected)
    (hc : ∀ x body, m.formula.decompose = .witness x body → isConstantSymbol c ∧
      ∀ l ∈ s.tableau.openLeavesBelow key, c ∉ (s.tableau.path l).constants)
    (h : Applies s s' key m.formula.decompose c n) : Outcome s key (.ok (.added n) s')
  /-- No constant is left for a witness. -/
  | exhausted {m : Node} {x : Char} {body : Formula} {trace : Trace}
    (hm : s.tableau.node? key = some m) (hd : m.formula.decompose = .witness x body)
    (hc : ∀ c ∈ constantSymbols, ∃ l ∈ s.tableau.openLeavesBelow key,
      c ∈ (s.tableau.path l).constants) :
    Outcome s key (.ok .constantsExhausted { s with trace := trace })
  | unexpected {m : Node} {s' : Expansion} (hL : s.tableau.openLeavesBelow key ≠ [])
    (hm : s.tableau.node? key = some m) (hd : m.formula.decompose = .unexpected) :
    Outcome s key (.error .unexpectedKind s')

theorem mem_openLeavesBelow {key l : Nat} (hs : s.Coherent) :
    l ∈ s.tableau.openLeavesBelow key ↔
      s.tableau.IsLeaf l ∧ key ∈ s.tableau.branch l ∧ (s.tableau.path l).isClosed = false := by
  rw [openLeavesBelow, List.mem_filter, hs.tree.mem_leavesBelow, and_assoc]
  refine and_congr_right fun hl => and_congr_right fun _ => ?_
  obtain ⟨n, hn, hleaf⟩ := hl
  rw [hn, ← hs.marked l n hn hleaf]
  simp

section Outcome

variable {s₁ s₂ : Expansion} {key n : Nat} {d : Decomposition} {c : Char} {trace : Trace}

/-- The leaves grow first, and what lies dormant is looked at after that. -/
theorem Applies.of_grows (hs : s.Coherent)
    (h₁ : Grows { s with trace := trace } s₁ (s.tableau.openLeavesBelow key) n)
    (hpaths : ∀ l ∈ s.tableau.openLeavesBelow key, (s₁.tableau.leavesBelow l).map s₁.tableau.path =
      (s.tableau.path l).grow c (closableOn s.tableau key l) d)
    (h₂ : Rouses s₁ s₂ (d.rouse s.requeues key n s.dormant).1
      (d.rouse s.requeues key n s.dormant).2) (hsimple : d = .nothing → n = 0) :
    Applies s s₂ key d c n where
  simple := hsimple
  tableau := h₁.tableau.trans h₂.tableau fun _ hk => absurd hk List.not_mem_nil
  marked := h₂.marked
  size := h₂.size.trans h₁.size
  paths := by
    intro l hl
    have hlt := h₁.tableau.lt_size ((mem_openLeavesBelow hs).1 hl).1.lt_size
    have hbelow := h₂.tableau.leavesBelow_eq h₁.tableau.tree hlt
      (fun _ hk => absurd hk List.not_mem_nil) fun _ _ => List.not_mem_nil
    rw [← hpaths l hl, hbelow]
    refine List.map_congr_left fun k hk => ?_
    have hleaf := (h₁.tableau.tree.mem_leavesBelow.1 hk).1
    exact h₂.tableau.path_of_not_mem h₁.tableau.tree hleaf.lt_size List.not_mem_nil
  keys := h₂.keys.trans (h₁.keys.append_left _)
  ordered hrepeats h :=
    h₂.ordered (fun k hk => (hrepeats k hk).of_extends h₁.tableau) (h₁.ordered (h.congr rfl rfl))
  dormant := h₂.dormant
  requeues := h₂.requeues.trans h₁.requeues

end Outcome

theorem Realizes.of_lengthens {step : Nat → Expand Nat} {source : Nat}
    {F : Path → List Formula → Path}
    (h : ∀ ⦃s : Expansion⦄ ⦃leaf : Nat⦄, s.Coherent → s.tableau.IsLeaf leaf →
      ∃ last n s', step leaf s = .ok n s' ∧ Lengthens s s' leaf last n
        (F (s.tableau.path leaf) (closableOn s.tableau source leaf))) :
    Realizes step source fun p others => [F p others] := by
  intro s leaf hs hl
  obtain ⟨last, n, s', hstep, hlong⟩ := h hs hl
  refine ⟨n, s', hstep, hlong.toGrows, ?_⟩
  rw [hlong.below, List.map_singleton, hlong.path]

/-! ### One leaf for each rule -/

theorem realizes_stack (source : Nat) (fs : List Formula) :
    Realizes (fun leaf => return (← stack source leaf fs).2) source fun p _ => [p.stack fs] := by
  refine .of_lengthens fun s leaf hs hl => ?_
  obtain ⟨last, n, s', hstack, h⟩ := stack_ok source fs hs hl
  exact ⟨last, n, s', bind_ok hstack, h⟩

theorem realizes_split (source : Nat) (left : Formula) (lefts : List Formula) (right : Formula)
    (rights : List Formula) : Realizes (fun leaf => do
        let n ← branchOff source leaf .left left lefts
        let m ← branchOff source leaf .right right rights
        return n + m) source
      fun p _ => [(p.push left).stack lefts, (p.push right).stack rights] :=
  fun _ _ hs hl => split_ok source left lefts right rights hs hl

theorem realizes_witness (source : Nat) (f : Formula) (c : Char) : Realizes (fun leaf => do
        if (← tableau).branchContains leaf f then
          return 0
        else
          let child ← place leaf f source .center
          update (·.addConstant child c)
          return 1) source fun p _ => [p.witness f c] :=
  .of_lengthens fun _ _ hs hl => witness_ok source f c hs hl

theorem realizes_instances (source : Nat) (f : Formula) (x : Char) (body : Formula) :
    Realizes (fun leaf => do
        let constants ← seedConstants leaf
        instantiateEach source f x body leaf constants.members) source
      fun p _ => [p.seed.instantiateEach x body p.seed.constants.members] :=
  .of_lengthens fun _ _ hs hl => instances_ok source f x body hs hl

theorem realizes_replace (source : Nat) (f : Formula) (a b : Char) : Realizes (fun leaf => do
        let formulas := closableOn (← tableau) source leaf
        replaceEach source f a b leaf formulas) source
      fun p others => [p.replaceEach a b others] := by
  refine .of_lengthens fun s leaf hs hl => ?_
  rw [bind_ok (tableau_ok s)]
  exact replaceEach_ok source f a b _ hs hl

/-! ### Every open leaf -/

section Rules

variable {key : Nat} {trace : Trace} (hs : s.Coherent)
  (hdormant : ∀ k ∈ s.dormant, k < s.tableau.size)

include hs

/-- A step that makes of every branch what the rule `d` says, carried out at the open leaves below the
node `key`. -/
theorem total_open_ok {step : Nat → Expand Nat} {F : Path → List Formula → List Path}
    (hstep : Realizes step key F) :
    ∃ n s₁, total step (s.tableau.openLeavesBelow key) { s with trace := trace } = .ok n s₁ ∧
      Grows { s with trace := trace } s₁ (s.tableau.openLeavesBelow key) n ∧
      ∀ l ∈ s.tableau.openLeavesBelow key, (s₁.tableau.leavesBelow l).map s₁.tableau.path =
        F (s.tableau.path l) (closableOn s.tableau key l) := by
  refine total_ok (s := { s with trace := trace }) hstep ⟨hs.tree, hs.marked⟩ (fun l hl => ?_) ?_
  · exact ((mem_openLeavesBelow hs).1 hl).1
  · exact (hs.tree.nodup_leavesBelow key).filter _

theorem stackAll_applies (fs : List Formula) :
    ∃ n s', stackAll key (s.tableau.openLeavesBelow key) fs { s with trace := trace } = .ok n s' ∧
      Applies s s' key (.stack fs) firstConstant n := by
  obtain ⟨n, s₁, htotal, h₁, hpaths⟩ := total_open_ok hs (realizes_stack key fs)
  exact ⟨n, s₁, htotal, .of_grows hs h₁ hpaths (h₁.dormant ▸ .refl h₁.coherent) nofun⟩

theorem splitAll_applies (left : Formula) (lefts : List Formula) (right : Formula)
    (rights : List Formula) : ∃ n s', splitAll key (s.tableau.openLeavesBelow key) left lefts right
        rights { s with trace := trace } = .ok n s' ∧
      Applies s s' key (.split left lefts right rights) firstConstant n := by
  obtain ⟨n, s₁, htotal, h₁, hpaths⟩ :=
    total_open_ok hs (realizes_split key left lefts right rights)
  exact ⟨n, s₁, htotal, .of_grows hs h₁ hpaths (h₁.dormant ▸ .refl h₁.coherent) nofun⟩

theorem nothing_applies : Applies s { s with trace := trace } key .nothing firstConstant 0 := by
  refine .of_grows hs (.of_trace hs _ trace) (fun l hl => ?_) (.refl ⟨hs.tree, hs.marked⟩)
    fun _ => rfl
  obtain ⟨n, hn, hleaf⟩ := ((mem_openLeavesBelow hs).1 hl).1
  rw [leavesBelow_of_isLeaf hn hleaf]
  rfl

include hdormant

theorem settle_applies {s₁ : Expansion} {n : Nat} {d : Decomposition} (hd : d.IsRepeatable)
    (hkey : key < s.tableau.size)
    (h₁ : Grows { s with trace := trace } s₁ (s.tableau.openLeavesBelow key) n)
    (hpaths : ∀ l ∈ s.tableau.openLeavesBelow key, (s₁.tableau.leavesBelow l).map s₁.tableau.path =
      (s.tableau.path l).grow firstConstant (closableOn s.tableau key l) d) :
    ∃ s', settle key n s₁ = .ok () s' ∧ Applies s s' key d firstConstant n := by
  have hdormant₁ : ∀ k ∈ s₁.dormant, k < s₁.tableau.size := fun k hk =>
    h₁.tableau.lt_size (hdormant k (h₁.dormant ▸ hk))
  obtain ⟨s₂, hsettle, h₂⟩ := settle_ok hd n h₁.coherent (h₁.tableau.lt_size hkey) hdormant₁
  rw [h₁.dormant, h₁.requeues] at h₂
  refine ⟨s₂, hsettle, .of_grows hs h₁ hpaths h₂ fun hnothing => ?_⟩
  rw [hnothing] at hd
  exact hd.elim

theorem universal_applies (f : Formula) (x : Char) (body : Formula) (hkey : key < s.tableau.size) :
    ∃ n s', universal key f x body (s.tableau.openLeavesBelow key) { s with trace := trace } =
        .ok (.added n) s' ∧ Applies s s' key (.instances x body) firstConstant n := by
  obtain ⟨n, s₁, htotal, h₁, hpaths⟩ := total_open_ok hs (realizes_instances key f x body)
  obtain ⟨s₂, hsettle, h₂⟩ :=
    settle_applies hs hdormant (d := .instances x body) trivial hkey h₁ hpaths
  refine ⟨n, s₂, ?_, h₂⟩
  rw [universal, bind_ok htotal, bind_ok hsettle]
  rfl

theorem identity_applies (f : Formula) (a b : Char) (hkey : key < s.tableau.size) :
    ∃ n s', identity key f a b (s.tableau.openLeavesBelow key) { s with trace := trace } =
        .ok (.added n) s' ∧ Applies s s' key (.replace a b) firstConstant n := by
  obtain ⟨n, s₁, htotal, h₁, hpaths⟩ := total_open_ok hs (realizes_replace key f a b)
  obtain ⟨s₂, hsettle, h₂⟩ := settle_applies hs hdormant (d := .replace a b) trivial hkey h₁ hpaths
  refine ⟨n, s₂, ?_, h₂⟩
  rw [identity, bind_ok htotal, bind_ok hsettle]
  rfl

variable (key trace) in
/-- Existentials wake what lies dormant as soon as they add a node. -/
theorem witnessAll_applies (f : Formula) (x : Char) (body : Formula) (c : Char) :
    ∃ n s', (do
        emit (.instantiatedTo f (body.substitute x c .const))
        let n ← witnessAll key (body.substitute x c .const) c (s.tableau.openLeavesBelow key)
        if n > 0 ∧ (← get).requeues then
          wake
        return .added n : Expand Dispatched) { s with trace := trace } = .ok (.added n) s' ∧
      Applies s s' key (.witness x body) c n := by
  rw [bind_ok (emit_ok _ _)]
  obtain ⟨n, s₁, htotal, h₁, hpaths⟩ :=
    total_open_ok hs (realizes_witness key (body.substitute x c .const) c)
  rw [witnessAll, bind_ok htotal, bind_ok (get_ok s₁)]
  have hrouse : ∀ {s₂}, Rouses s₁ s₂
      ((Decomposition.witness x body).rouse s₁.requeues key n s₁.dormant).1
      ((Decomposition.witness x body).rouse s₁.requeues key n s₁.dormant).2 →
      Applies s s₂ key (.witness x body) c n := by
    intro s₂ h₂
    rw [h₁.dormant, h₁.requeues] at h₂
    exact .of_grows hs h₁ hpaths h₂ nofun
  rw [Decomposition.rouse] at hrouse
  split
  · next hwake =>
    have hdormant₁ : ∀ k ∈ s₁.dormant, k < s₁.tableau.size := fun k hk =>
      h₁.tableau.lt_size (hdormant k (h₁.dormant ▸ hk))
    obtain ⟨s₂, hok, h₂⟩ := wake_ok h₁.coherent hdormant₁
    refine ⟨n, s₂, bind_ok hok, hrouse ?_⟩
    rw [if_pos hwake]
    exact h₂
  · next hwake =>
    refine ⟨n, s₁, rfl, hrouse ?_⟩
    rw [if_neg hwake]
    exact .refl h₁.coherent

theorem existential_outcome {m : Node} {x : Char} {body : Formula}
    (hL : s.tableau.openLeavesBelow key ≠ []) (hm : s.tableau.node? key = some m)
    (hd : m.formula.decompose = .witness x body) :
    Outcome s key (existential key m.formula x body (s.tableau.openLeavesBelow key)
      { s with trace := trace }) := by
  have hleaf : ∀ l ∈ s.tableau.openLeavesBelow key, s.tableau.IsLeaf l := fun l hl =>
    ((mem_openLeavesBelow hs).1 hl).1
  obtain ⟨u, hu, hmem⟩ :=
    constantsOf_ok (s := { s with trace := trace }) ⟨hs.tree, hs.marked⟩ hleaf
  rw [existential, bind_ok hu]
  cases hfresh : fresh? u with
  | none =>
    refine .exhausted hm hd fun c hc => (hmem c).1 ?_
    exact fresh?_eq_none_iff.1 hfresh c hc
  | some c =>
    obtain ⟨n, s', hok, h⟩ := witnessAll_applies key trace hs hdormant m.formula x body c
    refine (congrArg (Outcome s key) hok).mpr (.applied hL hm ?_ ?_ (hd ▸ h))
    · rw [hd]
      exact Decomposition.noConfusion
    · intro _ _ _
      refine ⟨isConstantSymbol_of_mem (mem_constantSymbols_of_fresh? hfresh), fun l hl hc => ?_⟩
      exact not_mem_of_fresh? hfresh ((hmem c).2 ⟨l, hl, hc⟩)

end Rules

/-- A dispatch ends in one of the ways of `Outcome`. -/
theorem dispatch_outcome {key : Nat} (hs : s.Coherent)
    (hdormant : ∀ k ∈ s.dormant, k < s.tableau.size) : Outcome s key (dispatch key s) := by
  rw [dispatch, bind_ok (tableau_ok s)]
  by_cases hempty : s.tableau.openLeavesBelow key = []
  · rw [hempty]
    exact .idle hempty
  obtain ⟨l, hl⟩ := List.exists_mem_of_ne_nil _ hempty
  obtain ⟨hleaf, hbranch, -⟩ := (mem_openLeavesBelow hs).1 hl
  have hkey := Nat.lt_of_le_of_lt (hs.tree.le_of_mem_branch hbranch) hleaf.lt_size
  obtain ⟨m, hm⟩ := node?_eq_some_of_lt hkey
  simp only [List.isEmpty_iff, hempty, if_false]
  rw [bind_ok (node_ok hm), bind_ok (emit_ok _ s)]
  -- Only an existential has a choice of constant.
  have happlied : ∀ {n s' r}, (∀ x body, m.formula.decompose ≠ .witness x body) →
      m.formula.decompose ≠ .unexpected → r = .ok (.added n) s' →
      Applies s s' key m.formula.decompose firstConstant n → Outcome s key r :=
    fun hw hu hr h => hr ▸ .applied hempty hm hu (fun x body hd => absurd hd (hw x body)) h
  cases hd : m.formula.decompose with
  | nothing => exact happlied (by simp [hd]) (by simp [hd]) rfl (hd ▸ nothing_applies hs)
  | stack fs =>
    obtain ⟨n, s', hok, h⟩ := stackAll_applies hs fs
    exact happlied (by simp [hd]) (by simp [hd]) (bind_ok hok) (hd ▸ h)
  | split left lefts right rights =>
    obtain ⟨n, s', hok, h⟩ := splitAll_applies hs left lefts right rights
    exact happlied (by simp [hd]) (by simp [hd]) (bind_ok hok) (hd ▸ h)
  | witness x body => exact existential_outcome hs hdormant hempty hm hd
  | instances x body =>
    obtain ⟨n, s', hok, h⟩ := universal_applies hs hdormant m.formula x body hkey
    exact happlied (by simp [hd]) (by simp [hd]) hok (hd ▸ h)
  | replace a b =>
    obtain ⟨n, s', hok, h⟩ := identity_applies hs hdormant m.formula a b hkey
    exact happlied (by simp [hd]) (by simp [hd]) hok (hd ▸ h)
  | unexpected => exact .unexpected hempty hm hd

end Expand

end Sequitur
