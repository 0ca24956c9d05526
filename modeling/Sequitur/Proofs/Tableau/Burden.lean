import Sequitur.Proofs.Tableau.Room

/-!
# The burden of a branch

Universals and identities are dispatched again and again, but what they add to a branch takes room on
it. All other nodes are dispatched once, and what their rules give weighs less, so the branch loses
weight that waits to be dispatched. The burden of a branch is made of both, and room counts for more
than the weight of any formula that may take it. A rule makes at most two branches of one. So the sum
of `3 ^ burden` over the open branches never rises, and it falls if a node was added or if the node
that was dispatched will not be dispatched again (`costBelow_lt`, `costBelow_le`).
-/

namespace Sequitur

open Tableau Expand Expansion

variable {s s' : Expansion}

/-! ## What waits on a branch -/

namespace Formula

theorem load_append (fs gs : List Formula) : load (fs ++ gs) = load fs + load gs := by
  rw [load, List.map_append, List.sum_append, load, load]

theorem load_le_of_sublist {fs gs : List Formula} (h : fs.Sublist gs) : load fs ≤ load gs :=
  (h.map _).sum_le_sum fun _ _ => Nat.zero_le _

theorem load_le_of_bulk_le {B : Nat} {fs : List Formula} (h : ∀ f ∈ fs, f.bulk ≤ B) :
    load fs ≤ fs.length * B := by
  have hweight : ∀ n ∈ fs.map (weight false), n ≤ B := by
    intro n hn
    obtain ⟨f, hf, rfl⟩ := List.mem_map.1 hn
    exact Nat.le_trans (Nat.le_of_lt f.weight_lt_bulk) (h f hf)
  have hsum := List.sum_le_card_nsmul _ B hweight
  rwa [List.length_map] at hsum

/-- The weight of the formulas whose keys are among some. -/
def loadOf (keys : List Nat) (es : List (Nat × Formula)) : Nat :=
  load ((es.filter (·.1 ∈ keys)).map (·.2))

theorem loadOf_append (keys : List Nat) (es es' : List (Nat × Formula)) :
    loadOf keys (es ++ es') = loadOf keys es + loadOf keys es' := by
  rw [loadOf, List.filter_append, List.map_append, load_append, loadOf, loadOf]

theorem loadOf_congr {keys keys' : List Nat} {es : List (Nat × Formula)}
    (h : ∀ e ∈ es, e.1 ∈ keys ↔ e.1 ∈ keys') : loadOf keys es = loadOf keys' es := by
  rw [loadOf, loadOf]
  congr 2
  exact List.filter_congr fun e he => by simp [h e he]

theorem loadOf_filter_le (keys : List Nat) (P : Nat × Formula → Bool)
    (es : List (Nat × Formula)) : loadOf keys (es.filter P) ≤ load (es.map (·.2)) :=
  load_le_of_sublist ((List.filter_sublist.trans List.filter_sublist).map _)

theorem loadOf_cons (keys : List Nat) (e : Nat × Formula) (es : List (Nat × Formula)) :
    loadOf keys (e :: es) = (if e.1 ∈ keys then e.2.weight false else 0) + loadOf keys es := by
  rw [loadOf, List.filter_cons]
  split
  · next h => rw [if_pos (of_decide_eq_true h), List.map_cons, load_cons, loadOf]
  · next h => rw [if_neg (of_decide_eq_false (Bool.eq_false_iff.2 h)), Nat.zero_add, loadOf]

theorem loadOf_le_cons (k : Nat) (keys : List Nat) (es : List (Nat × Formula)) :
    loadOf keys es ≤ loadOf (k :: keys) es := by
  induction es with
  | nil => exact Nat.le_refl _
  | cons e es ih =>
    rw [loadOf_cons, loadOf_cons]
    by_cases he : e.1 ∈ keys
    · rw [if_pos he, if_pos (List.mem_cons_of_mem k he)]
      omega
    · rw [if_neg he]
      omega

/-- A key that is taken away takes the weight of its formula with it. -/
theorem loadOf_add_weight_le {k : Nat} {keys : List Nat} {f : Formula} {es : List (Nat × Formula)}
    (hk : k ∉ keys) (h : (k, f) ∈ es) :
    loadOf keys es + f.weight false ≤ loadOf (k :: keys) es := by
  induction es with
  | nil => exact absurd h List.not_mem_nil
  | cons e es ih =>
    rw [loadOf_cons, loadOf_cons]
    rcases List.mem_cons.1 h with rfl | h
    · rw [if_neg hk, if_pos List.mem_cons_self, Nat.zero_add, Nat.add_comm]
      exact Nat.add_le_add_left (loadOf_le_cons k keys es) _
    · have hle := ih h
      by_cases he : e.1 ∈ keys
      · rw [if_pos he, if_pos (List.mem_cons_of_mem k he)]
        omega
      · rw [if_neg he]
        omega

end Formula

/-- The entries of a branch whose rules are applied only once. -/
def Tableau.transient (t : Tableau) (l : Nat) : List (Nat × Formula) :=
  (t.entries l).filter fun e => ¬e.2.decompose.IsRepeatable

theorem Tableau.mem_transient {t : Tableau} {l : Nat} {e : Nat × Formula} :
    e ∈ t.transient l ↔ e ∈ t.entries l ∧ ¬e.2.decompose.IsRepeatable := by
  unfold transient
  rw [List.mem_filter, decide_eq_true_iff]

/-! ## What the rules add -/

namespace Path

open Formula

variable {p q : Path} {f : Formula} {c : Char} {others : List Formula} {d : Decomposition}

theorem load_push (p : Path) (f : Formula) :
    load (p.push f).formulas = f.weight false + load p.formulas := load_cons f p.formulas

theorem load_stack_le (p : Path) (fs : List Formula) :
    load (p.stack fs).formulas ≤ load p.formulas + load fs := by
  fun_induction p.stack fs with
  | case1 => exact Nat.le_refl _
  | case2 => exact Nat.le_add_right _ _
  | case3 p f fs _ _ ih =>
    rw [load_cons]
    omega
  | case4 p f fs _ _ ih =>
    rw [load_push] at ih
    rw [load_cons]
    omega

theorem load_witness_le (p : Path) (f : Formula) (c : Char) :
    load (p.witness f c).formulas ≤ load p.formulas + f.weight false := by
  unfold witness
  split
  · omega
  · show load (p.push f).formulas ≤ _
    rw [load_push]
    omega

theorem stack_of_mem (h : f ∈ p.formulas) : p.stack [f] = p := by
  unfold stack
  split
  · rfl
  · rw [if_pos (contains_of_mem h), stack]

/-- A rule that is applied once adds to a branch at most what it gives for one way of going on. -/
theorem load_grow_le (hd : ¬d.IsRepeatable) (hq : q ∈ p.grow c others d) :
    load q.formulas ≤ load p.formulas ∨
      ∃ fs ∈ d.alternatives, load q.formulas ≤ load p.formulas + load fs := by
  cases d with
  | nothing => exact .inl (List.mem_singleton.1 hq ▸ Nat.le_refl _)
  | unexpected => exact .inl (List.mem_singleton.1 hq ▸ Nat.le_refl _)
  | stack fs =>
    rw [List.mem_singleton.1 hq]
    exact .inr ⟨fs, List.mem_singleton_self _, load_stack_le p fs⟩
  | split left lefts right rights =>
    have hside : ∀ g gs, load ((p.push g).stack gs).formulas ≤ load p.formulas + load (g :: gs) := by
      intro g gs
      have hle := load_stack_le (p.push g) gs
      rw [load_push] at hle
      rw [load_cons]
      omega
    rcases List.mem_cons.1 hq with rfl | hq
    · exact .inr ⟨_, List.mem_cons_self, hside left lefts⟩
    · rw [List.mem_singleton.1 hq]
      exact .inr ⟨_, List.mem_cons_of_mem _ List.mem_cons_self, hside right rights⟩
  | witness x body =>
    have hle := load_witness_le p (body.substitute x c .const) c
    rw [weight_substitute] at hle
    rw [List.mem_singleton.1 hq]
    exact .inr ⟨[body], List.mem_singleton_self _, by simpa using hle⟩
  | _ => exact absurd trivial hd

/-- What a rule that is applied once adds to a branch weighs less than the formula it is for. -/
theorem load_lt_of_mem_grow (hf : f ∈ p.formulas) (hd : ¬f.decompose.IsRepeatable)
    (hq : q ∈ p.grow c others f.decompose) :
    load q.formulas < load p.formulas + f.weight false := by
  have hpos := f.weight_pos false
  -- The rule for the negation of a term gives the formula back, and it is on the branch already.
  by_cases hterm : ∃ k s, f = .not (.term k s)
  · obtain ⟨k, s, rfl⟩ := hterm
    rw [List.mem_singleton.1 hq]
    show load (p.stack [.not (.term k s)]).formulas < _
    rw [stack_of_mem hf]
    omega
  · rcases load_grow_le hd hq with hle | ⟨fs, hfs, hle⟩
    · omega
    · have hlt := load_lt_weight (fun k s he => hterm ⟨k, s, he⟩) fs hfs
      omega

theorem length_grow_le (p : Path) (c : Char) (others : List Formula) (d : Decomposition) :
    (p.grow c others d).length ≤ 2 := by
  cases d with
  | split left lefts right rights => exact Nat.le_refl 2
  | _ => exact Nat.le_succ 1

theorem length_grow_of_isRepeatable (hd : d.IsRepeatable) (p : Path) (c : Char)
    (others : List Formula) : (p.grow c others d).length = 1 := by
  cases d with
  | instances x body => rfl
  | replace a b => rfl
  | _ => exact hd.elim

end Path

/-! ## The measure -/

namespace Expansion

variable {B : Nat}

/-- The weight of what waits to be dispatched for the only time on the branch of a node. -/
def pending (s : Expansion) (l : Nat) : Nat := Formula.loadOf s.keys (s.tableau.transient l)

/-- What is still to come on the branch of a node, where no formula has more than the bulk `B`. -/
noncomputable def burden (B : Nat) (s : Expansion) (l : Nat) : Nat :=
  (s.tableau.path l).room B * (B + 1) + s.pending l

noncomputable def cost (B : Nat) (s : Expansion) (l : Nat) : Nat :=
  if (s.tableau.path l).isClosed then 0 else 3 ^ s.burden B l

/-- What the open branches through a node cost together. -/
noncomputable def costBelow (B : Nat) (s : Expansion) (l : Nat) : Nat :=
  ((s.tableau.leavesBelow l).map (s.cost B)).sum

/-- Whether each node waits or lies dormant at most once, only nodes that may be dispatched again lie
dormant, and no formula has more than the bulk `B`. -/
structure Orderly (B : Nat) (s : Expansion) : Prop extends Valid s where
  nodup : (s.keys ++ s.dormant).Nodup
  bounded : ∀ k ∈ s.keys, k < s.tableau.size
  repeatable : ∀ k ∈ s.dormant, ∀ m, s.tableau.node? k = some m →
    m.formula.decompose.IsRepeatable
  bulk : ∀ l, s.tableau.IsLeaf l → ∀ f ∈ (s.tableau.path l).formulas, f.bulk ≤ B

theorem cost_le (s : Expansion) (l : Nat) : s.cost B l ≤ 3 ^ s.burden B l := by
  unfold cost
  split
  · exact Nat.zero_le _
  · exact Nat.le_refl _

theorem cost_of_isOpen {l : Nat} (h : (s.tableau.path l).isClosed = false) :
    s.cost B l = 3 ^ s.burden B l := by
  unfold cost
  rw [h]
  rfl

/-! ## What a rule does to the measure -/

section Applied

variable {e : Entry} {rest : Agenda} {m : Node} {c : Char} {n l l' : Nat} (hs : s.Orderly B)
  (ha : s.agenda = e :: rest) (hm : s.tableau.node? e.key = some m)
  (h : Applies { s with agenda := rest } s' e.key m.formula.decompose c n)

include ha

theorem loadOf_rest_eq (h : ∀ f, (e.key, f) ∉ s.tableau.transient l) :
    Formula.loadOf (rest.map (·.key)) (s.tableau.transient l) = s.pending l := by
  rw [pending, keys, ha, List.map_cons]
  refine Formula.loadOf_congr fun ⟨k, f⟩ hk => ?_
  have hne : k ≠ e.key := by
    rintro rfl
    exact h f hk
  rw [List.mem_cons, or_iff_right hne]

theorem loadOf_rest_of_not_mem (hkey : e.key ∉ s.tableau.branch l) :
    Formula.loadOf (rest.map (·.key)) (s.tableau.transient l) = s.pending l :=
  loadOf_rest_eq ha fun _ hf => hkey (mem_entries.1 (mem_transient.1 hf).1).1

include hm in
theorem loadOf_rest_of_isRepeatable (hd : m.formula.decompose.IsRepeatable) :
    Formula.loadOf (rest.map (·.key)) (s.tableau.transient l) = s.pending l := by
  refine loadOf_rest_eq ha fun f hf => ?_
  obtain ⟨hmem, hnot⟩ := mem_transient.1 hf
  obtain ⟨-, m', hm', rfl⟩ := mem_entries.1 hmem
  rw [hm, Option.some.injEq] at hm'
  exact hnot (hm' ▸ hd)

include h in
theorem length_agenda_lt (hn : n = 0) : s'.agenda.length < s.agenda.length := by
  have hkeys := h.keys.length_eq
  rw [hn, Decomposition.rouse_zero, List.nil_append, List.range'_zero, List.nil_append] at hkeys
  unfold keys at hkeys
  rw [List.length_map, List.length_map] at hkeys
  rw [hkeys, ha]
  exact Nat.lt_succ_self _

include hs

theorem key_not_mem_rest : e.key ∉ rest.map (·.key) := by
  have hnodup := hs.nodup
  rw [keys, ha, List.map_cons] at hnodup
  exact fun hmem => (List.nodup_cons.1 hnodup).1 (List.mem_append_left _ hmem)

include hm in
/-- What waits on a branch through a node that is dispatched for the only time, the node apart. -/
theorem loadOf_rest_le (hd : ¬m.formula.decompose.IsRepeatable)
    (hkey : e.key ∈ s.tableau.branch l) :
    Formula.loadOf (rest.map (·.key)) (s.tableau.transient l) + m.formula.weight false ≤
      s.pending l := by
  rw [pending, keys, ha, List.map_cons]
  exact Formula.loadOf_add_weight_le (key_not_mem_rest hs ha)
    (mem_transient.2 ⟨mem_entries.2 ⟨hkey, m, hm, rfl⟩, hd⟩)

omit hs ha

include h

theorem path_mem_grow (hl : l ∈ s.tableau.openLeavesBelow e.key)
    (hl' : l' ∈ s'.tableau.leavesBelow l) :
    s'.tableau.path l' ∈
      (s.tableau.path l).grow c (closableOn s.tableau e.key l) m.formula.decompose :=
  h.paths l hl ▸ List.mem_map_of_mem hl'

include hs

/-- If a node was added, some branch has become longer. -/
theorem exists_longer (hn : n ≠ 0) :
    ∃ l ∈ s.tableau.openLeavesBelow e.key, ∃ l' ∈ s'.tableau.leavesBelow l,
      (s.tableau.path l).formulas.length < (s'.tableau.path l').formulas.length := by
  have hsize : s'.tableau.size = s.tableau.size + n := h.size
  obtain ⟨l', hl', hnode⟩ :=
    h.tableau.tree.exists_leaf (show s.tableau.size < s'.tableau.size by omega)
  obtain ⟨l, hl, hll, hcase⟩ := h.descends ⟨hs.tree, hs.marked⟩ hl'
  obtain ⟨new, hnew⟩ : ∃ new, s'.tableau.entries l' = new ++ s.tableau.entries l :=
    h.tableau.exists_entries hs.tree hl hll
  -- The first of the new nodes is on the branch, and it was not on the old one.
  have hne : new ≠ [] := by
    rintro rfl
    obtain ⟨n₀, hn₀⟩ := node?_eq_some_of_lt (show s.tableau.size < s'.tableau.size by omega)
    have hentry := mem_entries.2 ⟨hnode, n₀, hn₀, rfl⟩
    rw [hnew] at hentry
    have hle := hs.tree.le_of_mem_branch (mem_entries.1 hentry).1
    exact Nat.not_le_of_lt hl.lt_size hle
  have hlength : (s.tableau.path l).formulas.length < (s'.tableau.path l').formulas.length := by
    rw [formulas_path, formulas_path, hnew, List.map_append, List.length_append, List.length_map,
      List.length_map]
    exact Nat.lt_add_of_pos_left (List.length_pos_iff.2 hne)
  rcases hcase with ⟨-, rfl, hpath⟩ | ⟨hL, -⟩
  · rw [hpath] at hlength
    exact absurd hlength (Nat.lt_irrefl _)
  · exact ⟨l, hL, l', h.tableau.tree.mem_leavesBelow.2 ⟨hl', hll⟩, hlength⟩

theorem costBelow_root : s'.costBelow B root =
    ((s.tableau.leavesBelow root).map (s'.costBelow B)).sum := by
  have hbelow : s'.tableau.leavesBelow root =
      (s.tableau.leavesBelow root).flatMap s'.tableau.leavesBelow :=
    h.tableau.leavesBelow hs.tree hs.tree.size_pos fun l hl _ =>
      ((mem_openLeavesBelow hs.toCoherent).1 hl).1
  unfold costBelow
  rw [hbelow, List.map_flatMap, List.flatMap, List.sum_flatten, List.map_map]
  rfl

include hm

/-- Of the old nodes that are dispatched only once those wait that waited behind the first. -/
theorem mem_keys_iff {k : Nat} {f : Formula} (hk : (k, f) ∈ s.tableau.transient l) :
    k ∈ s'.keys ↔ k ∈ rest.map (·.key) := by
  obtain ⟨hmem, hnot⟩ := mem_transient.1 hk
  obtain ⟨-, m', hm', rfl⟩ := mem_entries.1 hmem
  rw [h.keys.mem_iff, List.mem_append, List.mem_append, List.mem_range'_1]
  refine ⟨?_, fun hk => .inr (.inr hk)⟩
  rintro (hr | hr | hr)
  · rcases Decomposition.mem_of_mem_rouse (List.mem_append_left _ hr) with hr | ⟨hd, rfl⟩
    · exact absurd (hs.repeatable k hr m' hm') hnot
    · rw [hm, Option.some.injEq] at hm'
      exact absurd (hm' ▸ hd) hnot
  · exact absurd (lt_size_of_node? hm') (Nat.not_lt_of_le hr.1)
  · exact hr

theorem loadOf_transient :
    Formula.loadOf s'.keys (s.tableau.transient l) =
      Formula.loadOf (rest.map (·.key)) (s.tableau.transient l) :=
  Formula.loadOf_congr fun ⟨_, _⟩ hk => mem_keys_iff hs hm h hk

/-- What waits below an old leaf waited behind the first node, or is new. -/
theorem exists_new (hl : s.tableau.IsLeaf l) (hll : l ∈ s'.tableau.branch l') :
    ∃ new, (s'.tableau.path l').formulas = new ++ (s.tableau.path l).formulas ∧
      s'.pending l' ≤
        Formula.load new + Formula.loadOf (rest.map (·.key)) (s.tableau.transient l) := by
  obtain ⟨new, hnew⟩ : ∃ new, s'.tableau.entries l' = new ++ s.tableau.entries l :=
    h.tableau.exists_entries hs.tree hl hll
  refine ⟨new.map (·.2), ?_, ?_⟩
  · rw [formulas_path, formulas_path, hnew, List.map_append]
  · have hle := Formula.loadOf_filter_le s'.keys (fun e => ¬e.2.decompose.IsRepeatable) new
    rw [← loadOf_transient hs hm h]
    unfold pending transient
    rw [hnew, List.filter_append, Formula.loadOf_append]
    exact Nat.add_le_add_right hle _

include ha

theorem cost_of_not_mem (hl : s.tableau.IsLeaf l) (hL : l ∉ s.tableau.openLeavesBelow e.key) :
    s'.cost B l = s.cost B l := by
  have hpath : s'.tableau.path l = s.tableau.path l :=
    h.tableau.path_of_not_mem hs.tree hl.lt_size hL
  have hentries : s'.tableau.entries l = s.tableau.entries l :=
    h.tableau.entries hs.tree hl.lt_size
  unfold cost burden
  rw [hpath]
  by_cases hclosed : (s.tableau.path l).isClosed
  · rw [if_pos hclosed, if_pos hclosed]
  · have hkey : e.key ∉ s.tableau.branch l := by
      intro hkey
      exact hL ((mem_openLeavesBelow hs.toCoherent).2 ⟨hl, hkey, Bool.eq_false_iff.2 hclosed⟩)
    have hpending : s'.pending l = s.pending l := by
      rw [pending, transient, hentries]
      exact (loadOf_transient hs hm h).trans (loadOf_rest_of_not_mem ha hkey)
    rw [if_neg hclosed, if_neg hclosed, hpending]

/-- A branch to which the rule is not applied costs what it did. -/
theorem costBelow_of_not_mem (hl : s.tableau.IsLeaf l)
    (hL : l ∉ s.tableau.openLeavesBelow e.key) : s'.costBelow B l = s.cost B l := by
  unfold costBelow
  rw [h.tableau.leavesBelow_of_not_mem hl hL, List.map_singleton, List.sum_singleton]
  exact cost_of_not_mem hs ha hm h hl hL

variable (hcost : ∀ l ∈ s.tableau.openLeavesBelow e.key, s'.costBelow B l ≤ s.cost B l)

include hcost

theorem costBelow_le_of_forall (hl : l ∈ s.tableau.leavesBelow root) :
    s'.costBelow B l ≤ s.cost B l := by
  by_cases hL : l ∈ s.tableau.openLeavesBelow e.key
  · exact hcost l hL
  · exact Nat.le_of_eq (costBelow_of_not_mem hs ha hm h (hs.tree.mem_leavesBelow.1 hl).1 hL)

theorem costBelow_root_le : s'.costBelow B root ≤ s.costBelow B root := by
  rw [costBelow_root hs h]
  exact List.sum_le_sum fun l hl => costBelow_le_of_forall hs ha hm h hcost hl

theorem costBelow_root_lt (hl : l ∈ s.tableau.openLeavesBelow e.key)
    (hlt : s'.costBelow B l < s.cost B l) : s'.costBelow B root < s.costBelow B root := by
  have hleaf := ((mem_openLeavesBelow hs.toCoherent).1 hl).1
  have hroot := hs.tree.mem_leavesBelow.2 ⟨hleaf, hs.tree.root_mem_branch hleaf.lt_size⟩
  rw [costBelow_root hs h]
  exact List.sum_lt_sum _ _ (fun l hl => costBelow_le_of_forall hs ha hm h hcost hl)
    ⟨l, hroot, hlt⟩

omit hcost

variable (hc : ∀ x body, m.formula.decompose = .witness x body → isConstantSymbol c ∧
    ∀ l ∈ s.tableau.openLeavesBelow e.key, c ∉ (s.tableau.path l).constants)

include hc

/-- A rule that is applied once takes something of the burden of each branch. -/
theorem burden_lt (hd : ¬m.formula.decompose.IsRepeatable)
    (hl : l ∈ s.tableau.openLeavesBelow e.key) (hl' : l' ∈ s'.tableau.leavesBelow l) :
    s'.burden B l' < s.burden B l := by
  obtain ⟨hleaf, hkey, -⟩ := (mem_openLeavesBelow hs.toCoherent).1 hl
  have hadmits := admits_of_mem hs.toCoherent hm hc hl
  have hq := path_mem_grow h hl hl'
  obtain ⟨new, hnew, hpending⟩ :=
    exists_new hs hm h hleaf (h.tableau.tree.mem_leavesBelow.1 hl').2
  have hload := Path.load_lt_of_mem_grow hadmits.mem hd hq
  rw [hnew, Formula.load_append] at hload
  have htaken := loadOf_rest_le hs ha hm hd hkey
  have hroom := Nat.mul_le_mul_right (B + 1)
    (Path.room_le (B := B) (Path.continues_of_mem_grow hq))
  unfold burden
  omega

/-- The rules for universals and identities take at least as much of the burden of a branch as they
add formulas. -/
theorem burden_add_length_le (hd : m.formula.decompose.IsRepeatable)
    (hl : l ∈ s.tableau.openLeavesBelow e.key) (hl' : l' ∈ s'.tableau.leavesBelow l) :
    s'.burden B l' + (s'.tableau.path l').formulas.length ≤
      s.burden B l + (s.tableau.path l).formulas.length := by
  obtain ⟨hleaf, -, -⟩ := (mem_openLeavesBelow hs.toCoherent).1 hl
  have hadmits := admits_of_mem hs.toCoherent hm hc hl
  have hq := path_mem_grow h hl hl'
  obtain ⟨new, hnew, hpending⟩ :=
    exists_new hs hm h hleaf (h.tableau.tree.mem_leavesBelow.1 hl').2
  have hbulk := Path.bulk_grow (hs.bulk l hleaf) hadmits hq
  have hload : Formula.load new ≤ new.length * B := by
    refine Formula.load_le_of_bulk_le fun f hf => hbulk f ?_
    rw [hnew]
    exact List.mem_append_left _ hf
  have hreach := Path.reach_grow (hs.bulk l hleaf) hadmits hd hq
  unfold Path.reach at hreach
  rw [hnew, List.length_append] at hreach
  have hroom : ((s'.tableau.path l').room B + new.length) * (B + 1) ≤
      (s.tableau.path l).room B * (B + 1) := Nat.mul_le_mul_right _ (by omega)
  rw [Nat.add_mul, Nat.mul_succ new.length] at hroom
  rw [loadOf_rest_of_isRepeatable ha hm hd] at hpending
  rw [hnew, List.length_append]
  unfold burden
  omega

/-- The branches that a rule which is applied once makes of one cost less than it did. -/
theorem costBelow_lt (hd : ¬m.formula.decompose.IsRepeatable)
    (hl : l ∈ s.tableau.openLeavesBelow e.key) : s'.costBelow B l < s.cost B l := by
  obtain ⟨-, hkey, hopen⟩ := (mem_openLeavesBelow hs.toCoherent).1 hl
  have hcost : ∀ x ∈ (s'.tableau.leavesBelow l).map (s'.cost B), x ≤ 3 ^ (s.burden B l - 1) := by
    intro x hx
    obtain ⟨l', hl', rfl⟩ := List.mem_map.1 hx
    have hlt := burden_lt hs ha hm h hc hd hl hl'
    exact Nat.le_trans (cost_le s' l') (Nat.pow_le_pow_right (by omega) (by omega))
  have hlength : ((s'.tableau.leavesBelow l).map (s'.cost B)).length ≤ 2 := by
    rw [List.length_map, ← List.length_map (f := s'.tableau.path), h.paths l hl]
    exact Path.length_grow_le _ _ _ _
  have hpos : 0 < s.burden B l := by
    have htaken := loadOf_rest_le hs ha hm hd hkey
    have hweight := m.formula.weight_pos false
    unfold burden
    omega
  calc s'.costBelow B l
      ≤ ((s'.tableau.leavesBelow l).map (s'.cost B)).length • 3 ^ (s.burden B l - 1) :=
        List.sum_le_card_nsmul _ _ hcost
    _ ≤ 2 * 3 ^ (s.burden B l - 1) := Nat.mul_le_mul_right _ hlength
    _ < 3 ^ (s.burden B l - 1 + 1) := by
        rw [Nat.pow_succ]
        have := Nat.pow_pos (n := s.burden B l - 1) (show 0 < 3 by decide)
        omega
    _ = s.cost B l := by rw [cost_of_isOpen hopen, Nat.sub_add_cancel hpos]

/-- The branch that the rule for a universal or an identity makes of one costs no more than it did,
and less if a formula was added. -/
theorem costBelow_le (hd : m.formula.decompose.IsRepeatable)
    (hl : l ∈ s.tableau.openLeavesBelow e.key) :
    s'.costBelow B l ≤ s.cost B l ∧ ∀ l' ∈ s'.tableau.leavesBelow l,
      (s.tableau.path l).formulas.length < (s'.tableau.path l').formulas.length →
      s'.costBelow B l < s.cost B l := by
  obtain ⟨-, -, hopen⟩ := (mem_openLeavesBelow hs.toCoherent).1 hl
  obtain ⟨k, hk⟩ : ∃ k, s'.tableau.leavesBelow l = [k] := by
    apply List.length_eq_one_iff.1
    rw [← List.length_map (f := s'.tableau.path), h.paths l hl]
    exact Path.length_grow_of_isRepeatable hd _ _ _
  have hmem : k ∈ s'.tableau.leavesBelow l := hk ▸ List.mem_singleton_self k
  have hburden := burden_add_length_le hs ha hm h hc hd hl hmem
  have hlength := (Path.continues_of_mem_grow (path_mem_grow h hl hmem)).formulas.length_le
  unfold costBelow
  rw [hk, List.map_singleton, List.sum_singleton, cost_of_isOpen hopen]
  refine ⟨Nat.le_trans (cost_le s' k) (Nat.pow_le_pow_right (by omega) (by omega)), ?_⟩
  intro l' hl' hlt
  obtain rfl := List.mem_singleton.1 hl'
  exact Nat.lt_of_le_of_lt (cost_le s' l') (Nat.pow_lt_pow_right (by omega) (by omega))

end Applied

end Expansion

end Sequitur
