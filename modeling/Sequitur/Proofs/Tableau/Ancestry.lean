import Sequitur.Proofs.Canonical.Equality
import Sequitur.Proofs.Tableau.Grafting
import Sequitur.Proofs.Tableau.Inheritance

/-!
# Where the nodes of a tableau come from

Every node but the root was placed by the rule of a node above it (`Tableau.Justifies`), and only the
two nodes that begin the sides of a split may repeat what their branch has. While a split is under
way its first side looks like a continuation of the branch, so the invariant that carries this
through a dispatch (`Tableau.Accounted`) names the nodes that are being split.

What a branch has is asked of its formulas, whether one of them is structurally equal to the new one,
and not the other way round. So an identity can come to stand below its exchange after all, if that
has a wrapper (`Context.identity_below_exchange`), and in the tableau of a sentence nothing else can
(`Context.buildTableau_justified`).
-/

namespace Sequitur

open Tableau Expansion

variable {t t' : Tableau} {L E E' : List Nat} {k p source : Nat} {n n' above above' m : Node}

/-! ## Nodes that gain -/

/-- Whether a node has lost nothing, and gained a child or a constant only where it could. -/
structure Node.Gains (n n' : Node) : Prop where
  ended : n.closed → n'.children = n.children
  constants : ¬n.isLeaf → n'.constants = n.constants
  children : ∀ c ∈ n.children, c ∈ n'.children
  right : n.right.isSome → n'.right.isSome

theorem Node.Rests.gains (h : n.Rests n') : n.Gains n' where
  ended _ := h.children
  constants _ := h.constants
  children := by
    intro c hc
    rw [h.children]
    exact hc
  right hr := by rwa [h.right]

theorem Node.gains_attach {side : Side} (hopen : n.closed = false)
    (ho : obstacle? n side = none) (child : Nat) : n.Gains (n.attach side child) where
  ended h := absurd h (by simp [hopen])
  constants _ := by cases side <;> rfl
  children c hc := (children_attach ho child).mem_iff.2 (List.mem_cons_of_mem child hc)
  right h := by
    cases side with
    | right => rfl
    | left => exact h
    | center => exact h

namespace Tableau

/-! ## The account of a node -/

/-- Whether the node `k` is a child of the node `p`, placed by the rule of the node `i` above it. -/
structure Justifies (t : Tableau) (k : Nat) (n : Node) (p : Nat) (above : Node) (i : Nat)
    (m : Node) : Prop where
  parent : t.node? p = some above
  child : k ∈ above.children
  ancestors : n.ancestors = p :: above.ancestors
  source : n.source = some i
  origin : t.node? i = some m
  mem : i ∈ n.ancestors
  parent_id : above.id < n.id
  origin_id : m.id < n.id
  grants : t.Grants i n.ancestors above.constants m.formula.decompose n.formula

/-- What holds of a node while the nodes `E` are being split. -/
structure AccountedAt (t : Tableau) (E : List Nat) (k : Nat) (n : Node) : Prop where
  numbered : n.id < t.nextId
  ended : n.closed → n.isLeaf
  justified : k ≠ root → ∃ p above i m, t.Justifies k n p above i m ∧
    (above.right.isSome ∨ p ∈ E ∨ (t.path p).contains n.formula = false)

/-- Whether the tableau is a tree in which all nodes are accounted for. -/
structure Accounted (t : Tableau) (E : List Nat) : Prop where
  tree : t.IsTree
  node : ∀ k n, t.node? k = some n → t.AccountedAt E k n

theorem Justifies.of_extends {i : Nat} (h : t.Justifies k n p above i m) (hext : t.Extends t' L)
    (hn : n.Stays n') (hp : t'.node? p = some above') (hgains : above.Gains above') :
    ∃ m', t'.Justifies k n' p above' i m' := by
  obtain ⟨_, hp', habove, -⟩ := hext.kept p above h.parent
  rw [hp, Option.some.injEq] at hp'
  subst hp'
  obtain ⟨m', hm', hm, -⟩ := hext.kept i m h.origin
  have hinner : ¬above.isLeaf := by
    intro hleaf
    rw [isLeaf_iff] at hleaf
    have hchild := h.child
    rw [hleaf] at hchild
    exact List.not_mem_nil hchild
  refine ⟨m', hp, hgains.children k h.child, ?_, ?_, hm', ?_, ?_, ?_, ?_⟩
  · rw [hn.ancestors, h.ancestors, habove.ancestors]
  · rw [hn.source, h.source]
  · rw [hn.ancestors]
    exact h.mem
  · rw [habove.id, hn.id]
    exact h.parent_id
  · rw [hm.id, hn.id]
    exact h.origin_id
  · rw [hn.ancestors, hgains.constants hinner, hm.formula, hn.formula]
    exact h.grants.mono (fun _ => id) hext

theorem AccountedAt.of_extends (h : t.AccountedAt E k n) (hext : t.Extends t' L) (ht : t.IsTree)
    (hid : t.nextId ≤ t'.nextId) (hn : n.Stays n') (hself : n.Gains n')
    (hgains : ∀ j a a', t.node? j = some a → t'.node? j = some a' → a.Gains a')
    (hE : ∀ j ∈ E, j ∈ E') : t'.AccountedAt E' k n' where
  numbered := by
    have := h.numbered
    rw [hn.id]
    omega
  ended := by
    intro hclosed
    rw [hn.closed] at hclosed
    rw [isLeaf_iff, hself.ended hclosed, ← isLeaf_iff]
    exact h.ended hclosed
  justified := by
    intro hk
    obtain ⟨p, above, i, m, hj, hnew⟩ := h.justified hk
    obtain ⟨above', hp', -, -⟩ := hext.kept p above hj.parent
    have habove := hgains p above above' hj.parent hp'
    obtain ⟨m', hj'⟩ := hj.of_extends hext hn hp' habove
    refine ⟨p, above', i, m', hj', ?_⟩
    rcases hnew with hright | hE' | hnew
    · exact .inl (habove.right hright)
    · exact .inr (.inl (hE p hE'))
    · refine .inr (.inr ?_)
      rw [Path.contains, hext.formulas ht (lt_size_of_node? hj.parent), hn.formula]
      exact hnew

theorem Accounted.of_extends (h : t.Accounted E) (hext : t.Extends t' L)
    (hid : t.nextId ≤ t'.nextId)
    (hgains : ∀ j a a', t.node? j = some a → t'.node? j = some a' → a.Gains a')
    (hE : ∀ j ∈ E, j ∈ E')
    (hnew : ∀ k n, t.size ≤ k → t'.node? k = some n → t'.AccountedAt E' k n) : t'.Accounted E' := by
  refine ⟨hext.tree, fun k n' hn' => ?_⟩
  by_cases hk : k < t.size
  · obtain ⟨n, hn⟩ := node?_eq_some_of_lt hk
    obtain ⟨_, hkept, hstays, -⟩ := hext.kept k n hn
    rw [hn', Option.some.injEq] at hkept
    subst hkept
    exact (h.node k n hn).of_extends hext h.tree hid hstays (hgains k n n' hn hn') hgains hE
  · exact hnew k n' (Nat.le_of_not_lt hk) hn'

/-! ## One change -/

/-- A node whose split is complete need not be named. -/
theorem Accounted.of_cons (h : t.Accounted (p :: E)) (hp : t.node? p = some above)
    (hright : above.right.isSome) : t.Accounted E := by
  refine ⟨h.tree, fun k n hn => ?_⟩
  obtain ⟨hnumbered, hended, hjustified⟩ := h.node k n hn
  refine ⟨hnumbered, hended, fun hk => ?_⟩
  obtain ⟨q, above', i, m, hj, hnew⟩ := hjustified hk
  refine ⟨q, above', i, m, hj, ?_⟩
  rcases hnew with hr | hq | hnew
  · exact .inl hr
  · rcases List.mem_cons.1 hq with rfl | hq
    · rw [hj.parent, Option.some.injEq] at hp
      exact .inl (hp ▸ hright)
    · exact .inr (.inl hq)
  · exact .inr (.inr hnew)

/-- Of the nodes that were there only the parent of a new one changes. -/
theorem rests_or_attach_placed {f : Formula} {origin : Option Nat} {side : Side} {a a' : Node}
    {j : Nat} (ht : t.IsTree) (hp : t.node? p = some above) (ho : obstacle? above side = none)
    (ha : t.node? j = some a) (ha' : (t.placed p above f origin side).node? j = some a') :
    a.Rests a' ∨ a = above ∧ a' = above.attach side t.size := by
  have hext : t.Extends (t.placed p above f origin side) [p] := extends_placed ht hp ho
  by_cases hj : j = p
  · subst hj
    rw [hp, Option.some.injEq] at ha
    rw [node?_placed_parent hp, Option.some.injEq] at ha'
    exact .inr ⟨ha.symm, ha'.symm⟩
  · obtain ⟨_, hkept, -, hrests⟩ := hext.kept j a ha
    rw [ha', Option.some.injEq] at hkept
    subst hkept
    exact .inl (hrests fun hmem => hj (List.mem_singleton.1 hmem))

theorem gains_placed {f : Formula} {origin : Option Nat} {side : Side} {a a' : Node} {j : Nat}
    (ht : t.IsTree) (hp : t.node? p = some above) (ho : obstacle? above side = none)
    (hopen : above.closed = false) (ha : t.node? j = some a)
    (ha' : (t.placed p above f origin side).node? j = some a') : a.Gains a' := by
  rcases rests_or_attach_placed ht hp ho ha ha' with hrests | ⟨rfl, rfl⟩
  · exact hrests.gains
  · exact Node.gains_attach hopen ho t.size

/-- The node that is placed is justified by the one whose rule is carried out. -/
theorem Accounted.justifies_placed {f : Formula} {side : Side} (h : t.Accounted E)
    (hp : t.node? p = some above) (ho : obstacle? above side = none)
    (hbelow : source ∈ t.branch p) (hm : t.node? source = some m)
    (hf : t.Grants source (t.branch p) above.constants m.formula.decompose f)
    (hn : (t.placed p above f (some source) side).node? t.size = some n) :
    ∃ m', (t.placed p above f (some source) side).Justifies t.size n p (above.attach side t.size)
      source m' := by
  have hext : t.Extends (t.placed p above f (some source) side) [p] :=
    extends_placed h.tree hp ho
  obtain ⟨m', hm', hstays, -⟩ := hext.kept source m hm
  rw [node?_placed_size h.tree hp ho, Option.some.injEq] at hn
  subst hn
  have habove : (above.attach side t.size).ancestors = above.ancestors ∧
      (above.attach side t.size).id = above.id ∧
      (above.attach side t.size).constants = above.constants := by
    cases side <;> exact ⟨rfl, rfl, rfl⟩
  rw [branch_of_node? hp] at hbelow hf
  refine ⟨m', node?_placed_parent hp, ?_, ?_, rfl, hm', hbelow, ?_, ?_, ?_⟩
  · exact (children_attach ho t.size).mem_iff.2 List.mem_cons_self
  · rw [habove.1]
    rfl
  · rw [habove.2.1]
    exact (h.node p above hp).numbered
  · rw [hstays.id]
    exact (h.node source m hm).numbered
  · rw [habove.2.2, hstays.formula]
    exact hf.mono (fun _ => id) hext

/-- A child is placed below an open node. On the left of a split the node is then being split. -/
theorem Accounted.placed {f : Formula} {side : Side} (h : t.Accounted E)
    (hp : t.node? p = some above) (ho : obstacle? above side = none) (hopen : above.closed = false)
    (hbelow : source ∈ t.branch p) (hm : t.node? source = some m)
    (hf : t.Grants source (t.branch p) above.constants m.formula.decompose f)
    (hE : ∀ j ∈ E, j ∈ E') (hnew : side = .right ∨ p ∈ E' ∨ t.branchContains p f = false) :
    (t.placed p above f (some source) side).Accounted E' := by
  have hext : t.Extends (t.placed p above f (some source) side) [p] :=
    extends_placed h.tree hp ho
  refine h.of_extends hext ?_ (fun j a a' => gains_placed h.tree hp ho hopen) hE ?_
  · rw [nextId_placed]
    omega
  · intro k n hk hn
    have hklt := lt_size_of_node? hn
    rw [size_placed] at hklt
    obtain rfl : k = t.size := by omega
    obtain ⟨m', hj⟩ := h.justifies_placed hp ho hbelow hm hf hn
    rw [node?_placed_size h.tree hp ho, Option.some.injEq] at hn
    subst hn
    refine ⟨?_, fun _ => rfl, fun _ => ⟨p, _, source, m', hj, ?_⟩⟩
    · rw [nextId_placed]
      exact Nat.lt_succ_self _
    · rcases hnew with rfl | hE' | hnew
      · exact .inl rfl
      · exact .inr (.inl hE')
      · rw [branchContains_eq, Path.contains] at hnew
        refine .inr (.inr ?_)
        rw [Path.contains, hext.formulas h.tree (lt_size_of_node? hp)]
        exact hnew

theorem extends_modify {key : Nat} {g : Node → Node} {hg : ∀ n, (g n).children = n.children}
    (ht : t.IsTree) (hstays : ∀ n : Node, n.Stays (g n)) : t.Extends (t.modify key g hg) [key] := by
  refine (Extends.refl ht [key]).modify (fun n => (hstays n).ancestors) fun _ n => ?_
  exact ⟨hstays n, fun hmem => absurd (List.mem_singleton_self key) hmem⟩

/-- A node is changed in what is not its place. Only a leaf is given a constant. -/
theorem Accounted.modify {key : Nat} {g : Node → Node} {hg : ∀ n, (g n).children = n.children}
    (h : t.Accounted E) (hstays : ∀ n : Node, n.Stays (g n)) (hright : ∀ n, (g n).right = n.right)
    (hconst : ∀ n, t.node? key = some n → ¬n.isLeaf → (g n).constants = n.constants) :
    (t.modify key g hg).Accounted E := by
  refine h.of_extends (extends_modify h.tree hstays) (Nat.le_refl _) ?_ (fun _ => id) ?_
  · intro j a a' ha ha'
    obtain ⟨b, hb, rfl⟩ := node?_modify_eq_some.1 ha'
    rw [ha, Option.some.injEq] at hb
    subst hb
    split
    · next hkey =>
      subst hkey
      refine ⟨fun _ => hg a, hconst a ha, fun c hc => ?_, fun hr => ?_⟩
      · rw [hg]
        exact hc
      · rw [hright]
        exact hr
    · exact (Node.Rests.refl a).gains
  · intro k n hk hn
    have hklt := lt_size_of_node? hn
    rw [size_modify] at hklt
    omega

theorem Extends.of_nodes (ht : t.IsTree) (h : t'.nodes = t.nodes) : t.Extends t' [] := by
  obtain ⟨nodes, nextId, status, descends⟩ := t
  obtain ⟨nodes', nextId', status', descends'⟩ := t'
  obtain rfl : nodes' = nodes := h
  refine ⟨⟨ht.root, ht.parent, ht.child, ht.distinct⟩, fun k n hn => ?_⟩
  exact ⟨n, hn, .refl n, fun _ => .refl n⟩

theorem node?_of_nodes (h : t'.nodes = t.nodes) (k : Nat) : t'.node? k = t.node? k := by
  unfold node?
  rw [h]

/-- Numbers are used up, or the status is set. -/
theorem Accounted.of_nodes (h : t.Accounted E) (hnodes : t'.nodes = t.nodes)
    (hid : t.nextId ≤ t'.nextId) : t'.Accounted E := by
  refine h.of_extends (.of_nodes h.tree hnodes) hid ?_ (fun _ => id) ?_
  · intro j a a' ha ha'
    rw [node?_of_nodes hnodes, ha, Option.some.injEq] at ha'
    subst ha'
    exact (Node.Rests.refl a).gains
  · intro k n hk hn
    rw [node?_of_nodes hnodes] at hn
    have := lt_size_of_node? hn
    omega

/-! ## A whole dispatch -/

variable {d : Decomposition}

/-- Whatever is done to a tableau, its nodes stay. -/
theorem Grafts.extends (h : Grafts source d t t') (ht : t.IsTree) : ∃ L, t.Extends t' L := by
  induction h with
  | refl t => exact ⟨[], .refl ht []⟩
  | trans h h' ih ih' =>
    obtain ⟨L, hL⟩ := ih ht
    obtain ⟨M, hM⟩ := ih' hL.tree
    refine ⟨L ++ M, (hL.mono fun k hk => List.mem_append_left M hk).trans hM fun k hk _ => ?_⟩
    exact List.mem_append_right L hk
  | @place t p above f hp hf hnew hd =>
    exact ⟨[p], extends_placed ht hp.node (Expand.obstacle?_of_isLeaf hp.leaf _)⟩
  | @witness t p above x c body hp hd hc hfresh hnew =>
    have hext : t.Extends (t.placed p above (body.substitute x c .const) (some source) .center) [p] :=
      extends_placed ht hp.node (Expand.obstacle?_of_isLeaf hp.leaf .center)
    refine ⟨[p], hext.modify (fun _ => rfl) fun hlt => ?_⟩
    exact absurd hlt (Nat.lt_irrefl _)
  | @split t t' p above above' left right lefts rights hp hd hleft hp' hstays hrests ih =>
    have hfree := Expand.obstacle?_of_isLeaf hp.leaf .left
    have hext : t.Extends (t.placed p above left (some source) .left) [p] :=
      extends_placed ht hp.node hfree
    obtain ⟨L, hL⟩ := ih hext.tree
    have hext' : t'.Extends (t'.placed p above' right (some source) .right) [p] :=
      extends_placed hL.tree hp' (hp.obstacle?_right hrests)
    refine ⟨p :: L, ((hext.mono fun k hk => ?_).trans hL fun k hk _ => ?_).trans hext' fun k hk _ => ?_⟩
    · exact List.mem_singleton.1 hk ▸ List.mem_cons_self
    · exact List.mem_cons_of_mem p hk
    · exact List.mem_singleton.1 hk ▸ List.mem_cons_self
  | @seed t p n hp hleaf hempty =>
    exact ⟨[p], extends_modify ht fun _ => ⟨rfl, rfl, rfl, rfl, rfl⟩⟩
  | record a b =>
    refine ⟨[], (Extends.refl ht []).modify (fun _ => rfl) fun _ n => ?_⟩
    exact ⟨⟨rfl, rfl, rfl, rfl, rfl⟩, fun _ => ⟨rfl, rfl, rfl⟩⟩
  | skip => exact ⟨[], .of_nodes ht rfl⟩

/-- Whether all nodes that one tableau has and another has not come from the node `source`. -/
def Sourced (source : Nat) (t t' : Tableau) : Prop :=
  ∀ k n, t'.node? k = some n → t.size ≤ k → n.source = some source

theorem Sourced.trans {t'' : Tableau} (h : Sourced source t t') (h' : Sourced source t' t'')
    (hext : t'.Extends t'' L) : Sourced source t t'' := by
  intro k n hn hk
  by_cases hlt : k < t'.size
  · obtain ⟨n', hn'⟩ := node?_eq_some_of_lt hlt
    obtain ⟨n'', hn'', hstays, -⟩ := hext.kept k n' hn'
    obtain rfl : n = n'' := Option.some.inj (hn.symm.trans hn'')
    rw [hstays.source]
    exact h k n' hn' hk
  · exact h' k n hn (Nat.le_of_not_lt hlt)

theorem sourced_of_size (h : t'.size = t.size) : Sourced source t t' := by
  intro k n hn hk
  have := lt_size_of_node? hn
  omega

theorem sourced_placed {f : Formula} {side : Side} (ht : t.IsTree) (hp : t.node? p = some above)
    (ho : obstacle? above side = none) :
    Sourced source t (t.placed p above f (some source) side) := by
  intro k n hn hk
  have hlt := lt_size_of_node? hn
  rw [size_placed] at hlt
  obtain rfl : k = t.size := by omega
  rw [node?_placed_size ht hp ho, Option.some.injEq] at hn
  rw [← hn]
  rfl

/-- While a rule is carried out for a node, all new nodes come from that node. -/
theorem Grafts.sourced (h : Grafts source d t t') (ht : t.IsTree) : Sourced source t t' := by
  induction h with
  | refl t => exact sourced_of_size rfl
  | trans h h' ih ih' =>
    obtain ⟨L, hL⟩ := h.extends ht
    obtain ⟨M, hM⟩ := h'.extends hL.tree
    exact (ih ht).trans (ih' hL.tree) hM
  | place hp _ _ _ => exact sourced_placed ht hp.node (Expand.obstacle?_of_isLeaf hp.leaf _)
  | @witness t p above x c body hp _ _ _ _ =>
    have hfree := Expand.obstacle?_of_isLeaf hp.leaf .center
    have hext : t.Extends (t.placed p above (body.substitute x c .const) (some source) .center) [p] :=
      extends_placed ht hp.node hfree
    exact (sourced_placed ht hp.node hfree).trans (sourced_of_size (size_modify _))
      (extends_modify hext.tree fun _ => ⟨rfl, rfl, rfl, rfl, rfl⟩)
  | @split t t' p above above' left right lefts rights hp hd hleft hp' hstays hrests ih =>
    have hfree := Expand.obstacle?_of_isLeaf hp.leaf .left
    have hfree' := hp.obstacle?_right hrests
    have hext : t.Extends (t.placed p above left (some source) .left) [p] :=
      extends_placed ht hp.node hfree
    obtain ⟨L, hL⟩ := hleft.extends hext.tree
    exact ((sourced_placed ht hp.node hfree).trans (ih hext.tree) hL).trans
      (sourced_placed hL.tree hp' hfree') (extends_placed hL.tree hp' hfree')
  | seed _ _ _ => exact sourced_of_size (size_modify _)
  | record _ _ => exact sourced_of_size (size_modify _)
  | skip => exact sourced_of_size rfl

theorem Grafts.exists_node (h : Grafts source d t t') (ht : t.IsTree) (hm : t.node? source = some m) :
    ∃ m', t'.node? source = some m' ∧ m'.formula = m.formula := by
  obtain ⟨L, hL⟩ := h.extends ht
  obtain ⟨m', hm', hstays, -⟩ := hL.kept source m hm
  exact ⟨m', hm', hstays.formula⟩

/-- The node whose rule splits a leaf is still there, and above it, before each of the sides. -/
theorem Sprouts.exists_origin {left : Formula} (hp : t.Sprouts source p above) (ht : t.IsTree)
    (hm : t.node? source = some m)
    (hleft : Grafts source d (t.placed p above left (some source) .left) t')
    (hp' : t'.node? p = some above') (hstays : above.Stays above') :
    ∃ m₁ m₂, (t.placed p above left (some source) .left).node? source = some m₁ ∧
      m₁.formula = m.formula ∧ t'.node? source = some m₂ ∧ m₂.formula = m.formula ∧
      source ∈ t'.branch p := by
  have hext : t.Extends (t.placed p above left (some source) .left) [p] :=
    extends_placed ht hp.node (Expand.obstacle?_of_isLeaf hp.leaf .left)
  obtain ⟨m₁, hm₁, hstays₁, -⟩ := hext.kept source m hm
  obtain ⟨m₂, hm₂, hf₂⟩ := hleft.exists_node hext.tree hm₁
  refine ⟨m₁, m₂, hm₁, hstays₁.formula, hm₂, hf₂.trans hstays₁.formula, ?_⟩
  rw [branch_of_node? hp', hstays.ancestors, ← branch_of_node? hp.node]
  exact hp.below

/-- While a rule is carried out every node stays accounted for. -/
theorem Grafts.accounted (h : Grafts source d t t') (ht : t.Accounted E)
    (hm : t.node? source = some m) (hd : m.formula.decompose = d) : t'.Accounted E := by
  induction h generalizing E m with
  | refl t => exact ht
  | trans h h' ih ih' =>
    obtain ⟨m', hm', hf⟩ := h.exists_node ht.tree hm
    exact ih' (ih ht hm hd) hm' (hf ▸ hd)
  | place hp hf hnew _ =>
    exact ht.placed hp.node (Expand.obstacle?_of_isLeaf hp.leaf _) hp.isOpen hp.below hm (hd ▸ hf)
      (fun _ => id) (.inr (.inr hnew))
  | @witness t p above x c body hp hd' hc hfresh hnew =>
    have hf : t.Grants source (t.branch p) above.constants m.formula.decompose
        (body.substitute x c .const) := by
      rw [hd, hd']
      exact .witness hc hfresh
    have hfree := Expand.obstacle?_of_isLeaf hp.leaf .center
    have hplaced := ht.placed hp.node hfree hp.isOpen hp.below hm hf (fun _ => id)
      (.inr (.inr hnew))
    refine hplaced.modify (fun _ => ⟨rfl, rfl, rfl, rfl, rfl⟩) (fun _ => rfl) fun n hn hinner => ?_
    rw [node?_placed_size ht.tree hp.node hfree, Option.some.injEq] at hn
    exact absurd (hn ▸ rfl) hinner
  | @split t t' p above above' left right lefts rights hp hd' hleft hp' hstays hrests ih =>
    have hfree := Expand.obstacle?_of_isLeaf hp.leaf .left
    -- The node is being split from the moment it has a child on the left.
    have hplaced : (t.placed p above left (some source) .left).Accounted (p :: E) := by
      refine ht.placed hp.node hfree hp.isOpen hp.below hm ?_
        (fun j hj => List.mem_cons_of_mem p hj) (.inr (.inl List.mem_cons_self))
      rw [hd, hd']
      exact .part (List.mem_append_left _ List.mem_cons_self)
    obtain ⟨m₁, m₂, hm₁, hf₁, hm₂, hf₂, hbelow⟩ := hp.exists_origin ht.tree hm hleft hp' hstays
    have hinner := ih hplaced hm₁ (hf₁ ▸ hd)
    have hsplit : (t'.placed p above' right (some source) .right).Accounted (p :: E) := by
      refine hinner.placed hp' (hp.obstacle?_right hrests) (hstays.closed.trans hp.isOpen) hbelow hm₂
        ?_ (fun _ => id) (.inl rfl)
      rw [hf₂, hd, hd']
      exact .part (List.mem_append_right _ List.mem_cons_self)
    exact hsplit.of_cons (node?_placed_parent hp') rfl
  | seed hp hleaf hempty =>
    refine ht.modify (fun _ => ⟨rfl, rfl, rfl, rfl, rfl⟩) (fun _ => rfl) fun n hn hinner => ?_
    rw [hp, Option.some.injEq] at hn
    exact absurd (hn ▸ hleaf) hinner
  | record a b =>
    exact ht.modify (fun _ => ⟨rfl, rfl, rfl, rfl, rfl⟩) (fun _ => rfl) fun _ _ _ => rfl
  | skip => exact ht.of_nodes rfl (Nat.le_succ _)

theorem Grown.accounted (h : t.Grown t') (ht : t.Accounted []) : t'.Accounted [] := by
  induction h with
  | refl => exact ht
  | dispatch _ hm hg ih => exact hg.accounted ih hm rfl

theorem accounted_start (f : Formula) : ((start f).checked root).Accounted [] := by
  refine ⟨(isTree_start f).checked, fun k n hn => ?_⟩
  have hk := lt_size_of_node? hn
  rw [size_checked] at hk
  obtain rfl : k = root := Nat.lt_one_iff.1 hk
  have hroot : (start f).node? root = some (.new 0 f.unrooted [] none f.unrooted.constants) := rfl
  rw [node?_checked_self hroot rfl, Option.some.injEq] at hn
  subst hn
  refine ⟨?_, fun _ => rfl, fun hne => absurd rfl hne⟩
  unfold checked
  split <;> exact Nat.zero_lt_one

end Tableau

/-- The nodes that a dispatch adds come from the node that is dispatched. -/
theorem Expansion.Advances.sourced {s s' : Expansion} {e : Entry} {rest : Agenda}
    (h : Advances s s') (hs : s.Coherent) (ha : s.agenda = e :: rest) :
    Sourced e.key s.tableau s'.tableau := by
  rcases h.grafts hs with hsame | ⟨e', rest', m, ha', -, hgrafts⟩
  · exact sourced_of_size (hsame ▸ rfl)
  · obtain ⟨rfl, -⟩ := List.cons.inj (ha.symm.trans ha')
    exact hgrafts.sourced hs.tree

/-! ## The tableau of a formula -/

theorem Context.accounted_of_buildTableau {ctx : Context} {w : Formula}
    (h : (ctx.buildTableau w).2 = .ok t) : t.Accounted [] := by
  obtain ⟨s₀, s, status, h₀, -, hgrown, rfl⟩ := exists_of_buildTableau h
  have hstart : s₀.tableau.Accounted [] := h₀.tableau ▸ accounted_start w
  exact (hgrown.accounted hstart).of_nodes rfl (Nat.le_refl _)

/-- The formula of a node is on a branch of the run that built the tableau. -/
theorem Context.exists_path_of_buildTableau {ctx : Context} {w : Formula}
    (h : (ctx.buildTableau w).2 = .ok t) (hn : t.node? k = some n) :
    ∃ s₀ s l, Begins s₀ w ctx.settings.requeueUniversals.value ∧ Steps s₀ s ∧
      s.tableau.IsLeaf l ∧ n.formula ∈ (s.tableau.path l).formulas := by
  obtain ⟨s₀, s, status, h₀, hsteps, -, rfl⟩ := exists_of_buildTableau h
  have hn : s.tableau.node? k = some n := hn
  obtain ⟨l, hl, hk⟩ := (hsteps.valid h₀.valid).tree.exists_leaf (lt_size_of_node? hn)
  exact ⟨s₀, s, l, h₀, hsteps, hl, formula_mem_path hk hn⟩

theorem Context.sentence_of_buildTableau {ctx : Context} {w : Formula}
    (h : (ctx.buildTableau w).2 = .ok t) (hw : w.Sentence) (hn : t.node? k = some n) :
    n.formula.Sentence := by
  obtain ⟨s₀, s, l, h₀, hsteps, hl, hmem⟩ := exists_path_of_buildTableau h hn
  exact (hsteps.formed h₀ hw l hl).sentence _ hmem

theorem Context.lacks_root_of_buildTableau {ctx : Context} {w : Formula}
    (h : (ctx.buildTableau w).2 = .ok t) (hw : w.unrooted.Lacks .root) (hn : t.node? k = some n) :
    n.formula.Lacks .root := by
  obtain ⟨s₀, s, l, h₀, hsteps, hl, hmem⟩ := exists_path_of_buildTableau h hn
  exact hsteps.forall_formula (Formula.inherited_lacks (.inl rfl)) h₀ hw l hl _ hmem

/-- Every node but the root was placed by the rule of a node above it, after that node and after its
parent, and unless it begins one side of a split no formula above it is structurally equal to its own.
Its own can be to one above it only by exchanged sides, and in the tableau of a sentence only if it is
an identity, or a denied one, and that above it has a wrapper. -/
theorem Context.buildTableau_justified (ctx : Context) (w : Formula) (t : Tableau)
    (h : (ctx.buildTableau w).2 = .ok t) (k : Nat) (n : Node) (hn : t.node? k = some n)
    (hk : k ≠ root) :
    ∃ p above i m, t.Justifies k n p above i m ∧
      (above.center = some k → ∀ j ∈ n.ancestors, ∀ a, t.node? j = some a →
        a.formula.structurallyEquals n.formula = false ∧
        (n.formula.structurallyEquals a.formula ↔
          ∃ g, n.formula.Exchanges g ∧ g.canonical = a.formula.canonical) ∧
        (w.Sentence → n.formula.structurallyEquals a.formula →
          (∃ g, n.formula.Exchanges g ∧ g.plain = a.formula.plain) ∧ ¬a.formula.Lacks .root) ∧
        (w.Sentence → w.unrooted.Lacks .root →
          n.formula.structurallyEquals a.formula = false)) := by
  obtain ⟨p, above, i, m, hj, hnew⟩ :=
    ((accounted_of_buildTableau h).node k n hn).justified hk
  refine ⟨p, above, i, m, hj, fun hcenter j hjn a ha => ?_⟩
  have hcontains : (t.path p).contains n.formula = false := by
    rcases hnew with hright | hnil | hnew
    · unfold Node.center at hcenter
      rw [if_neg (by simpa using Option.isSome_iff_ne_none.1 hright)] at hcenter
      cases hcenter
    · exact absurd hnil List.not_mem_nil
    · exact hnew
  have hmem : a.formula ∈ (t.path p).formulas := by
    refine formula_mem_path ?_ ha
    rw [branch_of_node? hj.parent, ← hj.ancestors]
    exact hjn
  have hnot : ¬a.formula.structurallyEquals n.formula := by
    intro heq
    rw [Path.contains_iff.2 ⟨_, hmem, heq⟩] at hcontains
    exact Bool.false_ne_true hcontains.symm
  have hwrapped (hw : w.Sentence) (heq : n.formula.structurallyEquals a.formula) :
      (∃ g, n.formula.Exchanges g ∧ g.plain = a.formula.plain) ∧ ¬a.formula.Lacks .root :=
    Formula.wrapped_of_structurallyEquals (sentence_of_buildTableau h hw hn).lettered
      (sentence_of_buildTableau h hw ha).lettered hnot heq
  refine ⟨Bool.eq_false_iff.2 hnot, Formula.structurallyEquals_iff_exchanges hnot, hwrapped, ?_⟩
  intro hw hroot
  refine Bool.eq_false_iff.2 fun heq => (hwrapped hw heq).2 ?_
  exact lacks_root_of_buildTableau h hroot ha

/-- The identity `a = b` gives `Pb` for `Pa`, below both. -/
theorem Context.buildTableau_justified_copy :
    let w : Formula := .and (.identity (.const 'a') (.const 'b')) (.predicate 'P' [.const 'a'])
    ∃ t n p above i m, (({} : Context).buildTableau w).2 = .ok t ∧ t.node? 3 = some n ∧
      n.formula = .predicate 'P' [.const 'b'] ∧ t.Justifies 3 n p above i m ∧
      m.formula = .identity (.const 'a') (.const 'b') ∧
      ∀ j ∈ n.ancestors, ∀ a, t.node? j = some a →
        n.formula.structurallyEquals a.formula = false := by
  intro w
  obtain ⟨t, hbuild⟩ :=
    exists_of_isOk_buildTableau (c := ({} : Context)) (f := w) (by decide +kernel)
  have hok : (({} : Context).buildTableau w).2 = .ok t := by rw [hbuild]
  have hread {β : Type} (g : Node → β) (k : Nat) (v : β)
      (h : ((({} : Context).buildTableau w).2.toOption.bind (·.node? k)).map g = some v) :
      ∃ n, t.node? k = some n ∧ g n = v := by
    rw [hok] at h
    exact Option.map_eq_some_iff.1 h
  obtain ⟨n, hn, hdata⟩ := hread (fun n => (n.formula, n.source, n.ancestors)) 3
    (.predicate 'P' [.const 'b'], some 1, [2, 1, 0]) (by decide +kernel)
  obtain ⟨hformula, hsource, hancestors⟩ : n.formula = .predicate 'P' [.const 'b'] ∧
      n.source = some 1 ∧ n.ancestors = [2, 1, 0] := by simpa using hdata
  obtain ⟨p, above, i, m, hj, hnew⟩ :=
    ({} : Context).buildTableau_justified w t hok 3 n hn (by decide)
  obtain ⟨rfl, -⟩ : 2 = p ∧ [1, 0] = above.ancestors := by
    simpa [hancestors] using hj.ancestors
  obtain rfl : 1 = i := by simpa [hsource] using hj.source
  obtain ⟨above', hp, hcenter⟩ := hread (·.center) 2 (some 3) (by decide +kernel)
  obtain rfl : above = above' := Option.some.inj (hj.parent.symm.trans hp)
  obtain ⟨m', hm, horigin⟩ :=
    hread (·.formula) 1 (.identity (.const 'a') (.const 'b')) (by decide +kernel)
  obtain rfl : m = m' := Option.some.inj (hj.origin.symm.trans hm)
  refine ⟨t, n, 2, above, 1, m, hok, hn, hformula, hj, horigin, fun j hjn a ha => ?_⟩
  exact (hnew hcenter j hjn a ha).2.2.2 (by decide) (by decide)

/-- In `Root(b = a) ∧ a = b` the second conjunct is structurally equal to the first, but not the first
to the second, so both are placed, one below the other. -/
theorem Context.identity_below_exchange :
    ¬∀ (ctx : Context) (w : Formula) (t : Tableau), (ctx.buildTableau w).2 = .ok t →
      ∀ k n, t.node? k = some n → k ≠ root →
        ∃ p above i m, t.Justifies k n p above i m ∧
          (above.center = some k → ∀ j ∈ n.ancestors, ∀ a, t.node? j = some a →
            n.formula.structurallyEquals a.formula = false) := by
  intro hall
  obtain ⟨t, hok, hpath, hcenter, hfirst, hsecond⟩ := exists_of_any_buildTableau (c := {})
    (w := .and (.root (.identity (.const 'b') (.const 'a'))) (.identity (.const 'a') (.const 'b')))
    (P := fun t => (t.node? 2).map (·.ancestors) = some [1, 0] ∧
      (t.node? 1).map (·.center) = some (some 2) ∧
      (t.node? 1).map (·.formula) = some (.root (.identity (.const 'b') (.const 'a'))) ∧
      (t.node? 2).map (·.formula) = some (.identity (.const 'a') (.const 'b'))) (by decide +kernel)
  obtain ⟨n, hn, hancestors⟩ := Option.map_eq_some_iff.1 hpath
  obtain ⟨a, ha, hcenter⟩ := Option.map_eq_some_iff.1 hcenter
  rw [ha, Option.map_some, Option.some.injEq] at hfirst
  rw [hn, Option.map_some, Option.some.injEq] at hsecond
  obtain ⟨p, above, i, m, hj, hnew⟩ := hall _ _ t hok 2 n hn (by decide)
  obtain ⟨rfl, -⟩ : 1 = p ∧ [0] = above.ancestors := by simpa [hancestors] using hj.ancestors
  obtain rfl : above = a := Option.some.inj (hj.parent.symm.trans ha)
  have hfalse := hnew hcenter 1 (by simp [hancestors]) above ha
  rw [hfirst, hsecond] at hfalse
  exact absurd hfalse (by decide +kernel)

end Sequitur
