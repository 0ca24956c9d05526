import Sequitur.Proofs.Tableau.Run

/-!
# Node by node

What a dispatch does to the tableau, seen from its nodes and not from its branches. While the rule of
a node is carried out the tableau changes in a few ways only, and `Tableau.Grafts` lists them: each
new node stands below an open leaf, its formula is one that the rule grants there, and the branch has
no formula like it unless the node begins one side of a split. `Expand.dispatch_grafts` shows that a
dispatch does nothing else, and `Context.exists_of_buildTableau` that a tableau is built in no other
way. What every change keeps, every tableau that is built has.
-/

namespace Sequitur

open Tableau Expansion

namespace Tableau

variable {t t' t'' : Tableau} {source p : Nat} {above : Node} {d : Decomposition} {f : Formula}

/-! ## What a rule grants -/

/-- Whether the rule `d`, carried out for the node `source`, can place the formula below a branch with
the given constants. -/
inductive Grants (t : Tableau) (source : Nat) (branch : List Nat) (constants : Symbols) :
    Decomposition → Formula → Prop
  | part {d : Decomposition} {f : Formula} (h : f ∈ d.parts) : Grants t source branch constants d f
  /-- The instance of an existential is with a constant that is new to the branch. -/
  | witness {x c : Char} {body : Formula} (hc : isConstantSymbol c) (hnew : c ∉ constants) :
    Grants t source branch constants (.witness x body) (body.substitute x c .const)
  /-- An instance of a universal is with a constant of the branch. -/
  | instantiated {x c : Char} {body : Formula} (hc : c ∈ constants) :
    Grants t source branch constants (.instances x body) (body.substitute x c .const)
  /-- An identity gives copies of the other closable formulas of the branch. -/
  | replaced {a b target replacement : Char} {k : Nat} {m : Node} (hk : k ∈ branch)
    (hne : k ≠ source) (hm : t.node? k = some m) (hclosable : m.formula.isClosable)
    (hr : Expand.replacement? a b m.formula = some (target, replacement))
    (hproper : (m.formula.substitute target replacement .const).isTrivialIdentity = false) :
    Grants t source branch constants (.replace a b)
      (m.formula.substitute target replacement .const)

/-- What is granted stays granted further down the branch, if no constant has come to it. -/
theorem Grants.mono {branch branch' L : List Nat} {constants : Symbols}
    (h : t.Grants source branch constants d f) (hsub : ∀ k ∈ branch, k ∈ branch')
    (hext : t.Extends t' L) : t'.Grants source branch' constants d f := by
  cases h with
  | part h => exact .part h
  | witness hc hnew => exact .witness hc hnew
  | instantiated hc => exact .instantiated hc
  | @replaced a b target replacement k m hk hne hm hclosable hr hproper =>
    obtain ⟨m', hm', hstays, -⟩ := hext.kept k m hm
    rw [← hstays.formula] at hclosable hr hproper ⊢
    exact .replaced (hsub k hk) hne hm' hclosable hr hproper

/-! ## The changes -/

/-- Whether the node `p` is an open leaf on a branch through the node `source`. -/
structure Sprouts (t : Tableau) (source p : Nat) (above : Node) : Prop where
  node : t.node? p = some above
  leaf : above.isLeaf
  isOpen : above.closed = false
  below : source ∈ t.branch p

/-- Once it has a left child the node can take a right one. -/
theorem Sprouts.obstacle?_right {child : Nat} {above' : Node} (h : t.Sprouts source p above)
    (hrests : (above.attach .left child).Rests above') : obstacle? above' .right = none := by
  have hleaf := h.leaf
  simp only [Node.isLeaf, Bool.and_eq_true, Option.isNone_iff_eq_none] at hleaf
  have hright : above'.right = none := hrests.right.trans hleaf.2
  simp [obstacle?, hright]

/-- The ways in which a tableau changes while the rule `d` is carried out for the node `source`. -/
inductive Grafts (source : Nat) (d : Decomposition) : Tableau → Tableau → Prop
  | refl (t : Tableau) : Grafts source d t t
  | trans {t t' t'' : Tableau} (h : Grafts source d t t') (h' : Grafts source d t' t'') :
    Grafts source d t t''
  /-- What is placed alone brings no constant to the branch. -/
  | place {t : Tableau} {p : Nat} {above : Node} {f : Formula} (hp : t.Sprouts source p above)
    (hf : t.Grants source (t.branch p) above.constants d f) (hnew : t.branchContains p f = false)
    (hd : ∀ x body, d ≠ .witness x body) :
    Grafts source d t (t.placed p above f (some source) .center)
  /-- The constant of a witness comes to the branch with the instance. -/
  | witness {t : Tableau} {p : Nat} {above : Node} {x c : Char} {body : Formula}
    (hp : t.Sprouts source p above) (hd : d = .witness x body) (hc : isConstantSymbol c)
    (hfresh : c ∉ above.constants)
    (hnew : t.branchContains p (body.substitute x c .const) = false) :
    Grafts source d t
      ((t.placed p above (body.substitute x c .const) (some source) .center).addConstant t.size c)
  /-- A split is finished on the left before it is begun on the right. -/
  | split {t t' : Tableau} {p : Nat} {above above' : Node} {left right : Formula}
    {lefts rights : List Formula} (hp : t.Sprouts source p above)
    (hd : d = .split left lefts right rights)
    (hleft : Grafts source d (t.placed p above left (some source) .left) t')
    (hp' : t'.node? p = some above') (hstays : above.Stays above')
    (hrests : (above.attach .left t.size).Rests above') :
    Grafts source d t (t'.placed p above' right (some source) .right)
  /-- A universal gives a first constant to a leaf that has none. -/
  | seed {t : Tableau} {p : Nat} {n : Node} (hp : t.node? p = some n) (hleaf : n.isLeaf)
    (hempty : n.constants.isEmpty) : Grafts source d t (t.addConstant p firstConstant)
  | record {t : Tableau} (a b : Char) : Grafts source d t (t.recordReplacement source a b)
  | skip {t : Tableau} : Grafts source d t t.skipId

/-- Whether one tableau comes from another by one dispatch after another. -/
inductive Grown (t : Tableau) : Tableau → Prop
  | refl : Grown t t
  | dispatch {t' t'' : Tableau} {key : Nat} {m : Node} (h : Grown t t')
    (hm : t'.node? key = some m) (hg : Grafts key m.formula.decompose t' t'') : Grown t t''

theorem Grown.trans (h : Grown t t') (h' : Grown t' t'') : Grown t t'' := by
  induction h' with
  | refl => exact h
  | dispatch _ hm hg ih => exact .dispatch ih hm hg

end Tableau

/-! ## The end of a branch -/

variable {s s' s'' : Expansion} {source tip last n : Nat} {p : Path} {d : Decomposition}

namespace Expansion

/-- Whether an expansion is at work at the leaf `tip`, for a node of its branch. -/
structure WorksAt (s : Expansion) (source tip : Nat) : Prop extends Coherent s where
  leaf : s.tableau.IsLeaf tip
  below : source ∈ s.tableau.branch tip

namespace WorksAt

theorem lengthens (h : s.WorksAt source tip) (hlong : Lengthens s s' tip last n p) :
    s'.WorksAt source last where
  toCoherent := hlong.coherent
  leaf := hlong.isLeaf
  below := hlong.mem_branch h.leaf h.below

theorem sprouts (h : s.WorksAt source tip) (hopen : (s.tableau.path tip).isClosed = false) :
    ∃ above, s.tableau.Sprouts source tip above ∧
      above.constants = (s.tableau.path tip).constants := by
  obtain ⟨above, hp, hleaf⟩ := h.leaf
  refine ⟨above, ⟨hp, hleaf, ?_, h.below⟩, (path_of_node? hp).symm⟩
  rw [h.marked tip above hp hleaf]
  exact hopen

/-- What is granted at a leaf is granted at the leaf that its branch has come to. -/
theorem grants (h : s.WorksAt source tip) (hlong : Lengthens s s' tip last n p) {f : Formula}
    (hconst : p.constants = (s.tableau.path tip).constants)
    (hf : s.tableau.Grants source (s.tableau.branch tip) (s.tableau.path tip).constants d f) :
    s'.tableau.Grants source (s'.tableau.branch last) (s'.tableau.path last).constants d f := by
  rw [hlong.path, hconst]
  exact hf.mono (fun k hk => hlong.mem_branch h.leaf hk) hlong.tableau

end WorksAt

end Expansion

namespace Expand

theorem exists_of_bind_ok {α β : Type} {m : Expand α} {g : α → Expand β} {b : β}
    (h : (m >>= g) s = .ok b s') : ∃ a s₁, m s = .ok a s₁ ∧ g a s₁ = .ok b s' := by
  cases hm : m s with
  | ok a s₁ =>
    rw [bind_ok hm] at h
    exact ⟨a, s₁, rfl, h⟩
  | error cause s₁ =>
    rw [bind_error hm] at h
    cases h

/-! ## Stacking and splitting -/

/-- A formula that is granted and new to an open branch is placed below its leaf. -/
theorem place_grafts {f : Formula} (h : s.WorksAt source tip)
    (hopen : (s.tableau.path tip).isClosed = false)
    (hf : s.tableau.Grants source (s.tableau.branch tip) (s.tableau.path tip).constants d f)
    (hd : ∀ x body, d ≠ .witness x body) (hnew : s.tableau.branchContains tip f = false) :
    ∃ s', place tip f source .center s = .ok s.tableau.size s' ∧
      Lengthens s s' tip s.tableau.size 1 ((s.tableau.path tip).push f) ∧
      Grafts source d s.tableau s'.tableau := by
  obtain ⟨above, hp, hconst⟩ := h.sprouts hopen
  obtain ⟨trace, hplace⟩ := place_eq source f hp.node (obstacle?_of_isLeaf hp.leaf .center)
  obtain ⟨s', hplace', hlong⟩ := place_leaf_ok source f .center h.toCoherent h.leaf
  rw [hplace] at hplace'
  cases hplace'
  exact ⟨_, hplace, hlong, .place hp (hconst ▸ hf) hnew hd⟩

theorem stack_grafts {fs : List Formula} (h : s.WorksAt source tip)
    (hfs : ∀ f ∈ fs,
      s.tableau.Grants source (s.tableau.branch tip) (s.tableau.path tip).constants d f)
    (hd : ∀ x body, d ≠ .witness x body) (hok : stack source tip fs s = .ok (last, n) s') :
    Grafts source d s.tableau s'.tableau := by
  induction fs generalizing s tip last n with
  | nil =>
    cases hok
    exact .refl _
  | cons f fs ih =>
    obtain ⟨hf, hfs⟩ := List.forall_mem_cons.1 hfs
    obtain ⟨m, hm, hclosed, -⟩ := node_leaf_ok h.toCoherent h.leaf
    rw [stack, bind_ok hm, hclosed] at hok
    split at hok
    · cases hok
      exact .refl _
    · next hopen =>
      rw [bind_ok (tableau_ok s)] at hok
      split at hok
      · exact ih h hfs hok
      · next hnew =>
        obtain ⟨s₁, hplace, hlong, hgraft⟩ :=
          place_grafts h (Bool.eq_false_iff.2 hopen) hf hd (Bool.eq_false_iff.2 hnew)
        obtain ⟨last', n', s₂, hstack, -⟩ := stack_ok source fs hlong.coherent hlong.isLeaf
        rw [bind_ok hplace, bind_ok hstack] at hok
        cases hok
        exact hgraft.trans (ih (h.lengthens hlong) (fun g hg => h.grants hlong rfl (hfs g hg)) hstack)

/-- What comes below the first node of a side. -/
theorem branchOff_grafts {leaf : Nat} {above : Node} {side : Side} {f : Formula} {fs : List Formula}
    (hs : s.Coherent) (hp : s.tableau.node? leaf = some above) (ho : obstacle? above side = none)
    (hbelow : source ∈ s.tableau.branch leaf) (hfs : ∀ g ∈ fs, g ∈ d.parts)
    (hd : ∀ x body, d ≠ .witness x body)
    (hok : branchOff source leaf side f fs s = .ok n s') :
    Grafts source d (s.tableau.placed leaf above f (some source) side) s'.tableau := by
  obtain ⟨trace, hplace⟩ := place_eq source f hp ho
  obtain ⟨s₁, hplace', h₁⟩ := place_ok source f hs hp ho
  obtain ⟨last, m, s₂, hstack, -⟩ := stack_ok source fs h₁.coherent h₁.leaf
  have hworks : s₁.WorksAt source s.tableau.size := by
    refine ⟨h₁.coherent, h₁.leaf, ?_⟩
    have hchild : s.tableau.size ∈ (above.attach side s.tableau.size).children :=
      (children_attach ho _).mem_iff.2 List.mem_cons_self
    rw [h₁.tableau.tree.child leaf _ h₁.node _ hchild, h₁.tableau.branch (lt_size_of_node? hp)]
    exact List.mem_cons_of_mem _ hbelow
  have hgraft := stack_grafts hworks (fun g hg => .part (hfs g hg)) hd hstack
  rw [branchOff, bind_ok hplace', bind_ok hstack] at hok
  rw [hplace] at hplace'
  cases hplace'
  cases hok
  exact hgraft

/-- A leaf is split in two. -/
theorem split_grafts {left right : Formula} {lefts rights : List Formula}
    (h : s.WorksAt source tip) (hopen : (s.tableau.path tip).isClosed = false)
    (hok : (do
      let n ← branchOff source tip .left left lefts
      let m ← branchOff source tip .right right rights
      return n + m : Expand Nat) s = .ok n s') :
    Grafts source (.split left lefts right rights) s.tableau s'.tableau := by
  obtain ⟨above, hp, -⟩ := h.sprouts hopen
  have hfree := obstacle?_of_isLeaf hp.leaf .left
  obtain ⟨lastL, nL, s₁, hleft, h₁⟩ := branchOff_ok source left lefts h.toCoherent hp.node hfree
  have hgraft := branchOff_grafts (d := .split left lefts right rights) h.toCoherent hp.node hfree
    h.below (fun g hg => List.mem_append_left _ (List.mem_cons_of_mem left hg))
    (fun _ _ => Decomposition.noConfusion) hleft
  -- The node of the leaf has its left child, and is otherwise what it was.
  obtain ⟨above', hp', hrests⟩ := h₁.node
  obtain ⟨_, hp'', hstays, -⟩ := h₁.tableau.kept tip above hp.node
  rw [hp', Option.some.injEq] at hp''
  subst hp''
  have hfree' := hp.obstacle?_right hrests
  have hbelow : source ∈ s₁.tableau.branch tip := by
    rw [h₁.tableau.branch (lt_size_of_node? hp.node)]
    exact h.below
  obtain ⟨lastR, nR, s₂, hright, -⟩ := branchOff_ok source right rights h₁.coherent hp' hfree'
  have hgraft' := branchOff_grafts (d := .split left lefts right rights) h₁.coherent hp' hfree'
    hbelow (fun g hg => List.mem_append_right _ (List.mem_cons_of_mem right hg))
    (fun _ _ => Decomposition.noConfusion) hright
  rw [bind_ok hleft, bind_ok hright] at hok
  cases hok
  exact .trans (.split hp rfl hgraft hp' hstays hrests) hgraft'

/-! ## Quantifiers and identity -/

theorem witness_grafts {x c : Char} {body : Formula} (h : s.WorksAt source tip)
    (hopen : (s.tableau.path tip).isClosed = false) (hc : isConstantSymbol c)
    (hfresh : c ∉ (s.tableau.path tip).constants)
    (hok : (do
      if (← tableau).branchContains tip (body.substitute x c .const) then
        return 0
      else
        let child ← place tip (body.substitute x c .const) source .center
        update (·.addConstant child c)
        return 1 : Expand Nat) s = .ok n s') :
    Grafts source (.witness x body) s.tableau s'.tableau := by
  rw [bind_ok (tableau_ok s)] at hok
  split at hok
  · cases hok
    exact .refl _
  · next hnew =>
    obtain ⟨above, hp, hconst⟩ := h.sprouts hopen
    obtain ⟨trace, hplace⟩ :=
      place_eq source (body.substitute x c .const) hp.node (obstacle?_of_isLeaf hp.leaf .center)
    rw [bind_ok hplace] at hok
    cases hok
    exact .witness hp rfl hc (hconst ▸ hfresh) (Bool.eq_false_iff.2 hnew)

theorem seedConstants_grafts {constants : Symbols} (h : s.WorksAt source tip)
    (hok : seedConstants tip s = .ok constants s') : Grafts source d s.tableau s'.tableau := by
  obtain ⟨m, hm, hleaf⟩ := h.leaf
  rw [seedConstants, bind_ok (node_ok hm)] at hok
  split at hok
  · next hempty =>
    have hm' : (s.tableau.addConstant tip firstConstant).node? tip = some _ :=
      node?_modify_eq_some.2 ⟨m, hm, rfl⟩
    have hread := node_ok (s := { s with tableau := s.tableau.addConstant tip firstConstant }) hm'
    rw [bind_ok (update_ok _ s)] at hok
    cases (bind_ok hread).symm.trans hok
    exact .seed hm hleaf hempty
  · cases (bind_ok (node_ok hm)).symm.trans hok
    exact .refl _

theorem instantiateEach_grafts {f body : Formula} {x : Char} {cs : List Char}
    (h : s.WorksAt source tip) (hcs : ∀ c ∈ cs, c ∈ (s.tableau.path tip).constants)
    (hok : instantiateEach source f x body tip cs s = .ok n s') :
    Grafts source (.instances x body) s.tableau s'.tableau := by
  induction cs generalizing s tip n with
  | nil =>
    cases hok
    exact .refl _
  | cons c cs ih =>
    obtain ⟨hc, hcs⟩ := List.forall_mem_cons.1 hcs
    obtain ⟨last, m, s₁, hstack, h₁⟩ :=
      stack_ok source [body.substitute x c .const] h.toCoherent h.leaf
    have hgraft : Grafts source (.instances x body) s.tableau s₁.tableau :=
      stack_grafts h (List.forall_mem_singleton.2 (.instantiated hc))
        (fun _ _ => Decomposition.noConfusion) hstack
    obtain ⟨trace, hrest⟩ := instantiateEach_cons f cs hstack
    have h₂ := h₁.trans h.toCoherent h.leaf (.of_trace h₁.coherent h₁.isLeaf trace)
    obtain ⟨e, he, -, -⟩ := node_leaf_ok h₂.coherent h₂.isLeaf
    rw [hrest, bind_ok he] at hok
    split at hok
    · cases hok
      exact hgraft
    · obtain ⟨last', m', s₂, heach, -⟩ := instantiateEach_ok source f x body cs h₂.coherent h₂.isLeaf
      have hcs₁ : ∀ c ∈ cs, c ∈ (s₁.tableau.path last).constants := by
        intro e he
        rw [h₁.path, Path.constants_stack]
        exact hcs e he
      rw [bind_ok heach] at hok
      cases hok
      exact hgraft.trans (ih (s := { s₁ with trace := trace }) (h.lengthens h₂) hcs₁ heach)

/-- A universal is instantiated at one leaf. -/
theorem instances_grafts {f body : Formula} {x : Char} (h : s.WorksAt source tip)
    (hok : (do
      let constants ← seedConstants tip
      instantiateEach source f x body tip constants.members : Expand Nat) s = .ok n s') :
    Grafts source (.instances x body) s.tableau s'.tableau := by
  obtain ⟨s₁, hseed, h₁⟩ := seedConstants_ok h.toCoherent h.leaf
  rw [bind_ok hseed] at hok
  refine (seedConstants_grafts h hseed).trans (instantiateEach_grafts (h.lengthens h₁) ?_ hok)
  intro c hc
  rw [h₁.path]
  exact Symbols.mem_members.1 hc

theorem replaceEach_grafts {f : Formula} {a b : Char} {fs : List Formula}
    (h : s.WorksAt source tip) (hopen : (s.tableau.path tip).isClosed = false)
    (hfs : ∀ g ∈ fs, ∃ k ∈ s.tableau.branch tip, k ≠ source ∧
      ∃ m, s.tableau.node? k = some m ∧ m.formula = g ∧ g.isClosable)
    (hok : replaceEach source f a b tip fs s = .ok n s') :
    Grafts source (.replace a b) s.tableau s'.tableau := by
  induction fs generalizing s tip n with
  | nil =>
    cases hok
    exact .refl _
  | cons g fs ih =>
    obtain ⟨⟨k, hk, hne, m, hm, rfl, hclosable⟩, hrest⟩ := List.forall_mem_cons.1 hfs
    rw [replaceEach] at hok
    cases hr : replacement? a b m.formula with
    | none =>
      rw [hr] at hok
      exact ih h hopen hrest hok
    | some r =>
      obtain ⟨target, replacement⟩ := r
      rw [hr] at hok
      simp only at hok
      rw [bind_ok (tableau_ok s)] at hok
      split at hok
      · exact ih h hopen hrest hok
      · next hnew =>
        rw [Bool.or_eq_true, not_or, Bool.not_eq_true, Bool.not_eq_true] at hnew
        have h₀ := Lengthens.of_trace h.toCoherent h.leaf
          (s.trace.push (.replaced m.formula (m.formula.substitute target replacement .const) f))
        have hworks := h.lengthens h₀
        obtain ⟨s₁, hplace, h₁, hgraft⟩ := place_grafts hworks hopen
          (.replaced hk hne hm hclosable hr hnew.1) (fun _ _ => Decomposition.noConfusion) hnew.2
        have h₂ := Lengthens.of_recordReplacement h₁.coherent h₁.isLeaf source target replacement
        have h₃ := h₁.trans h₀.coherent h₀.isLeaf h₂
        obtain ⟨e, he, hclosed, -⟩ := node_leaf_ok h₃.coherent h₃.isLeaf
        rw [bind_ok (emit_ok _ s), bind_ok hplace, bind_ok (update_ok _ s₁), bind_ok he] at hok
        have hrecord := hgraft.trans (.record target replacement)
        split at hok
        · cases hok
          exact hrecord
        · next hopen' =>
          obtain ⟨last, m', s₂, heach, -⟩ := replaceEach_ok source f a b fs h₃.coherent h₃.isLeaf
          rw [bind_ok heach] at hok
          cases hok
          refine hrecord.trans (ih (hworks.lengthens h₃) ?_ ?_ heach)
          · rw [← hclosed]
            exact Bool.eq_false_iff.2 hopen'
          · intro g hg
            obtain ⟨k, hk, hne, m, hm, rfl, hclosable⟩ := hrest g hg
            obtain ⟨m', hm', hstays, -⟩ := h₃.tableau.kept k m hm
            exact ⟨k, h₃.mem_branch h.leaf hk, hne, m', hm', hstays.formula, hclosable⟩

theorem replacements_grafts {f : Formula} {a b : Char} (h : s.WorksAt source tip)
    (hopen : (s.tableau.path tip).isClosed = false)
    (hok : (do
      let formulas := closableOn (← tableau) source tip
      replaceEach source f a b tip formulas : Expand Nat) s = .ok n s') :
    Grafts source (.replace a b) s.tableau s'.tableau := by
  rw [bind_ok (tableau_ok s)] at hok
  refine replaceEach_grafts h hopen (fun g hg => ?_) hok
  rw [closableOn_eq] at hg
  obtain ⟨⟨k, f⟩, hmem, rfl⟩ := List.mem_map.1 hg
  obtain ⟨hentry, hcond⟩ := List.mem_filter.1 hmem
  obtain ⟨hk, m, hm, hf⟩ := mem_entries.1 hentry
  rw [Bool.and_eq_true, bne_iff_ne] at hcond
  exact ⟨k, hk, hcond.1, m, hm, hf, hcond.2⟩

/-! ## Every open leaf -/

/-- Whether a step at a leaf makes only such changes as the rule `d` of the node `source` allows, if
the branch is as `Q` asks. -/
def Abides (step : Nat → Expand Nat) (source : Nat) (d : Decomposition) (Q : Path → Prop) : Prop :=
  ∀ ⦃s s' : Expansion⦄ ⦃leaf n : Nat⦄, s.WorksAt source leaf → Q (s.tableau.path leaf) →
    step leaf s = .ok n s' → Grafts source d s.tableau s'.tableau

theorem total_grafts {step : Nat → Expand Nat} {F : Path → List Formula → List Path}
    {Q : Path → Prop} (hstep : Realizes step source F) (habides : Abides step source d Q)
    {L : List Nat} (hs : s.Coherent) (hL : ∀ l ∈ L, s.tableau.IsLeaf l) (hnodup : L.Nodup)
    (hbelow : ∀ l ∈ L, source ∈ s.tableau.branch l) (hQ : ∀ l ∈ L, Q (s.tableau.path l))
    (hok : total step L s = .ok n s') : Grafts source d s.tableau s'.tableau := by
  induction L generalizing s n with
  | nil =>
    cases hok
    exact .refl _
  | cons l L ih =>
    obtain ⟨hl, hL⟩ := List.forall_mem_cons.1 hL
    obtain ⟨hlb, hbelow⟩ := List.forall_mem_cons.1 hbelow
    obtain ⟨hlQ, hQ⟩ := List.forall_mem_cons.1 hQ
    obtain ⟨hlL, hnodup⟩ := List.nodup_cons.1 hnodup
    obtain ⟨m, s₁, hone, h₁, -⟩ := hstep hs hl
    -- The other leaves are as they were.
    have hne : ∀ k ∈ L, k ∉ [l] := fun k hk hmem => hlL (List.mem_singleton.1 hmem ▸ hk)
    have hL₁ : ∀ k ∈ L, s₁.tableau.IsLeaf k := fun k hk =>
      h₁.tableau.isLeaf_of_not_mem (hL k hk) (hne k hk)
    obtain ⟨m', s₂, hrest, -, -⟩ := total_ok hstep h₁.coherent hL₁ hnodup
    rw [total, bind_ok hone, bind_ok hrest] at hok
    cases hok
    refine (habides ⟨hs, hl, hlb⟩ hlQ hone).trans (ih h₁.coherent hL₁ hnodup ?_ ?_ hrest)
    · intro k hk
      rw [h₁.tableau.branch (hL k hk).lt_size]
      exact hbelow k hk
    · intro k hk
      rw [h₁.tableau.path_of_not_mem hs.tree (hL k hk).lt_size (hne k hk)]
      exact hQ k hk

/-! ## What lies dormant -/

theorem requeue_grafts {key : Nat} (hok : requeue key s = .ok () s') :
    Grafts source d s.tableau s'.tableau := by
  obtain ⟨m, s₁, hnode, hok⟩ := exists_of_bind_ok hok
  unfold node at hnode
  split at hnode
  · cases hnode
    cases hok
    exact .skip
  · cases hnode

theorem wakeAll_grafts {keys : List Nat} (hok : wakeAll keys s = .ok () s') :
    Grafts source d s.tableau s'.tableau := by
  induction keys generalizing s with
  | nil =>
    cases hok
    exact .refl _
  | cons k keys ih =>
    rw [wakeAll, bind_ok (emit_ok _ s)] at hok
    obtain ⟨_, s₁, hone, hok⟩ := exists_of_bind_ok hok
    have hgraft : Grafts source d s.tableau s₁.tableau :=
      requeue_grafts (s := { s with trace := s.trace.push (.woken k) }) hone
    exact hgraft.trans (ih hok)

theorem wake_grafts (hok : wake s = .ok () s') : Grafts source d s.tableau s'.tableau :=
  wakeAll_grafts (s := { s with dormant := [] }) hok

theorem settle_grafts {key : Nat} (hok : settle key n s = .ok () s') :
    Grafts source d s.tableau s'.tableau := by
  rw [settle, bind_ok (get_ok s)] at hok
  split at hok
  · split at hok
    · cases hok
      exact .refl _
    · obtain ⟨_, s₁, hwake, hok⟩ := exists_of_bind_ok hok
      exact (wake_grafts hwake).trans (requeue_grafts hok)
  · cases hok
    exact .refl _

/-! ## The dispatch -/

section Dispatch

variable {key : Nat} {trace : Trace} {r : Dispatched} (hs : s.Coherent)

include hs

theorem total_open_grafts {step : Nat → Expand Nat} {F : Path → List Formula → List Path}
    {Q : Path → Prop} (hstep : Realizes step key F) (habides : Abides step key d Q)
    (hQ : ∀ l ∈ s.tableau.openLeavesBelow key, Q (s.tableau.path l))
    (hok : total step (s.tableau.openLeavesBelow key) { s with trace := trace } = .ok n s') :
    Grafts key d s.tableau s'.tableau := by
  refine total_grafts (s := { s with trace := trace }) hstep habides ⟨hs.tree, hs.marked⟩
    (fun l hl => ?_) ((hs.tree.nodup_leavesBelow key).filter _) (fun l hl => ?_) hQ hok
  · exact ((mem_openLeavesBelow hs).1 hl).1
  · exact ((mem_openLeavesBelow hs).1 hl).2.1

theorem isOpen_of_mem : ∀ l ∈ s.tableau.openLeavesBelow key,
    (s.tableau.path l).isClosed = false :=
  fun _ hl => ((mem_openLeavesBelow hs).1 hl).2.2

theorem existential_grafts {f body : Formula} {x : Char}
    (hok : existential key f x body (s.tableau.openLeavesBelow key) { s with trace := trace } =
      .ok r s') : Grafts key (.witness x body) s.tableau s'.tableau := by
  have hleaf : ∀ l ∈ s.tableau.openLeavesBelow key, s.tableau.IsLeaf l := fun l hl =>
    ((mem_openLeavesBelow hs).1 hl).1
  obtain ⟨u, hu, hmem⟩ :=
    constantsOf_ok (s := { s with trace := trace }) ⟨hs.tree, hs.marked⟩ hleaf
  rw [existential, bind_ok hu] at hok
  cases hfresh : fresh? u with
  | none =>
    rw [hfresh] at hok
    cases hok
    exact .refl _
  | some c =>
    rw [hfresh] at hok
    have hc := isConstantSymbol_of_mem (mem_constantSymbols_of_fresh? hfresh)
    have hnew : ∀ l ∈ s.tableau.openLeavesBelow key,
        (s.tableau.path l).isClosed = false ∧ c ∉ (s.tableau.path l).constants := by
      intro l hl
      refine ⟨isOpen_of_mem hs l hl, fun hmemc => ?_⟩
      exact not_mem_of_fresh? hfresh ((hmem c).2 ⟨l, hl, hmemc⟩)
    simp only at hok
    rw [bind_ok (emit_ok _ _)] at hok
    obtain ⟨m, s₁, htotal, hok⟩ := exists_of_bind_ok hok
    have hgraft : Grafts key (.witness x body) s.tableau s₁.tableau :=
      total_open_grafts (Q := fun p => p.isClosed = false ∧ c ∉ p.constants) hs
        (realizes_witness key (body.substitute x c .const) c)
        (fun _ _ _ _ hworks hp hstep => witness_grafts hworks hp.1 hc hp.2 hstep) hnew htotal
    rw [bind_ok (get_ok s₁)] at hok
    split at hok
    · obtain ⟨_, s₂, hwake, hok⟩ := exists_of_bind_ok hok
      cases hok
      exact hgraft.trans (wake_grafts hwake)
    · cases hok
      exact hgraft

theorem universal_grafts {f body : Formula} {x : Char}
    (hok : universal key f x body (s.tableau.openLeavesBelow key) { s with trace := trace } =
      .ok r s') : Grafts key (.instances x body) s.tableau s'.tableau := by
  obtain ⟨m, s₁, htotal, hok⟩ := exists_of_bind_ok hok
  obtain ⟨_, s₂, hsettle, hok⟩ := exists_of_bind_ok hok
  cases hok
  refine .trans ?_ (settle_grafts hsettle)
  exact total_open_grafts (Q := fun p => p.isClosed = false) hs (realizes_instances key f x body)
    (fun _ _ _ _ hworks _ hstep => instances_grafts hworks hstep) (isOpen_of_mem hs) htotal

theorem identity_grafts {f : Formula} {a b : Char}
    (hok : identity key f a b (s.tableau.openLeavesBelow key) { s with trace := trace } =
      .ok r s') : Grafts key (.replace a b) s.tableau s'.tableau := by
  obtain ⟨m, s₁, htotal, hok⟩ := exists_of_bind_ok hok
  obtain ⟨_, s₂, hsettle, hok⟩ := exists_of_bind_ok hok
  cases hok
  refine .trans ?_ (settle_grafts hsettle)
  exact total_open_grafts (Q := fun p => p.isClosed = false) hs (realizes_replace key f a b)
    (fun _ _ _ _ hworks hp hstep => replacements_grafts hworks hp hstep) (isOpen_of_mem hs) htotal

/-- A dispatch carries out the rule of its node and changes the tableau in no other way. -/
theorem dispatch_grafts (hok : dispatch key s = .ok r s') : s'.tableau = s.tableau ∨
    ∃ m, s.tableau.node? key = some m ∧
      Grafts key m.formula.decompose s.tableau s'.tableau := by
  rw [dispatch, bind_ok (tableau_ok s)] at hok
  split at hok
  · cases hok
    exact .inl rfl
  obtain ⟨m, s₁, hnode, hok⟩ := exists_of_bind_ok hok
  unfold node at hnode
  split at hnode
  · next hm =>
    cases hnode
    refine .inr ⟨m, hm, ?_⟩
    rw [bind_ok (emit_ok _ s)] at hok
    generalize hd : m.formula.decompose = d at hok
    cases d with
    | nothing =>
      cases hok
      exact .refl _
    | stack fs =>
      obtain ⟨_, s₁, htotal, hok⟩ := exists_of_bind_ok hok
      cases hok
      refine total_open_grafts (Q := fun p => p.isClosed = false) hs (realizes_stack key fs)
        (fun _ _ _ _ hworks _ hstep => ?_) (isOpen_of_mem hs) htotal
      obtain ⟨_, _, hstack, hrest⟩ := exists_of_bind_ok hstep
      cases hrest
      exact stack_grafts hworks (fun g hg => .part hg) (fun _ _ => Decomposition.noConfusion) hstack
    | split left lefts right rights =>
      obtain ⟨_, s₁, htotal, hok⟩ := exists_of_bind_ok hok
      cases hok
      exact total_open_grafts (Q := fun p => p.isClosed = false) hs
        (realizes_split key left lefts right rights)
        (fun _ _ _ _ hworks hp hstep => split_grafts hworks hp hstep) (isOpen_of_mem hs) htotal
    | witness x body => exact existential_grafts hs hok
    | instances x body => exact universal_grafts hs hok
    | replace a b => exact identity_grafts hs hok
    | unexpected => cases hok
  · cases hnode

theorem advance_grafts {exhausted : Bool} (hok : advance key s = .ok exhausted s') :
    s'.tableau = s.tableau ∨ ∃ m, s.tableau.node? key = some m ∧
      Grafts key m.formula.decompose s.tableau s'.tableau := by
  obtain ⟨r, s₁, hdispatch, hok⟩ := exists_of_bind_ok hok
  have hgrafts := dispatch_grafts hs hdispatch
  cases r with
  | constantsExhausted =>
    cases hok
    exact hgrafts
  | added n =>
    cases n with
    | zero =>
      cases hok
      exact hgrafts
    | succ n =>
      cases hok
      exact hgrafts

end Dispatch

end Expand

/-! ## The run -/

namespace Expansion

theorem Advances.grafts (h : Advances s s') (hs : s.Coherent) : s'.tableau = s.tableau ∨
    ∃ e rest m, s.agenda = e :: rest ∧ s.tableau.node? e.key = some m ∧
      Grafts e.key m.formula.decompose s.tableau s'.tableau := by
  obtain ⟨e, rest, ha, hadvance⟩ := h
  refine (Expand.advance_grafts (s := { s with agenda := rest }) ⟨hs.tree, hs.marked⟩
    hadvance).imp_right ?_
  rintro ⟨m, hm, hgrafts⟩
  exact ⟨e, rest, m, ha, hm, hgrafts⟩

theorem Runs.grown (h : Runs s s') (hs : s.Valid) : s.tableau.Grown s'.tableau := by
  induction h with
  | refl => exact .refl
  | tail hruns hadvances ih =>
    have hvalid := (Runs.steps hruns hs).valid hs
    rcases hadvances.grafts hvalid.toCoherent with hsame | ⟨e, rest, m, -, hm, hgrafts⟩
    · exact hsame ▸ ih
    · exact .dispatch ih hm hgrafts

end Expansion

/-- The run behind a tableau that was built. If the tableau is complete, every branch is closed or no
node waits. -/
theorem Context.exists_runs_of_buildTableau {c : Context} {f : Formula} {t : Tableau}
    (h : (c.buildTableau f).2 = .ok t) :
    ∃ s₀ s status, Begins s₀ f c.settings.requeueUniversals.value ∧ Runs s₀ s ∧
      t = { s.tableau with status := status } ∧
      (status = .complete → s.AllClosed ∨ s.agenda = []) := by
  obtain ⟨s₀, h₀, hrun⟩ := buildTableau_eq f c.settings.requeueUniversals.value
  obtain ⟨herror, hok⟩ := hrun c rfl _ rfl
  obtain ⟨s, hruns, hend⟩ := run_ends_runs h₀.valid 0 c.settings.tableauLimit.value
  have hs := (hruns.steps h₀.valid).valid h₀.valid
  generalize s₀.run 0 c.settings.tableauLimit.value = r at herror hok hend
  cases hr : r.outcome with
  | error cause =>
    rw [herror cause hr] at h
    cases h
  | ok status =>
    rw [hok status hr, Except.ok.injEq] at h
    obtain ⟨htableau, hcomplete⟩ : r.expansion.tableau = s.tableau ∧
        (status = .complete → s.AllClosed ∨ s.agenda = []) := by
      cases hend with
      | closed hclosed => exact ⟨rfl, fun _ => .inl ((allClosedBelow_iff hs.toCoherent).1 hclosed)⟩
      | finished hagenda => exact ⟨rfl, fun _ => .inr hagenda⟩
      | failed ha hL hm hd => cases hr
      | _ =>
        cases hr
        exact ⟨rfl, fun h => nomatch h⟩
    rw [htableau] at h
    exact ⟨s₀, s, status, h₀, hruns, h.symm, hcomplete⟩

/-- The run behind a tableau that was built: from the root alone, by steps and by dispatches. -/
theorem Context.exists_of_buildTableau {c : Context} {f : Formula} {t : Tableau}
    (h : (c.buildTableau f).2 = .ok t) :
    ∃ s₀ s status, Begins s₀ f c.settings.requeueUniversals.value ∧ Steps s₀ s ∧
      s₀.tableau.Grown s.tableau ∧ t = { s.tableau with status := status } := by
  obtain ⟨s₀, s, status, h₀, hruns, ht, -⟩ := exists_runs_of_buildTableau h
  exact ⟨s₀, s, status, h₀, hruns.steps h₀.valid, hruns.grown h₀.valid, ht⟩

end Sequitur
