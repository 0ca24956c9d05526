import Sequitur.Proofs.Semantics.Likeness
import Sequitur.Proofs.Tableau.Descent

/-!
# Saturation

A branch meets a rule if it has what the rule calls for (`Path.Meets`). During an expansion every node
of an open branch waits on the agenda or has its rule met, and a rule that may have more to add lies
dormant until a constant comes in (`Expansion.Attends`). Nothing waits at the end, and so every open
branch of a finished expansion is saturated: it meets the rules of all its formulas
(`Steps.saturated`).

This holds if dormant nodes are woken, and also if the rules that may have more to add do not occur.
-/

namespace Sequitur

open Tableau Expand Expansion

/-! ## Branches that meet a rule -/

namespace Path

variable {p q : Path} {f g : Formula} {c : Char} {others : List Formula} {d : Decomposition}

/-- Whether a branch has what the rule calls for. -/
def Meets (p : Path) : Decomposition → Prop
  | .stack fs => ∀ g ∈ fs, p.contains g
  | .split left lefts right rights =>
    (∀ g ∈ left :: lefts, p.contains g) ∨ ∀ g ∈ right :: rights, p.contains g
  | .witness x body => ∃ c ∈ p.constants, p.contains (body.substitute x c .const)
  | .instances x body =>
    (∃ c, c ∈ p.constants) ∧ ∀ c ∈ p.constants, p.contains (body.substitute x c .const)
  | .nothing | .replace _ _ | .unexpected => True

/-- Whether a branch meets the rules of all its formulas. -/
def Saturated (p : Path) : Prop := ∀ f ∈ p.formulas, p.Meets f.decompose

/-- A longer branch meets the rule too, but for the instances with new constants. -/
theorem Meets.mono (h : p.Meets d) (hpq : p.Continues q)
    (hc : d.IsRepeatable → ∀ e ∈ q.constants, e ∈ p.constants) : q.Meets d := by
  cases d with
  | stack fs => exact fun g hg => hpq.contains (h g hg)
  | split left lefts right rights =>
    exact h.imp (fun h g hg => hpq.contains (h g hg)) fun h g hg => hpq.contains (h g hg)
  | witness x body =>
    obtain ⟨e, he, hbody⟩ := h
    exact ⟨e, hpq.constants e he, hpq.contains hbody⟩
  | instances x body =>
    obtain ⟨⟨e, he⟩, hbody⟩ := h
    exact ⟨⟨e, hpq.constants e he⟩, fun e' he' => hpq.contains (hbody e' (hc trivial e' he'))⟩
  | _ => exact trivial

theorem Formed.mem_constants_of_contains (hp : p.Formed) (hg : g.Lettered) (h : p.contains g)
    {e : Char} (he : e ∈ g.constants) : e ∈ p.constants := by
  obtain ⟨f, hf, hfg⟩ := contains_iff.1 h
  have hlettered := (hp.sentence f hf).lettered
  exact hp.covers f hf e ((Formula.mem_constants_of_structurallyEquals hlettered hg hfg e).2 he)

/-- An instance of a quantifier on the branch is there only with its constant. -/
theorem Formed.mem_constants_of_instance (hp : p.Formed) {k : Quantifier} {x e : Char}
    {body : Formula} (hf : (Formula.quantified k x body).Sentence) (hx : body.mentions x)
    (he : isConstantSymbol e) (h : p.contains (body.substitute x e .const)) : e ∈ p.constants :=
  hp.mem_constants_of_contains (hf.instantiate he).lettered h
    (Formula.mem_constants_substitute_self hx)

/-- A branch that a rule has made meets it. -/
theorem meets_of_mem_grow (hp : p.Formed) (ha : p.Admits f c others)
    (hq : q ∈ p.grow c others f.decompose) (hopen : ¬q.isClosed) : q.Meets f.decompose := by
  have hformed := hp.grow ha hq
  have hf := hp.sentence f ha.mem
  cases hd : f.decompose with
  | stack fs =>
    rw [hd] at hq
    obtain rfl := List.mem_singleton.1 hq
    exact fun g hg => contains_stack hopen hg
  | split left lefts right rights =>
    have hside : ∀ {g gs}, q = (p.push g).stack gs → ∀ e ∈ g :: gs, q.contains e := by
      rintro g gs rfl
      refine List.forall_mem_cons.2 ⟨?_, fun e he => contains_stack hopen he⟩
      exact (continues_stack gs (p.push g)).contains (contains_of_mem List.mem_cons_self)
    rw [hd] at hq
    rcases List.mem_cons.1 hq with hq | hq
    · exact .inl (hside hq)
    · exact .inr (hside (List.mem_singleton.1 hq))
  | witness x body =>
    rw [hd] at hq
    obtain rfl := List.mem_singleton.1 hq
    obtain ⟨rfl, hx⟩ := Formula.eq_of_decompose_witness hd
    have hbody := contains_witness p (body.substitute x c .const) c
    exact ⟨c, hformed.mem_constants_of_instance hf hx (ha.fresh x body hd).1 hbody, hbody⟩
  | instances x body =>
    rw [hd] at hq
    obtain rfl := List.mem_singleton.1 hq
    refine ⟨?_, fun e he => contains_instantiateEach hopen ?_⟩
    · rw [constants_instantiateEach]
      exact exists_mem_constants_seed p
    · rw [constants_instantiateEach] at he
      exact he
  | _ => exact trivial

/-- A rule brings in no constant without a formula. -/
theorem mem_constants_of_formulas_eq (hp : p.Formed) (ha : p.Admits f c others)
    (hq : q ∈ p.grow c others f.decompose) (hpq : q.formulas = p.formulas) {e : Char}
    (he : e ∈ q.constants) : e ∈ p.constants := by
  have hf := hp.sentence f ha.mem
  have hopen : ¬q.isClosed := by
    rw [isClosed, hpq]
    exact Bool.eq_false_iff.1 ha.isOpen
  have hcontains : ∀ {g}, q.contains g → p.contains g := by
    intro g hg
    rwa [contains, ← hpq]
  have hmeets := meets_of_mem_grow hp ha hq hopen
  rcases mem_constants_of_mem_grow hq he with he | ⟨x, body, hd, rfl⟩ | ⟨x, body, hd, rfl⟩
  · exact he
  · rw [hd] at hq
    obtain rfl := List.mem_singleton.1 hq
    obtain ⟨rfl, hx⟩ := Formula.eq_of_decompose_witness hd
    exact hp.mem_constants_of_instance hf hx (ha.fresh x body hd).1
      (hcontains (contains_witness p (body.substitute x e .const) e))
  · obtain ⟨rfl, hx⟩ := Formula.eq_of_decompose_instances hd
    rw [hd] at hmeets
    exact hp.mem_constants_of_instance hf hx isConstantSymbol_firstConstant
      (hcontains (hmeets.2 _ he))

end Path

/-! ## Nodes that wait and nodes that lie dormant -/

namespace Decomposition

variable {d : Decomposition} {requeues : Bool} {key k n : Nat} {dormant : List Nat}

theorem mem_rouse (h : k ∈ dormant) :
    k ∈ (d.rouse requeues key n dormant).1 ∨ k ∈ (d.rouse requeues key n dormant).2 := by
  rw [← List.mem_append]
  rcases d.rouse_append requeues key n dormant with he | ⟨-, he⟩
  · rwa [he]
  · rw [he]
    exact List.mem_append_left _ h

theorem IsRepeatable.not_isPropositional (hd : d.IsRepeatable) : ¬d.IsPropositional := by
  cases d with
  | instances x body => exact id
  | replace a b => exact id
  | _ => exact hd.elim

theorem key_mem_rouse (hd : d.IsRepeatable) (hr : requeues) :
    key ∈ (d.rouse requeues key n dormant).1 ∨ key ∈ (d.rouse requeues key n dormant).2 := by
  rw [rouse_of_isRepeatable hd, if_pos hr]
  grind

/-- Either no dormant node is woken or all are. -/
theorem rouse_eq_nil (d : Decomposition) (requeues : Bool) (key n : Nat) (dormant : List Nat) :
    (d.rouse requeues key n dormant).1 = [] ∨ (d.rouse requeues key n dormant).2 = [] := by
  by_cases hd : d.IsRepeatable
  · rw [rouse_of_isRepeatable hd]
    grind
  · cases d with
    | instances x body => exact absurd trivial hd
    | replace a b => exact absurd trivial hd
    | witness x body =>
      rw [rouse]
      grind
    | _ => exact .inl rfl

/-- A dormant node is woken whenever a rule for a quantifier or an identity adds a node. -/
theorem mem_rouse_of_pos (hd : ¬d.IsPropositional) (hu : d ≠ .unexpected) (hr : requeues)
    (hn : n ≠ 0) (h : k ∈ dormant) : k ∈ (d.rouse requeues key n dormant).1 := by
  cases d with
  | witness x body =>
    rw [rouse, if_pos ⟨Nat.pos_of_ne_zero hn, hr⟩]
    exact h
  | instances x body =>
    rw [rouse, if_pos hr, if_neg hn]
    exact List.mem_append_left _ h
  | replace a b =>
    rw [rouse, if_pos hr, if_neg hn]
    exact List.mem_append_left _ h
  | unexpected => exact absurd rfl hu
  | _ => exact absurd trivial hd

end Decomposition

/-- Without a new node a leaf is the old one. -/
theorem Expand.Applies.leaf_eq {s s' : Expansion} {key n l l' : Nat} {d : Decomposition} {c : Char}
    (h : Applies s s' key d c n) (ht : s.tableau.IsTree) (hl : s.tableau.IsLeaf l)
    (hl' : s'.tableau.IsLeaf l') (hll : l ∈ s'.tableau.branch l') (hn : n = 0) : l' = l := by
  have hsize : s'.tableau.size = s.tableau.size := by rw [h.size, hn, Nat.add_zero]
  rcases h.tableau.mem_branch_or_le ht hl hll (mem_branch_self hl'.lt_size) with hmem | hle
  · exact Nat.le_antisymm (ht.le_of_mem_branch hmem) (h.tableau.tree.le_of_mem_branch hll)
  · exact absurd hl'.lt_size (Nat.not_lt_of_le (hsize ▸ hle))

namespace Expansion

variable {s s' : Expansion} {f : Formula} {requeues : Bool}

/-- Whether the node `k` waits, or its formula has its rule met on the branch of `l` and lies dormant
if there may be more to add. -/
def Attended (s : Expansion) (l k : Nat) (f : Formula) : Prop :=
  k ∈ s.keys ∨ (s.tableau.path l).Meets f.decompose ∧ (f.decompose.IsRepeatable → k ∈ s.dormant)

/-- Whether every node of an open branch is attended to. -/
def Attends (s : Expansion) : Prop :=
  ∀ l, s.tableau.IsLeaf l → (s.tableau.path l).isClosed = false →
    ∀ k ∈ s.tableau.branch l, ∀ m, s.tableau.node? k = some m → s.Attended l k m.formula

/-- Whether dormant nodes are woken, or the rules on every branch are those for connectives. -/
def Wakeful (s : Expansion) : Prop :=
  s.requeues ∨ ∀ l, s.tableau.IsLeaf l → ∀ f ∈ (s.tableau.path l).formulas,
    f.decompose.IsPropositional

theorem Begins.attends (h : Begins s f requeues) : s.Attends := by
  intro l hl _ k hk m hm
  rw [h.eq_root (lt_size_of_node? hm), Attended, h.keys]
  exact .inl (List.mem_singleton_self _)

section Applied

variable {e : Entry} {rest : Agenda} {m : Node} {c : Char} {n l l' k : Nat}
  (h : Applies { s with agenda := rest } s' e.key m.formula.decompose c n)

include h

theorem mem_keys_of_applies (hk : k ∈ (m.formula.decompose.rouse s.requeues e.key n s.dormant).1 ∨
    k ∈ List.range' s.tableau.size n ∨ k ∈ rest.map (·.key)) : k ∈ s'.keys := by
  rw [h.keys.mem_iff, List.mem_append, List.mem_append]
  exact hk

theorem mem_keys_or_mem_dormant
    (hk : k ∈ (m.formula.decompose.rouse s.requeues e.key n s.dormant).1 ∨
      k ∈ (m.formula.decompose.rouse s.requeues e.key n s.dormant).2) :
    k ∈ s'.keys ∨ k ∈ s'.dormant :=
  hk.imp (fun hk => mem_keys_of_applies h (.inl hk)) fun hk => h.dormant ▸ hk

/-- What is not for the node that is dispatched stays attended to on a branch that stays. -/
theorem Attended.of_path_eq (hk : s.Attended l k f) (ha : s.agenda = e :: rest) (hne : k ≠ e.key)
    (hp : s'.tableau.path l = s.tableau.path l) : s'.Attended l k f := by
  rcases hk with hk | ⟨hmeets, hdormant⟩
  · rw [keys, ha, List.map_cons] at hk
    exact .inl (mem_keys_of_applies h (.inr (.inr (List.mem_of_ne_of_mem hne hk))))
  · by_cases hrep : f.decompose.IsRepeatable
    · refine (mem_keys_or_mem_dormant h (Decomposition.mem_rouse (hdormant hrep))).imp_right ?_
      exact fun hk => ⟨hp ▸ hmeets, fun _ => hk⟩
    · exact .inr ⟨hp ▸ hmeets, fun hrep' => absurd hrep' hrep⟩

variable (hformed : (s.tableau.path l).Formed) (hwake : s.Wakeful) (hl : s.tableau.IsLeaf l)
  (ha : (s.tableau.path l).Admits m.formula c (closableOn s.tableau e.key l))
  (hq : s'.tableau.path l' ∈
    (s.tableau.path l).grow c (closableOn s.tableau e.key l) m.formula.decompose)

include hl hformed hwake ha hq

/-- The rule for the node that is dispatched is met. -/
theorem attended_self (hopen : (s'.tableau.path l').isClosed = false) :
    s'.Attended l' e.key m.formula := by
  have hmeets := Path.meets_of_mem_grow hformed ha hq (Bool.eq_false_iff.1 hopen)
  by_cases hrep : m.formula.decompose.IsRepeatable
  · have hr : s.requeues := by
      refine hwake.resolve_right fun hall => ?_
      exact hrep.not_isPropositional (hall l hl _ ha.mem)
    exact (mem_keys_or_mem_dormant h (Decomposition.key_mem_rouse hrep hr)).imp_right
      fun hk => ⟨hmeets, fun _ => hk⟩
  · exact .inr ⟨hmeets, fun hrep' => absurd hrep' hrep⟩

variable (hs : s.Valid) (hl' : s'.tableau.IsLeaf l') (hll : l ∈ s'.tableau.branch l')

include hs hl' hll

/-- A rule that wakes no dormant node brings no constant to a branch. -/
theorem mem_constants_of_asleep (hk : k ∈ s.dormant)
    (hasleep : k ∉ (m.formula.decompose.rouse s.requeues e.key n s.dormant).1) :
    ∀ a ∈ (s'.tableau.path l').constants, a ∈ (s.tableau.path l).constants := by
  intro a hac
  rcases Path.mem_constants_of_mem_grow hq hac with hac' | hnew
  · exact hac'
  have hd : ¬m.formula.decompose.IsPropositional ∧ m.formula.decompose ≠ .unexpected := by
    rcases hnew with ⟨x, body, hd, -⟩ | ⟨x, body, hd, -⟩ <;> rw [hd] <;>
      exact ⟨id, Decomposition.noConfusion⟩
  have hr : s.requeues := hwake.resolve_right fun hall => hd.1 (hall l hl _ ha.mem)
  obtain rfl : n = 0 := by
    by_contra hn
    exact hasleep (Decomposition.mem_rouse_of_pos hd.1 hd.2 hr hn hk)
  obtain rfl := h.leaf_eq hs.tree hl hl' hll rfl
  exact Path.mem_constants_of_formulas_eq hformed ha hq (h.tableau.formulas hs.tree hl.lt_size) hac

/-- The other nodes stay attended to on a branch that the rule has made. -/
theorem Attended.of_mem_grow (hk : s.Attended l k f) (hagenda : s.agenda = e :: rest)
    (hne : k ≠ e.key) : s'.Attended l' k f := by
  have hcontinues := Path.continues_of_mem_grow hq
  rcases hk with hk | ⟨hmeets, hdormant⟩
  · rw [keys, hagenda, List.map_cons] at hk
    exact .inl (mem_keys_of_applies h (.inr (.inr (List.mem_of_ne_of_mem hne hk))))
  · by_cases hrep : f.decompose.IsRepeatable
    · have hk := hdormant hrep
      by_cases hwoken : k ∈ (m.formula.decompose.rouse s.requeues e.key n s.dormant).1
      · exact .inl (mem_keys_of_applies h (.inl hwoken))
      · have hconstants :=
          mem_constants_of_asleep h hformed hwake hl ha hq hs hl' hll hk hwoken
        have hasleep := (Decomposition.mem_rouse hk).resolve_left hwoken
        exact .inr ⟨hmeets.mono hcontinues fun _ => hconstants, fun _ => h.dormant ▸ hasleep⟩
    · exact .inr ⟨hmeets.mono hcontinues fun hrep' => absurd hrep' hrep,
        fun hrep' => absurd hrep' hrep⟩

end Applied

theorem Step.attends (h : Step s s') (hs : s.Valid)
    (hformed : ∀ l, s.tableau.IsLeaf l → (s.tableau.path l).Formed) (hwake : s.Wakeful)
    (hatt : s.Attends) : s'.Attends := by
  cases h with
  | @idle e rest trace ha h =>
    intro l hl hopen k hk m hm
    rcases hatt l hl hopen k hk m hm with hkey | hmet
    · rw [keys, ha, List.map_cons] at hkey
      rcases List.mem_cons.1 hkey with rfl | hkey
      · have hmem := (mem_openLeavesBelow hs.toCoherent).2 ⟨hl, hk, hopen⟩
        exact absurd (h ▸ hmem) List.not_mem_nil
      · exact .inl hkey
    · exact .inr hmet
  | @applied e rest m c n _ hagenda hne hm hd hc h =>
    intro l' hl' hopen' k hk m' hm'
    obtain ⟨l, hl, hll, hcase⟩ := h.descends ⟨hs.tree, hs.marked⟩ hl'
    rcases h.tableau.mem_branch_or_le hs.tree hl hll hk with hkl | hnew
    swap
    · have hlt := lt_size_of_node? hm'
      rw [h.size] at hlt
      exact .inl (mem_keys_of_applies h (.inr (.inl (List.mem_range'_1.2 ⟨hnew, hlt⟩))))
    -- The node is an old one, with the formula it had.
    obtain ⟨m₀, hm₀⟩ := hs.tree.exists_node_of_mem_branch hkl
    obtain ⟨m₁, hm₁, hstays, -⟩ := h.tableau.kept k m₀ hm₀
    obtain rfl : m₁ = m' := Option.some.inj (hm₁.symm.trans hm')
    have hformula : m₁.formula = m₀.formula := by rw [Node.formula, Node.formula, hstays.content]
    rw [hformula]
    rcases hcase with ⟨hL, rfl, hp⟩ | ⟨hL, hq⟩
    · have hopen : (s.tableau.path l').isClosed = false := hp ▸ hopen'
      refine (hatt l' hl hopen k hkl m₀ hm₀).of_path_eq h hagenda ?_ hp
      rintro rfl
      exact hL ((mem_openLeavesBelow hs.toCoherent).2 ⟨hl, hkl, hopen⟩)
    · have hadmits := admits_of_mem hs.toCoherent hm hc hL
      by_cases hkey : k = e.key
      · subst hkey
        obtain rfl : m₀ = m := Option.some.inj (hm₀.symm.trans hm)
        exact attended_self h (hformed l hl) hwake hl hadmits hq hopen'
      · exact (hatt l hl hadmits.isOpen k hkl m₀ hm₀).of_mem_grow h (hformed l hl) hwake hl hadmits hq
          hs hl' hll hagenda hkey

/-! ## Runs -/

theorem Step.requeues_eq (h : Step s s') : s'.requeues = s.requeues := by
  cases h with
  | idle ha h => rfl
  | applied ha hL hm hd hc h => exact h.requeues

theorem Steps.requeues_eq (h : Steps s s') : s'.requeues = s.requeues := by
  induction h with
  | refl => rfl
  | tail _ hstep ih => exact hstep.requeues_eq.trans ih

theorem Steps.attends (h : Steps s s') (h₀ : Begins s f requeues) (hf : f.Sentence)
    (hwake : ∀ s', Steps s s' → s'.Wakeful) : s'.Attends := by
  induction h with
  | refl => exact h₀.attends
  | tail hsteps hstep ih =>
    exact hstep.attends (Steps.valid hsteps h₀.valid) (Steps.formed hsteps h₀ hf)
      (hwake _ hsteps) ih

theorem Attends.saturated (h : s.Attends) (hagenda : s.agenda = []) {l : Nat}
    (hl : s.tableau.IsLeaf l) (hopen : (s.tableau.path l).isClosed = false) :
    (s.tableau.path l).Saturated := by
  intro f hf
  obtain ⟨k, hk, m, hm, rfl⟩ := exists_node_of_mem_path hf
  rcases h l hl hopen k hk m hm with hkey | ⟨hmeets, -⟩
  · rw [keys, hagenda] at hkey
    exact absurd hkey List.not_mem_nil
  · exact hmeets

/-- An open branch of a finished expansion is saturated. -/
theorem Steps.saturated (h : Steps s s') (h₀ : Begins s f requeues) (hf : f.Sentence)
    (hwake : ∀ s', Steps s s' → s'.Wakeful) (hagenda : s'.agenda = []) {l : Nat}
    (hl : s'.tableau.IsLeaf l) (hopen : (s'.tableau.path l).isClosed = false) :
    (s'.tableau.path l).Saturated :=
  (h.attends h₀ hf hwake).saturated hagenda hl hopen

end Expansion

end Sequitur
