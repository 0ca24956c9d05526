import Sequitur.Proofs.Tableau.Run

/-!
# From leaf to leaf

Every leaf after a step is below one leaf before it: below itself, with the branch it had, or below an
open leaf at which a rule was applied, and then its branch is one of those that the rule makes
(`Step.descends`). Conversely a rule leaves none of its branches out (`Step.reaches`). So a property
of branches that the rules hand down holds of every branch of a run, and here that is shown of being
made of sentences (`Steps.formed`).
-/

namespace Sequitur

open Tableau Expand Expansion

variable {s s' : Expansion} {p q : Path}

/-! ## Formulas on a branch -/

theorem Tableau.formula_mem_path {t : Tableau} {k l : Nat} {m : Node} (hk : k ∈ t.branch l)
    (hm : t.node? k = some m) : m.formula ∈ (t.path l).formulas := by
  rw [formulas_path]
  exact List.mem_map.2 ⟨(k, m.formula), mem_entries.2 ⟨hk, m, hm, rfl⟩, rfl⟩

theorem Tableau.exists_node_of_mem_path {t : Tableau} {l : Nat} {f : Formula}
    (h : f ∈ (t.path l).formulas) :
    ∃ k ∈ t.branch l, ∃ m, t.node? k = some m ∧ m.formula = f := by
  rw [formulas_path] at h
  obtain ⟨⟨k, g⟩, hg, rfl⟩ := List.mem_map.1 h
  exact ⟨k, mem_entries.1 hg⟩

theorem Tableau.mem_path_of_mem_closableOn {t : Tableau} {key l : Nat} {f : Formula}
    (h : f ∈ closableOn t key l) : f ∈ (t.path l).formulas := by
  rw [closableOn_eq] at h
  obtain ⟨e, he, rfl⟩ := List.mem_map.1 h
  rw [formulas_path]
  exact List.mem_map.2 ⟨e, (List.mem_filter.1 he).1, rfl⟩

theorem Tableau.formula_mem_closableOn {t : Tableau} {key k l : Nat} {m : Node}
    (hk : k ∈ t.branch l) (hne : k ≠ key) (hm : t.node? k = some m) (h : m.formula.isClosable) :
    m.formula ∈ closableOn t key l := by
  rw [closableOn_eq]
  have hentry : (k, m.formula) ∈ t.entries l := mem_entries.2 ⟨hk, m, hm, rfl⟩
  refine List.mem_map.2 ⟨(k, m.formula), List.mem_filter.2 ⟨hentry, ?_⟩, rfl⟩
  rw [Bool.and_eq_true, bne_iff_ne]
  exact ⟨hne, h⟩

/-! ## Leaves before and after -/

/-- Whether the rule for `f` can be applied to a branch, with `c` for a witness and `others` for an
identity to bear upon. -/
structure Path.Admits (p : Path) (f : Formula) (c : Char) (others : List Formula) : Prop where
  isOpen : p.isClosed = false
  mem : f ∈ p.formulas
  copied : ∀ g ∈ others, g ∈ p.formulas
  fresh : ∀ x body, f.decompose = .witness x body → isConstantSymbol c ∧ c ∉ p.constants

/-- The rules put only constants on record. -/
theorem Path.Admits.symbol {f : Formula} {c : Char} {others : List Formula} (ha : p.Admits f c others)
    (hp : ∀ e ∈ p.constants, isConstantSymbol e) (hq : q ∈ p.grow c others f.decompose) :
    ∀ e ∈ q.constants, isConstantSymbol e := by
  intro e he
  rcases mem_constants_of_mem_grow hq he with he | ⟨x, body, hd, rfl⟩ | ⟨x, body, -, rfl⟩
  · exact hp e he
  · exact (ha.fresh x body hd).1
  · exact isConstantSymbol_firstConstant

/-- The leaves after a rule was applied come from the leaves before, each in one of two ways. -/
theorem Expand.Applies.descends {key n : Nat} {d : Decomposition} {c : Char}
    (h : Applies s s' key d c n) (hs : s.Coherent) {l' : Nat} (hl' : s'.tableau.IsLeaf l') :
    ∃ l, s.tableau.IsLeaf l ∧ l ∈ s'.tableau.branch l' ∧
      ((l ∉ s.tableau.openLeavesBelow key ∧ l' = l ∧ s'.tableau.path l = s.tableau.path l) ∨
        (l ∈ s.tableau.openLeavesBelow key ∧
          s'.tableau.path l' ∈ (s.tableau.path l).grow c (closableOn s.tableau key l) d)) := by
  have hopen : ∀ l ∈ s.tableau.openLeavesBelow key, s.tableau.IsLeaf l := fun l hl =>
    ((mem_openLeavesBelow hs).1 hl).1
  have hroot : l' ∈ s'.tableau.leavesBelow root :=
    h.tableau.tree.mem_leavesBelow.2 ⟨hl', h.tableau.tree.root_mem_branch hl'.lt_size⟩
  rw [h.tableau.leavesBelow hs.tree hs.tree.size_pos fun l hl _ => hopen l hl] at hroot
  obtain ⟨l, hmem, hl'l⟩ := List.mem_flatMap.1 hroot
  have hl := (hs.tree.mem_leavesBelow.1 hmem).1
  refine ⟨l, hl, (h.tableau.tree.mem_leavesBelow.1 hl'l).2, ?_⟩
  by_cases hL : l ∈ s.tableau.openLeavesBelow key
  · exact .inr ⟨hL, h.paths l hL ▸ List.mem_map_of_mem hl'l⟩
  · rw [h.tableau.leavesBelow_of_not_mem hl hL] at hl'l
    exact .inl ⟨hL, List.mem_singleton.1 hl'l, h.tableau.path_of_not_mem hs.tree hl.lt_size hL⟩

/-- Every branch that the rule makes at an open leaf ends at a leaf below it. -/
theorem Expand.Applies.reaches {key n l : Nat} {d : Decomposition} {c : Char}
    (h : Applies s s' key d c n) (hl : l ∈ s.tableau.openLeavesBelow key)
    (hq : q ∈ (s.tableau.path l).grow c (closableOn s.tableau key l) d) :
    ∃ l', s'.tableau.IsLeaf l' ∧ l ∈ s'.tableau.branch l' ∧ s'.tableau.path l' = q := by
  obtain ⟨l', hmem, hp⟩ := List.mem_map.1 (h.paths l hl ▸ hq)
  obtain ⟨hl', hbranch⟩ := h.tableau.tree.mem_leavesBelow.1 hmem
  exact ⟨l', hl', hbranch, hp⟩

namespace Expansion

variable {e : Entry} {rest : Agenda} {m : Node} {c : Char}

theorem admits_of_mem {l : Nat} (hs : s.Coherent) (hm : s.tableau.node? e.key = some m)
    (hc : ∀ x body, m.formula.decompose = .witness x body → isConstantSymbol c ∧
      ∀ l ∈ s.tableau.openLeavesBelow e.key, c ∉ (s.tableau.path l).constants)
    (hl : l ∈ s.tableau.openLeavesBelow e.key) :
    (s.tableau.path l).Admits m.formula c (closableOn s.tableau e.key l) := by
  obtain ⟨-, hbranch, hopen⟩ := (mem_openLeavesBelow hs).1 hl
  refine ⟨hopen, formula_mem_path hbranch hm, fun g => mem_path_of_mem_closableOn, ?_⟩
  exact fun x body hd => ⟨(hc x body hd).1, (hc x body hd).2 l hl⟩

/-- Every leaf after a step has the branch of a leaf before it, or one that a rule makes of it. -/
theorem Step.descends (h : Step s s') (hs : s.Valid) {l' : Nat} (hl' : s'.tableau.IsLeaf l') :
    ∃ l, s.tableau.IsLeaf l ∧ (s'.tableau.path l' = s.tableau.path l ∨
      ∃ f c others, (s.tableau.path l).Admits f c others ∧
        s'.tableau.path l' ∈ (s.tableau.path l).grow c others f.decompose) := by
  cases h with
  | idle ha h => exact ⟨l', hl', .inl rfl⟩
  | @applied e rest m c n _ ha hne hm hd hc h =>
    obtain ⟨l, hl, -, ⟨-, rfl, hp⟩ | ⟨hL, hq⟩⟩ := h.descends ⟨hs.tree, hs.marked⟩ hl'
    · exact ⟨l', hl, .inl hp⟩
    · exact ⟨l, hl, .inr ⟨_, _, _, admits_of_mem hs.toCoherent hm hc hL, hq⟩⟩

/-- A leaf stays a leaf, or a rule is applied to its branch and all that it makes of it are branches.
-/
theorem Step.reaches (h : Step s s') (hs : s.Valid) {l : Nat} (hl : s.tableau.IsLeaf l) :
    (s'.tableau.IsLeaf l ∧ s'.tableau.path l = s.tableau.path l) ∨
      ∃ f c others, (s.tableau.path l).Admits f c others ∧
        ∀ q ∈ (s.tableau.path l).grow c others f.decompose,
          ∃ l', s'.tableau.IsLeaf l' ∧ s'.tableau.path l' = q := by
  cases h with
  | idle ha h => exact .inl ⟨hl, rfl⟩
  | @applied e rest m c n _ ha hne hm hd hc h =>
    by_cases hL : l ∈ s.tableau.openLeavesBelow e.key
    · refine .inr ⟨_, _, _, admits_of_mem hs.toCoherent hm hc hL, fun q hq => ?_⟩
      obtain ⟨l', hl', -, hp⟩ := h.reaches hL hq
      exact ⟨l', hl', hp⟩
    · exact .inl ⟨h.tableau.isLeaf_of_not_mem hl hL,
        h.tableau.path_of_not_mem hs.tree hl.lt_size hL⟩

/-- What the rules hand down from branch to branch holds of every branch after a step. -/
theorem Step.forall_path {P : Path → Prop} (hP : ∀ p f c others q, P p → p.Admits f c others →
    q ∈ p.grow c others f.decompose → P q) (h : Step s s') (hs : s.Valid)
    (h₀ : ∀ l, s.tableau.IsLeaf l → P (s.tableau.path l)) :
    ∀ l, s'.tableau.IsLeaf l → P (s'.tableau.path l) := by
  intro l' hl'
  obtain ⟨l, hl, hp | ⟨f, c, others, hadmits, hq⟩⟩ := h.descends hs hl'
  · exact hp ▸ h₀ l hl
  · exact hP _ f c others _ (h₀ l hl) hadmits hq

/-- What the rules hand down from branch to branch holds of every branch of a run. -/
theorem Steps.forall_path {P : Path → Prop} (hP : ∀ p f c others q, P p → p.Admits f c others →
    q ∈ p.grow c others f.decompose → P q) (h : Steps s s') (hs : s.Valid)
    (h₀ : ∀ l, s.tableau.IsLeaf l → P (s.tableau.path l)) :
    ∀ l, s'.tableau.IsLeaf l → P (s'.tableau.path l) := by
  induction h with
  | refl => exact h₀
  | tail hsteps hstep ih => exact hstep.forall_path hP (Steps.valid hsteps hs) ih

/-- The formula at the root is on every branch. -/
theorem Steps.mem_path {f : Formula} {requeues : Bool} (h : Steps s s')
    (h₀ : Begins s f requeues) :
    ∀ l, s'.tableau.IsLeaf l → f.unrooted ∈ (s'.tableau.path l).formulas := by
  refine h.forall_path (P := fun p => f.unrooted ∈ p.formulas) ?_ h₀.valid fun l hl => ?_
  · exact fun p g c others q hp _ hq => (Path.continues_of_mem_grow hq).formulas.subset hp
  · rw [h₀.eq_root hl.lt_size, h₀.path]
    exact List.mem_singleton_self _

end Expansion

/-! ## Branches of sentences -/

/-- An identity whose sides are terms of sentences is one of constants. -/
theorem Formula.identity_of_decompose_replace {f : Formula} {a b : Char}
    (hf : ∀ t u, f = .identity t u → t.IsTermIn ∅ ∧ u.IsTermIn ∅) (hd : f.decompose = .replace a b) :
    f = .identity (.const a) (.const b) ∧ isConstantSymbol a ∧ isConstantSymbol b := by
  obtain ⟨t, u, rfl, ht, hu⟩ := eq_of_decompose_replace hd
  obtain ⟨hst, hsu⟩ := hf t u rfl
  obtain ⟨a', rfl, hca⟩ := hst.exists_const
  obtain ⟨b', rfl, hcb⟩ := hsu.exists_const
  obtain rfl := Option.some.inj ht
  obtain rfl := Option.some.inj hu
  exact ⟨rfl, hca, hcb⟩

/-- What a replacement puts in by such an identity is a constant of it. -/
theorem Formula.replacement_mem {f g : Formula} {a b target replacement : Char}
    (hf : ∀ t u, f = .identity t u → t.IsTermIn ∅ ∧ u.IsTermIn ∅) (hd : f.decompose = .replace a b)
    (hr : replacement? a b g = some (target, replacement)) :
    replacement ∈ f.constants ∧ isConstantSymbol replacement := by
  obtain ⟨rfl, hca, hcb⟩ := identity_of_decompose_replace hf hd
  rcases (Path.replacement?_eq_some hr).2 with ⟨-, rfl⟩ | ⟨-, rfl⟩
  · exact ⟨by simp [mem_constants_iff], hcb⟩
  · exact ⟨by simp [mem_constants_iff], hca⟩

/-- Whether a branch is made of sentences, and its constants are those in use but perhaps for those of
which `K` holds. -/
structure Path.FormedBut (K : Char → Prop) (p : Path) : Prop where
  sentence : ∀ f ∈ p.formulas, f.Sentence
  covers : ∀ f ∈ p.formulas, ∀ c ∈ f.constants, c ∈ p.constants ∨ K c
  symbol : ∀ c ∈ p.constants, isConstantSymbol c

namespace Path.FormedBut

variable {K : Char → Prop}

/-- An identity of a branch is one of constants. -/
theorem identity (h : p.FormedBut K) {f : Formula} (hf : f ∈ p.formulas) {a b : Char}
    (hd : f.decompose = .replace a b) :
    f = .identity (.const a) (.const b) ∧ isConstantSymbol a ∧ isConstantSymbol b := by
  refine Formula.identity_of_decompose_replace (fun t u hid => ?_) hd
  subst hid
  exact h.sentence _ hf

section Grow

variable {f : Formula} {c : Char} {others : List Formula}

/-- What a rule brings is a sentence, and its constants are in use on the branch that it makes. -/
theorem brings (h : p.FormedBut K) (ha : p.Admits f c others) (hq : q ∈ p.grow c others f.decompose)
    {g : Formula} (hg : Brings q c others f.decompose g) :
    g.Sentence ∧ ∀ e ∈ g.constants, e ∈ q.constants ∨ K e := by
  have hf := h.sentence f ha.mem
  have hcovers : ∀ g ∈ p.formulas, ∀ e ∈ g.constants, e ∈ q.constants ∨ K e := fun g hg e he =>
    (h.covers g hg e he).imp_left ((continues_of_mem_grow hq).constants e)
  have hsymbol := ha.symbol h.symbol hq
  generalize hd : f.decompose = d at hg hq
  cases hg with
  | part hpart =>
    subst hd
    exact ⟨hf.parts hpart, fun e he => hcovers f ha.mem e (Formula.constants_parts hpart he)⟩
  | @witness x body hc =>
    obtain ⟨rfl, -⟩ := Formula.eq_of_decompose_witness hd
    have hbody : ∀ e ∈ body.constants, e ∈ q.constants ∨ K e := hcovers (.ex x body) ha.mem
    exact ⟨hf.instantiate (hsymbol c hc), Formula.forall_mem_constants_substitute hbody (.inl hc)⟩
  | @instantiated x e body he =>
    obtain ⟨rfl, -⟩ := Formula.eq_of_decompose_instances hd
    have hbody : ∀ e ∈ body.constants, e ∈ q.constants ∨ K e := hcovers (.all x body) ha.mem
    exact ⟨hf.instantiate (hsymbol e he), Formula.forall_mem_constants_substitute hbody (.inl he)⟩
  | @replaced a b target replacement g hmem hr =>
    have hg := ha.copied g hmem
    obtain ⟨hmem, hr⟩ := Formula.replacement_mem (fun t u hid => by subst hid; exact hf) hd hr
    exact ⟨(h.sentence g hg).replace target hr,
      Formula.forall_mem_constants_substitute (hcovers g hg) (hcovers f ha.mem _ hmem)⟩

theorem grow (h : p.FormedBut K) (ha : p.Admits f c others)
    (hq : q ∈ p.grow c others f.decompose) : q.FormedBut K := by
  refine ⟨fun g hg => ?_, fun g hg => ?_, ha.symbol h.symbol hq⟩
  · rcases mem_of_mem_grow hq hg with hg | hg
    · exact h.sentence g hg
    · exact (h.brings ha hq hg).1
  · rcases mem_of_mem_grow hq hg with hg | hg
    · exact fun e he => (h.covers g hg e he).imp_left ((continues_of_mem_grow hq).constants e)
    · exact (h.brings ha hq hg).2

end Grow

end Path.FormedBut

/-- Whether a branch is made of sentences, and its constants are those in use. -/
structure Path.Formed (p : Path) : Prop where
  sentence : ∀ f ∈ p.formulas, f.Sentence
  covers : ∀ f ∈ p.formulas, ∀ c ∈ f.constants, c ∈ p.constants
  symbol : ∀ c ∈ p.constants, isConstantSymbol c

namespace Path.Formed

theorem start {f : Formula} (hf : f.Sentence) : Path.Formed ⟨[f], f.constants⟩ where
  sentence := List.forall_mem_singleton.2 hf
  covers := List.forall_mem_singleton.2 fun _ => id
  symbol := fun _ => hf.isConstantSymbol

theorem formedBut_iff : p.FormedBut (fun _ => False) ↔ p.Formed := by
  constructor
  · exact fun h => ⟨h.sentence, fun f hf c hc => (h.covers f hf c hc).resolve_right id, h.symbol⟩
  · exact fun h => ⟨h.sentence, fun f hf c hc => .inl (h.covers f hf c hc), h.symbol⟩

theorem grow {f : Formula} {c : Char} {others : List Formula} (h : p.Formed)
    (ha : p.Admits f c others) (hq : q ∈ p.grow c others f.decompose) : q.Formed :=
  formedBut_iff.1 ((formedBut_iff.2 h).grow ha hq)

end Path.Formed

theorem Expansion.Steps.formed {f : Formula} {requeues : Bool} (h : Steps s s')
    (h₀ : Begins s f requeues) (hf : f.Sentence) :
    ∀ l, s'.tableau.IsLeaf l → (s'.tableau.path l).Formed := by
  refine h.forall_path (fun p f c others q hp ha hq => hp.grow ha hq) h₀.valid fun l hl => ?_
  rw [h₀.eq_root hl.lt_size, h₀.path]
  exact .start hf.unrooted

end Sequitur
