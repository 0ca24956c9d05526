import Sequitur.Proofs.Tableau.Ancestry
import Sequitur.Proofs.Tableau.Errors
import Sequitur.Proofs.Tableau.Replacement

/-!
# The constants on record

Each node of a tableau has the constants of its branch on record, and the constant for an existential
is chosen by that record alone. The record is enough. In the tableau of a sentence, whatever letters
it is written in, each node has the constants of its formula on record and all those that the nodes
above it have (`Tableau.Stocked`): a child starts with the record of its parent, and later on only a
leaf is given a constant. So the constant for an existential is in no formula above the instance
(`Context.buildTableau_fresh`).
-/

namespace Sequitur

open Tableau Expansion

variable {t t' : Tableau} {L : List Nat} {k p source : Nat} {n n' above m : Node} {f g : Formula}

namespace Formula

/-! ## Sentences in any letters -/

/-- The formula with one letter in place of all. -/
def relettered : Formula → Formula
  | .atom _ => .atom 'A'
  | .predicate _ ps => .predicate 'A' ps
  | .not p => .not p.relettered
  | .binary op p q => .binary op p.relettered q.relettered
  | .quantified k x p => .quantified k x p.relettered
  | .root p => .root p.relettered
  | f => f

theorem terms_relettered (f : Formula) : f.relettered.terms = f.terms := by
  induction f with
  | predicate s ps _ => rw [relettered, terms_predicate, terms_predicate]
  | not p ih => exact ih
  | binary op p q hp hq => rw [relettered, terms_binary, terms_binary, hp, hq]
  | quantified k x p ih => exact ih
  | root p ih => exact ih
  | _ => rfl

theorem mentions_relettered (f : Formula) (c : Char) : f.relettered.mentions c = f.mentions c := by
  rw [mentions, mentions, terms_relettered]

theorem relettered_unrooted (f : Formula) : f.unrooted.relettered = f.relettered.unrooted := by
  induction f with
  | root p ih => exact ih
  | _ => rfl

theorem relettered_substitute (a b : Char) (k : TermKind) (f : Formula) :
    (f.substitute a b k).relettered = f.relettered.substitute a b k := by
  induction f with
  | predicate s ps _ => simp only [substitute_predicate, relettered]
  | not p ih => simp only [substitute, relettered, ih]
  | binary op p q hp hq => simp only [substitute, relettered, hp, hq]
  | quantified l x p ih => simp only [substitute, relettered, ih]
  | root p ih => simp only [substitute, relettered, ih]
  | term l s =>
    show (substitute a b k (.term l s)).relettered = substitute a b k (.term l s)
    unfold substitute
    split <;> rfl
  | _ => rfl

/-- The rules do not look at letters. -/
theorem Hereditary.relettered {P : Formula → Prop} (hP : Hereditary P) :
    Hereditary fun f => P f.relettered where
  not := hP.not
  root := hP.root
  binary := hP.binary
  quantified := hP.quantified

theorem sentence_relettered_parts (h : f.relettered.Sentence) (hg : g ∈ f.decompose.parts) :
    g.relettered.Sentence := by
  refine hereditary_sentence.relettered.parts h (fun k x p hf hx => ?_) hg
  subst hf
  refine Sentence.body h ?_
  rwa [mentions_relettered]

theorem sentence_relettered_instantiate {q : Quantifier} {x c : Char}
    (h : (quantified q x f).relettered.Sentence) (hc : isConstantSymbol c) :
    (f.substitute x c .const).relettered.Sentence := by
  rw [relettered_substitute]
  exact Sentence.instantiate h hc

theorem sentence_relettered_replace (h : f.relettered.Sentence) (a : Char) {b : Char}
    (hb : isConstantSymbol b) : (f.substitute a b .const).relettered.Sentence := by
  rw [relettered_substitute]
  exact h.replace a hb

/-- In a sentence constants and variables look different, so that what is no constant of it does not
occur in it at all. -/
theorem not_mentions_of_relettered {c : Char} (h : f.relettered.Sentence) (hc : isConstantSymbol c)
    (hf : c ∉ f.constants) : f.mentions c = false := by
  rw [Bool.eq_false_iff, Ne, mentions_iff]
  rintro ⟨k, hk⟩
  cases k with
  | const => exact hf (mem_constants_iff.2 hk)
  | var =>
    rw [← terms_relettered] at hk
    exact WellFormed.var_not_mem_terms h hc hk

theorem IsTermIn.isTerm {scope : Finset Char} (h : f.IsTermIn scope) : f.isTerm := by
  cases f with
  | term k s => rfl
  | _ => exact h.elim

theorem termsInPlace_of_relettered {scope : Finset Char} (h : f.relettered.WellFormed scope) :
    f.TermsInPlace := by
  induction f generalizing scope with
  | term k s => exact h.elim
  | predicate s ps _ => exact termsInPlace_iff.2 ⟨rfl, fun p hp => (h.2 p hp).isTerm⟩
  | identity p q _ _ =>
    refine termsInPlace_iff.2 ⟨rfl, ?_⟩
    exact List.forall_mem_cons.2 ⟨h.1.isTerm, List.forall_mem_singleton.2 h.2.isTerm⟩
  | not p ih => exact inherited_termsInPlace.not.2 (ih h)
  | binary op p q hp hq => exact inherited_termsInPlace.binary.2 ⟨hp h.1, hq h.2⟩
  | quantified k x p ih =>
    exact termsInPlace_of_forall_children rfl rfl (List.forall_mem_singleton.2 (ih h.2))
  | root p ih =>
    exact termsInPlace_of_forall_children rfl rfl (List.forall_mem_singleton.2 (ih h))
  | _ => exact termsInPlace_of_forall_children rfl rfl fun p hp => absurd hp List.not_mem_nil

end Formula

/-- Whether the record of a node is what it was, or the node is a leaf that was given a constant. -/
def Node.Stocks (n n' : Node) : Prop :=
  n'.constants = n.constants ∨
    n.isLeaf ∧ ∃ c, isConstantSymbol c ∧ n'.constants = n.constants.insert c

theorem Node.Stocks.subset (h : n.Stocks n') {c : Char} (hc : c ∈ n.constants) :
    c ∈ n'.constants := by
  rcases h with heq | ⟨-, d, -, heq⟩
  · rwa [heq]
  · rw [heq, Symbols.mem_insert]
    exact .inr hc

theorem Node.Stocks.symbol (h : n.Stocks n') (hn : ∀ c ∈ n.constants, isConstantSymbol c) {c : Char}
    (hc : c ∈ n'.constants) : isConstantSymbol c := by
  rcases h with heq | ⟨-, d, hd, heq⟩
  · exact hn c (heq ▸ hc)
  · rw [heq, Symbols.mem_insert] at hc
    rcases hc with rfl | hc
    · exact hd
    · exact hn c hc

namespace Tableau

/-! ## Records -/

/-- What holds of a node of the tableau of a sentence. -/
structure StockedAt (t : Tableau) (k : Nat) (n : Node) : Prop where
  sentence : n.formula.relettered.Sentence
  symbol : ∀ c ∈ n.constants, isConstantSymbol c
  own : ∀ c ∈ n.formula.constants, c ∈ n.constants
  inherited : ∀ j ∈ t.branch k, ∀ a, t.node? j = some a → ∀ c ∈ a.constants, c ∈ n.constants

/-- Whether the tableau is a tree of sentences in which each node has all constants on record that its
formula has or a node above has on record. -/
structure Stocked (t : Tableau) : Prop where
  tree : t.IsTree
  node : ∀ k n, t.node? k = some n → t.StockedAt k n

theorem StockedAt.of_extends (h : t.StockedAt k n) (hext : t.Extends t' L) (ht : t.IsTree)
    (hn : t.node? k = some n) (hn' : t'.node? k = some n')
    (hstocks : ∀ j a a', t.node? j = some a → t'.node? j = some a' → a.Stocks a') :
    t'.StockedAt k n' := by
  have hself := hstocks k n n' hn hn'
  have hformula := hext.formula_eq hn hn'
  refine ⟨?_, fun c => hself.symbol h.symbol, fun c hc => ?_, fun j hj a' ha' c hc => ?_⟩
  · rw [hformula]
    exact h.sentence
  · rw [hformula] at hc
    exact hself.subset (h.own c hc)
  · rw [hext.branch (lt_size_of_node? hn)] at hj
    obtain ⟨a, ha⟩ := ht.exists_node_of_mem_branch hj
    rcases hstocks j a a' ha ha' with heq | ⟨hleaf, -⟩
    · exact hself.subset (h.inherited j hj a ha c (heq ▸ hc))
    · -- A leaf is above no other node.
      obtain rfl := ht.eq_of_mem_branch_leaf ⟨a, ha, hleaf⟩ hj
      rw [hn', Option.some.injEq] at ha'
      rwa [ha']

theorem Stocked.of_extends (h : t.Stocked) (hext : t.Extends t' L)
    (hstocks : ∀ j a a', t.node? j = some a → t'.node? j = some a' → a.Stocks a')
    (hnew : ∀ k n, t.size ≤ k → t'.node? k = some n → t'.StockedAt k n) : t'.Stocked := by
  refine ⟨hext.tree, fun k n' hn' => ?_⟩
  by_cases hk : k < t.size
  · obtain ⟨n, hn⟩ := node?_eq_some_of_lt hk
    exact (h.node k n hn).of_extends hext h.tree hn hn' hstocks
  · exact hnew k n' (Nat.le_of_not_lt hk) hn'

theorem Stocked.of_nodes (h : t.Stocked) (hnodes : t'.nodes = t.nodes) : t'.Stocked := by
  refine h.of_extends (.of_nodes h.tree hnodes) (fun j a a' ha ha' => ?_) fun k n hk hn => ?_
  · rw [node?_of_nodes hnodes, ha, Option.some.injEq] at ha'
    exact .inl (ha' ▸ rfl)
  · rw [node?_of_nodes hnodes] at hn
    have := lt_size_of_node? hn
    omega

/-- A node is changed in what is not its place. -/
theorem Stocked.modify {key : Nat} {e : Node → Node} {he : ∀ n, (e n).children = n.children}
    (h : t.Stocked) (hstays : ∀ n : Node, n.Stays (e n))
    (hstocks : ∀ n, t.node? key = some n → n.Stocks (e n)) : (t.modify key e he).Stocked := by
  refine h.of_extends (extends_modify h.tree hstays) (fun j a a' ha ha' => ?_) fun k n hk hn => ?_
  · obtain ⟨b, hb, rfl⟩ := node?_modify_eq_some.1 ha'
    rw [ha, Option.some.injEq] at hb
    subst hb
    split
    · next hkey => exact hstocks a (hkey ▸ ha)
    · exact .inl rfl
  · have := lt_size_of_node? hn
    rw [size_modify] at this
    omega

/-! ## New nodes -/

/-- A child is added that has all constants on record that its parent has and its formula has. -/
theorem Stocked.grow (h : t.Stocked) (hp : t.node? p = some above) (hext : t.Extends t' L)
    (hsize : t'.size = t.size + 1)
    (hconst : ∀ j a a', t.node? j = some a → t'.node? j = some a' → a'.constants = a.constants)
    (hn : t'.node? t.size = some n) (hancestors : n.ancestors = p :: above.ancestors)
    (hsub : ∀ c ∈ above.constants, c ∈ n.constants) (hsymbol : ∀ c ∈ n.constants, isConstantSymbol c)
    (hsentence : n.formula.relettered.Sentence) (hown : ∀ c ∈ n.formula.constants, c ∈ n.constants) :
    t'.Stocked := by
  refine h.of_extends hext (fun j a a' ha ha' => .inl (hconst j a a' ha ha')) fun k n' hk hn' => ?_
  have hlt := lt_size_of_node? hn'
  obtain rfl : k = t.size := by omega
  obtain rfl : n = n' := Option.some.inj (hn.symm.trans hn')
  refine ⟨hsentence, hsymbol, hown, fun j hj a' ha' c hc => ?_⟩
  rw [branch_of_node? hn, hancestors, ← branch_of_node? hp, List.mem_cons] at hj
  rcases hj with rfl | hj
  · rw [hn, Option.some.injEq] at ha'
    rwa [ha']
  · obtain ⟨a, ha⟩ := h.tree.exists_node_of_mem_branch hj
    rw [hconst j a a' ha ha'] at hc
    exact hsub c ((h.node p above hp).inherited j hj a ha c hc)

theorem constants_placed {origin : Option Nat} {side : Side} {j : Nat} {a a' : Node}
    (ht : t.IsTree) (hp : t.node? p = some above) (ho : obstacle? above side = none)
    (ha : t.node? j = some a) (ha' : (t.placed p above f origin side).node? j = some a') :
    a'.constants = a.constants := by
  rcases rests_or_attach_placed ht hp ho ha ha' with hrests | ⟨rfl, rfl⟩
  · exact hrests.constants
  · cases side <;> rfl

theorem Stocked.placed {origin : Option Nat} {side : Side} (h : t.Stocked)
    (hp : t.node? p = some above) (ho : obstacle? above side = none) (hf : f.relettered.Sentence)
    (hown : ∀ c ∈ f.constants, c ∈ above.constants) :
    (t.placed p above f origin side).Stocked := by
  refine h.grow hp (extends_placed h.tree hp ho) size_placed
    (fun j a a' => constants_placed h.tree hp ho) (node?_placed_size h.tree hp ho) rfl
    (fun _ => id) ?_ hf hown
  exact (h.node p above hp).symbol

/-- A child is added with a constant of its own. -/
theorem Stocked.placed_addConstant {origin : Option Nat} {side : Side} {c : Char} (h : t.Stocked)
    (hp : t.node? p = some above) (ho : obstacle? above side = none) (hf : f.relettered.Sentence)
    (hc : isConstantSymbol c) (hown : ∀ d ∈ f.constants, d ∈ above.constants ∨ d = c) :
    ((t.placed p above f origin side).addConstant t.size c).Stocked := by
  have hplaced : t.Extends (t.placed p above f origin side) [p] := extends_placed h.tree hp ho
  have hext : t.Extends ((t.placed p above f origin side).addConstant t.size c) [p] :=
    hplaced.modify (fun _ => rfl) fun hlt => absurd hlt (Nat.lt_irrefl _)
  have hn : ((t.placed p above f origin side).addConstant t.size c).node? t.size = some _ :=
    node?_modify_eq_some.2 ⟨_, node?_placed_size h.tree hp ho, (if_pos rfl).symm⟩
  refine h.grow hp hext ?_ ?_ hn rfl ?_ ?_ hf ?_
  · exact (size_modify _).trans size_placed
  · intro j a a' ha ha'
    obtain ⟨b, hb, rfl⟩ := node?_modify_eq_some.1 ha'
    rw [if_neg (Nat.ne_of_gt (lt_size_of_node? ha))]
    exact constants_placed h.tree hp ho ha hb
  · exact fun d hd => Symbols.mem_insert.2 (.inr hd)
  · intro d hd
    rcases Symbols.mem_insert.1 hd with rfl | hd
    · exact hc
    · exact (h.node p above hp).symbol d hd
  · exact fun d hd => Symbols.mem_insert.2 (hown d hd).symm

/-! ## A whole dispatch -/

variable {d : Decomposition}

/-- What a node has on record are the constants of all formulas of its branch. -/
theorem Stocked.mem_constants {j : Nat} {a : Node} (h : t.Stocked) (hn : t.node? k = some n)
    (hj : j ∈ t.branch k) (ha : t.node? j = some a) {c : Char} (hc : c ∈ a.formula.constants) :
    c ∈ n.constants :=
  (h.node k n hn).inherited j hj a ha c ((h.node j a ha).own c hc)

/-- What a rule grants is a sentence, and its constants are on record but for that of a witness. -/
theorem Stocked.granted (h : t.Stocked) (hp : t.node? p = some above)
    (hbelow : source ∈ t.branch p) (hm : t.node? source = some m)
    (hf : t.Grants source (t.branch p) above.constants m.formula.decompose f)
    (hd : ∀ x body, m.formula.decompose ≠ .witness x body) :
    f.relettered.Sentence ∧ ∀ c ∈ f.constants, c ∈ above.constants := by
  have hsentence := (h.node source m hm).sentence
  have hrecord : ∀ c ∈ m.formula.constants, c ∈ above.constants := fun c =>
    h.mem_constants hp hbelow hm
  generalize hrule : m.formula.decompose = rule at hf
  cases hf with
  | part hpart =>
    subst hrule
    refine ⟨Formula.sentence_relettered_parts hsentence hpart, fun c hc => ?_⟩
    exact hrecord c (Formula.constants_parts hpart hc)
  | witness hc hnew => exact absurd hrule (hd _ _)
  | instantiated hc =>
    obtain ⟨hall, -⟩ := Formula.eq_of_decompose_instances hrule
    rw [hall] at hsentence hrecord
    have hsymbol := (h.node p above hp).symbol _ hc
    exact ⟨Formula.sentence_relettered_instantiate hsentence hsymbol,
      Formula.forall_mem_constants_substitute hrecord hc⟩
  | @replaced a b target replacement j copied hj hne hcopied hclosable hr hproper =>
    have hsides : ∀ u v, m.formula = .identity u v → u.IsTermIn ∅ ∧ v.IsTermIn ∅ := by
      intro u v hid
      rw [hid] at hsentence
      exact hsentence
    obtain ⟨hmem, hsymbol⟩ := Formula.replacement_mem hsides hrule hr
    refine ⟨Formula.sentence_relettered_replace (h.node j copied hcopied).sentence target hsymbol, ?_⟩
    exact Formula.forall_mem_constants_substitute (fun c => h.mem_constants hp hj hcopied)
      (hrecord _ hmem)

/-- While a rule is carried out every node keeps its constants on record. -/
theorem Grafts.stocked (h : Grafts source d t t') (ht : t.Stocked) (hm : t.node? source = some m)
    (hd : m.formula.decompose = d) : t'.Stocked := by
  induction h generalizing m with
  | refl t => exact ht
  | trans h h' ih ih' =>
    obtain ⟨m', hm', hf⟩ := h.exists_node ht.tree hm
    exact ih' (ih ht hm hd) hm' (hf ▸ hd)
  | place hp hf _ hplain =>
    obtain ⟨hsentence, hown⟩ := ht.granted hp.node hp.below hm (hd ▸ hf) (hd ▸ hplain)
    exact ht.placed hp.node (Expand.obstacle?_of_isLeaf hp.leaf _) hsentence hown
  | @witness t p above x c body hp hd' hc hfresh _ =>
    obtain ⟨hex, -⟩ := Formula.eq_of_decompose_witness (hd.trans hd')
    have hsentence := (ht.node source m hm).sentence
    have hrecord : ∀ e ∈ m.formula.constants, e ∈ above.constants := fun e =>
      ht.mem_constants hp.node hp.below hm
    rw [hex] at hsentence hrecord
    refine ht.placed_addConstant hp.node (Expand.obstacle?_of_isLeaf hp.leaf .center)
      (Formula.sentence_relettered_instantiate hsentence hc) hc ?_
    exact Formula.forall_mem_constants_substitute (fun e he => .inl (hrecord e he)) (.inr rfl)
  | @split t t' p above above' left right lefts rights hp hd' hleft hp' hstays hrests ih =>
    have hplain : ∀ x body, d ≠ .witness x body := by
      subst hd'
      exact fun _ _ => Decomposition.noConfusion
    have hfree := Expand.obstacle?_of_isLeaf hp.leaf .left
    obtain ⟨hsentence, hown⟩ := ht.granted hp.node hp.below hm
      (f := left) (.part (by rw [hd, hd']; exact List.mem_append_left _ List.mem_cons_self))
      (hd ▸ hplain)
    have hplaced : (t.placed p above left (some source) .left).Stocked :=
      ht.placed hp.node hfree hsentence hown
    obtain ⟨m₁, m₂, hm₁, hf₁, hm₂, hf₂, hbelow⟩ := hp.exists_origin ht.tree hm hleft hp' hstays
    have hinner := ih hplaced hm₁ (hf₁ ▸ hd)
    have hd₂ : m₂.formula.decompose = d := by rw [hf₂, hd]
    obtain ⟨hsentence', hown'⟩ := hinner.granted hp' hbelow hm₂
      (f := right) (.part (by rw [hd₂, hd']; exact List.mem_append_right _ List.mem_cons_self))
      (hd₂ ▸ hplain)
    exact hinner.placed hp' (hp.obstacle?_right hrests) hsentence' hown'
  | @seed t p n hp hleaf hempty =>
    refine ht.modify (fun _ => ⟨rfl, rfl, rfl, rfl, rfl⟩) fun n' hn' => .inr ?_
    rw [hp, Option.some.injEq] at hn'
    subst hn'
    exact ⟨hleaf, firstConstant, isConstantSymbol_firstConstant, rfl⟩
  | record a b => exact ht.modify (fun _ => ⟨rfl, rfl, rfl, rfl, rfl⟩) fun _ _ => .inl rfl
  | skip => exact ht.of_nodes rfl

theorem Grown.stocked (h : t.Grown t') (ht : t.Stocked) : t'.Stocked := by
  induction h with
  | refl => exact ht
  | dispatch _ hm hg ih => exact hg.stocked ih hm rfl

/-- However a tableau grows its nodes stay. -/
theorem Grown.extends (h : t.Grown t') (ht : t.IsTree) : ∃ L, t.Extends t' L := by
  induction h with
  | refl => exact ⟨[], .refl ht []⟩
  | dispatch _ _ hg ih =>
    obtain ⟨L, hL⟩ := ih
    obtain ⟨M, hM⟩ := hg.extends hL.tree
    refine ⟨L ++ M, (hL.mono fun k hk => List.mem_append_left M hk).trans hM fun k hk _ => ?_⟩
    exact List.mem_append_right L hk

theorem stocked_start (h : f.relettered.Sentence) : ((start f).checked root).Stocked := by
  have htree : ((start f).checked root).IsTree := (isTree_start f).checked
  refine ⟨htree, fun k n hn => ?_⟩
  have hk := lt_size_of_node? hn
  rw [size_checked] at hk
  obtain rfl : k = root := Nat.lt_one_iff.1 hk
  have hroot : (start f).node? root = some (.new 0 f.unrooted [] none f.unrooted.constants) := rfl
  have hself := hn
  rw [node?_checked_self hroot rfl, Option.some.injEq] at hn
  have hsentence : f.unrooted.relettered.Sentence := by
    rw [Formula.relettered_unrooted]
    exact h.unrooted
  have hsymbol : ∀ c ∈ f.unrooted.constants, isConstantSymbol c := by
    intro c hc
    rw [Formula.mem_constants_iff, ← Formula.terms_relettered, ← Formula.mem_constants_iff] at hc
    exact Formula.WellFormed.isConstantSymbol hsentence hc
  refine ⟨?_, ?_, ?_, fun j hj a ha c hc => ?_⟩
  · rw [← hn]
    exact hsentence
  · rw [← hn]
    exact hsymbol
  · rw [← hn]
    exact fun c hc => hc
  · rw [htree.root, List.mem_singleton] at hj
    rw [hj, hself, Option.some.injEq] at ha
    rwa [ha]

end Tableau

/-! ## The tableau of a sentence -/

/-- Whether the constant is new where the node stands: its parent does not have it on record, and no
formula above has it. -/
structure Tableau.IsNewAt (t : Tableau) (n : Node) (c : Char) : Prop where
  parent : ∃ p above, n.parent = some p ∧ t.node? p = some above ∧ c ∉ above.constants
  above : ∀ j ∈ n.ancestors, ∃ a, t.node? j = some a ∧ a.formula.mentions c = false

/-- What is not on record is new. -/
theorem Tableau.Stocked.isNewAt {i : Nat} {c : Char} (h : t.Stocked)
    (hj : t.Justifies k n p above i m) (hc : isConstantSymbol c) (hnew : c ∉ above.constants) :
    t.IsNewAt n c := by
  refine ⟨⟨p, above, ?_, hj.parent, hnew⟩, fun j hmem => ?_⟩
  · rw [Node.parent, hj.ancestors, List.head?_cons]
  · rw [hj.ancestors, ← branch_of_node? hj.parent] at hmem
    obtain ⟨a, ha⟩ := h.tree.exists_node_of_mem_branch hmem
    refine ⟨a, ha, Formula.not_mentions_of_relettered (h.node j a ha).sentence hc fun hca => ?_⟩
    exact hnew (h.mem_constants hj.parent hmem ha hca)

namespace Context

variable {ctx : Context} {w : Formula}

theorem stocked_of_buildTableau (h : (ctx.buildTableau w).2 = .ok t) (hw : w.relettered.Sentence) :
    t.Stocked := by
  obtain ⟨s₀, s, status, h₀, -, hgrown, rfl⟩ := exists_of_buildTableau h
  have hstart : s₀.tableau.Stocked := h₀.tableau ▸ stocked_start hw
  exact (hgrown.stocked hstart).of_nodes rfl

/-- The root comes from no node. -/
theorem source_root_of_buildTableau (h : (ctx.buildTableau w).2 = .ok t)
    (hn : t.node? root = some n) : n.source = none := by
  obtain ⟨s₀, s, status, h₀, -, hgrown, rfl⟩ := exists_of_buildTableau h
  have htree : s₀.tableau.IsTree := h₀.tableau ▸ (isTree_start w).checked
  obtain ⟨L, hext⟩ := hgrown.extends htree
  have hroot : (start w).node? root = some (.new 0 w.unrooted [] none w.unrooted.constants) := rfl
  have hstart := node?_checked_self hroot rfl
  rw [← h₀.tableau] at hstart
  obtain ⟨n', hn', hstays, -⟩ := hext.kept root _ hstart
  obtain rfl : n = n' := Option.some.inj (hn.symm.trans hn')
  exact hstays.source

/-- What comes from an existential that is not vacuous is an instance with a new constant. -/
theorem exists_isNewAt_of_buildTableau {i : Nat} {x : Char} {body : Formula}
    (h : (ctx.buildTableau w).2 = .ok t) (hw : w.relettered.Sentence) (hn : t.node? k = some n)
    (hsource : n.source = some i) (hm : t.node? i = some m) (hex : m.formula = .ex x body)
    (hx : body.mentions x) :
    ∃ c, isConstantSymbol c ∧ n.formula = body.substitute x c .const ∧ t.IsNewAt n c := by
  have hk : k ≠ root := by
    rintro rfl
    rw [source_root_of_buildTableau h hn] at hsource
    cases hsource
  obtain ⟨p, above, i', m', hj, -⟩ := ((accounted_of_buildTableau h).node k n hn).justified hk
  obtain rfl : i = i' := Option.some.inj (hsource.symm.trans hj.source)
  obtain rfl : m = m' := Option.some.inj (hm.symm.trans hj.origin)
  have hgrants := hj.grants
  rw [hex, Formula.decompose_of_mentions hx] at hgrants
  generalize hf : n.formula = f at hgrants
  cases hgrants with
  | part hpart => exact absurd hpart List.not_mem_nil
  | witness hc hnew =>
    exact ⟨_, hc, rfl, (stocked_of_buildTableau h hw).isNewAt hj hc hnew⟩

/-- The tableau of a sentence, in whatever letters: each node has the constants of its formula and all
that its parent has on record, and what comes from an existential that is not vacuous is an instance
with a constant that is new there. -/
theorem buildTableau_fresh (ctx : Context) (w : Formula) (hw : w.relettered.Sentence) :
    ∃ t, (ctx.buildTableau w).2 = .ok t ∧ ∀ k n, t.node? k = some n →
      (∀ c ∈ n.formula.constants, c ∈ n.constants) ∧
      (∀ p, n.parent = some p →
        ∃ above, t.node? p = some above ∧ ∀ c ∈ above.constants, c ∈ n.constants) ∧
      ∀ i m x body, n.source = some i → t.node? i = some m → m.formula = .ex x body →
        body.mentions x →
        ∃ c, isConstantSymbol c ∧ n.formula = body.substitute x c .const ∧ t.IsNewAt n c := by
  obtain ⟨report, hreport⟩ :=
    exists_of_termsInPlace ctx.reset (Formula.termsInPlace_of_relettered hw)
  obtain ⟨t, ht⟩ : ∃ t, (ctx.buildTableau w).2 = .ok t := by
    rw [buildTableau_snd, hreport]
    exact ⟨_, rfl⟩
  have hstocked := stocked_of_buildTableau ht hw
  refine ⟨t, ht, fun k n hn => ⟨(hstocked.node k n hn).own, fun p hp => ?_, ?_⟩⟩
  · have hmem : p ∈ t.branch k := by
      rw [branch_of_node? hn]
      exact List.mem_cons_of_mem k (List.mem_of_head? hp)
    obtain ⟨above, habove⟩ := hstocked.tree.exists_node_of_mem_branch hmem
    exact ⟨above, habove, (hstocked.node k n hn).inherited p hmem above habove⟩
  · intro i m x body hsource hm hex hx
    exact exists_isNewAt_of_buildTableau ht hw hn hsource hm hex hx

/-- In the tableau of `a = c ∧ (∃x)λxa` the existential gives `λba`. -/
theorem buildTableau_fresh_between :
    let w : Formula := .and (.identity (.const 'a') (.const 'c'))
      (.ex 'x' (.predicate 'λ' [.var 'x', .const 'a']))
    w.relettered.Sentence ∧ ∃ t n, (({} : Context).buildTableau w).2 = .ok t ∧
      t.node? 3 = some n ∧ n.formula = .predicate 'λ' [.const 'b', .const 'a'] ∧
      'b' ∈ n.constants ∧ t.IsNewAt n 'b' := by
  intro w
  have hw : w.relettered.Sentence := by decide
  obtain ⟨t, hok, hnodes⟩ := ({} : Context).buildTableau_fresh w hw
  obtain ⟨t', hok', hread, hread'⟩ := exists_of_any_buildTableau (c := {}) (w := w)
    (P := fun t => (t.node? 3).map (fun n => (n.formula, n.source)) =
        some (.predicate 'λ' [.const 'b', .const 'a'], some 2) ∧
      (t.node? 2).map (·.formula) = some (.ex 'x' (.predicate 'λ' [.var 'x', .const 'a'])))
    (by decide +kernel)
  obtain rfl : t = t' := Except.ok.inj (hok.symm.trans hok')
  obtain ⟨n, hn, hdata⟩ := Option.map_eq_some_iff.1 hread
  obtain ⟨hformula, hsource⟩ := Prod.mk.inj hdata
  obtain ⟨m, hm, hex⟩ := Option.map_eq_some_iff.1 hread'
  obtain ⟨hown, -, hwitness⟩ := hnodes 3 n hn
  obtain ⟨c, -, hinstance, hnew⟩ := hwitness 2 m 'x' _ hsource hm hex (by decide)
  obtain rfl : 'b' = c := by
    simpa [hformula, Formula.substitute, Formula.substituteAll, Formula.const, Formula.var]
      using hinstance
  refine ⟨hw, t, n, hok, hn, hformula, hown 'b' ?_, hnew⟩
  rw [hformula]
  decide

end Context

end Sequitur
