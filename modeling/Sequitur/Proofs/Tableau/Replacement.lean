import Sequitur.Proofs.Tableau.Ancestry
import Sequitur.Proofs.Tableau.Saturation

/-!
# Replacement by identities

An identity that finds nothing to add to the branches below it lies dormant, and of the rules that
bring in literals later only those for quantifiers and identities wake it. Most rules for connectives
come before the identities on the agenda and so have brought their literals in by then. The others are
tardy (`Formula.isTardy`): an exclusive disjunction has the precedence of an identity and comes before
only those that are younger, and a vacuous universal comes after all identities. What connectives make
of the formulas that these give is belated for the identity (`Tableau.Belated`).

On an open branch of a complete tableau every identity has been applied to all literals that are not
belated for it (`Context.buildTableau_replaced`), and to those above it in particular. A belated
literal can be missed (`Context.exclusion_escapes_identity`).
-/

namespace Sequitur

open Tableau Expand Expansion

/-! ## Rules that come no sooner than an identity -/

namespace Formula

/-- The place of the identities in the order of the agenda. Only the universals come after it. -/
def identityPrecedence : Nat := 12

/-- Whether the formula has the rule of a connective and still comes no sooner than an identity. -/
def isTardy : Formula → Bool
  | .xor _ _ | .root _ => true
  | .all x p => !p.mentions x
  | _ => false

variable {f : Formula}

theorem precedence_not_lt (p : Formula) : (Formula.not p).precedence < identityPrecedence := by
  unfold precedence identityPrecedence
  split <;> simp_all

theorem precedence_lt_of_not_isTardy (hd : f.decompose.IsPropositional) (hn : f.decompose ≠ .nothing)
    (ht : ¬f.isTardy) : f.precedence < identityPrecedence := by
  cases f with
  | not p => exact precedence_not_lt p
  | binary op p q =>
    cases op with
    | xor => exact absurd rfl ht
    | _ => simp [precedence, identityPrecedence]
  | quantified k x p =>
    cases k with
    | existential => simp [precedence, identityPrecedence]
    | universal =>
      have hx : p.mentions x := by simpa [isTardy] using ht
      rw [decompose_of_mentions hx] at hd
      exact hd.elim
  | identity p q =>
    rcases decompose_identity p q with h | h | ⟨a, b, -, -, h⟩
    · exact absurd h hn
    · exact (h ▸ hd).elim
    · exact (h ▸ hd).elim
  | root p => exact absurd rfl ht
  | term k s => exact hd.elim
  | _ => exact absurd rfl hn

theorem precedence_of_isTardy (ht : f.isTardy) (hu : ¬f.isUniversal) :
    f.precedence = identityPrecedence ∧ ¬f.isIdentity := by
  cases f with
  | binary op p q =>
    cases op with
    | xor => exact ⟨rfl, Bool.false_ne_true⟩
    | _ => exact absurd ht Bool.false_ne_true
  | quantified k x p =>
    cases k with
    | universal => exact absurd rfl hu
    | existential => exact absurd ht Bool.false_ne_true
  | root p => exact ⟨rfl, Bool.false_ne_true⟩
  | _ => exact absurd ht Bool.false_ne_true

theorem precedence_of_replace {a b : Char} (h : f.decompose = .replace a b) :
    f.precedence = identityPrecedence := by
  obtain ⟨p, q, rfl, -, -⟩ := eq_of_decompose_replace h
  rfl

end Formula

/-- Whether connectives alone lead to the node `j` from a tardy formula that gives way to the identity
at the node `k`. -/
inductive Tableau.Belated (t : Tableau) (k : Nat) : Nat → Prop
  | tardy {j i : Nat} {n m : Node} (hkj : k < j) (hj : t.node? j = some n) (hi : n.source = some i)
    (hm : t.node? i = some m) (h : m.formula.isTardy) (hki : k < i ∨ m.formula.isUniversal) :
    t.Belated k j
  | connective {j i : Nat} {n m : Node} (hkj : k < j) (hj : t.node? j = some n)
    (hi : n.source = some i) (hm : t.node? i = some m) (hd : m.formula.decompose.IsPropositional)
    (h : t.Belated k i) : t.Belated k j

namespace Tableau

variable {t t' : Tableau} {L : List Nat} {j k : Nat}

theorem Belated.lt (h : t.Belated k j) : k < j := by
  cases h with
  | tardy hkj _ _ _ _ _ => exact hkj
  | connective hkj _ _ _ _ _ => exact hkj

theorem Belated.of_extends (h : t.Belated k j) (hext : t.Extends t' L) : t'.Belated k j := by
  induction h with
  | tardy hkj hj hi hm h hki =>
    obtain ⟨n', hj', hstays, -⟩ := hext.kept _ _ hj
    obtain ⟨m', hm', hstays', -⟩ := hext.kept _ _ hm
    exact .tardy hkj hj' (hstays.source.trans hi) hm' (hstays'.formula ▸ h) (hstays'.formula ▸ hki)
  | connective hkj hj hi hm hd _ ih =>
    obtain ⟨n', hj', hstays, -⟩ := hext.kept _ _ hj
    obtain ⟨m', hm', hstays', -⟩ := hext.kept _ _ hm
    exact .connective hkj hj' (hstays.source.trans hi) hm' (hstays'.formula ▸ hd) ih

end Tableau

/-! ## Branches that an identity adds nothing to -/

namespace Path

variable {p q : Path} {a b : Char} {f : Formula} {fs : List Formula}

/-- Whether the branch has the copy of `f` that the identity of `a` and `b` calls for, unless that is
a trivial identity. -/
def Replaced (p : Path) (a b : Char) (f : Formula) : Prop :=
  ∀ target replacement, replacement? a b f = some (target, replacement) →
    (f.substitute target replacement .const).isTrivialIdentity ∨
      p.contains (f.substitute target replacement .const)

theorem Replaced.mono (h : p.Replaced a b f) (hpq : p.Continues q) : q.Replaced a b f :=
  fun target replacement hr => (h target replacement hr).imp_right hpq.contains

theorem Replaced.of_copy {target replacement : Char}
    (hr : replacement? a b f = some (target, replacement))
    (h : (f.substitute target replacement .const).isTrivialIdentity ∨
      p.contains (f.substitute target replacement .const)) : p.Replaced a b f := by
  intro target' replacement' hr'
  rw [hr] at hr'
  cases hr'
  exact h

/-- A branch that stays open has all copies that the identity calls for. -/
theorem replaced_replaceEach (h : ¬(p.replaceEach a b fs).isClosed) (hf : f ∈ fs) :
    (p.replaceEach a b fs).Replaced a b f := by
  fun_induction p.replaceEach a b fs with
  | case1 => exact absurd hf List.not_mem_nil
  | case2 p g fs hnone ih =>
    rcases List.mem_cons.1 hf with rfl | hf
    · intro target replacement hr
      rw [hnone] at hr
      cases hr
    · exact ih h hf
  | case3 p g fs target replacement hr _ hskip ih =>
    rcases List.mem_cons.1 hf with rfl | hf
    · rw [Bool.or_eq_true] at hskip
      exact .of_copy hr (hskip.imp_right (continues_replaceEach p).contains)
    · exact ih h hf
  | case4 p g fs target replacement hr copy _ hclosed => exact absurd hclosed h
  | case5 p g fs target replacement hr copy _ _ ih =>
    rcases List.mem_cons.1 hf with rfl | hf
    · have hpush : (p.push copy).contains copy := contains_of_mem List.mem_cons_self
      exact .of_copy hr (.inr ((continues_replaceEach _).contains hpush))
    · exact ih h hf

end Path

/-! ## Identities that lie dormant -/

/-- Whether a node `i` that waits comes before the identity at `k`. -/
def Node.Precedes (m : Node) (i k : Nat) : Prop :=
  m.precedence < Formula.identityPrecedence ∨
    m.precedence = Formula.identityPrecedence ∧ ¬m.isRepeatable ∧ i < k

/-- A rule for a connective that adds anything is tardy or comes before the identity. -/
theorem Node.precedes_or_isTardy {m : Node} (i : Nat) {k : Nat}
    (hd : m.formula.decompose.IsPropositional) (hn : m.formula.decompose ≠ .nothing) (hne : i ≠ k) :
    m.Precedes i k ∨ m.formula.isTardy ∧ (k < i ∨ m.formula.isUniversal) := by
  by_cases htardy : m.formula.isTardy
  swap
  · exact .inl (.inl (Formula.precedence_lt_of_not_isTardy hd hn htardy))
  by_cases huniversal : m.formula.isUniversal
  · exact .inr ⟨htardy, .inr huniversal⟩
  obtain ⟨hprecedence, hidentity⟩ := Formula.precedence_of_isTardy htardy huniversal
  rcases Nat.lt_or_gt_of_ne hne with hlt | hlt
  · refine .inl (.inr ⟨hprecedence, ?_, hlt⟩)
    rw [Node.isRepeatable, Bool.or_eq_true, not_or]
    exact ⟨huniversal, hidentity⟩
  · exact .inr ⟨htardy, .inl hlt⟩

theorem Node.Precedes.of_stays {m m' : Node} {i k : Nat} (h : m'.Precedes i k) (hstays : m.Stays m') :
    m.Precedes i k := by
  rwa [Precedes, Node.precedence, hstays.formula, hstays.isRepeatable] at h

namespace Expansion

variable {s s' : Expansion}

/-- Whether all nodes that wait before the identity at `k` are belated for it. -/
def Rested (s : Expansion) (k : Nat) : Prop :=
  ∀ i ∈ s.keys, ∀ m, s.tableau.node? i = some m → m.Precedes i k → s.tableau.Belated k i

/-- Whether the identity of `a` and `b` at the node `k` has been applied on the branch of `l` to all
other literals that are not belated for it. -/
def Exhausts (s : Expansion) (l k : Nat) (a b : Char) : Prop :=
  ∀ j ∈ s.tableau.branch l, j ≠ k → ∀ n, s.tableau.node? j = some n → n.formula.isClosable →
    ¬s.tableau.Belated k j → (s.tableau.path l).Replaced a b n.formula

/-- Whether the identity at the node `k` lies dormant with nothing left to add. -/
structure Sleeps (s : Expansion) (l k : Nat) (a b : Char) : Prop where
  mem : k ∈ s.dormant
  rested : s.Rested k
  exhausts : s.Exhausts l k a b

/-- Whether the identity at the node `k` waits or sleeps. -/
def Settled (s : Expansion) (l k : Nat) (a b : Char) : Prop := k ∈ s.keys ∨ s.Sleeps l k a b

/-- Whether every identity on an open branch waits or sleeps. -/
def Sated (s : Expansion) : Prop :=
  ∀ l, s.tableau.IsLeaf l → (s.tableau.path l).isClosed = false →
    ∀ k ∈ s.tableau.branch l, ∀ m a b, s.tableau.node? k = some m →
      m.formula.decompose = .replace a b → s.Settled l k a b

theorem Begins.sated {f : Formula} {requeues : Bool} (h : Begins s f requeues) : s.Sated := by
  intro l _ _ k _ m a b hm _
  rw [h.eq_root (lt_size_of_node? hm), Settled, h.keys]
  exact .inl (List.mem_singleton_self _)

/-- An identity has nothing to add to a branch that has grown by belated nodes only. -/
theorem Exhausts.of_extends {L : List Nat} {l l' k : Nat} {a b : Char} (h : s.Exhausts l k a b)
    (hext : s.tableau.Extends s'.tableau L) (ht : s.tableau.IsTree) (hl : s.tableau.IsLeaf l)
    (hll : l ∈ s'.tableau.branch l') (hpq : (s.tableau.path l).Continues (s'.tableau.path l'))
    (hnew : ∀ j n, s'.tableau.node? j = some n → s.tableau.size ≤ j → s'.tableau.Belated k j) :
    s'.Exhausts l' k a b := by
  intro j hj hne n hn hclosable hnot
  rcases hext.mem_branch_or_le ht hl hll hj with hjl | hle
  · obtain ⟨n₀, hn₀⟩ := ht.exists_node_of_mem_branch hjl
    rw [hext.formula_eq hn₀ hn] at hclosable ⊢
    refine (h j hjl hne n₀ hn₀ hclosable fun hbelated => hnot ?_).mono hpq
    exact hbelated.of_extends hext
  · exact absurd (hnew j n hn hle) hnot

/-- What still waits when an identity is dispatched does not come before it. -/
theorem Ordered.not_precedes {e y : Entry} {rest : Agenda} {m n : Node} {a b : Char} (h : s.Ordered)
    (ha : s.agenda = e :: rest) (hm : s.tableau.node? e.key = some m)
    (hab : m.formula.decompose = .replace a b) (hy : y ∈ rest) (hn : s.tableau.node? y.key = some n) :
    ¬n.Precedes y.key e.key := by
  intro hprecedes
  obtain ⟨m₀, hm₀, he⟩ := h.entry e (ha ▸ List.mem_cons_self)
  obtain rfl : m₀ = m := Option.some.inj (hm₀.symm.trans hm)
  obtain ⟨n₀, hn₀, hstands⟩ := h.entry y (ha ▸ List.mem_cons_of_mem e hy)
  obtain rfl : n₀ = n := Option.some.inj (hn₀.symm.trans hn)
  have hidentity : e.precedence = Formula.identityPrecedence :=
    he.precedence.trans (Formula.precedence_of_replace hab)
  have hnot := (List.pairwise_cons.1 (ha ▸ h.sorted)).1 y hy
  rw [Entry.before_iff, hidentity, hstands.precedence] at hnot
  rcases hprecedes with hlt | ⟨heq, honce, hlt⟩
  · exact hnot (.inl hlt)
  -- An entry that was never put on again stands at the number of its node.
  · refine hnot (.inr ⟨heq, ?_⟩)
    calc y.id = n₀.id := hstands.once honce
      _ < m₀.id := h.dated.increasing _ _ _ _ hlt hn hm
      _ ≤ e.id := he.id_le

section Applied

variable {e : Entry} {rest : Agenda} {m : Node} {c : Char} {n l l' j k : Nat} {a b : Char}
  (h : Applies { s with agenda := rest } s' e.key m.formula.decompose c n) (hs : s.Valid)
  (hm : s.tableau.node? e.key = some m) (hagenda : s.agenda = e :: rest)

include h hs hm hagenda

/-- The identity that is dispatched waits again, or it has added nothing as there is nothing left to
add. -/
theorem settled_self (hordered : s.Ordered) (hr : s.requeues) (hl : s.tableau.IsLeaf l)
    (hl' : s'.tableau.IsLeaf l') (hll : l ∈ s'.tableau.branch l')
    (hab : m.formula.decompose = .replace a b)
    (hq : s'.tableau.path l' ∈
      (s.tableau.path l).grow c (closableOn s.tableau e.key l) m.formula.decompose)
    (hopen : (s'.tableau.path l').isClosed = false) : s'.Settled l' e.key a b := by
  have hrep : m.formula.decompose.IsRepeatable := hab ▸ trivial
  by_cases hn : n = 0
  swap
  · refine .inl (mem_keys_of_applies h (.inl ?_))
    rw [Decomposition.rouse_of_isRepeatable hrep, if_pos hr, if_neg hn]
    exact List.mem_append_right _ (List.mem_singleton_self _)
  obtain rfl := h.leaf_eq hs.tree hl hl' hll hn
  subst hn
  refine (mem_keys_or_mem_dormant h (Decomposition.key_mem_rouse hrep hr)).imp_right ?_
  refine fun hdormant => ⟨hdormant, fun i hi m' hm' hprecedes => ?_, ?_⟩
  · rw [h.keys.mem_iff, Decomposition.rouse_zero] at hi
    obtain ⟨y, hy, rfl⟩ := List.mem_map.1 hi
    obtain ⟨n₀, hn₀, -⟩ := hordered.entry y (hagenda ▸ List.mem_cons_of_mem e hy)
    obtain ⟨n', hn', hstays, -⟩ := h.tableau.kept _ _ hn₀
    obtain rfl : n' = m' := Option.some.inj (hn'.symm.trans hm')
    exact absurd (hprecedes.of_stays hstays) (hordered.not_precedes hagenda hm hab hy hn₀)
  · intro j hj hne n' hn' hclosable _
    rw [hab] at hq
    rw [List.mem_singleton.1 hq] at hopen ⊢
    refine Path.replaced_replaceEach (Bool.eq_false_iff.1 hopen) ?_
    rw [h.tableau.branch hl.lt_size] at hj
    obtain ⟨n₀, hn₀⟩ := hs.tree.exists_node_of_mem_branch hj
    rw [h.tableau.formula_eq hn₀ hn'] at hclosable ⊢
    exact formula_mem_closableOn hj hne hn₀ hclosable

omit hs hm in
/-- An identity goes on to rest if no node is woken and those that are new are belated for it. -/
theorem Rested.of_applies (hrested : s.Rested k)
    (hnone : (m.formula.decompose.rouse s.requeues e.key n s.dormant).1 = [])
    (hnew : ∀ j n', s'.tableau.node? j = some n' → s.tableau.size ≤ j → s'.tableau.Belated k j) :
    s'.Rested k := by
  intro i hi m' hm' hprecedes
  by_cases hlt : i < s.tableau.size
  swap
  · exact hnew i m' hm' (Nat.le_of_not_lt hlt)
  rw [h.keys.mem_iff, List.mem_append, List.mem_append, hnone] at hi
  rcases hi with hi | hi | hi
  · exact absurd hi List.not_mem_nil
  · exact absurd hlt (Nat.not_lt_of_le (List.mem_range'_1.1 hi).1)
  · have hmem : i ∈ s.keys := by
      rw [keys, hagenda]
      exact List.mem_cons_of_mem e.key hi
    obtain ⟨n₀, hn₀⟩ := node?_eq_some_of_lt hlt
    obtain ⟨n', hn', hstays, -⟩ := h.tableau.kept _ _ hn₀
    obtain rfl : n' = m' := Option.some.inj (hn'.symm.trans hm')
    exact (hrested i hmem n₀ hn₀ (hprecedes.of_stays hstays)).of_extends h.tableau

variable (hsourced : Sourced e.key s.tableau s'.tableau)

include hsourced

omit hs in
/-- While an identity rests connectives bring in nodes only that are belated for it. -/
theorem Rested.belated {mk : Node} (hrested : s.Rested k) (hk : s.tableau.node? k = some mk)
    (hab : mk.formula.decompose = .replace a b) (hprop : m.formula.decompose.IsPropositional)
    {n' : Node} (hj : s'.tableau.node? j = some n') (hle : s.tableau.size ≤ j) :
    s'.tableau.Belated k j := by
  have hkj : k < j := (lt_size_of_node? hk).trans_le hle
  obtain ⟨m', hm', hstays, -⟩ := h.tableau.kept _ _ hm
  have hsource := hsourced j n' hj hle
  have hn : m.formula.decompose ≠ .nothing := by
    intro hnothing
    have hlt := lt_size_of_node? hj
    rw [h.size, h.simple hnothing] at hlt
    exact Nat.not_le_of_lt hlt hle
  have hne : e.key ≠ k := by
    rintro rfl
    obtain rfl : m = mk := Option.some.inj (hm.symm.trans hk)
    exact (hab ▸ hprop).elim
  rcases m.precedes_or_isTardy e.key hprop hn hne with hprecedes | ⟨htardy, hki⟩
  · have hmem : e.key ∈ s.keys := by
      rw [keys, hagenda]
      exact List.mem_cons_self
    have hbelated := (hrested e.key hmem m hm hprecedes).of_extends h.tableau
    exact .connective hkj hj hsource hm' (hstays.formula ▸ hprop) hbelated
  · exact .tardy hkj hj hsource hm' (hstays.formula ▸ htardy) (hstays.formula ▸ hki)

/-- The other identities go on to wait or sleep. -/
theorem Settled.of_applies {mk : Node} (hsettled : s.Settled l k a b)
    (hk : s.tableau.node? k = some mk) (hab : mk.formula.decompose = .replace a b)
    (hd : m.formula.decompose ≠ .unexpected) (hr : s.requeues) (hne : k ≠ e.key)
    (hl : s.tableau.IsLeaf l) (hll : l ∈ s'.tableau.branch l')
    (hpq : (s.tableau.path l).Continues (s'.tableau.path l')) : s'.Settled l' k a b := by
  rcases hsettled with hmem | ⟨hmem, hrested, hexhausts⟩
  · rw [keys, hagenda, List.map_cons] at hmem
    exact .inl (mem_keys_of_applies h (.inr (.inr (List.mem_of_ne_of_mem hne hmem))))
  by_cases hwoken : k ∈ (m.formula.decompose.rouse s.requeues e.key n s.dormant).1
  · exact .inl (mem_keys_of_applies h (.inl hwoken))
  have hasleep := (Decomposition.mem_rouse hmem).resolve_left hwoken
  -- A rule that wakes nothing is one for a connective, unless it adds nothing.
  have hnew : ∀ j n', s'.tableau.node? j = some n' → s.tableau.size ≤ j →
      s'.tableau.Belated k j := by
    intro j n' hj hle
    refine hrested.belated h hm hagenda hsourced hk hab ?_ hj hle
    by_contra hnot
    refine hwoken (Decomposition.mem_rouse_of_pos hnot hd hr ?_ hmem)
    rintro rfl
    have hlt := lt_size_of_node? hj
    rw [h.size] at hlt
    exact Nat.not_le_of_lt hlt hle
  have hnone := (m.formula.decompose.rouse_eq_nil s.requeues e.key n s.dormant).resolve_right
    (List.ne_nil_of_mem hasleep)
  exact .inr ⟨h.dormant ▸ hasleep, hrested.of_applies h hagenda hnone hnew,
    hexhausts.of_extends h.tableau hs.tree hl hll hpq hnew⟩

end Applied

/-! ## Runs -/

theorem Advances.sated (h : Advances s s') (hs : s.Valid) (hordered : s.Ordered) (hr : s.requeues)
    (hsated : s.Sated) : s'.Sated := by
  cases h.step hs with
  | @idle e rest trace ha hclosed =>
    intro l hl hopen k hk m a b hm hab
    refine (hsated l hl hopen k hk m a b hm hab).imp (fun hkey => ?_) fun hsleeps => ?_
    · rw [keys, ha, List.map_cons] at hkey
      rcases List.mem_cons.1 hkey with rfl | hkey
      · have hmem := (mem_openLeavesBelow hs.toCoherent).2 ⟨hl, hk, hopen⟩
        exact absurd (hclosed ▸ hmem) List.not_mem_nil
      · exact hkey
    · refine ⟨hsleeps.mem, fun i hi => hsleeps.rested i ?_, hsleeps.exhausts⟩
      rw [keys, ha]
      exact List.mem_cons_of_mem e.key hi
  | @applied e rest m c n _ ha hne hm hd hc happlies =>
    have hsourced := h.sourced hs.toCoherent ha
    intro l' hl' hopen' k hk m' a b hm' hab
    obtain ⟨l, hl, hll, hcase⟩ := happlies.descends ⟨hs.tree, hs.marked⟩ hl'
    rcases happlies.tableau.mem_branch_or_le hs.tree hl hll hk with hkl | hnew
    swap
    · have hlt := lt_size_of_node? hm'
      rw [happlies.size] at hlt
      exact .inl (mem_keys_of_applies happlies (.inr (.inl (List.mem_range'_1.2 ⟨hnew, hlt⟩))))
    obtain ⟨m₀, hm₀⟩ := hs.tree.exists_node_of_mem_branch hkl
    rw [happlies.tableau.formula_eq hm₀ hm'] at hab
    rcases hcase with ⟨hL, rfl, hp⟩ | ⟨hL, hq⟩
    · have hopen : (s.tableau.path l').isClosed = false := hp ▸ hopen'
      refine (hsated l' hl hopen k hkl m₀ a b hm₀ hab).of_applies happlies hs hm ha hsourced hm₀ hab
        hd hr ?_ hl hll (hp ▸ .refl _)
      rintro rfl
      exact hL ((mem_openLeavesBelow hs.toCoherent).2 ⟨hl, hkl, hopen⟩)
    · by_cases hkey : k = e.key
      · subst hkey
        obtain rfl : m₀ = m := Option.some.inj (hm₀.symm.trans hm)
        exact settled_self happlies hs hm ha hordered hr hl hl' hll hab hq hopen'
      · have hopen := ((mem_openLeavesBelow hs.toCoherent).1 hL).2.2
        exact (hsated l hl hopen k hkl m₀ a b hm₀ hab).of_applies happlies hs hm ha hsourced hm₀ hab
          hd hr hkey hl hll (Path.continues_of_mem_grow hq)

theorem Runs.sated {f : Formula} (h : Runs s s') (h₀ : Begins s f true) : s'.Sated := by
  induction h with
  | refl => exact h₀.sated
  | tail hruns hadvances ih =>
    have hsteps := Runs.steps hruns h₀.valid
    exact hadvances.sated (hsteps.valid h₀.valid) (hsteps.arranged h₀.arranged).toOrdered
      (hsteps.requeues_eq.trans h₀.requeues) ih

end Expansion

/-! ## Complete tableaux -/

/-- On an open branch of a complete tableau an identity has been applied to every other literal that is
not belated for it: with one side for the other the literal is a trivial identity or stands on the
branch too. -/
theorem Context.buildTableau_replaced (ctx : Context) (w : Formula) (t : Tableau)
    (hrequeue : ctx.settings.requeueUniversals.value = true) (h : (ctx.buildTableau w).2 = .ok t)
    (hcomplete : t.status = .complete) (l : Nat) (hl : t.IsLeaf l) (hopen : t.isClosed l = false)
    (k : Nat) (hk : k ∈ t.branch l) (m : Node) (hm : t.node? k = some m) (a b : Char)
    (hab : a ≠ b) (hid : m.formula = .identity (.const a) (.const b))
    (j : Nat) (hj : j ∈ t.branch l) (hjk : j ≠ k) (n : Node) (hn : t.node? j = some n)
    (hclosable : n.formula.isClosable) (hprompt : ¬t.Belated k j) :
    (n.formula.mentions a → (n.formula.substitute a b .const).isTrivialIdentity ∨
      t.branchContains l (n.formula.substitute a b .const)) ∧
    (¬n.formula.mentions a → n.formula.mentions b →
      (n.formula.substitute b a .const).isTrivialIdentity ∨
        t.branchContains l (n.formula.substitute b a .const)) := by
  obtain ⟨s₀, s, status, h₀, hruns, rfl, hend⟩ := exists_runs_of_buildTableau h
  have hvalid := (hruns.steps h₀.valid).valid h₀.valid
  have hl : s.tableau.IsLeaf l := hl
  have hopen : (s.tableau.path l).isClosed = false :=
    (isClosed_iff hvalid.toCoherent hl).symm.trans hopen
  have hagenda : s.agenda = [] := by
    refine (hend hcomplete).resolve_left fun hclosed => ?_
    exact Bool.false_ne_true (hopen.symm.trans (hclosed l hl))
  have hdecompose : m.formula.decompose = .replace a b := by
    rw [hid]
    simp [Formula.decompose, Formula.symbol, hab]
  have hreplaced : (s.tableau.path l).Replaced a b n.formula := by
    rcases hruns.sated (hrequeue ▸ h₀) l hl hopen k hk m a b hm hdecompose with hkey | hsleeps
    · rw [keys, hagenda] at hkey
      exact absurd hkey List.not_mem_nil
    · refine hsleeps.exhausts j hj hjk n hn hclosable fun hbelated => hprompt ?_
      exact hbelated.of_extends (.of_nodes hvalid.tree rfl)
  refine ⟨fun ha => ?_, fun ha hb => ?_⟩
  · have hcopy := hreplaced a b (if_pos ha)
    rwa [← branchContains_eq] at hcopy
  · have hcopy := hreplaced b a ((if_neg ha).trans (if_pos hb))
    rwa [← branchContains_eq] at hcopy

/-- In `(Pa ⊕ Q) ∧ a = b` the identity is the younger of the two, and it gives `Pb` for the `Pa` that
comes by the exclusive disjunction. -/
theorem Context.buildTableau_replaced_excluded :
    let w : Formula := .and (.xor (.predicate 'P' [.const 'a']) (.atom 'Q'))
      (.identity (.const 'a') (.const 'b'))
    ∃ t m n, (({} : Context).buildTableau w).2 = .ok t ∧ t.status = .complete ∧
      t.isClosed 7 = false ∧ t.node? 2 = some m ∧ m.formula = .identity (.const 'a') (.const 'b') ∧
      t.node? 3 = some n ∧ n.formula = .predicate 'P' [.const 'a'] ∧ n.source = some 1 ∧
      ¬t.Belated 2 3 ∧ t.branchContains 7 (.predicate 'P' [.const 'b']) := by
  intro w
  obtain ⟨t, hok, hcomplete, hopen, hleaf, hidentity, hliteral, hexclusion⟩ :=
    exists_of_any_buildTableau (c := {}) (w := w) (P := fun t =>
      t.status = .complete ∧ t.isClosed 7 = false ∧
      (t.node? 7).map (fun n => (n.isLeaf, n.ancestors)) = some (true, [4, 3, 2, 1, 0]) ∧
      (t.node? 2).map (·.formula) = some (.identity (.const 'a') (.const 'b')) ∧
      (t.node? 3).map (fun n => (n.formula, n.source)) =
        some (.predicate 'P' [.const 'a'], some 1) ∧
      (t.node? 1).map (·.formula.isUniversal) = some false) (by decide +kernel)
  obtain ⟨leaf, hleaf, hdata⟩ := Option.map_eq_some_iff.1 hleaf
  obtain ⟨hisLeaf, hancestors⟩ := Prod.mk.inj hdata
  obtain ⟨m, hm, hid⟩ := Option.map_eq_some_iff.1 hidentity
  obtain ⟨n, hn, hdata'⟩ := Option.map_eq_some_iff.1 hliteral
  obtain ⟨hf, hsource⟩ := Prod.mk.inj hdata'
  obtain ⟨x, hx, huniversal⟩ := Option.map_eq_some_iff.1 hexclusion
  have hprompt : ¬t.Belated 2 3 := by
    intro hbelated
    cases hbelated with
    | tardy _ hj hi hm _ hki =>
      cases hn.symm.trans hj
      cases hsource.symm.trans hi
      cases hx.symm.trans hm
      rw [huniversal] at hki
      exact absurd hki (by decide)
    | connective _ hj hi _ _ h =>
      cases hn.symm.trans hj
      cases hsource.symm.trans hi
      exact absurd h.lt (by decide)
  have hbranch : t.branch 7 = [7, 4, 3, 2, 1, 0] := by rw [branch_of_node? hleaf, hancestors]
  obtain ⟨hcopy, -⟩ := ({} : Context).buildTableau_replaced w t rfl hok hcomplete 7
    ⟨leaf, hleaf, hisLeaf⟩ hopen 2 (by simp [hbranch]) m hm 'a' 'b' (by decide) hid 3
    (by simp [hbranch]) (by decide) n hn (by rw [hf]; decide) hprompt
  refine ⟨t, m, n, hok, hcomplete, hopen, hm, hid, hn, hf, hsource, hprompt, ?_⟩
  rw [hf] at hcopy
  exact (hcopy (by decide)).resolve_left (by decide)

/-- An identity can miss a literal that comes by an exclusive disjunction after it, for which it is not
woken. Here `Pb` is missing from a branch with `a = b`, `Pa` and `¬Pb`, which stays open for it. -/
theorem Context.exclusion_escapes_identity :
    ¬∀ w : Formula, w.Sentence → ∀ t, (({} : Context).buildTableau w).2 = .ok t →
      t.status = .complete → ∀ l, t.IsLeaf l → t.isClosed l = false →
      ∀ k ∈ t.branch l, ∀ m, t.node? k = some m → ∀ a b, a ≠ b →
      m.formula = .identity (.const a) (.const b) →
      ∀ j ∈ t.branch l, j ≠ k → ∀ n, t.node? j = some n → n.formula.isClosable →
        (n.formula.mentions a → (n.formula.substitute a b .const).isTrivialIdentity ∨
          t.branchContains l (n.formula.substitute a b .const)) ∧
        (¬n.formula.mentions a → n.formula.mentions b →
          (n.formula.substitute b a .const).isTrivialIdentity ∨
            t.branchContains l (n.formula.substitute b a .const)) := by
  intro hall
  let w : Formula := .and (.identity (.const 'a') (.const 'b'))
    (.and (.xor (.predicate 'P' [.const 'a']) (.atom 'Q'))
      (.and (.xor (.not (.predicate 'P' [.const 'b'])) (.atom 'Q')) (.not (.atom 'Q'))))
  obtain ⟨t, hok, hcomplete, hopen, hmissed, hleaf, hidentity, hliteral⟩ :=
    exists_of_any_buildTableau (c := {}) (w := w) (P := fun t =>
      t.status = .complete ∧ t.isClosed 10 = false ∧
      t.branchContains 10 (.predicate 'P' [.const 'b']) = false ∧
      (t.node? 10).map (fun n => (n.isLeaf, n.ancestors)) = some (true, [7, 6, 5, 4, 3, 2, 1, 0]) ∧
      (t.node? 1).map (·.formula) = some (.identity (.const 'a') (.const 'b')) ∧
      (t.node? 7).map (·.formula) = some (.predicate 'P' [.const 'a'])) (by decide +kernel)
  obtain ⟨leaf, hleaf, hdata⟩ := Option.map_eq_some_iff.1 hleaf
  obtain ⟨hisLeaf, hancestors⟩ := Prod.mk.inj hdata
  obtain ⟨m, hm, hid⟩ := Option.map_eq_some_iff.1 hidentity
  obtain ⟨n, hn, hf⟩ := Option.map_eq_some_iff.1 hliteral
  have hbranch : t.branch 10 = [10, 7, 6, 5, 4, 3, 2, 1, 0] := by
    rw [branch_of_node? hleaf, hancestors]
  obtain ⟨hcopy, -⟩ := hall w (by decide) t hok hcomplete 10 ⟨leaf, hleaf, hisLeaf⟩ hopen 1
    (by simp [hbranch]) m hm 'a' 'b' (by decide) hid 7 (by simp [hbranch]) (by decide) n hn
    (by rw [hf]; decide)
  rw [hf] at hcopy
  have hcontains := (hcopy (by decide)).resolve_left (by decide)
  exact Bool.false_ne_true (hmissed.symm.trans hcontains)

end Sequitur
