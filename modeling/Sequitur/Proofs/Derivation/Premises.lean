import Mathlib.Data.Prod.Lex
import Sequitur.Proofs.Derivation.Inheritance

/-!
# The order of premises

Of the premises that are structurally equal to one another the first stands for all
(`mem_orderPremises_iff`), and those that stand for others are sorted by rank, equals in the order in
which they came. A premise is compared with what has been kept, not with all that came before; the two
agree as structural equality is an equivalence on formulas over the usual symbols without wrappers
(`isNovel_iff`).
-/

namespace Sequitur

/-! ## Ranks -/

/-- What premises are sorted by: the place of the kind, and then the length of the canonical form. -/
def Formula.rank (f : Formula) : Nat ×ₗ Nat := toLex (f.simplicity, f.canonical.length)

theorem Formula.noLaterThan_iff {p q : Formula} : p.noLaterThan q ↔ p.rank ≤ q.rank := by
  simp [noLaterThan, rank, Prod.Lex.toLex_le_toLex]

theorem Formula.noLaterThan_trans (p q r : Formula) (hpq : p.noLaterThan q)
    (hqr : q.noLaterThan r) : p.noLaterThan r := by
  rw [noLaterThan_iff] at hpq hqr ⊢
  exact hpq.trans hqr

theorem Formula.noLaterThan_total (p q : Formula) : p.noLaterThan q || q.noLaterThan p := by
  rw [Bool.or_eq_true, noLaterThan_iff, noLaterThan_iff]
  exact le_total p.rank q.rank

/-! ## What is kept -/

/-- The premises that are kept, in the order in which they came. -/
def keptPremises (premises : List Formula) : List Formula := premises.foldl keepPremise []

/-- Whether a premise is structurally equal to none of those before it. -/
def IsNovel (before : List Formula) (p : Formula) : Prop :=
  ∀ q ∈ before, ¬q.unrooted.structurallyEquals p.unrooted

instance (before : List Formula) (p : Formula) : Decidable (IsNovel before p) :=
  inferInstanceAs (Decidable (∀ q ∈ before, ¬q.unrooted.structurallyEquals p.unrooted))

variable {premises before : List Formula} {p q f : Formula}

theorem keptPremises_concat (premises : List Formula) (p : Formula) :
    keptPremises (premises ++ [p]) = keepPremise (keptPremises premises) p :=
  List.foldl_append

theorem exists_mem_of_mem_keptPremises (h : f ∈ keptPremises premises) :
    ∃ q ∈ premises, f = q.unrooted :=
  (Derive.mem_foldl_keepPremise h).resolve_left List.not_mem_nil

/-- Nothing that was kept is given up. -/
theorem keptPremises_stays (before after : List Formula) :
    keptPremises before <+: keptPremises (before ++ after) := by
  induction after using List.reverseRecOn with
  | nil => rw [List.append_nil]
  | append_singleton after p ih =>
    refine ih.trans ?_
    rw [← List.append_assoc, keptPremises_concat, keepPremise]
    split
    · exact List.prefix_rfl
    · exact List.prefix_append _ _

/-- Some premise that is kept stands for each that came. -/
theorem exists_keptPremises (h : q ∈ premises) :
    ∃ f ∈ keptPremises premises, f.structurallyEquals q.unrooted := by
  obtain ⟨before, after, rfl⟩ := List.append_of_mem h
  rw [List.append_cons]
  have hsub := (keptPremises_stays (before ++ [q]) after).subset
  rw [keptPremises_concat, keepPremise] at hsub
  split at hsub
  · next hany =>
    obtain ⟨f, hf, hfq⟩ := List.any_eq_true.1 hany
    exact ⟨f, hsub hf, hfq⟩
  · exact ⟨q.unrooted, hsub (List.mem_append_right _ (List.mem_singleton_self _)),
      q.unrooted.structurallyEquals_refl⟩

section Regular

variable (h : ∀ p ∈ premises, p.unrooted.Regular)

include h

theorem regular_of_mem_keptPremises (hf : f ∈ keptPremises premises) : f.Regular := by
  obtain ⟨q, hq, rfl⟩ := exists_mem_of_mem_keptPremises hf
  exact h q hq

/-- It is enough to compare a premise with what has been kept. -/
theorem isNovel_iff (hp : p.unrooted.Regular) :
    IsNovel premises p ↔ ¬(keptPremises premises).any (·.structurallyEquals p.unrooted) := by
  rw [List.any_eq_true]
  constructor
  · rintro hnovel ⟨f, hf, hfp⟩
    obtain ⟨q, hq, rfl⟩ := exists_mem_of_mem_keptPremises hf
    exact hnovel q hq hfp
  · intro hnone q hq hqp
    obtain ⟨f, hf, hfq⟩ := exists_keptPremises hq
    exact hnone ⟨f, hf, (regular_of_mem_keptPremises h hf).trans (h q hq) hp hfq hqp⟩

theorem keptPremises_concat_of_isNovel (hp : p.unrooted.Regular) (hnovel : IsNovel premises p) :
    keptPremises (premises ++ [p]) = keptPremises premises ++ [p.unrooted] := by
  rw [keptPremises_concat, keepPremise, if_neg ((isNovel_iff h hp).1 hnovel)]

theorem keptPremises_concat_of_not_isNovel (hp : p.unrooted.Regular)
    (hnovel : ¬IsNovel premises p) :
    keptPremises (premises ++ [p]) = keptPremises premises := by
  rw [isNovel_iff h hp, not_not] at hnovel
  rw [keptPremises_concat, keepPremise, if_pos hnovel]

/-- What is kept are the premises that were novel when they came. -/
theorem mem_keptPremises_iff : f ∈ keptPremises premises ↔
    ∃ before p after, premises = before ++ p :: after ∧ p.unrooted = f ∧ IsNovel before p := by
  constructor
  · intro hf
    induction premises using List.reverseRecOn with
    | nil => exact absurd hf List.not_mem_nil
    | append_singleton premises p ih =>
      obtain ⟨hpremises, hp⟩ := List.forall_mem_append.1 h
      have hp := List.forall_mem_singleton.1 hp
      have hearlier : f ∈ keptPremises premises → ∃ before q after,
          premises ++ [p] = before ++ q :: after ∧ q.unrooted = f ∧ IsNovel before q := by
        intro hf
        obtain ⟨before, q, after, rfl, hq, hnovel⟩ := ih hpremises hf
        exact ⟨before, q, after ++ [p], by simp, hq, hnovel⟩
      by_cases hnovel : IsNovel premises p
      · rw [keptPremises_concat_of_isNovel hpremises hp hnovel, List.mem_append,
          List.mem_singleton] at hf
        rcases hf with hf | rfl
        · exact hearlier hf
        · exact ⟨premises, p, [], rfl, rfl, hnovel⟩
      · rw [keptPremises_concat_of_not_isNovel hpremises hp hnovel] at hf
        exact hearlier hf
  · rintro ⟨before, p, after, rfl, rfl, hnovel⟩
    obtain ⟨hbefore, hrest⟩ := List.forall_mem_append.1 h
    rw [List.append_cons]
    refine (keptPremises_stays (before ++ [p]) after).subset ?_
    rw [keptPremises_concat_of_isNovel hbefore (hrest p List.mem_cons_self) hnovel]
    exact List.mem_append_right _ (List.mem_singleton_self _)

/-- No two of the premises that are kept are structurally equal, in either direction. -/
theorem pairwise_keptPremises : (keptPremises premises).Pairwise fun p q =>
    ¬p.structurallyEquals q ∧ ¬q.structurallyEquals p := by
  induction premises using List.reverseRecOn with
  | nil => exact .nil
  | append_singleton premises p ih =>
    obtain ⟨hpremises, hp⟩ := List.forall_mem_append.1 h
    have hp := List.forall_mem_singleton.1 hp
    by_cases hnovel : IsNovel premises p
    · rw [keptPremises_concat_of_isNovel hpremises hp hnovel, List.pairwise_append]
      refine ⟨ih hpremises, List.pairwise_singleton _ _, fun f hf => ?_⟩
      refine List.forall_mem_singleton.2 ?_
      have hne : ¬f.structurallyEquals p.unrooted := by
        obtain ⟨q, hq, rfl⟩ := exists_mem_of_mem_keptPremises hf
        exact hnovel q hq
      exact ⟨hne, fun hpf => hne (hp.symm (regular_of_mem_keptPremises hpremises hf) hpf)⟩
    · rw [keptPremises_concat_of_not_isNovel hpremises hp hnovel]
      exact ih hpremises

omit h in
/-- Novel premises are kept in the order in which they came. -/
theorem pair_sublist_keptPremises {xs ys zs : List Formula}
    (h : ∀ r ∈ xs ++ p :: (ys ++ q :: zs), r.unrooted.Regular) (hp : IsNovel xs p)
    (hq : IsNovel (xs ++ p :: ys) q) :
    [p.unrooted, q.unrooted].Sublist (keptPremises (xs ++ p :: (ys ++ q :: zs))) := by
  have hsplit : xs ++ p :: (ys ++ q :: zs) = xs ++ p :: ys ++ [q] ++ zs := by simp
  rw [hsplit] at h ⊢
  obtain ⟨hfront, -⟩ := List.forall_mem_append.1 h
  obtain ⟨hfront, hq'⟩ := List.forall_mem_append.1 hfront
  have hmem : p.unrooted ∈ keptPremises (xs ++ p :: ys) :=
    (mem_keptPremises_iff hfront).2 ⟨xs, p, ys, rfl, rfl, hp⟩
  refine List.Sublist.trans ?_ (keptPremises_stays (xs ++ p :: ys ++ [q]) zs).sublist
  rw [keptPremises_concat_of_isNovel hfront (hq' q (List.mem_singleton_self q)) hq]
  exact (List.singleton_sublist.2 hmem).append_right [q.unrooted]

end Regular

/-- Premises without wrappers of which no two are equal are all kept. -/
theorem keptPremises_eq_self (hroot : ∀ p ∈ premises, p.unrooted = p)
    (hpairwise : premises.Pairwise fun p q => ¬p.structurallyEquals q) :
    keptPremises premises = premises := by
  induction premises using List.reverseRecOn with
  | nil => rfl
  | append_singleton premises p ih =>
    obtain ⟨hpremises, hp⟩ := List.forall_mem_append.1 hroot
    have hp := List.forall_mem_singleton.1 hp
    obtain ⟨hpairwise, -, hlast⟩ := List.pairwise_append.1 hpairwise
    rw [keptPremises_concat, ih hpremises hpairwise, keepPremise, hp, if_neg]
    rw [List.any_eq_true]
    rintro ⟨q, hq, hqp⟩
    exact hlast q hq p (List.mem_singleton_self p) hqp

/-! ## What is sorted -/

theorem orderPremises_perm (premises : List Formula) :
    (orderPremises premises).Perm (keptPremises premises) :=
  List.mergeSort_perm _ _

theorem pairwise_rank_orderPremises (premises : List Formula) :
    (orderPremises premises).Pairwise fun p q => p.rank ≤ q.rank :=
  (List.pairwise_mergeSort Formula.noLaterThan_trans Formula.noLaterThan_total _).imp
    Formula.noLaterThan_iff.1

theorem pairwise_orderPremises (h : ∀ p ∈ premises, p.unrooted.Regular) :
    (orderPremises premises).Pairwise fun p q =>
      ¬p.structurallyEquals q ∧ ¬q.structurallyEquals p :=
  ((orderPremises_perm premises).pairwise_iff fun h => h.symm).2 (pairwise_keptPremises h)

theorem mem_orderPremises_iff (h : ∀ p ∈ premises, p.unrooted.Regular) :
    f ∈ orderPremises premises ↔
      ∃ before p after, premises = before ++ p :: after ∧ p.unrooted = f ∧ IsNovel before p :=
  (orderPremises_perm premises).mem_iff.trans (mem_keptPremises_iff h)

/-- Premises that are in order, of which no two are equal, stay as they are. -/
theorem orderPremises_idempotent (h : ∀ p ∈ premises, p.unrooted.Regular) :
    orderPremises (orderPremises premises) = orderPremises premises := by
  have hkept : keptPremises (orderPremises premises) = orderPremises premises := by
    refine keptPremises_eq_self (fun f hf => ?_) ((pairwise_orderPremises h).imp And.left)
    exact (regular_of_mem_keptPremises h ((orderPremises_perm premises).mem_iff.1 hf)).2.unrooted_eq
  show (keptPremises (orderPremises premises)).mergeSort Formula.noLaterThan = _
  rw [hkept]
  exact List.mergeSort_of_pairwise
    ((pairwise_rank_orderPremises premises).imp Formula.noLaterThan_iff.2)

/-- The premises in order are sorted by rank, no two of them are equal, they are those that were novel
when they came, equals in rank keep the order in which they came, and ordering them again changes
nothing. -/
theorem orderPremises_represents (h : ∀ p ∈ premises, p.unrooted.Regular) :
    (orderPremises premises).Pairwise (fun p q => p.rank ≤ q.rank) ∧
    (orderPremises premises).Pairwise
      (fun p q => ¬p.structurallyEquals q ∧ ¬q.structurallyEquals p) ∧
    (∀ f, f ∈ orderPremises premises ↔
      ∃ before p after, premises = before ++ p :: after ∧ p.unrooted = f ∧ IsNovel before p) ∧
    (∀ xs p ys q zs, premises = xs ++ p :: (ys ++ q :: zs) → IsNovel xs p →
      IsNovel (xs ++ p :: ys) q → p.unrooted.rank = q.unrooted.rank →
      [p.unrooted, q.unrooted].Sublist (orderPremises premises)) ∧
    orderPremises (orderPremises premises) = orderPremises premises := by
  refine ⟨pairwise_rank_orderPremises premises, pairwise_orderPremises h,
    fun f => mem_orderPremises_iff h, ?_, orderPremises_idempotent h⟩
  rintro xs p ys q zs rfl hp hq hrank
  exact List.pair_sublist_mergeSort Formula.noLaterThan_trans Formula.noLaterThan_total
    (Formula.noLaterThan_iff.2 hrank.le) (pair_sublist_keptPremises h hp hq)

/-- Among `a = b`, `¬Q`, `b = a`, `¬P` and `Q` the identity that comes first stands for both, and the
negations stay in the order in which they come. -/
theorem orderPremises_represents_exchanged :
    let a : Formula := .const 'a'
    let b : Formula := .const 'b'
    let premises : List Formula :=
      [.root (.identity a b), .not (.atom 'Q'), .identity b a, .root (.not (.atom 'P')), .atom 'Q']
    (∀ p ∈ premises, p.unrooted.Regular) ∧
      [.not (.atom 'Q'), .not (.atom 'P')].Sublist (orderPremises premises) ∧
      .identity a b ∈ orderPremises premises ∧
      orderPremises (orderPremises premises) = orderPremises premises := by
  intro a b premises
  have hsentence : ∀ p ∈ premises, p.unrooted.Sentence ∧ p.unrooted.Lacks .root := by decide
  have h : ∀ p ∈ premises, p.unrooted.Regular := fun p hp =>
    ⟨(hsentence p hp).1.lettered, (hsentence p hp).2⟩
  obtain ⟨-, -, hmem, hstable, hidempotent⟩ := orderPremises_represents h
  refine ⟨h, ?_, ?_, hidempotent⟩
  · exact hstable [.root (.identity a b)] (.not (.atom 'Q')) [.identity b a]
      (.root (.not (.atom 'P'))) [.atom 'Q'] rfl (by decide) (by decide) (by decide)
  · exact (hmem _).2 ⟨[], .root (.identity a b), _, rfl, rfl, by decide⟩

end Sequitur
