import Sequitur.Proofs.Formula.Size
import Sequitur.Proofs.Tableau.Weight

/-!
# The room on a branch

What a rule gives has at most twice the size of the formula it is for, and weighs less. So the bulk of
a formula, its size doubled for each unit of its weight, bounds the bulk of all that comes of it on a
branch (`bulk_grow`). There are finitely many formulas of a bounded bulk, and the room on a branch is
the number of those that are not on it. The rules for universals and identities place only formulas
that the branch has not, and each takes some of the room (`reach_grow`).
-/

namespace Sequitur

/-! ## Bulk -/

theorem Decomposition.exists_alternative {d : Decomposition} {g : Formula} (h : g ∈ d.parts) :
    ∃ fs ∈ d.alternatives, g ∈ fs := by
  cases d with
  | stack fs => exact ⟨fs, List.mem_singleton_self _, h⟩
  | split left lefts right rights =>
    rcases List.mem_append.1 h with h | h
    · exact ⟨_, List.mem_cons_self, h⟩
    · exact ⟨_, List.mem_cons_of_mem _ List.mem_cons_self, h⟩
  | _ => exact absurd h List.not_mem_nil

namespace Formula

theorem size_flip_le (p : Formula) : p.flip.size ≤ 2 * p.size + 3 := by
  induction p with
  | root p ih =>
    unfold flip
    rw [size_root]
    omega
  | binary op p q _ _ => cases op <;> simp [flip] <;> omega
  | quantified k x p _ => cases k <;> simp [flip] <;> omega
  | not p _ =>
    unfold flip
    rw [size_not]
    omega
  | _ =>
    unfold flip
    rw [size_not]
    omega

theorem size_decomposeNegation (p : Formula) :
    ∀ fs ∈ p.decomposeNegation.alternatives, ∀ g ∈ fs, g.size ≤ 2 * (p.size + 1) := by
  cases p with
  | root p =>
    have hflip := p.size_flip_le
    simp only [decomposeNegation_root, Decomposition.alternatives, List.forall_mem_singleton,
      size_root]
    omega
  | not p =>
    simp only [decomposeNegation_not, Decomposition.alternatives, List.forall_mem_singleton, size_not]
    omega
  | binary op p q => cases op <;> simp [Decomposition.alternatives] <;> omega
  | quantified k x p =>
    cases k <;> simp only [decomposeNegation_quantified, Decomposition.alternatives,
      List.forall_mem_singleton, flip, size_quantified, size_not] <;> omega
  | term k s =>
    have hflip : (term k s).decomposeNegation = .stack [.not (.term k s)] := rfl
    simp only [hflip, Decomposition.alternatives, List.forall_mem_singleton, size_not]
    omega
  | _ => exact fun _ h => absurd h List.not_mem_nil

/-- What a rule gives has at most twice the size of the formula it is for. -/
theorem size_alternatives (f : Formula) :
    ∀ fs ∈ f.decompose.alternatives, ∀ g ∈ fs, g.size ≤ 2 * f.size := by
  cases f with
  | not p =>
    rw [size_not]
    exact size_decomposeNegation p
  | binary op p q => cases op <;> simp [decompose, Decomposition.alternatives] <;> omega
  | quantified k x p =>
    have hbody : ∀ g ∈ [p], g.size ≤ 2 * (quantified k x p).size := by
      rw [List.forall_mem_singleton, size_quantified]
      omega
    by_cases hx : p.mentions x
    · rw [decompose_of_mentions hx]
      cases k <;> exact List.forall_mem_singleton.2 hbody
    · rw [decompose_of_not_mentions hx]
      exact List.forall_mem_singleton.2 hbody
  | root p =>
    simp only [decompose, Decomposition.alternatives, List.forall_mem_singleton, size_root]
    omega
  | identity p q =>
    rcases decompose_identity p q with h | h | ⟨a, b, -, -, h⟩ <;> rw [h] <;>
      exact fun _ h => absurd h List.not_mem_nil
  | _ => exact fun _ h => absurd h List.not_mem_nil

/-- The size, doubled for each unit of the weight. -/
def bulk (f : Formula) : Nat := f.size * 2 ^ f.weight false

theorem size_le_bulk (f : Formula) : f.size ≤ f.bulk :=
  Nat.le_mul_of_pos_right _ (Nat.two_pow_pos _)

theorem weight_lt_bulk (f : Formula) : f.weight false < f.bulk :=
  Nat.lt_of_lt_of_le Nat.lt_two_pow_self (Nat.le_mul_of_pos_left _ f.size_pos)

theorem bulk_substitute (a b : Char) (k : TermKind) (f : Formula) :
    (f.substitute a b k).bulk = f.bulk := by
  rw [bulk, bulk, size_substitute, weight_substitute]

theorem bulk_le_of_mem_alternatives {f g : Formula} {fs : List Formula}
    (hfs : fs ∈ f.decompose.alternatives) (hg : g ∈ fs) : g.bulk ≤ f.bulk := by
  by_cases hf : ∃ k s, f = .not (.term k s)
  · obtain ⟨k, s, rfl⟩ := hf
    rw [List.mem_singleton.1 hfs] at hg
    exact (List.mem_singleton.1 hg ▸ Nat.le_refl _)
  · have hweight : g.weight false < f.weight false :=
      Nat.lt_of_le_of_lt (weight_le_load hg)
        (load_lt_weight (fun k s he => hf ⟨k, s, he⟩) fs hfs)
    calc g.bulk ≤ 2 * f.size * 2 ^ g.weight false :=
          Nat.mul_le_mul_right _ (f.size_alternatives fs hfs g hg)
      _ = f.size * 2 ^ (g.weight false + 1) := by
          rw [Nat.pow_succ, Nat.mul_comm 2, Nat.mul_assoc, Nat.mul_comm 2]
      _ ≤ f.bulk := Nat.mul_le_mul_left _ (Nat.pow_le_pow_right Nat.two_pos hweight)

theorem finite_bulk_le (B : Nat) : {f : Formula | f.bulk ≤ B}.Finite :=
  (finite_size_le B).subset fun f hf => Nat.le_trans f.size_le_bulk hf

end Formula

namespace Path

open Formula

variable {p q : Path} {f : Formula} {c : Char} {others : List Formula} {B : Nat}

/-- The rules keep to a bound on the bulk. -/
theorem bulk_grow (hp : ∀ g ∈ p.formulas, g.bulk ≤ B) (ha : p.Admits f c others)
    (hq : q ∈ p.grow c others f.decompose) : ∀ g ∈ q.formulas, g.bulk ≤ B := by
  intro g hg
  rcases mem_of_mem_grow hq hg with hg | hg
  · exact hp g hg
  have hf := hp f ha.mem
  generalize hd : f.decompose = d at hg
  cases hg with
  | part hpart =>
    obtain ⟨fs, hfs, hg⟩ := d.exists_alternative hpart
    subst hd
    exact Nat.le_trans (bulk_le_of_mem_alternatives hfs hg) hf
  | @witness x body hc =>
    have hbody : [body] ∈ f.decompose.alternatives := hd ▸ List.mem_singleton_self _
    rw [bulk_substitute]
    exact Nat.le_trans (bulk_le_of_mem_alternatives hbody (List.mem_singleton_self _)) hf
  | @instantiated x e body he =>
    have hbody : [body] ∈ f.decompose.alternatives := hd ▸ List.mem_singleton_self _
    rw [bulk_substitute]
    exact Nat.le_trans (bulk_le_of_mem_alternatives hbody (List.mem_singleton_self _)) hf
  | replaced hmem hr =>
    rw [bulk_substitute]
    exact hp _ (ha.copied _ hmem)

/-! ## Room -/

/-- How many of the formulas with at most some bulk the branch has not. -/
noncomputable def room (B : Nat) (p : Path) : Nat :=
  ((finite_bulk_le B).toFinset.filter (· ∉ p.formulas)).card

theorem room_le (h : p.Continues q) : q.room B ≤ p.room B := by
  refine Finset.card_le_card (Finset.monotone_filter_right _ fun g _ hg hp => ?_)
  exact hg (h.formulas.subset hp)

/-- The room and the length of a branch together. -/
noncomputable def reach (B : Nat) (p : Path) : Nat := p.room B + p.formulas.length

theorem reach_push (hf : f.bulk ≤ B) (h : ¬p.contains f) : (p.push f).reach B ≤ p.reach B := by
  have hmem : f ∈ (finite_bulk_le B).toFinset.filter (· ∉ p.formulas) := by
    rw [Finset.mem_filter, Set.Finite.mem_toFinset]
    exact ⟨hf, fun hmem => h (contains_of_mem hmem)⟩
  have hroom : (p.push f).room B < p.room B := by
    refine Finset.card_lt_card ((Finset.ssubset_iff_of_subset ?_).2 ⟨f, hmem, ?_⟩)
    · exact Finset.monotone_filter_right _ fun g _ hg hp => hg (List.mem_cons_of_mem f hp)
    · exact fun hpush => (Finset.mem_filter.1 hpush).2 List.mem_cons_self
  unfold reach push at *
  rw [List.length_cons]
  omega

theorem reach_stack {fs : List Formula} (hfs : ∀ g ∈ fs, g.bulk ≤ B) :
    (p.stack fs).reach B ≤ p.reach B := by
  fun_induction p.stack fs with
  | case1 => exact Nat.le_refl _
  | case2 => exact Nat.le_refl _
  | case3 p g fs _ _ ih => exact ih (List.forall_mem_cons.1 hfs).2
  | case4 p g fs _ hg ih =>
    obtain ⟨hbulk, hfs⟩ := List.forall_mem_cons.1 hfs
    exact Nat.le_trans (ih hfs) (reach_push hbulk hg)

theorem reach_instantiateEach {x : Char} {body : Formula} (hbody : body.bulk ≤ B) (cs : List Char) :
    (p.instantiateEach x body cs).reach B ≤ p.reach B := by
  have hinstance : ∀ c, ∀ g ∈ [body.substitute x c .const], g.bulk ≤ B := by
    intro c
    rw [List.forall_mem_singleton, bulk_substitute]
    exact hbody
  fun_induction p.instantiateEach x body cs with
  | case1 => exact Nat.le_refl _
  | case2 p c cs q _ => exact reach_stack (hinstance c)
  | case3 p c cs q _ ih => exact Nat.le_trans ih (reach_stack (hinstance c))

theorem reach_replaceEach {a b : Char} {fs : List Formula} (hfs : ∀ g ∈ fs, g.bulk ≤ B) :
    (p.replaceEach a b fs).reach B ≤ p.reach B := by
  fun_induction p.replaceEach a b fs with
  | case1 => exact Nat.le_refl _
  | case2 p g fs _ ih => exact ih (List.forall_mem_cons.1 hfs).2
  | case3 p g fs _ _ _ r _ ih => exact ih (List.forall_mem_cons.1 hfs).2
  | case4 p g fs target replacement _ r hr _ =>
    obtain ⟨hbulk, -⟩ := List.forall_mem_cons.1 hfs
    rw [Bool.or_eq_true, not_or] at hr
    exact reach_push ((bulk_substitute _ _ _ g).trans_le hbulk) hr.2
  | case5 p g fs target replacement _ r hr _ ih =>
    obtain ⟨hbulk, hfs⟩ := List.forall_mem_cons.1 hfs
    rw [Bool.or_eq_true, not_or] at hr
    exact Nat.le_trans (ih hfs) (reach_push ((bulk_substitute _ _ _ g).trans_le hbulk) hr.2)

/-- What the rules for universals and identities place takes room. -/
theorem reach_grow (hp : ∀ g ∈ p.formulas, g.bulk ≤ B) (ha : p.Admits f c others)
    (hd : f.decompose.IsRepeatable) (hq : q ∈ p.grow c others f.decompose) :
    q.reach B ≤ p.reach B := by
  generalize he : f.decompose = d at hd hq
  cases d with
  | instances x body =>
    have hbody : [body] ∈ f.decompose.alternatives := he ▸ List.mem_singleton_self _
    have hbulk := bulk_le_of_mem_alternatives hbody (List.mem_singleton_self _)
    have hseed : p.seed.reach B = p.reach B := by
      unfold reach room
      rw [formulas_seed]
    rw [List.mem_singleton.1 hq, ← hseed]
    exact reach_instantiateEach (Nat.le_trans hbulk (hp f ha.mem)) _
  | replace a b =>
    rw [List.mem_singleton.1 hq]
    exact reach_replaceEach fun g hg => hp g (ha.copied g hg)
  | _ => exact hd.elim

end Path

end Sequitur
