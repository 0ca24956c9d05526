import Mathlib.Algebra.GroupWithZero.Nat
import Mathlib.Algebra.Order.BigOperators.Group.List
import Mathlib.Algebra.Order.Group.Nat
import Mathlib.Data.Finite.Prod
import Mathlib.Data.Fintype.Option
import Mathlib.Data.Set.Finite.List
import Mathlib.Tactic.Lift
import Sequitur.Proofs.Formula.Kinds

/-!
# The size of a formula

A formula has one node more than the formulas directly inside it have together, and an instance has
as many as the body. A formula can be put together again from its kind, its symbol and what is
directly inside it, and there are finitely many kinds and symbols. So only finitely many formulas are
of a bounded size (`finite_size_le`).
-/

namespace Sequitur

instance : Finite Kind :=
  .of_surjective (fun i : Fin 15 => Kind.ofNat i) fun k => by cases k <;> decide

instance finite_char : Finite Char :=
  .of_injective (fun c => c.val.toBitVec.toFin) fun _ _ h =>
    Char.ext (UInt32.toBitVec_inj.1 (BitVec.toFin_inj.1 h))

namespace Formula

theorem size_eq (f : Formula) : f.size = (f.children.map size).sum + 1 := by
  unfold size
  rw [subformulas_eq, List.length_cons, List.length_flatMap]

@[simp] theorem size_not (p : Formula) : (not p).size = p.size + 1 := size_eq _

@[simp] theorem size_root (p : Formula) : (root p).size = p.size + 1 := size_eq _

@[simp] theorem size_quantified (k : Quantifier) (x : Char) (p : Formula) :
    (quantified k x p).size = p.size + 1 := size_eq _

@[simp] theorem size_binary (op : Connective) (p q : Formula) :
    (binary op p q).size = p.size + q.size + 1 := by
  rw [size_eq]
  simp [children]

theorem size_pos (f : Formula) : 0 < f.size := by
  rw [size_eq]
  exact Nat.succ_pos _

theorem size_lt_of_mem_children {f g : Formula} (h : g ∈ f.children) : g.size < f.size := by
  rw [f.size_eq]
  exact Nat.lt_succ_of_le (List.le_sum_of_mem (List.mem_map_of_mem h))

theorem length_children_lt (f : Formula) : f.children.length < f.size := by
  rw [f.size_eq, ← List.length_map (f := size)]
  refine Nat.lt_succ_of_le (List.length_le_sum_of_one_le _ fun n hn => ?_)
  obtain ⟨g, -, rfl⟩ := List.mem_map.1 hn
  exact g.size_pos

theorem size_substitute (a b : Char) (k : TermKind) (f : Formula) :
    (f.substitute a b k).size = f.size := by
  have hchildren : ∀ g ∈ f.children, (g.substitute a b k).size = g.size := fun g hg =>
    size_substitute a b k g
  rw [size_eq, children_substitute, List.map_map, f.size_eq]
  exact congrArg (·.sum + 1) (List.map_congr_left hchildren)
termination_by f
decreasing_by exact sizeOf_lt_of_mem_children hg

/-! ## Finitely many formulas -/

/-- The formula of a kind, with a symbol and what is directly inside it. -/
def assemble : Kind → Option Char → List Formula → Formula
  | .atom, some s, _ => .atom s
  | .predicate, some s, ps => .predicate s ps
  | .var, some s, _ => .var s
  | .const, some s, _ => .const s
  | .negation, _, [p] => .not p
  | .and, _, [p, q] => .and p q
  | .or, _, [p, q] => .or p q
  | .implication, _, [p, q] => .implies p q
  | .biconditional, _, [p, q] => .iff p q
  | .exclusiveOr, _, [p, q] => .xor p q
  | .identity, _, [p, q] => .identity p q
  | .universal, some x, [p] => .all x p
  | .existential, some x, [p] => .ex x p
  | .root, _, [p] => .root p
  | _, _, _ => .falsum

theorem assemble_kind (f : Formula) : assemble f.kind f.symbol f.children = f := by
  cases f with
  | term k s => cases k <;> rfl
  | binary op p q => cases op <;> rfl
  | quantified k x p => cases k <;> rfl
  | _ => rfl

/-- Only finitely many formulas are of a bounded size. -/
theorem finite_size_le (n : Nat) : {f : Formula | f.size ≤ n}.Finite := by
  induction n with
  | zero =>
    refine Set.finite_empty.subset fun f hf => ?_
    exact absurd hf (Nat.not_le_of_lt f.size_pos)
  | succ n ih =>
    -- What is directly inside is a list of at most `n` formulas, and each is of size at most `n`.
    have hlists : {ps : List Formula | ps.length ≤ n ∧ ∀ p ∈ ps, p.size ≤ n}.Finite := by
      have := ih.to_subtype
      refine ((List.finite_length_le {f : Formula | f.size ≤ n} n).image
        (List.map Subtype.val)).subset ?_
      rintro ps ⟨hlength, hsize⟩
      lift ps to List {f : Formula | f.size ≤ n} using hsize
      rw [List.length_map] at hlength
      exact ⟨ps, hlength, rfl⟩
    have hall := (Set.finite_univ (α := Kind)).prod ((Set.finite_univ (α := Option Char)).prod hlists)
    refine (hall.image fun x => assemble x.1 x.2.1 x.2.2).subset fun f hf => ?_
    refine ⟨(f.kind, f.symbol, f.children), ⟨trivial, trivial, ?_, fun p hp => ?_⟩, f.assemble_kind⟩
    · exact Nat.le_of_lt_succ (Nat.lt_of_lt_of_le f.length_children_lt hf)
    · exact Nat.le_of_lt_succ (Nat.lt_of_lt_of_le (size_lt_of_mem_children hp) hf)

end Formula

end Sequitur
