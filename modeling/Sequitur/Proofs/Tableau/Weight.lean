import Mathlib.Algebra.GroupWithZero.Nat
import Sequitur.Proofs.Canonical.Readability
import Sequitur.Proofs.Semantics.Likeness
import Sequitur.Proofs.Tableau.Inheritance

/-!
# The weight of a formula

A rule may give a formula with more nodes than the one it is for: a negation pushed inwards grows.
The weight of a formula is counted twice, as affirmed and as denied, and in this way what a rule gives
weighs less, on each side of a split all together (`weight_alternatives`). Instances weigh what the
body does, and structurally equal formulas without wrappers weigh the same.
-/

namespace Sequitur

/-- What the rule gives, for each way of going on. -/
def Decomposition.alternatives : Decomposition → List (List Formula)
  | .stack fs => [fs]
  | .split left lefts right rights => [left :: lefts, right :: rights]
  | .witness _ p | .instances _ p => [[p]]
  | .nothing | .replace _ _ | .unexpected => []

namespace Formula

/-- The weight of a formula, or of its negation. -/
def weight (denied : Bool) : Formula → Nat
  | .not p => p.weight (!denied) + denied.toNat
  | .binary .and p q | .binary .or p q => p.weight denied + q.weight denied + 1 + denied.toNat
  | .binary .implies p q => p.weight (!denied) + q.weight denied + 1
  | .binary .iff p q | .binary .xor p q =>
    p.weight false + p.weight true + (q.weight false + q.weight true) + 3
  | .quantified _ _ p => p.weight denied + 1 + denied.toNat
  | .root p => p.weight denied + 1
  | .atom _ | .predicate _ _ | .term _ _ | .identity _ _ | .falsum => 1

/-- What formulas weigh together. -/
def load (fs : List Formula) : Nat := (fs.map (weight false)).sum

@[simp] theorem load_nil : load [] = 0 := rfl

@[simp] theorem load_cons (f : Formula) (fs : List Formula) :
    load (f :: fs) = f.weight false + load fs := by
  rw [load, List.map_cons, List.sum_cons, load]

theorem weight_le_load {f : Formula} {fs : List Formula} (h : f ∈ fs) :
    f.weight false ≤ load fs := by
  induction fs with
  | nil => exact absurd h List.not_mem_nil
  | cons g fs ih =>
    rw [load_cons]
    rcases List.mem_cons.1 h with rfl | h
    · exact Nat.le_add_right _ _
    · exact Nat.le_add_left_of_le (ih h)

theorem weight_pos (denied : Bool) (f : Formula) : 0 < f.weight denied := by
  induction f generalizing denied with
  | not p ih => exact Nat.add_pos_left (ih _) _
  | binary op p q _ _ => cases op <;> cases denied <;> exact Nat.succ_pos _
  | quantified k x p _ => cases denied <;> exact Nat.succ_pos _
  | root p _ => exact Nat.succ_pos _
  | _ => exact Nat.one_pos

/-! ## What the rules give -/

theorem weight_flip_le (p : Formula) : p.flip.weight false ≤ p.weight true := by
  induction p with
  | root p ih => exact Nat.le_succ_of_le ih
  | binary op p q _ _ =>
    cases op <;> simp only [flip, weight, Bool.not_false, Bool.not_true, Bool.toNat_true,
      Bool.toNat_false] <;> omega
  | quantified k x p _ => cases k <;> exact Nat.le_succ _
  | not p _ => exact Nat.le_succ _
  | _ => exact Nat.le_refl _

theorem load_decomposeNegation {p : Formula} (hp : ∀ k s, p ≠ .term k s) :
    ∀ fs ∈ p.decomposeNegation.alternatives, load fs < p.weight true := by
  cases p with
  | term k s => exact absurd rfl (hp k s)
  | root p =>
    have hflip := p.weight_flip_le
    simp only [decomposeNegation_root, Decomposition.alternatives, List.forall_mem_singleton,
      load_cons, load_nil, weight]
    omega
  | not p =>
    simp only [decomposeNegation_not, Decomposition.alternatives, List.forall_mem_singleton,
      load_cons, load_nil, weight, Bool.not_true, Bool.toNat_true]
    omega
  | binary op p q => cases op <;> simp [Decomposition.alternatives, weight] <;> omega
  | quantified k x p =>
    cases k <;> simp only [decomposeNegation_quantified, Decomposition.alternatives,
      List.forall_mem_singleton, load_cons, load_nil, flip, weight, Bool.not_false, Bool.toNat_true,
      Bool.toNat_false] <;> omega
  | _ => exact fun _ h => absurd h List.not_mem_nil

/-- What a rule gives weighs less than the formula it is for. Only the negation of a term has a rule
that gives it back. -/
theorem load_lt_weight {f : Formula} (hf : ∀ k s, f ≠ .not (.term k s)) :
    ∀ fs ∈ f.decompose.alternatives, load fs < f.weight false := by
  cases f with
  | not p => exact load_decomposeNegation fun k s h => hf k s (h ▸ rfl)
  | binary op p q =>
    cases op <;> simp [decompose, Decomposition.alternatives, weight] <;> omega
  | quantified k x p =>
    have hbody : load [p] < (quantified k x p).weight false := by
      simp only [load_cons, load_nil, weight, Bool.toNat_false]
      omega
    by_cases hx : p.mentions x
    · rw [decompose_of_mentions hx]
      cases k <;> exact List.forall_mem_singleton.2 hbody
    · rw [decompose_of_not_mentions hx]
      exact List.forall_mem_singleton.2 hbody
  | root p => exact List.forall_mem_singleton.2 (Nat.lt_succ_self _)
  | identity p q =>
    rcases decompose_identity p q with h | h | ⟨a, b, -, -, h⟩ <;> rw [h] <;>
      exact fun _ h => absurd h List.not_mem_nil
  | _ => exact fun _ h => absurd h List.not_mem_nil

/-! ## Formulas of one weight -/

theorem weight_substitute (a b : Char) (k : TermKind) (denied : Bool) (f : Formula) :
    (f.substitute a b k).weight denied = f.weight denied := by
  induction f generalizing denied with
  | term l s =>
    rw [substitute]
    split <;> rfl
  | predicate s ps _ => rw [substitute_predicate, weight, weight]
  | not p ih => rw [substitute, weight, weight, ih]
  | binary op p q hp hq => cases op <;> simp only [substitute, weight, hp, hq]
  | quantified l x p ih => rw [substitute, weight, weight, ih]
  | root p ih => rw [substitute, weight, weight, ih]
  | _ => rfl

theorem weight_plain {f : Formula} (h : f.Lacks .root) (denied : Bool) :
    f.plain.weight denied = f.weight denied := by
  induction f generalizing denied with
  | predicate s ps _ => cases ps <;> rfl
  | not p ih => rw [plain, weight, weight, ih (h.of_mem_children (by simp [children]))]
  | binary op p q hp hq =>
    have hp := hp (h.of_mem_children (by simp [children]))
    have hq := hq (h.of_mem_children (by simp [children]))
    cases op <;> simp only [plain, weight, hp, hq]
  | quantified k x p ih => rw [plain, weight, weight, ih (h.of_mem_children (by simp [children]))]
  | root p _ => exact absurd rfl h.kind_ne
  | _ => rfl

theorem weight_commuted {f g : Formula} (h : f.commuted = some g) (denied : Bool) :
    g.plain.weight denied = f.weight denied := by
  rw [commuted.eq_def] at h
  split at h
  · obtain rfl := Option.some.inj h
    rfl
  · obtain rfl := Option.some.inj h
    rfl
  · simp at h

theorem weight_of_structurallyEquals {f g : Formula} (hf : f.Lettered) (hg : g.Lettered)
    (hfr : f.Lacks .root) (hgr : g.Lacks .root) (h : f.structurallyEquals g) (denied : Bool) :
    f.weight denied = g.weight denied := by
  rcases plain_of_structurallyEquals hf hg h with he | ⟨f', hf', he⟩
  · rw [← weight_plain hfr, he, weight_plain hgr]
  · rw [← weight_commuted hf', he, weight_plain hgr]

end Formula

end Sequitur
