import Sequitur.Formula.Build
import Sequitur.Proofs.Formula.Size

/-!
# The extent of a formula

The extent of a formula is its size with the negations left out, and its span is the extent of the
larger of its two sides. The rules of deduction put the sides of formulas together in other ways, so
that sizes and extents grow, but they keep to the same span. A formula of a bounded span whose runs of
negations are bounded too is of a bounded size (`size_le_of_span_le`).
-/

namespace Sequitur.Formula

/-- The size of a formula without its negations. Those inside a predicate or an identity count. -/
def extent : Formula → Nat
  | .not p => p.extent
  | .binary _ p q => p.extent + q.extent + 1
  | .quantified _ _ p | .root p => p.extent + 1
  | f => f.size

/-- The extent of the larger side of a formula that has two. A biconditional counts as a whole, since
what its rules give has both of its sides on either side. -/
def span : Formula → Nat
  | .not p => p.span
  | .binary .iff p q => p.extent + q.extent + 1
  | .binary _ p q => max p.extent q.extent
  | f => f.extent

variable {f : Formula}

theorem extent_le_size (f : Formula) : f.extent ≤ f.size := by
  induction f with
  | not p ih =>
    rw [extent, size_not]
    omega
  | binary op p q ihp ihq =>
    rw [extent, size_binary]
    omega
  | quantified k x p ih =>
    rw [extent, size_quantified]
    omega
  | root p ih =>
    rw [extent, size_root]
    omega
  | _ => exact Nat.le_refl _

theorem span_le_extent (f : Formula) : f.span ≤ f.extent := by
  induction f with
  | not p ih => exact ih
  | binary op p q =>
    cases op <;> simp only [span, extent] <;> omega
  | _ => exact Nat.le_refl _

theorem span_le_size (f : Formula) : f.span ≤ f.size :=
  Nat.le_trans f.span_le_extent f.extent_le_size

theorem extent_le_span (f : Formula) : f.extent ≤ 2 * f.span + 1 := by
  induction f with
  | not p ih => exact ih
  | binary op p q =>
    cases op <;> simp only [span, extent] <;> omega
  | _ =>
    simp only [span]
    omega

theorem extent_substitute (a b : Char) (k : TermKind) (f : Formula) :
    (f.substitute a b k).extent = f.extent := by
  induction f with
  | not p ih => exact ih
  | binary op p q ihp ihq =>
    show (p.substitute a b k).extent + (q.substitute a b k).extent + 1 = _
    rw [ihp, ihq, extent]
  | quantified q x p ih => exact congrArg (· + 1) ih
  | root p ih => exact congrArg (· + 1) ih
  | term l s =>
    rw [substitute]
    split <;> rfl
  | _ => exact size_substitute a b k _

/-! ## Runs of negations -/

theorem le_negationDepthBelow (run : Nat) (f : Formula) : run ≤ f.negationDepthBelow run := by
  induction f generalizing run with
  | not p ih =>
    have := ih (run + 1)
    rw [negationDepthBelow]
    omega
  | atom | term | falsum => exact Nat.le_refl _
  | _ => exact Nat.le_max_left _ _

theorem add_le_succ_mul {m n run : Nat} (hm : 0 < m) (h : run ≤ n) : m + run ≤ (n + 1) * m := by
  have := Nat.le_mul_of_pos_right n hm
  rw [Nat.succ_mul]
  omega

/-- The negations come in runs of at most `n`, one for each part that is not a negation. Those that
the formula stands below are counted with the first run. -/
theorem size_add_le {run n : Nat} (h : f.negationDepthBelow run ≤ n) :
    f.size + run ≤ (n + 1) * f.extent := by
  induction f generalizing run with
  | not p ih =>
    have := ih h
    rw [size_not, extent]
    omega
  | binary op p q ihp ihq =>
    obtain ⟨hrun, hsides⟩ := Nat.max_le.1 h
    have hp := ihp (Nat.max_le.1 hsides).1
    have hq := ihq (Nat.max_le.1 hsides).2
    rw [size_binary, extent, Nat.mul_succ, Nat.mul_add]
    omega
  | quantified k x p ih =>
    obtain ⟨hrun, hbody⟩ := Nat.max_le.1 h
    have := ih hbody
    rw [size_quantified, extent, Nat.mul_succ]
    omega
  | root p ih =>
    obtain ⟨hrun, hinner⟩ := Nat.max_le.1 h
    have := ih hinner
    rw [size_root, extent, Nat.mul_succ]
    omega
  | _ => exact add_le_succ_mul (size_pos _) (Nat.le_trans (le_negationDepthBelow run _) h)

/-- A formula whose runs of negations are bounded, and whose span is, is of a bounded size. -/
theorem size_le_of_span_le {n B : Nat} (hdepth : f.negationDepth ≤ n) (hspan : f.span ≤ B) :
    f.size ≤ (n + 1) * (2 * B + 1) := by
  have hextent : f.extent ≤ 2 * B + 1 := by
    have := f.extent_le_span
    omega
  calc f.size ≤ (n + 1) * f.extent := size_add_le hdepth
    _ ≤ (n + 1) * (2 * B + 1) := Nat.mul_le_mul_left _ hextent

end Sequitur.Formula
