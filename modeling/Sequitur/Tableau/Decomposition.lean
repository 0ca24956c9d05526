import Sequitur.Formula.Build
import Sequitur.Formula.Terms

/-!
# The rules of a tableau

What follows from a formula on a branch: formulas to be stacked on the branch, a split of the branch
in two, instances of a quantifier, or replacements by an identity.
-/

namespace Sequitur

/-- What the rule for a formula does to a branch. -/
inductive Decomposition where
  /-- The formula is as simple as it can be. -/
  | nothing
  | stack (formulas : List Formula)
  /-- Two ways for the branch to go on, each with its first formula and the rest. -/
  | split (left : Formula) (lefts : List Formula) (right : Formula) (rights : List Formula)
  /-- An instance of the body with a fresh constant. -/
  | witness (x : Char) (body : Formula)
  /-- An instance of the body with each constant of the branch. -/
  | instances (x : Char) (body : Formula)
  /-- One symbol replaced by the other in what is closable on the branch. -/
  | replace (a b : Char)
  /-- The formula is a term, or an identity of what has no symbol. -/
  | unexpected
  deriving DecidableEq

namespace Formula

/-- The rule for the negation of a formula. -/
def decomposeNegation : Formula → Decomposition
  | .iff p q => .split p [.not q] (.not p) [q]
  | .implies p q => .stack [p, .not q]
  | .xor p q => .split p [q] (.not p) [.not q]
  | .atom _ | .predicate _ _ | .identity _ _ | .falsum => .nothing
  | f => .stack [f.flip]

/-- The rule for a formula. A vacuous quantifier stands for its body. -/
def decompose (f : Formula) : Decomposition :=
  match f with
  | .not p => p.decomposeNegation
  | .and p q => .stack [p, q]
  | .or p q => .split p [] q []
  | .implies p q => .split (.not p) [] q []
  | .iff p q => .split p [q] (.not p) [.not q]
  | .xor p q => .split p [.not q] (.not p) [q]
  | .ex x p => if f.isVacuous then .stack [p] else .witness x p
  | .all x p => if f.isVacuous then .stack [p] else .instances x p
  | .identity p q =>
    match p.symbol, q.symbol with
    | some a, some b => if a = b then .nothing else .replace a b
    | _, _ => .unexpected
  | .root p => .stack [p]
  | .atom _ | .predicate _ _ | .falsum => .nothing
  | .term _ _ => .unexpected

end Formula

end Sequitur
