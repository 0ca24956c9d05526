import Sequitur.Derivation.Quantifiers

/-!
# Passes

A pass tries every rule on every derivation that was there when it began, and then tries to
introduce the conclusion. The search makes passes until it is finished or a pass derives nothing.
-/

namespace Sequitur

namespace Derive

/-- The rules, in the order in which they are tried on a derivation. -/
def rules : List Rule := [
  conjunctionElimination, doubleNegationElimination, biconditionalElimination, modusPonens,
  modusTollens, disjunctiveSyllogism, hypotheticalSyllogism, constructiveDilemma,
  destructiveDilemma, deMorgan, transposition, materialImplication, doubleNegationIntroduction,
  existentialElimination, universalElimination]

/-- Tries rules on the derivation of `f` at `i`, one after another. -/
def tryAll (i : Nat) (f : Formula) : List Rule → Derive Unit
  | [] => pure ()
  | rule :: rest => do
    rule i f
    tryAll i f rest

/-- Tries every rule on `count` derivations from `i` on, until the search is finished. -/
def sweep (i : Nat) : Nat → Derive Unit
  | 0 => pure ()
  | count + 1 => do
    if !(← get).isFinished then
      let d ← derivation i
      tryAll i d.formula rules
      sweep (i + 1) count

/-- One pass; the result is how many derivations it added. -/
def pass : Derive Nat := do
  modify fun s => { s with added := 0 }
  sweep 0 (← get).store.size
  if !(← get).isFinished then
    introduceConclusion
  return (← get).added

end Derive

/-- How a search ended. -/
inductive Ending where
  | proved (index : Nat)
  | constantsExhausted
  | timeout
  /-- A pass derived nothing. -/
  | fixpoint
  deriving DecidableEq, Repr

/-- How a search went. -/
structure SearchRun where
  search : Search
  passes : Nat
  outcome : Except Error Ending

/-- Runs a search that has made `made` passes and may make `remaining` more. -/
def Search.run (s : Search) (made : Nat) (remaining : Nat) : SearchRun :=
  match s.found with
  | some i => ⟨s.log (.proved made), made, .ok (.proved i)⟩
  | none =>
    if s.exhausted then ⟨s, made, .ok .constantsExhausted⟩
    else
      match remaining with
      | 0 => ⟨s, made, .ok .timeout⟩
      | n + 1 =>
        match Derive.pass s with
        | .error e s => ⟨s, made + 1, .error e⟩
        | .ok added s =>
          let s := s.log (.passed (made + 1) added)
          if added = 0 ∧ !s.isFinished then ⟨s, made + 1, .ok .fixpoint⟩
          else s.run (made + 1) n

end Sequitur
