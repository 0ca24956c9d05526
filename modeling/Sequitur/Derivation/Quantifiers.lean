import Sequitur.Constant
import Sequitur.Derivation.Propositional

/-!
# Rules for quantifiers

An existential is instantiated once, with a constant that the search does not know; a universal with
every constant that it knows. A vacuous quantifier stands for its body.
-/

namespace Sequitur.Derive

/-- The instance of a quantifier with a constant. -/
def instanceOf (f : Formula) (c : Char) : Derive Formula :=
  match f.instantiate c with
  | some p => pure p
  | none => throw (.formula .unexpectedKind)

/-- From `(∃x)P` to an instance of `P` with a fresh constant. -/
def existentialElimination : Rule
  | i, f@(.ex _ body) => do
    if !(← applied i .existentialElimination) then
      if f.isVacuous then
        discard (mark i .existentialElimination)
        add body .existentialElimination [i]
      else
        match fresh? (← get).known with
        | none =>
          emit (.withoutConstant f)
          modify fun s => { s with exhausted := true }
        | some c =>
          let p ← instanceOf f c
          emit (.instantiatedWith f c)
          discard (mark i .existentialElimination)
          modify fun s => { s with known := s.known.insert c }
          add p .existentialElimination [i]
  | _, _ => pure ()

/-- Records that the universal at `i` has been instantiated with a constant. -/
def recordInstance (i : Nat) (c : Char) : Derive Unit := do
  discard (derivation i)
  modify fun s => { s with store := s.store.addInstantiated i c }

/-- Instantiates the universal `f` at `i` with each of the given constants. -/
def instantiateEach (i : Nat) (f : Formula) : List Char → Derive Unit
  | [] => pure ()
  | c :: cs => do
    let p ← instanceOf f c
    emit (.instantiatedWith f c)
    recordInstance i c
    add p .universalElimination [i]
    instantiateEach i f cs

/-- Makes sure that the search knows a constant. One brought in here is arbitrary. -/
def seedConstant : Derive Unit := do
  if (← get).known.isEmpty then
    emit (.seeded firstConstant)
    modify fun s =>
      { s with
        known := s.known.insert firstConstant
        arbitrary := s.arbitrary.insert firstConstant }

/-- From `(∀x)P` to an instance of `P` with every constant that is known and was not used before. -/
def universalElimination : Rule
  | i, f@(.all _ body) => do
    if f.isVacuous then
      if ← mark i .universalElimination then
        add body .universalElimination [i]
    else
      seedConstant
      let constants := (← get).known.diff (← derivation i).instantiated
      if !constants.isEmpty then
        discard (mark i .universalElimination)
        instantiateEach i f constants
  | _, _ => pure ()

/-- Where an instance of a quantifier with one of the constants was derived, for the first constant of
which there is one. -/
def findInstance (f : Formula) : List Char → Derive (Option Nat)
  | [] => pure none
  | c :: cs => do
    let p ← instanceOf f c
    match (← get).position? p with
    | some i => pure (some i)
    | none => findInstance f cs

/-- Introduces the conclusion from what has been derived, if its kind has a rule for that. -/
def introduceConclusion : Derive Unit := do
  let s ← get
  let conclusion := s.conclusion.formula
  match conclusion with
  | .and p q =>
    match s.position? p, s.position? q with
    | some i, some j => add conclusion .conjunctionIntroduction [i, j]
    | _, _ => pure ()
  | .or p q =>
    match (s.position? p).or (s.position? q) with
    | some i => add conclusion .disjunctionIntroduction [i]
    | none => pure ()
  | .iff p q =>
    match s.position? (.implies p q), s.position? (.implies q p) with
    | some i, some j => add conclusion .biconditionalIntroduction [i, j]
    | _, _ => pure ()
  | .ex _ _ =>
    match ← findInstance conclusion constantSymbols with
    | some i => add conclusion .existentialIntroduction [i]
    | none => pure ()
  | .all _ _ =>
    match ← findInstance conclusion s.arbitrary.members with
    | some i => add conclusion .universalIntroduction [i]
    | none => pure ()
  | _ => pure ()

end Sequitur.Derive
