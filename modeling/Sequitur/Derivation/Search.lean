import Sequitur.Context
import Sequitur.Derivation.Basic
import Sequitur.Formula.Build
import Sequitur.Formula.Terms

/-!
# A search for a derivation

The state of a search, and the one way in which it grows: `Derive.add` takes what a rule derives,
refuses what is of no use, and ends the search when the conclusion or a contradiction is reached.
-/

namespace Sequitur

structure Search where
  store : Derivations
  conclusion : Keyed
  /-- How many negations may be put in front of a formula on the way to a goal. -/
  negationLimit : Nat
  /-- Where the conclusion was derived. -/
  found : Option Nat
  /-- Whether a fresh constant was needed and there was none. -/
  exhausted : Bool
  /-- The constants of the argument and those brought in by the search. -/
  known : Symbols
  /-- The constants brought in without regard to a premise, the conclusion or an existential. -/
  arbitrary : Symbols
  /-- How many derivations were added in this pass. -/
  added : Nat
  trace : Trace
  deriving Inhabited

/-- What a search makes of a formula that a rule derives. -/
inductive Assessment where
  /-- The search is finished. -/
  | tooLate
  /-- Both sides of the formula are equal. -/
  | redundant
  /-- The formula has too long a run of negations. -/
  | overNegated
  /-- The formula has been derived before. -/
  | known
  | welcome
  deriving DecidableEq, Repr

/-- A step of a search. -/
abbrev Derive := EStateM Error Search

namespace Search

/-- The search for a conclusion that is about to begin. -/
def start (premises : List Formula) (conclusion : Formula) (negationLimit : Nat) : Search where
  store := .empty
  conclusion := .of conclusion.unrooted
  negationLimit := negationLimit
  found := none
  exhausted := false
  known := premises.foldl (fun s p => s.union p.constants) conclusion.unrooted.constants
  arbitrary := ∅
  added := 0
  trace := #[]

def isFinished (s : Search) : Bool := s.found.isSome || s.exhausted

/-- The first derivation that is structurally equal to a formula. -/
def position? (s : Search) (f : Formula) : Option Nat := s.store.position? f.canonical

/-- Whether a formula is structurally equal to the conclusion. -/
def isConclusion (s : Search) (f : Formula) : Bool := (Keyed.of f).reads s.conclusion.form

/-- Whether a formula is the conclusion or a premise. -/
def isGoal (s : Search) (f : Formula) : Bool :=
  let content := Keyed.of f
  content.reads s.conclusion.form ||
    ((s.store.position? content.form).bind s.store.get?).any (·.step = .premise)

/-- The first derivation contrary to a formula: its negation, or what it negates. -/
def contrary? (s : Search) (f : Formula) : Option Nat :=
  (s.position? (.not f)).or (f.negated.bind s.position?)

def log (s : Search) (e : Event) : Search := { s with trace := s.trace.push e }

/-- Whether a search has use for a formula. The conclusion is never refused for its form, nor an
assumption for its negations. -/
def assess (s : Search) (content : Keyed) (step : Step) : Assessment :=
  let isConclusion := content.reads s.conclusion.form
  if s.isFinished then .tooLate
  else if !isConclusion && content.formula.isRedundant then .redundant
  else if !isConclusion && !step.isAssumption && content.formula.negationDepth > negationMax then
    .overNegated
  else if (s.store.position? content.form).isSome then .known
  else .welcome

/-! ## Structural equality in a search -/

theorem isConclusion_eq (s : Search) (f : Formula) :
    s.isConclusion f = f.structurallyEquals s.conclusion.formula := by
  rw [isConclusion, s.conclusion.form_eq, Keyed.reads_canonical, Keyed.formula_of]

end Search

namespace Derive

def emit (e : Event) : Derive Unit := modify (·.log e)

/-- The derivation at an index. -/
def derivation (i : Nat) : Derive Derivation := fun s =>
  match s.store.get i with
  | .ok d => .ok d s
  | .error cause => .error (.deduction cause) s

/-- Stores a derivation as it is. -/
def insert (content : Keyed) (step : Step) (parents : List Nat) : Derive Nat := fun s =>
  match s.store.insert content step parents with
  | .ok (i, store) => .ok i { s with store := store }
  | .error cause => .error (.deduction cause) s

/-- Marks a rule as tried on a derivation; true if it was not marked before. -/
def mark (i : Nat) (step : Step) : Derive Bool := fun s =>
  match s.store.mark i step with
  | .ok (fresh, store) => .ok fresh { s with store := store }
  | .error cause => .error (.deduction cause) s

/-- Whether a rule has been tried on a derivation. -/
def applied (i : Nat) (step : Step) : Derive Bool := return (← derivation i).marks.has step

/-- The pair of derivations, affirmed and denied, by which the new derivation of `f` at `i` makes a
contradiction. A double negation is left for its own rule. -/
def contradiction? (s : Search) (i : Nat) (f : Formula) : Option (Nat × Nat) :=
  match f with
  | .not (.not _) => none
  | .not p => (s.position? p).map (·, i)
  | p => (s.position? (.not p)).map (i, ·)

/-- Ends the search with the conclusion, given where falsum is. -/
def concludeFrom (falsum : Nat) : Derive Unit := do
  let conclusion := (← get).conclusion
  let i ←
    if conclusion.formula.isFalsum then pure falsum
    else insert conclusion .contradictionElimination [falsum]
  modify fun s => { s with found := some i }

/-- Ends the search if the derivation at `i` is falsum or contradicts another. -/
def checkContradiction (i : Nat) : Derive Unit := do
  let f := (← derivation i).formula
  if f.isFalsum then
    concludeFrom i
  else
    match contradiction? (← get) i f with
    | none => pure ()
    | some (positive, negative) =>
      emit (.contradiction f)
      let falsum ← insert (.of .falsum) .contradictionIntroduction [positive, negative]
      concludeFrom falsum

/-- Marks the rule that would only undo `step` as tried on what `step` has derived. -/
def markInverse (i : Nat) (step : Step) : Derive Unit :=
  match step.inverse with
  | some inverse => discard (mark i inverse)
  | none => pure ()

/-- Stores what a rule derives, and ends the search if that is the conclusion or makes a
contradiction. -/
def accept (content : Keyed) (step : Step) (parents : List Nat) : Derive Unit := do
  emit (.derived step content.formula)
  let i ← insert content step parents
  modify fun s => { s with added := s.added + 1 }
  markInverse i step
  if content.reads (← get).conclusion.form then
    modify fun s => { s with found := some i }
  else
    checkContradiction i

/-- Adds what a rule derives, if it is of use. -/
def add (f : Formula) (step : Step) (parents : List Nat) : Derive Unit := do
  let content := Keyed.of f
  match (← get).assess content step with
  | .welcome => accept content step parents
  | .redundant => emit (.redundant f)
  | .overNegated => emit (.overNegated negationMax f)
  | .tooLate | .known => pure ()

end Derive

end Sequitur
