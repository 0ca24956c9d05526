import Sequitur.Derivation.Pass
import Sequitur.Derivation.Premises

/-!
# Proofs

A finished search is cut down to what the conclusion rests on, and its derivations become numbered
lines. `Context.prove` is the whole way from an argument to a proof.
-/

namespace Sequitur

/-- Whether the negation of the conclusion is assumed. -/
inductive ProofType where
  | direct
  | indirect
  deriving DecidableEq, Repr, Inhabited

namespace Derive

/-- The line number of an index among those that are kept. -/
def lineNumber (kept : List Nat) (i : Nat) : Derive Nat :=
  match kept.idxOf? i with
  | some n => pure (n + 1)
  | none => throw (.deduction .missingNode)

/-- The line numbers of some indices, in order. -/
def lineNumbers (kept : List Nat) : List Nat → Derive (List Nat)
  | [] => pure []
  | i :: is => do
    let n ← lineNumber kept i
    return n :: (← lineNumbers kept is)

/-- Turns derivations into lines, and makes them part of the proof. -/
def toLines (kept : List Nat) : List Nat → Derive (List Line)
  | [] => pure []
  | i :: is => do
    let d ← derivation i
    let parents := (← lineNumbers kept d.parents).mergeSort
    modify fun s => { s with store := s.store.activate i parents }
    return ⟨d.formula, d.step, parents⟩ :: (← toLines kept is)

/-- Records the lines of a proof, from number `n` on. -/
def emitLines (n : Nat) : List Line → Derive Unit
  | [] => pure ()
  | l :: ls => do
    emit (.line n l)
    emitLines (n + 1) ls

/-- The proof of the conclusion derived at an index. A conclusion that is among the premises is
repeated as a line of its own. -/
def finish (found : Nat) : Derive (List Line) := do
  let d ← derivation found
  let last ←
    if d.step = .premise then insert (← get).conclusion .conclusion [found] else pure found
  let kept := (← get).store.ancestorsOf last
  let lines ← toLines kept kept
  emit (.finished lines.length (← get).store.size)
  emitLines 1 lines
  return lines

/-- Takes up the premises of an argument. -/
def addPremises : List Formula → Derive Unit
  | [] => pure ()
  | p :: ps => do
    add p .premise []
    addPremises ps

/-- Takes up what is assumed: the premises, in order, and for an indirect proof the negation of the
conclusion. -/
def assume (premises : List Formula) (kind : ProofType) : Derive Unit := do
  addPremises (orderPremises premises)
  if kind = .indirect then
    add (.not (← get).conclusion.formula) .reductioAssumption []

end Derive

namespace Context

/-- Notes how a search ended. -/
def noteEnding (c : Context) (passes : Nat) : Ending → Context
  | .proved _ => c
  | .constantsExhausted => c.note .constantsExhausted
  | .timeout => c.note (.deductionTimeout passes)
  | .fixpoint => { c.note (.deductionExhausted passes) with report := .notProved }

/-- The context with what a search has left to tell. -/
def absorb (c : Context) (s : Search) : Context := { c with trace := c.trace ++ s.trace }

/-- Searches for a derivation of a conclusion from premises, as a new run. -/
def prove (c : Context) (premises : List Formula) (conclusion : Formula) (kind : ProofType) :
    Context × Except Error (Option (List Line)) :=
  let c := c.reset
  match Derive.assume premises kind
      (.start premises conclusion c.settings.negationLimit.value) with
  | .error e s => (c.absorb s, .error e)
  | .ok _ s =>
    let run := s.run 0 c.settings.deductionLimit.value
    let c := { c with counters := { c.counters with passes := run.passes } }
    match run.outcome with
    | .error e => (c.absorb run.search, .error e)
    | .ok ending =>
      let c := { c with counters := { c.counters with derivations := run.search.store.size } }
      match ending with
      | .proved i =>
        match Derive.finish i run.search with
        | .error e s => (c.absorb s, .error e)
        | .ok lines s => ({ c.absorb s with report := .proved }, .ok (some lines))
      | ending => ((c.absorb run.search).noteEnding run.passes ending, .ok none)

end Context

end Sequitur
