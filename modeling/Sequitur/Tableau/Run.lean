import Sequitur.Tableau.Dispatch

/-!
# Expanding a tableau

Nodes are taken from the agenda and dispatched until every branch is closed, the agenda is empty, a
limit is reached or the constants run out.
-/

namespace Sequitur

namespace Expand

/-- Puts leaves on the agenda, closing those whose branch is contradictory. -/
def enqueueLeaves : List Nat → Expand Unit
  | [] => pure ()
  | leaf :: leaves => do
    checkClosure leaf
    enqueue leaf
    enqueueLeaves leaves

/-- Puts every leaf of the tableau on the agenda. -/
def seed : Expand Unit := do
  enqueueLeaves ((← tableau).leavesBelow Tableau.root)

/-- Dispatches a node and says how many nodes that added; true if the constants have run out. -/
def advance (key : Nat) : Expand Bool := do
  match ← dispatch key with
  | .added 0 => return false
  | .added n =>
    emit (.added n)
    return false
  | .constantsExhausted => return true

end Expand

/-- How an expansion went. -/
structure Run where
  expansion : Expansion
  /-- How many nodes were dispatched. -/
  dispatches : Nat
  outcome : Except TableauError Status

/-- Runs an expansion that has made `made` dispatches and may make `remaining` more. -/
def Expansion.run (s : Expansion) (made : Nat) (remaining : Nat) : Run :=
  if s.tableau.allClosedBelow Tableau.root then ⟨s, made, .ok .complete⟩
  else
    match s.agenda with
    | [] => ⟨s, made, .ok .complete⟩
    | e :: agenda =>
      let s := { s with agenda := agenda }
      match remaining with
      | 0 => ⟨s, made, .ok .timeout⟩
      | n + 1 =>
        match Expand.advance e.key s with
        | .ok false s => s.run (made + 1) n
        | .ok true s => ⟨s, made + 1, .ok .constantsExhausted⟩
        | .error cause s => ⟨s, made + 1, .error cause⟩

/-- The verdict on the formula at the root. -/
def Tableau.verdict (t : Tableau) : Report :=
  if t.hasAllClosed then .closed else if t.status = .complete then .unclosed else .unknown

namespace Context

/-- Expands a tableau within what is left of the limit on dispatches. All its leaves count as not
yet dispatched. If a step fails, the tableau keeps what was added. -/
def expand (c : Context) (t : Tableau) : Context × Tableau × Except Error Report :=
  match Expand.seed (.start t c.settings.requeueUniversals.value) with
  | .error cause s => ({ c with trace := c.trace ++ s.trace }, s.tableau, .error (.tableau cause))
  | .ok _ s =>
    let run := s.run c.counters.dispatches
      (c.settings.tableauLimit.value - c.counters.dispatches)
    let t := run.expansion.tableau
    let c :=
      { c with
        counters := { c.counters with dispatches := run.dispatches }
        trace := c.trace ++ run.expansion.trace }
    match run.outcome with
    | .error cause => (c, t, .error (.tableau cause))
    | .ok status =>
      let c :=
        match status with
        | .timeout => c.note (.tableauTimeout run.dispatches)
        | .constantsExhausted => c.note .constantsExhausted
        | .pending | .complete => c
      let t := { t with status := status }
      let report := t.verdict
      let c := c.log (.expanded report run.dispatches)
      ({ c with counters := { c.counters with tableauNodes := t.size }, report := report }, t,
        .ok report)

/-- Builds and expands the tableau of a formula, as a new run. -/
def buildTableau (c : Context) (f : Formula) : Context × Except Error Tableau :=
  match c.reset.expand (.start f) with
  | (c, t, .ok _) => (c, .ok t)
  | (c, _, .error e) => (c, .error e)

end Context

end Sequitur
