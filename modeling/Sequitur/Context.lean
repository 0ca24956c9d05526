import Sequitur.Settings
import Sequitur.Trace

/-!
# Contexts

A context is what a run reads and what it leaves behind: settings, counts, diagnostics, the report,
and the trace of all that happened since the context was made.
-/

namespace Sequitur

structure Counters where
  /-- Nodes dispatched. -/
  dispatches : Nat := 0
  /-- Nodes of the tableau, the root included. -/
  tableauNodes : Nat := 0
  /-- Passes over the derivations. -/
  passes : Nat := 0
  /-- Derivations made, the premises included. -/
  derivations : Nat := 0
  deriving DecidableEq, Repr, Inhabited

structure Context where
  settings : Settings := {}
  counters : Counters := {}
  diagnostics : List Diagnostic := []
  report : Report := .unknown
  trace : Trace := #[]
  deriving Inhabited

namespace Context

/-- The context ready for a new run: only the settings and the trace stay. -/
def reset (c : Context) : Context :=
  { c with counters := {}, diagnostics := [], report := .unknown }

def log (c : Context) (e : Event) : Context := { c with trace := c.trace.push e }

/-- Notes why a run ends as it does. -/
def note (c : Context) (d : Diagnostic) : Context :=
  let c := c.log (.noted d)
  { c with diagnostics := c.diagnostics ++ [d] }

/-- Whether a limit stopped the last run. -/
def timedOut (c : Context) : Bool := c.diagnostics.any (·.isTimeout)

/-- Changes a setting, if the new value is within its bounds. -/
def configure (c : Context) (change : Settings.Change) : Context × Except Error Unit :=
  match c.settings.change? change with
  | some s => ({ c with settings := s }, .ok ())
  | none => (c.log (.refused (c.settings.changed change)), .error .outOfBounds)

end Context

end Sequitur
