/-!
# Reports

A report is the verdict of a run; a diagnostic says why a run ended short of one.
-/

namespace Sequitur

inductive Report where
  /-- Every branch of the tableau is closed: the formula at the root cannot be true. -/
  | closed
  /-- Some branch of a finished tableau is open: the formula at the root can be true. -/
  | unclosed
  /-- The conclusion follows from the premises. -/
  | valid
  /-- The conclusion does not follow from the premises. -/
  | invalid
  /-- A derivation of the conclusion was found. -/
  | proved
  /-- The search for a derivation came to an end without one. -/
  | notProved
  /-- Nothing was run, or the run stopped before a verdict. -/
  | unknown
  deriving DecidableEq, Repr, Inhabited

namespace Report

def text : Report → String
  | .closed => "Closed"
  | .unclosed => "Open"
  | .valid => "Valid"
  | .invalid => "Invalid"
  | .proved => "Proved"
  | .notProved => "Not proved"
  | .unknown => "Unknown"

def isVerdict (r : Report) : Bool := r ≠ .unknown

end Report

inductive Diagnostic where
  /-- The tableau dispatched as many nodes as it may. -/
  | tableauTimeout (dispatches : Nat)
  /-- The search for a derivation made as many passes as it may. -/
  | deductionTimeout (passes : Nat)
  /-- A pass derived nothing new. -/
  | deductionExhausted (passes : Nat)
  /-- A fresh constant was needed and all were in use. -/
  | constantsExhausted
  deriving DecidableEq, Repr

namespace Diagnostic

def text : Diagnostic → String
  | .tableauTimeout n => s!"Timeout: the tableau stopped after {n} dispatches"
  | .deductionTimeout n => s!"Timeout: the derivation stopped after {n} passes"
  | .deductionExhausted n => s!"No further derivations after {n} passes"
  | .constantsExhausted => "All constants are in use"

/-- Whether a limit stopped the run. -/
def isTimeout : Diagnostic → Bool
  | .tableauTimeout _ | .deductionTimeout _ => true
  | _ => false

end Diagnostic

end Sequitur
