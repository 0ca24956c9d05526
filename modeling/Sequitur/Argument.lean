import Sequitur.Derivation.Proof
import Sequitur.Tableau.Run

/-!
# Arguments

An argument is some premises and a conclusion; in a list the conclusion comes last. It is valid when
the premises and the negation of the conclusion cannot be true together, which a tableau decides.
-/

namespace Sequitur

/-- The premises and the conclusion of an argument given as a list. -/
def splitArgument (formulas : List Formula) : Except DeductionError (List Formula × Formula) :=
  match formulas.getLast? with
  | some conclusion => .ok (formulas.dropLast, conclusion)
  | none => .error .emptyArgument

/-- The conjunction of the premises and the negation of the conclusion. -/
def counterexample (premises : List Formula) (conclusion : Formula) : Formula :=
  premises.foldr (fun p rest => .and p.unrooted rest) (.not conclusion.unrooted)

/-- What the verdict on a counterexample says of the argument. -/
def Report.ofCounterexample : Report → Report
  | .closed => .valid
  | .unclosed => .invalid
  | _ => .unknown

namespace Context

/-- Decides whether an argument is valid by the tableau of its counterexample, as a new run. -/
def checkArgument (c : Context) (premises : List Formula) (conclusion : Formula) :
    Context × Except Error Report :=
  match c.reset.expand (.start (counterexample premises conclusion)) with
  | (c, _, .error e) => (c, .error e)
  | (c, _, .ok report) =>
    ({ c with report := report.ofCounterexample }, .ok report.ofCounterexample)

/-- Searches for a derivation of the last of some formulas from the others. -/
def proveArgument (c : Context) (formulas : List Formula) (kind : ProofType) :
    Context × Except Error (Option (List Line)) :=
  match splitArgument formulas with
  | .error cause => (c, .error (.deduction cause))
  | .ok (premises, conclusion) => c.prove premises conclusion kind

end Context

end Sequitur
