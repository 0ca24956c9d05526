import Sequitur.Formula.Text
import Sequitur.Report
import Sequitur.Step.Basic
import Sequitur.Tableau.Node

/-!
# Proof lines and traces

What a search gives and what it does on the way, as values of the domain. A line of a proof has its
formula, the step that justifies it and the numbers of the lines the step rests on. A trace is what
the searches do, event by event; `Event.text` is the one place where events are put into words.
-/

namespace Sequitur

/-! ## Lines of a proof -/

structure Line where
  formula : Formula
  step : Step
  /-- The numbers of the cited lines, counted from 1, in ascending order. -/
  parents : List Nat
  deriving DecidableEq, Repr

namespace Line

/-- The step and the cited lines, as in `MP 1, 2`. -/
def justification (l : Line) : String :=
  if l.parents.isEmpty then l.step.code
  else l.step.code ++ " " ++ String.intercalate ", " (l.parents.map Nat.repr)

def text (l : Line) : String := l.formula.text ++ "    " ++ l.justification

end Line

/-! ## Events -/

inductive Event where
  /-- A setting was given a value outside its bounds. -/
  | refused (setting : String)
  | noted (diagnostic : Diagnostic)
  /-- A node was dispatched over some open leaves. -/
  | dispatched (f : Formula) (leaves : Nat)
  /-- A formula is about to be placed in a tableau. -/
  | placed (side : Side) (f : Formula)
  /-- A dispatch added nodes. -/
  | added (nodes : Nat)
  /-- A dormant node is put on the agenda again. -/
  | woken (key : Nat)
  | expanded (report : Report) (dispatches : Nat)
  | closed (f : Formula)
  | instantiatedTo (f result : Formula)
  | instantiatedWith (f : Formula) (c : Char)
  /-- An identity turned one formula into another. -/
  | replaced (before after identity : Formula)
  | seeded (c : Char)
  | withoutConstant (f : Formula)
  | redundant (f : Formula)
  | overNegated (bound : Nat) (f : Formula)
  | derived (step : Step) (f : Formula)
  | contradiction (f : Formula)
  /-- A goal comes within reach of material implication. -/
  | goal (f : Formula)
  | passed (pass added : Nat)
  | proved (passes : Nat)
  | finished (lines derivations : Nat)
  | line (number : Nat) (l : Line)
  deriving Repr

/-- The events of a run, in order. -/
abbrev Trace := Array Event

inductive Level where
  | error
  | warn
  | info
  | trace
  deriving DecidableEq, Repr

def Level.text : Level → String
  | .error => "ERROR"
  | .warn => "WARN"
  | .info => "INFO"
  | .trace => "TRACE"

namespace Event

def level : Event → Level
  | .refused _ => .error
  | .noted _ | .withoutConstant _ => .warn
  | .expanded _ _ | .proved _ | .finished _ _ => .info
  | _ => .trace

/-- The part of the program an event is filed under. -/
def topic : Event → String
  | .refused _ => "wff_prover::config::config_option"
  | .noted _ => "wff_prover::context"
  | .dispatched _ _ | .placed _ _ | .added _ | .woken _ | .expanded _ _ => "tableau"
  | .closed _ => "closure"
  | .instantiatedTo _ _ | .instantiatedWith _ _ | .replaced _ _ _ | .seeded _
  | .withoutConstant _ => "substitution"
  | .redundant _ | .overNegated _ _ | .derived _ _ | .contradiction _ | .goal _ | .passed _ _
  | .proved _ => "deduction"
  | .finished _ _ | .line _ _ => "finalize"

def message : Event → String
  | .refused setting => "Value for " ++ setting ++ " out of bounds"
  | .noted d => d.text
  | .dispatched f n => "Dispatch " ++ f.text ++ " over " ++ n.repr ++ " leaves"
  | .placed side f => side.text ++ " " ++ f.text
  | .added n => "Added " ++ n.repr ++ " nodes"
  | .woken key => "Waking TableauKey(" ++ (key + 1).repr ++ "v1)"
  | .expanded r n => "Expansion finished: " ++ r.text ++ " after " ++ n.repr ++ " dispatches"
  | .closed f => "Closed at " ++ f.text
  | .instantiatedTo f result => f.text ++ " instantiated to " ++ result.text
  | .instantiatedWith f c => (f.text ++ " instantiated with ").push c
  | .replaced before after identity =>
    before.text ++ " to " ++ after.text ++ " by " ++ identity.text
  | .seeded c => "Seeding ".push c
  | .withoutConstant f => "No constant for " ++ f.text
  | .redundant f => "Redundant: " ++ f.text
  | .overNegated bound f => "Over " ++ bound.repr ++ " negations: " ++ f.text
  | .derived step f => step.code ++ ": " ++ f.text
  | .contradiction f => "Contradiction on " ++ f.text
  | .goal f => "Goal " ++ f.text ++ " by material implication"
  | .passed n m => "Pass " ++ n.repr ++ " added " ++ m.repr
  | .proved passes => "Proved after " ++ passes.repr ++ " passes"
  | .finished lines n => lines.repr ++ " of " ++ n.repr ++ " derivations used"
  | .line number l => number.repr ++ ". " ++ l.text

/-- An event in words: how grave it is, what it is filed under and what happened. -/
def text (e : Event) : String := e.level.text ++ " " ++ e.topic ++ ": " ++ e.message

end Event

end Sequitur
