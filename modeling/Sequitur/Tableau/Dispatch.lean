import Sequitur.Constant
import Sequitur.Tableau.Expansion

/-!
# Dispatching a node

The rule for the formula of a node is applied to every open leaf below the node. A formula is not
stacked on a branch that has it, and nothing is added to a branch once it has closed; only the first
formula on each side of a split is always placed, as a split needs two children.
-/

namespace Sequitur

/-- What came of a dispatch. -/
inductive Dispatched where
  | added (nodes : Nat)
  /-- A fresh constant was needed and there was none. -/
  | constantsExhausted
  deriving DecidableEq, Repr

namespace Expand

/-- Sums what a step adds over a list. -/
def total {α : Type} (step : α → Expand Nat) : List α → Expand Nat
  | [] => pure 0
  | x :: xs => do
    let n ← step x
    let m ← total step xs
    return n + m

/-- Stacks formulas on the branch of `tip`, one below the other, for the node `source`. The result
is the new end of the branch and how many formulas were placed. -/
def stack (source : Nat) (tip : Nat) : List Formula → Expand (Nat × Nat)
  | [] => pure (tip, 0)
  | f :: fs => do
    if (← node tip).closed then
      return (tip, 0)
    else if (← tableau).branchContains tip f then
      stack source tip fs
    else
      let child ← place tip f source .center
      let (last, n) ← stack source child fs
      return (last, n + 1)

/-- Stacks formulas below each leaf. -/
def stackAll (source : Nat) (leaves : List Nat) (fs : List Formula) : Expand Nat :=
  total (fun leaf => return (← stack source leaf fs).2) leaves

/-- Places a formula to one side of a leaf and stacks others below it. -/
def branchOff (source leaf : Nat) (side : Side) (f : Formula) (fs : List Formula) : Expand Nat := do
  let child ← place leaf f source side
  let (_, n) ← stack source child fs
  return n + 1

/-- Splits each leaf in two. -/
def splitAll (source : Nat) (leaves : List Nat) (left : Formula) (lefts : List Formula)
    (right : Formula) (rights : List Formula) : Expand Nat :=
  total (fun leaf => do
    let n ← branchOff source leaf .left left lefts
    let m ← branchOff source leaf .right right rights
    return n + m) leaves

/-! ## Quantifiers -/

/-- The constants in use at the given leaves. -/
def constantsOf : List Nat → Expand Symbols
  | [] => pure ∅
  | leaf :: leaves => do
    let n ← node leaf
    return n.constants.union (← constantsOf leaves)

/-- Places an instance with the constant `c` below each leaf whose branch has it not. -/
def witnessAll (source : Nat) (result : Formula) (c : Char) (leaves : List Nat) : Expand Nat :=
  total (fun leaf => do
    if (← tableau).branchContains leaf result then
      return 0
    else
      let child ← place leaf result source .center
      update (·.addConstant child c)
      return 1) leaves

/-- An instance with a constant that is fresh to every open branch below the node. -/
def existential (source : Nat) (f : Formula) (x : Char) (body : Formula) (leaves : List Nat) :
    Expand Dispatched := do
  match fresh? (← constantsOf leaves) with
  | none => return .constantsExhausted
  | some c =>
    let result := body.substitute x c .const
    emit (.instantiatedTo f result)
    let n ← witnessAll source result c leaves
    if n > 0 ∧ (← get).requeues then
      wake
    return .added n

/-- The constants to instantiate a universal with at a leaf. A leaf without any is given the first.
-/
def seedConstants (leaf : Nat) : Expand Symbols := do
  if (← node leaf).constants.isEmpty then
    update (·.addConstant leaf firstConstant)
  return (← node leaf).constants

/-- Stacks an instance with each constant, until the branch closes. -/
def instantiateEach (source : Nat) (f : Formula) (x : Char) (body : Formula) (tip : Nat) :
    List Char → Expand Nat
  | [] => pure 0
  | c :: cs => do
    let (tip, n) ← stack source tip [body.substitute x c .const]
    if n > 0 then
      emit (.instantiatedWith f c)
    if (← node tip).closed then
      return n
    else
      return n + (← instantiateEach source f x body tip cs)

/-- An instance with every constant of a branch, below each leaf. -/
def universal (source : Nat) (f : Formula) (x : Char) (body : Formula) (leaves : List Nat) :
    Expand Dispatched := do
  let n ← total (fun leaf => do
    let constants ← seedConstants leaf
    instantiateEach source f x body leaf constants.members) leaves
  settle source n
  return .added n

/-! ## Identity -/

/-- Which symbol of a formula the identity of `a` and `b` replaces, and by which. -/
def replacement? (a b : Char) (f : Formula) : Option (Char × Char) :=
  if f.mentions a then some (a, b) else if f.mentions b then some (b, a) else none

/-- Stacks copies of formulas with one side of the identity for the other, until the branch closes.
-/
def replaceEach (source : Nat) (identity : Formula) (a b : Char) (tip : Nat) :
    List Formula → Expand Nat
  | [] => pure 0
  | f :: fs => do
    match replacement? a b f with
    | none => replaceEach source identity a b tip fs
    | some (target, replacement) =>
      let result := f.substitute target replacement .const
      if result.isTrivialIdentity || (← tableau).branchContains tip result then
        replaceEach source identity a b tip fs
      else
        emit (.replaced f result identity)
        let child ← place tip result source .center
        update (·.recordReplacement source target replacement)
        if (← node child).closed then
          return 1
        else
          return 1 + (← replaceEach source identity a b child fs)

/-- The closable formulas on a branch, from its end up to the root, less that of the node `key`. -/
def closableOn (t : Tableau) (key leaf : Nat) : List Formula :=
  ((t.branchNodes leaf).filter fun (k, n) => k != key && n.formula.isClosable).map (·.2.formula)

/-- Copies of what is closable on a branch, with one side of an identity for the other. -/
def identity (source : Nat) (f : Formula) (a b : Char) (leaves : List Nat) : Expand Dispatched := do
  let n ← total (fun leaf => do
    let formulas := closableOn (← tableau) source leaf
    replaceEach source f a b leaf formulas) leaves
  settle source n
  return .added n

/-! ## The dispatch -/

/-- Applies the rule for the formula of a node to every open leaf below the node. -/
def dispatch (key : Nat) : Expand Dispatched := do
  let leaves := (← tableau).openLeavesBelow key
  if leaves.isEmpty then
    return .added 0
  let f := (← node key).formula
  emit (.dispatched f leaves.length)
  match f.decompose with
  | .nothing => return .added 0
  | .stack fs => return .added (← stackAll key leaves fs)
  | .split left lefts right rights =>
    return .added (← splitAll key leaves left lefts right rights)
  | .witness x body => existential key f x body leaves
  | .instances x body => universal key f x body leaves
  | .replace a b => identity key f a b leaves
  | .unexpected => throw .unexpectedKind

end Expand

end Sequitur
