import Sequitur.Error

/-!
# Settings

The limits of the two searches and how far they look, each with the bounds that a new value must
respect.
-/

namespace Sequitur

/-- The longest run of negations that a derivation may have, and the bound on looking ahead for
double negations. -/
def negationMax : Nat := 4

/-- The greatest limit that can be set, the largest number of 64 bits. -/
def wordMax : Nat := 18446744073709551615

/-- A named value with its bounds. -/
structure Setting (α : Type) where
  name : String
  least : α
  greatest : α
  value : α
  deriving Repr, DecidableEq

/-- The setting with a new value, if that is within the bounds. -/
def Setting.set? {α : Type} [LT α] [DecidableLT α] (s : Setting α) (v : α) : Option (Setting α) :=
  if v < s.least ∨ s.greatest < v then none else some { s with value := v }

structure Settings where
  /-- How many nodes a tableau may dispatch. -/
  tableauLimit : Setting Nat := ⟨"tableau_limit", 1, wordMax, 1000⟩
  /-- How many passes a search for a derivation may make. -/
  deductionLimit : Setting Nat := ⟨"deduction_limit", 1, wordMax, 1000⟩
  /-- How many negations may be put in front of a formula on the way to a goal. -/
  negationLimit : Setting Nat := ⟨"negation_limit", 0, negationMax, negationMax⟩
  /-- Whether universals and identities are tried again when their branches have changed. -/
  requeueUniversals : Setting Bool := ⟨"requeue_universals", false, true, true⟩
  deriving Repr, DecidableEq, Inhabited

/-- A new value for one of the settings. -/
inductive Settings.Change where
  | tableauLimit (value : Nat)
  | deductionLimit (value : Nat)
  | negationLimit (value : Nat)
  | requeueUniversals (value : Bool)
  deriving Repr, DecidableEq

namespace Settings

/-- The name of the setting that is to change. -/
def changed (s : Settings) : Change → String
  | .tableauLimit _ => s.tableauLimit.name
  | .deductionLimit _ => s.deductionLimit.name
  | .negationLimit _ => s.negationLimit.name
  | .requeueUniversals _ => s.requeueUniversals.name

/-- The settings after the change, if the value is within its bounds. -/
def change? (s : Settings) : Change → Option Settings
  | .tableauLimit v => (s.tableauLimit.set? v).map fun x => { s with tableauLimit := x }
  | .deductionLimit v => (s.deductionLimit.set? v).map fun x => { s with deductionLimit := x }
  | .negationLimit v => (s.negationLimit.set? v).map fun x => { s with negationLimit := x }
  | .requeueUniversals v =>
    (s.requeueUniversals.set? v).map fun x => { s with requeueUniversals := x }

end Settings

end Sequitur
