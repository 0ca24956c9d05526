import Sequitur.Error
import Sequitur.Symbols

/-!
# Constant symbols

Constants are drawn from the twenty symbols `a` to `t`, and a fresh one is the first that is not in
use. Twenty is a hard ceiling.
-/

namespace Sequitur

/-- The constant symbols, in order. -/
def constantSymbols : List Char :=
  ['a', 'b', 'c', 'd', 'e', 'f', 'g', 'h', 'i', 'j', 'k', 'l', 'm', 'n', 'o', 'p', 'q', 'r', 's',
    't']

/-- The constant a search starts from when it knows none. -/
def firstConstant : Char := 'a'

def isConstantSymbol (c : Char) : Bool := 'a' ≤ c ∧ c ≤ 't'

/-- The first constant symbol outside `unavailable`. -/
def fresh? (unavailable : Symbols) : Option Char := constantSymbols.find? (· ∉ unavailable)

/-- The first constant symbol outside `unavailable`, or the error that all are in use. -/
def freshConstant (unavailable : Symbols) : Except Error Char :=
  match fresh? unavailable with
  | some c => .ok c
  | none => .error .constantsExhausted

theorem mem_constantSymbols_of_fresh? {u : Symbols} {c : Char} (h : fresh? u = some c) :
    c ∈ constantSymbols :=
  List.mem_of_find?_eq_some h

theorem not_mem_of_fresh? {u : Symbols} {c : Char} (h : fresh? u = some c) : c ∉ u := by
  simpa using List.find?_some h

theorem fresh?_eq_none_iff {u : Symbols} : fresh? u = none ↔ ∀ c ∈ constantSymbols, c ∈ u := by
  simp [fresh?]

end Sequitur
