import Sequitur.Error
import Sequitur.Formula.Canonical
import Sequitur.Step.Marks
import Sequitur.Symbols

/-!
# Derivations

The derivations of a search are kept in the order in which they were made, and each names the
earlier ones that it rests on. The type records that these are earlier, so that no derivation rests
on itself.

No graph is kept beside the array, to be searched depth-first for all that a derivation rests on. The
lists of parents are the whole record of it. They are scanned once, from the back, and as a parent
comes before what rests on it this finds the same derivations, in ascending order.
-/

namespace Sequitur

/-- The canonical forms of the antecedent and the consequent of an implication. -/
def Formula.implicationForms : Formula → Option (Canonical × Canonical)
  | .implies p q => some (p.canonical, q.canonical)
  | _ => none

structure Derivation where
  content : Keyed
  step : Step
  /-- The derivations this one rests on, in the order of the rule. -/
  parents : List Nat
  implication : Option (Canonical × Canonical)
  implication_eq : implication = content.formula.implicationForms
  /-- Whether the derivation is part of a finished proof. -/
  active : Bool
  /-- The rules that have been tried on the derivation. -/
  marks : Marks
  /-- In a finished proof, the numbers of the lines it rests on. -/
  lines : List Nat
  /-- The constants that a universal has been instantiated with. -/
  instantiated : Symbols

namespace Derivation

/-- A derivation to which nothing has been applied yet. -/
def new (content : Keyed) (step : Step) (parents : List Nat) : Derivation where
  content := content
  step := step
  parents := parents
  implication := content.formula.implicationForms
  implication_eq := rfl
  active := false
  marks := .none
  lines := []
  instantiated := ∅

def formula (d : Derivation) : Formula := d.content.formula

end Derivation

structure Derivations where
  items : Array Derivation
  parents_lt : ∀ (i : Nat) (d : Derivation), items[i]? = some d → ∀ p ∈ d.parents, p < i

namespace Derivations

def empty : Derivations := ⟨#[], by simp⟩

instance : Inhabited Derivations := ⟨empty⟩

def size (s : Derivations) : Nat := s.items.size

def get? (s : Derivations) (i : Nat) : Option Derivation := s.items[i]?

/-- The derivation at an index, or the error that there is none. -/
def get (s : Derivations) (i : Nat) : Except DeductionError Derivation :=
  match s.get? i with
  | some d => .ok d
  | none => .error .missingNode

/-- The store with a derivation at its end, which rests on earlier ones. -/
def push (s : Derivations) (content : Keyed) (step : Step) (parents : List Nat)
    (h : ∀ p ∈ parents, p < s.size) : Derivations where
  items := s.items.push (.new content step parents)
  parents_lt := by
    intro i d hd p hp
    rw [Array.getElem?_push] at hd
    split at hd
    · next hi =>
      obtain rfl : _ = d := Option.some.inj hd
      have := h p hp
      unfold size at this
      omega
    · exact s.parents_lt i d hd p hp

/-- Stores a derivation: its index and the new store, unless it rests on what is not there. -/
def insert (s : Derivations) (content : Keyed) (step : Step) (parents : List Nat) :
    Except DeductionError (Nat × Derivations) :=
  if h : ∀ p ∈ parents, p < s.size then .ok (s.size, s.push content step parents h)
  else .error .missingNode

/-- The store with a derivation changed in what is not its parents. -/
def modify (s : Derivations) (i : Nat) (f : Derivation → Derivation)
    (hf : ∀ d, (f d).parents = d.parents) : Derivations where
  items := s.items.modify i f
  parents_lt := by
    intro j d hd p hp
    rw [Array.getElem?_modify] at hd
    split at hd
    · obtain ⟨e, he, rfl⟩ := Option.map_eq_some_iff.1 hd
      exact s.parents_lt j e he p (hf e ▸ hp)
    · exact s.parents_lt j d hd p hp

/-- Marks a rule as tried on a derivation. -/
def addMark (s : Derivations) (i : Nat) (step : Step) : Derivations :=
  s.modify i (fun d => { d with marks := d.marks.mark step }) fun _ => rfl

/-- Marks a rule as tried: whether it was not marked before, and the new store. -/
def mark (s : Derivations) (i : Nat) (step : Step) : Except DeductionError (Bool × Derivations) :=
  match s.get? i with
  | some d => .ok (!d.marks.has step, s.addMark i step)
  | none => .error .missingNode

/-- Records that a universal has been instantiated with a constant. -/
def addInstantiated (s : Derivations) (i : Nat) (c : Char) : Derivations :=
  s.modify i (fun d => { d with instantiated := d.instantiated.insert c }) fun _ => rfl

/-- Makes a derivation part of a finished proof. -/
def activate (s : Derivations) (i : Nat) (lines : List Nat) : Derivations :=
  s.modify i (fun d => { d with active := true, lines := lines }) fun _ => rfl

/-- The first derivation that is structurally equal to a formula of the given canonical form. -/
def position? (s : Derivations) (form : Canonical) : Option Nat :=
  s.items.findIdx? (·.content.reads form)

/-- The first implication whose canonical forms of antecedent and consequent pass a test. -/
def findImplication? (s : Derivations) (test : Canonical → Canonical → Bool) : Option Nat :=
  s.items.findIdx? fun d => d.implication.any fun (p, q) => test p q

/-! ## The derivations after a change -/

@[simp] theorem size_push {s : Derivations} {content : Keyed} {step : Step} {parents : List Nat}
    (h : ∀ p ∈ parents, p < s.size) : (s.push content step parents h).size = s.size + 1 := by
  simp [push, size]

theorem get?_push {s : Derivations} {content : Keyed} {step : Step} {parents : List Nat}
    (h : ∀ p ∈ parents, p < s.size) (i : Nat) :
    (s.push content step parents h).get? i =
      if i = s.size then some (.new content step parents) else s.get? i := by
  rw [get?, push, Array.getElem?_push]
  rfl

@[simp] theorem size_modify {s : Derivations} {i : Nat} {f : Derivation → Derivation}
    (hf : ∀ d, (f d).parents = d.parents) : (s.modify i f hf).size = s.size := by
  simp [modify, size]

theorem get?_modify {s : Derivations} {i : Nat} {f : Derivation → Derivation}
    (hf : ∀ d, (f d).parents = d.parents) (j : Nat) :
    (s.modify i f hf).get? j = if i = j then (s.get? j).map f else s.get? j := by
  simp [modify, get?, Array.getElem?_modify]

/-! ## What a derivation rests on -/

/-- The parents of the derivation at an index. -/
def parentsOf (s : Derivations) (i : Nat) : List Nat :=
  match s.get? i with
  | some d => d.parents
  | none => []

/-- Goes down from an index, keeping what is wanted and wanting what that rests on. -/
def cone (s : Derivations) : Nat → List Nat → List Nat → List Nat
  | 0, _, kept => kept
  | i + 1, wanted, kept =>
    if i ∈ wanted then s.cone i (s.parentsOf i ++ wanted) (i :: kept) else s.cone i wanted kept

/-- All that the derivation at an index rests on, and itself, in ascending order. -/
def ancestorsOf (s : Derivations) (i : Nat) : List Nat :=
  if i < s.size then s.cone (i + 1) [i] [] else []

end Derivations

end Sequitur
