import Sequitur.Text.Characters

/-!
# Spellings of the signs, and canonical forms of text

A connective can be written in many ways. The table gives every spelling with the sign that stands
for it in a canonical form; both parentheses have the same sign, and `∀` has none, as it may be left
out. Earlier spellings win, and the longer of two that start alike comes first. The canonical form of
a text has these signs for the spellings, and no blanks.
-/

namespace Sequitur

/-- A way to write a sign, and what stands for it in a canonical form. -/
structure Spelling where
  text : List Char
  sign : List Char
  deriving DecidableEq, Repr

def negationSign : Char := '~'

def conjunctionSign : Char := '&'

def disjunctionSign : Char := '∨'

def implicationSign : Char := '→'

def biconditionalSign : Char := '↔'

def exclusiveOrSign : Char := '⊕'

def parenthesisSign : Char := '#'

/-- Every spelling, in the order in which they are tried. -/
def spellings : List Spelling := [
  ⟨['i', 'm', 'p', 'l', 'i', 'e', 's'], [implicationSign]⟩,
  ⟨['I', 'M', 'P', 'L', 'I', 'E', 'S'], [implicationSign]⟩,
  ⟨['<', '-', '>'], [biconditionalSign]⟩,
  ⟨['n', 'o', 't'], [negationSign]⟩,
  ⟨['N', 'O', 'T'], [negationSign]⟩,
  ⟨['a', 'n', 'd'], [conjunctionSign]⟩,
  ⟨['A', 'N', 'D'], [conjunctionSign]⟩,
  ⟨['i', 'f', 'f'], [biconditionalSign]⟩,
  ⟨['I', 'F', 'F'], [biconditionalSign]⟩,
  ⟨['x', 'o', 'r'], [exclusiveOrSign]⟩,
  ⟨['X', 'O', 'R'], [exclusiveOrSign]⟩,
  ⟨['|', '|'], [disjunctionSign]⟩,
  ⟨['-', '>'], [implicationSign]⟩,
  ⟨['<', '>'], [biconditionalSign]⟩,
  ⟨['o', 'r'], [disjunctionSign]⟩,
  ⟨['O', 'R'], [disjunctionSign]⟩,
  ⟨['~'], [negationSign]⟩,
  ⟨['¬'], [negationSign]⟩,
  ⟨['!'], [negationSign]⟩,
  ⟨['&'], [conjunctionSign]⟩,
  ⟨['∧'], [conjunctionSign]⟩,
  ⟨['^'], [conjunctionSign]⟩,
  ⟨['⋅'], [conjunctionSign]⟩,
  ⟨['∨'], [disjunctionSign]⟩,
  ⟨['|'], [disjunctionSign]⟩,
  ⟨['+'], [disjunctionSign]⟩,
  ⟨['→'], [implicationSign]⟩,
  ⟨['⇒'], [implicationSign]⟩,
  ⟨['⊃'], [implicationSign]⟩,
  ⟨['>'], [implicationSign]⟩,
  ⟨['↔'], [biconditionalSign]⟩,
  ⟨['⇔'], [biconditionalSign]⟩,
  ⟨['≡'], [biconditionalSign]⟩,
  ⟨['⊕'], [exclusiveOrSign]⟩,
  ⟨['⊻'], [exclusiveOrSign]⟩,
  ⟨['≢'], [exclusiveOrSign]⟩,
  ⟨['⩒'], [exclusiveOrSign]⟩,
  ⟨['↮'], [exclusiveOrSign]⟩,
  ⟨['('], [parenthesisSign]⟩,
  ⟨[')'], [parenthesisSign]⟩,
  ⟨['∀'], []⟩]

/-- Whether the second list begins with the first. -/
def beginsWith : List Char → List Char → Bool
  | [], _ => true
  | a :: as, b :: bs => a == b && beginsWith as bs
  | _ :: _, [] => false

theorem beginsWith_iff {xs ys : List Char} : beginsWith xs ys ↔ xs <+: ys := by
  fun_induction beginsWith xs ys <;> simp_all [List.cons_prefix_cons]

namespace Spelling

/-- Whether the spelling is a word. The words of the table are plain Latin. -/
def isWord (s : Spelling) : Bool := s.text.all Char.isAlpha

/-- Whether no letter or digit stands next to a word that is between `before` and `after`. -/
def standsAlone (before after : Option Char) : Bool :=
  !before.any isAlphanumeric && !after.any isAlphanumeric

/-- Whether the text `rest`, which follows the character `before`, starts with the spelling. A word
counts only where no letter or digit touches it, so that the parameters of `Pand` are no
conjunction. -/
def starts (s : Spelling) (before : Option Char) (rest : List Char) : Bool :=
  beginsWith s.text rest &&
    (!s.isWord || standsAlone before (rest.drop s.text.length).head?)

/-- The spelling that `rest` starts with, if any. -/
def read? (before : Option Char) (rest : List Char) : Option Spelling :=
  spellings.find? (·.starts before rest)

end Spelling

/-! ## Canonical forms -/

/-- Text in canonical form. -/
abbrev Canonical := List Char

/-- Reads text from the character after `before` on, where `pending` characters still belong to a
spelling that has been read. -/
def scan (before : Option Char) (pending : Nat) : List Char → Canonical
  | [] => []
  | c :: rest =>
    match pending with
    | n + 1 => scan (some c) n rest
    | 0 =>
      if isBlank c then scan (some c) 0 rest
      else
        match Spelling.read? before (c :: rest) with
        | some s => s.sign ++ scan (some c) (s.text.length - 1) rest
        | none => c :: scan (some c) 0 rest

/-- The canonical form of a text. -/
def canonicalForm (text : List Char) : Canonical := scan none 0 text

end Sequitur
