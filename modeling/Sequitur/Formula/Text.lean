import Sequitur.Formula.Kind

/-!
# The text of a formula

`Formula.chars` writes a formula as characters, which is the form that canonical forms are read off;
`Formula.text` is the same as a string. `Formula.outline` writes a formula as an indented tree.
-/

namespace Sequitur

def Connective.sign : Connective → Char
  | .and => '∧'
  | .or => '∨'
  | .implies => '→'
  | .iff => '↔'
  | .xor => '⊕'

def Quantifier.sign : Quantifier → Char
  | .universal => '∀'
  | .existential => '∃'

namespace Formula

mutual
/-- Writes a formula in front of some text. Only connectives and quantifiers have parentheses. -/
def write : Formula → List Char → List Char
  | .atom s, rest => s :: rest
  | .predicate s ps, rest => s :: writeAll ps rest
  | .term _ s, rest => s :: rest
  | .not p, rest => '¬' :: write p rest
  | .binary op p q, rest => '(' :: write p (' ' :: op.sign :: ' ' :: write q (')' :: rest))
  | .identity p q, rest => write p (' ' :: '=' :: ' ' :: write q rest)
  | .quantified k x p, rest => '(' :: k.sign :: x :: ')' :: write p rest
  | .falsum, rest => '⊥' :: rest
  | .root p, rest => write p rest
def writeAll : List Formula → List Char → List Char
  | [], rest => rest
  | p :: ps, rest => write p (writeAll ps rest)
end

/-- The characters of a formula. -/
def chars (f : Formula) : List Char := f.write []

theorem writeAll_eq {ps : List Formula} (h : ∀ p ∈ ps, ∀ rest, p.write rest = p.chars ++ rest)
    (rest : List Char) : writeAll ps rest = ps.flatMap chars ++ rest := by
  induction ps with
  | nil => rfl
  | cons p ps ih =>
    have hps := ih fun q hq => h q (List.mem_cons_of_mem _ hq)
    rw [writeAll, h p List.mem_cons_self, hps, List.flatMap_cons, List.append_assoc]

/-- Writing in front of a text is writing, and then the text. -/
theorem write_eq (f : Formula) (rest : List Char) : f.write rest = f.chars ++ rest := by
  induction f generalizing rest with
  | predicate s ps ih => simp [chars, write, writeAll_eq ih]
  | binary op p q hp hq => rw [chars, write, write, hp, hp, hq, hq]; simp
  | identity p q hp hq => rw [chars, write, write, hp, hp, hq, hq]; simp
  | not p hp => rw [chars, write, write, hp, hp]; simp
  | quantified k x p hp => rw [chars, write, write, hp, hp]; simp
  | root p hp => rw [chars, write, write, hp, hp]; simp
  | _ => simp [chars, write]

@[simp] theorem chars_atom (s : Char) : (atom s).chars = [s] := rfl

@[simp] theorem chars_predicate (s : Char) (ps : List Formula) :
    (predicate s ps).chars = s :: ps.flatMap chars := by
  rw [chars, write, writeAll_eq fun p _ => p.write_eq, List.append_nil]

@[simp] theorem chars_term (k : TermKind) (s : Char) : (term k s).chars = [s] := rfl

@[simp] theorem chars_not (p : Formula) : (Formula.not p).chars = '¬' :: p.chars := rfl

@[simp] theorem chars_binary (op : Connective) (p q : Formula) :
    (binary op p q).chars = '(' :: (p.chars ++ ' ' :: op.sign :: ' ' :: (q.chars ++ [')'])) := by
  rw [chars, write, write_eq, write_eq]

@[simp] theorem chars_identity (p q : Formula) :
    (identity p q).chars = p.chars ++ ' ' :: '=' :: ' ' :: q.chars := by
  rw [chars, write, write_eq]
  rfl

@[simp] theorem chars_quantified (k : Quantifier) (x : Char) (p : Formula) :
    (quantified k x p).chars = '(' :: k.sign :: x :: ')' :: p.chars := rfl

@[simp] theorem chars_falsum : falsum.chars = ['⊥'] := rfl

@[simp] theorem chars_root (p : Formula) : (root p).chars = p.chars := rfl

/-- The formula as it is printed. -/
def text (f : Formula) : String := String.ofList f.chars

/-- The first line of an outline: the kind, and the symbol where there is one. -/
def label (f : Formula) : String :=
  match f.symbol with
  | some s => (f.kind.text ++ ": ").push s
  | none => f.kind.text

/-- The formula as a tree, one node to a line, each two spaces further in than its parent. -/
def outline (f : Formula) (indent : Nat) : String :=
  let head := String.ofList (List.replicate indent ' ') ++ f.label
  let parts := f.children.attach.map fun ⟨p, _⟩ => p.outline (indent + 2)
  if parts.isEmpty then head else head ++ " (\n" ++ String.intercalate ",\n" parts ++ ")"
termination_by sizeOf f
decreasing_by exact sizeOf_lt_of_mem_children (by assumption)

end Formula

end Sequitur
