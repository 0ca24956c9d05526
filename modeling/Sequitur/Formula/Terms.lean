import Sequitur.Formula.Basic
import Sequitur.Symbols

/-!
# The terms of a formula

Which symbols a formula mentions, its constants, and the replacement of one symbol by another.
Replacement reaches every term with the symbol, also below a quantifier that binds it.
-/

namespace Sequitur.Formula

/-- The terms of a formula, from left to right, each with its kind. -/
def terms (f : Formula) : List (TermKind × Char) :=
  f.subformulas.filterMap fun
    | .term k s => some (k, s)
    | _ => none

/-- Whether some term has the symbol. -/
def mentions (f : Formula) (c : Char) : Bool := f.terms.any (·.2 = c)

/-- The symbols of the constants. -/
def constants (f : Formula) : Symbols :=
  .ofList (f.terms.filterMap fun (k, c) => if k = .const then some c else none)

/-- Whether the formula is a quantifier whose body does not mention the variable. -/
def isVacuous : Formula → Bool
  | .quantified _ x p => !p.mentions x
  | _ => false

mutual
/-- The formula with every term of symbol `target` made a term `replacement` of the given kind. -/
def substitute (target replacement : Char) (kind : TermKind) : Formula → Formula
  | .atom s => .atom s
  | .predicate s ps => .predicate s (substituteAll target replacement kind ps)
  | .term k s => if s = target then .term kind replacement else .term k s
  | .not p => .not (substitute target replacement kind p)
  | .binary op p q =>
    .binary op (substitute target replacement kind p) (substitute target replacement kind q)
  | .identity p q =>
    .identity (substitute target replacement kind p) (substitute target replacement kind q)
  | .quantified k x p => .quantified k x (substitute target replacement kind p)
  | .falsum => .falsum
  | .root p => .root (substitute target replacement kind p)
def substituteAll (target replacement : Char) (kind : TermKind) : List Formula → List Formula
  | [] => []
  | p :: ps => substitute target replacement kind p :: substituteAll target replacement kind ps
end

theorem substituteAll_eq_map (target replacement : Char) (kind : TermKind) (ps : List Formula) :
    substituteAll target replacement kind ps = ps.map (substitute target replacement kind) := by
  induction ps with
  | nil => rfl
  | cons p ps ih => simp [substituteAll, ih]

/-- The body of a quantifier, with the constant `c` for its variable. -/
def instantiate (f : Formula) (c : Char) : Option Formula :=
  match f with
  | .quantified _ x p => some (p.substitute x c .const)
  | _ => none

/-! ## What is mentioned -/

theorem mentions_iff {f : Formula} {c : Char} : f.mentions c ↔ ∃ k, (k, c) ∈ f.terms := by
  simp [mentions, List.any_eq_true]

theorem mem_constants_iff {f : Formula} {c : Char} : c ∈ f.constants ↔ (.const, c) ∈ f.terms := by
  simp only [constants, Symbols.mem_ofList, List.mem_filterMap]
  constructor
  · rintro ⟨⟨k, d⟩, hd, h⟩
    split at h <;> simp_all
  · exact fun h => ⟨_, h, by simp⟩

end Sequitur.Formula
