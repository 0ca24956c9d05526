/-!
# Formulas

Formulas of first-order logic with identity. Terms are formulas too, so that a predicate or an
identity put together without checks is still a value of the type; `Sequitur.Formula.Build` has the
checked constructors.

A predicate has a list of formulas inside it, so `Formula.induction` gives the induction principle
in the form that proofs want: a hypothesis for every parameter.
-/

namespace Sequitur

/-- The connectives that join two formulas. -/
inductive Connective where
  | and
  | or
  | implies
  | iff
  | xor
  deriving DecidableEq, Repr, Inhabited

inductive Quantifier where
  | universal
  | existential
  deriving DecidableEq, Repr, Inhabited

/-- Whether a term stands for a variable or for a constant. -/
inductive TermKind where
  | var
  | const
  deriving DecidableEq, Repr, Inhabited

inductive Formula where
  | atom (letter : Char)
  | predicate (letter : Char) (params : List Formula)
  | term (kind : TermKind) (symbol : Char)
  | not (inner : Formula)
  | binary (op : Connective) (left right : Formula)
  | identity (left right : Formula)
  | quantified (q : Quantifier) (x : Char) (body : Formula)
  | falsum
  /-- A wrapper that marks a formula as whole; it has no meaning of its own. -/
  | root (inner : Formula)
  deriving Repr, Inhabited

namespace Formula

@[match_pattern] abbrev and (p q : Formula) : Formula := .binary .and p q

@[match_pattern] abbrev or (p q : Formula) : Formula := .binary .or p q

@[match_pattern] abbrev implies (p q : Formula) : Formula := .binary .implies p q

@[match_pattern] abbrev iff (p q : Formula) : Formula := .binary .iff p q

@[match_pattern] abbrev xor (p q : Formula) : Formula := .binary .xor p q

@[match_pattern] abbrev all (x : Char) (body : Formula) : Formula := .quantified .universal x body

@[match_pattern] abbrev ex (x : Char) (body : Formula) : Formula := .quantified .existential x body

@[match_pattern] abbrev var (symbol : Char) : Formula := .term .var symbol

@[match_pattern] abbrev const (symbol : Char) : Formula := .term .const symbol

/-- Induction on formulas, with a hypothesis for each parameter of a predicate. -/
@[elab_as_elim, induction_eliminator]
theorem induction {motive : Formula → Prop}
    (atom : ∀ letter, motive (.atom letter))
    (predicate : ∀ letter params, (∀ p ∈ params, motive p) → motive (.predicate letter params))
    (term : ∀ kind symbol, motive (.term kind symbol))
    (not : ∀ inner, motive inner → motive (.not inner))
    (binary : ∀ op left right, motive left → motive right → motive (.binary op left right))
    (identity : ∀ left right, motive left → motive right → motive (.identity left right))
    (quantified : ∀ q x body, motive body → motive (.quantified q x body))
    (falsum : motive .falsum)
    (root : ∀ inner, motive inner → motive (.root inner)) (f : Formula) : motive f :=
  @Formula.rec motive (fun params => ∀ p ∈ params, motive p) atom predicate term not binary identity
    quantified falsum root
    (fun _ h => absurd h List.not_mem_nil)
    (fun _ _ hp hps _ h => (List.mem_cons.1 h).elim (fun e => e ▸ hp) (hps _)) f

/-! ## Equality -/

mutual
def beq : Formula → Formula → Bool
  | .atom a, .atom b => a == b
  | .predicate a ps, .predicate b qs => a == b && beqList ps qs
  | .term k a, .term l b => decide (k = l) && a == b
  | .not p, .not q => beq p q
  | .binary o p q, .binary o' p' q' => decide (o = o') && beq p p' && beq q q'
  | .identity p q, .identity p' q' => beq p p' && beq q q'
  | .quantified k x p, .quantified l y q => decide (k = l) && x == y && beq p q
  | .falsum, .falsum => true
  | .root p, .root q => beq p q
  | _, _ => false
def beqList : List Formula → List Formula → Bool
  | [], [] => true
  | p :: ps, q :: qs => beq p q && beqList ps qs
  | _, _ => false
end

theorem beqList_eq_true_iff {ps : List Formula} (h : ∀ p ∈ ps, ∀ q, beq p q = true ↔ p = q) :
    ∀ qs, beqList ps qs = true ↔ ps = qs := by
  induction ps with
  | nil => intro qs; cases qs <;> simp [beqList]
  | cons p ps ih =>
    intro qs
    cases qs with
    | nil => simp [beqList]
    | cons q qs =>
      have hp := h p List.mem_cons_self q
      have hps := ih (fun r hr => h r (List.mem_cons_of_mem _ hr)) qs
      simp [beqList, hp, hps]

theorem beq_eq_true_iff (f g : Formula) : beq f g = true ↔ f = g := by
  induction f generalizing g with
  | predicate a ps ih => cases g <;> simp [beq, beqList_eq_true_iff ih]
  | _ => cases g <;> simp_all [beq, and_assoc]

instance : DecidableEq Formula := fun f g => decidable_of_iff _ (beq_eq_true_iff f g)

/-! ## Parts -/

/-- The formulas directly inside a formula, in order. -/
def children : Formula → List Formula
  | .predicate _ params => params
  | .not p | .quantified _ _ p | .root p => [p]
  | .binary _ p q | .identity p q => [p, q]
  | .atom _ | .term _ _ | .falsum => []

theorem sizeOf_lt_of_mem_children {f p : Formula} (h : p ∈ f.children) : sizeOf p < sizeOf f := by
  cases f with
  | predicate a ps =>
    have := List.sizeOf_lt_of_mem (show p ∈ ps from h)
    simp only [predicate.sizeOf_spec]
    omega
  | binary op q r =>
    simp only [children, List.mem_cons, List.not_mem_nil, or_false] at h
    rcases h with rfl | rfl
    · simp only [binary.sizeOf_spec]; omega
    · simp only [binary.sizeOf_spec]; omega
  | identity q r =>
    simp only [children, List.mem_cons, List.not_mem_nil, or_false] at h
    rcases h with rfl | rfl
    · simp only [identity.sizeOf_spec]; omega
    · simp only [identity.sizeOf_spec]; omega
  | not q => simp only [children, List.mem_singleton] at h; subst h; simp
  | root q => simp only [children, List.mem_singleton] at h; subst h; simp
  | quantified k x q =>
    simp only [children, List.mem_singleton] at h
    subst h
    simp only [quantified.sizeOf_spec]
    omega
  | atom a => simp [children] at h
  | term k a => simp [children] at h
  | falsum => simp [children] at h

mutual
/-- A formula and all that is in it, outside in and from left to right. -/
def subformulas : Formula → List Formula
  | .atom a => [.atom a]
  | .predicate a ps => .predicate a ps :: subformulasOf ps
  | .term k s => [.term k s]
  | .not p => .not p :: subformulas p
  | .binary o p q => .binary o p q :: (subformulas p ++ subformulas q)
  | .identity p q => .identity p q :: (subformulas p ++ subformulas q)
  | .quantified k x p => .quantified k x p :: subformulas p
  | .falsum => [.falsum]
  | .root p => .root p :: subformulas p
def subformulasOf : List Formula → List Formula
  | [] => []
  | p :: ps => subformulas p ++ subformulasOf ps
end

theorem subformulasOf_eq_flatMap (ps : List Formula) :
    subformulasOf ps = ps.flatMap subformulas := by
  induction ps with
  | nil => rfl
  | cons p ps ih => simp [subformulasOf, ih]

theorem subformulas_eq (f : Formula) : f.subformulas = f :: f.children.flatMap subformulas := by
  cases f <;> simp [subformulas, children, subformulasOf_eq_flatMap]

/-- The number of nodes of a formula. -/
def size (f : Formula) : Nat := f.subformulas.length

/-- The formula beneath any wrappers. -/
def unrooted : Formula → Formula
  | .root p => p.unrooted
  | f => f

/-- The letter of an atom or a predicate, the symbol of a term, the variable of a quantifier. -/
def symbol : Formula → Option Char
  | .atom s | .predicate s _ | .term _ s | .quantified _ s _ => some s
  | _ => none

/-- The two sides of a connective or an identity. -/
def operands : Formula → Option (Formula × Formula)
  | .binary _ p q | .identity p q => some (p, q)
  | _ => none

/-- What a negation negates. -/
def negated : Formula → Option Formula
  | .not p => some p
  | _ => none

/-- The variable and the body of a quantifier. -/
def bound : Formula → Option (Char × Formula)
  | .quantified _ x p => some (x, p)
  | _ => none

/-! ## Shapes -/

def isTerm : Formula → Bool
  | .term _ _ => true
  | _ => false

def isNegation : Formula → Bool
  | .not _ => true
  | _ => false

def isDoubleNegation : Formula → Bool
  | .not (.not _) => true
  | _ => false

def isIdentity : Formula → Bool
  | .identity _ _ => true
  | _ => false

def isUniversal : Formula → Bool
  | .all _ _ => true
  | _ => false

def isExistential : Formula → Bool
  | .ex _ _ => true
  | _ => false

def isQuantifier : Formula → Bool
  | .quantified _ _ _ => true
  | _ => false

def isFalsum : Formula → Bool
  | .falsum => true
  | _ => false

/-- Whether the formula has two operands; an identity counts. -/
def isBinary (f : Formula) : Bool := f.operands.isSome

/-- Whether the formula is an atom, a predicate or an identity. -/
def isAtomic : Formula → Bool
  | .atom _ | .predicate _ _ | .identity _ _ => true
  | _ => false

/-- Whether a contradiction can be read off the formula: it is atomic, or negates what is. -/
def isClosable : Formula → Bool
  | .not p => p.isAtomic
  | f => f.isAtomic

/-- Whether no part is a predicate, an identity or a quantifier. -/
def isPropositional (f : Formula) : Bool :=
  f.subformulas.all fun
    | .predicate _ _ | .identity _ _ | .quantified _ _ _ => false
    | _ => true

/-- Whether the formula is an identity whose sides carry the same symbol, or both none. -/
def isTrivialIdentity : Formula → Bool
  | .identity p q => p.symbol = q.symbol
  | _ => false

end Formula

end Sequitur
