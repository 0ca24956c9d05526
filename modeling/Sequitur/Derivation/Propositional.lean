import Sequitur.Derivation.Search

/-!
# Propositional rules

Each rule is tried on a derivation, given its index and formula, and does nothing where it does not
apply. Most rules are tried on a derivation once, which a mark records.
-/

namespace Sequitur

/-- A rule, to be tried on the derivation of a formula at an index. -/
abbrev Rule := Nat → Formula → Derive Unit

namespace Formula

/-- The canonical forms of what is contrary to a formula: its negation, and what it negates. -/
def contraryForms (f : Formula) : List Canonical :=
  (Formula.not f).canonicalForms ++
    match f with
    | .not p => p.canonicalForms
    | _ => []

/-- The other side of the laws of De Morgan, and of the laws for the negation of an implication and
of a biconditional. -/
def deMorganDual : Formula → Option Formula
  | .not (.and p q) => some (.or (.not p) (.not q))
  | .not (.or p q) => some (.and (.not p) (.not q))
  | .not (.implies p q) => some (.and p (.not q))
  | .not (.iff p q) => some (.or (.and p (.not q)) (.and (.not p) q))
  | .or (.not p) (.not q) => some (.not (.and p q))
  | .and (.not p) (.not q) => some (.not (.or p q))
  | _ => none

/-- An implication as a disjunction, or a disjunction as an implication. -/
def implicationDual : Formula → Option Formula
  | .implies p q => some (.or (.not p) q)
  | .or (.not p) q => some (.implies p q)
  | .or p q => some (.implies (.not p) q)
  | _ => none

/-- The two sides of an implication. -/
def implication? : Formula → Option (Formula × Formula)
  | .implies p q => some (p, q)
  | _ => none

end Formula

namespace Derive

/-- From `P ∧ Q` both `P` and `Q`. -/
def conjunctionElimination : Rule
  | i, .and p q => do
    if ← mark i .conjunctionElimination then
      add p .conjunctionElimination [i]
      add q .conjunctionElimination [i]
  | _, _ => pure ()

/-- From `¬¬P` to `P`. -/
def doubleNegationElimination : Rule
  | i, .not (.not p) => do
    if ← mark i .doubleNegationElimination then
      add p .doubleNegationElimination [i]
  | _, _ => pure ()

/-- From `P ↔ Q` to `(P → Q) ∧ (Q → P)`. -/
def biconditionalElimination : Rule
  | i, .iff p q => do
    if ← mark i .biconditionalElimination then
      add (.and (.implies p q) (.implies q p)) .biconditionalElimination [i]
  | _, _ => pure ()

/-- From `P → Q` and `P` to `Q`. -/
def modusPonens : Rule
  | i, .implies p q => do
    if !(← applied i .modusPonens) then
      match (← get).position? p with
      | some antecedent =>
        discard (mark i .modusPonens)
        add q .modusPonens [i, antecedent]
      | none => pure ()
  | _, _ => pure ()

/-- From `P → Q` and what is contrary to `Q` to `¬P`. -/
def modusTollens : Rule
  | i, .implies p q => do
    if !(← applied i .modusTollens) then
      match (← get).contrary? q with
      | some denial =>
        discard (mark i .modusTollens)
        add (.not p) .modusTollens [i, denial]
      | none => pure ()
  | _, _ => pure ()

/-- Of the sides of a disjunction the one that is left when the other alone is denied, and the
denial. -/
def remaining? (s : Search) (p q : Formula) : Option (Formula × Nat) :=
  match s.contrary? p, s.contrary? q with
  | some denial, none => some (q, denial)
  | none, some denial => some (p, denial)
  | _, _ => none

/-- From `P ∨ Q` and what is contrary to one side, but not to both, to the other. -/
def disjunctiveSyllogism : Rule
  | i, .or p q => do
    if !(← applied i .disjunctiveSyllogism) then
      match remaining? (← get) p q with
      | some (side, denial) =>
        discard (mark i .disjunctiveSyllogism)
        add side .disjunctiveSyllogism [i, denial]
      | none => pure ()
  | _, _ => pure ()

/-- The implications, other than that at `i`, whose antecedent has one of the given forms, each with
its consequent. -/
def partners (s : Derivations) (i : Nat) (forms : List Canonical) : List (Nat × Formula) :=
  s.items.toList.zipIdx.filterMap fun (d, j) =>
    if j != i && d.implication.any (fun (antecedent, _) => forms.contains antecedent) then
      d.formula.implication?.map fun (_, c) => (j, c)
    else none

/-- Chains `A → B` at `i` with each partner `B → C`, unless both have been chained before. -/
def chain (i : Nat) (a : Formula) : List (Nat × Formula) → Derive Unit
  | [] => pure ()
  | (j, c) :: rest => do
    if !(← get).isFinished then
      if !((← applied i .hypotheticalSyllogism) && (← applied j .hypotheticalSyllogism)) then
        discard (mark i .hypotheticalSyllogism)
        discard (mark j .hypotheticalSyllogism)
        add (.implies a c) .hypotheticalSyllogism [i, j]
      chain i a rest

/-- From `A → B` and `B → C` to `A → C`. -/
def hypotheticalSyllogism : Rule
  | i, .implies a b => do
    chain i a (partners (← get).store i b.canonicalForms)
  | _, _ => pure ()

/-- The first implication whose forms pass a test, with its two sides. -/
def implication? (s : Derivations) (test : Canonical → Canonical → Bool) :
    Option (Nat × Formula × Formula) :=
  (s.findImplication? test).bind fun j =>
    (s.get? j).bind fun d => d.formula.implication?.map (j, ·)

/-- From `P ∨ Q`, `P → R` and `Q → S` both `R ∨ S` and `S ∨ R`. -/
def constructiveDilemma : Rule
  | i, .or p q => do
    if !(← applied i .constructiveDilemma) then
      let store := (← get).store
      let pForms := p.canonicalForms
      let qForms := q.canonicalForms
      match implication? store fun antecedent _ => pForms.contains antecedent,
        implication? store fun antecedent _ => qForms.contains antecedent with
      | some (j, _, r), some (k, _, s) =>
        discard (mark i .constructiveDilemma)
        add (.or r s) .constructiveDilemma [i, j, k]
        add (.or s r) .constructiveDilemma [i, j, k]
      | _, _ => pure ()
  | _, _ => pure ()

/-- From `¬R ∨ ¬S`, `P → R` and `Q → S` both `¬P ∨ ¬Q` and `¬Q ∨ ¬P`. -/
def destructiveDilemma : Rule
  | i, .or notR notS => do
    if !(← applied i .destructiveDilemma) then
      let store := (← get).store
      let rForms := notR.contraryForms
      let sForms := notS.contraryForms
      match implication? store fun _ consequent => rForms.contains consequent,
        implication? store fun _ consequent => sForms.contains consequent with
      | some (j, p, _), some (k, q, _) =>
        discard (mark i .destructiveDilemma)
        add (.or (.not p) (.not q)) .destructiveDilemma [i, j, k]
        add (.or (.not q) (.not p)) .destructiveDilemma [i, j, k]
      | _, _ => pure ()
  | _, _ => pure ()

/-- The De Morgan dual of a derivation that is not itself the conclusion. -/
def deMorgan : Rule := fun i f => do
  match f.deMorganDual with
  | some dual =>
    if !(← get).isConclusion f then
      if ← mark i .deMorgan then
        add dual .deMorgan [i]
  | none => pure ()

/-- From `P → Q`, if it is not the conclusion, to `¬Q → ¬P`. -/
def transposition : Rule
  | i, f@(.implies p q) => do
    if !(← get).isConclusion f then
      if ← mark i .transposition then
        add (.implies (.not q) (.not p)) .transposition [i]
  | _, _ => pure ()

/-- Exchanges an implication and a disjunction, if the result is a goal. -/
def materialImplication : Rule := fun i f => do
  match f.implicationDual with
  | some dual =>
    if !(← get).isConclusion f then
      if !(← applied i .materialImplication) then
        if (← get).isGoal dual then
          emit (.goal dual)
          discard (mark i .materialImplication)
          add dual .materialImplication [i]
  | none => pure ()

/-- Whether double negations, of no more than `limit` negations in all, lead from a formula to a
goal. -/
def reachesGoal (s : Search) : Nat → Formula → Bool
  | n + 2, f => s.isGoal (.not (.not f)) || reachesGoal s n (.not (.not f))
  | _, _ => false

/-- From `P` to `¬¬P`, if that leads to a goal. -/
def doubleNegationIntroduction : Rule := fun i f => do
  if !(← applied i .doubleNegationIntroduction) then
    let s ← get
    if reachesGoal s s.negationLimit f then
      discard (mark i .doubleNegationIntroduction)
      add (.not (.not f)) .doubleNegationIntroduction [i]

end Derive

end Sequitur
