import Mathlib.Data.List.Basic
import Sequitur.Proofs.Tableau.Rules
import Sequitur.Tableau.Dispatch

/-!
# Branches by themselves

A branch is a list of formulas, the last placed first, with the constants in use on it. The rules are
stated here for one branch at a time, without the tableau around it: `Path.grow` gives the branches
that a rule makes of one. What they come to is said by membership: where the formulas of the new
branch come from, and that on an open one every formula that the rule calls for is found.
-/

namespace Sequitur

/-- What stands on a branch. -/
@[ext]
structure Path where
  /-- The formulas, from the end of the branch up. -/
  formulas : List Formula
  constants : Symbols

namespace Path

def isClosed (p : Path) : Bool := contradictory (p.formulas.map .of)

/-- Whether some formula of the branch is structurally equal to `f`. -/
def contains (p : Path) (f : Formula) : Bool := p.formulas.any (·.structurallyEquals f)

def push (p : Path) (f : Formula) : Path := { p with formulas := f :: p.formulas }

def addConstant (p : Path) (c : Char) : Path := { p with constants := p.constants.insert c }

/-! ## The rules -/

/-- Places the formulas that the branch has not, until it closes. -/
def stack (p : Path) : List Formula → Path
  | [] => p
  | f :: fs =>
    if p.isClosed then p
    else if p.contains f then p.stack fs
    else (p.push f).stack fs

/-- Places an instance with the constant `c`, unless the branch has it. -/
def witness (p : Path) (f : Formula) (c : Char) : Path :=
  if p.contains f then p else (p.push f).addConstant c

/-- The branch with a constant, the first if it had none. -/
def seed (p : Path) : Path := if p.constants.isEmpty then p.addConstant firstConstant else p

/-- Places an instance with each constant, until the branch closes. -/
def instantiateEach (p : Path) (x : Char) (body : Formula) : List Char → Path
  | [] => p
  | c :: cs =>
    let q := p.stack [body.substitute x c .const]
    if q.isClosed then q else q.instantiateEach x body cs

/-- Places copies of formulas with one side of an identity for the other, until the branch closes. -/
def replaceEach (p : Path) (a b : Char) : List Formula → Path
  | [] => p
  | f :: fs =>
    match Expand.replacement? a b f with
    | none => p.replaceEach a b fs
    | some (target, replacement) =>
      let g := f.substitute target replacement .const
      if g.isTrivialIdentity || p.contains g then p.replaceEach a b fs
      else if (p.push g).isClosed then p.push g
      else (p.push g).replaceEach a b fs

/-- What a rule makes of an open branch, where `c` is the constant for a witness and `others` are the
formulas that an identity bears upon. -/
def grow (p : Path) (c : Char) (others : List Formula) : Decomposition → List Path
  | .nothing | .unexpected => [p]
  | .stack fs => [p.stack fs]
  | .split left lefts right rights => [(p.push left).stack lefts, (p.push right).stack rights]
  | .witness x body => [p.witness (body.substitute x c .const) c]
  | .instances x body => [p.seed.instantiateEach x body p.seed.constants.members]
  | .replace a b => [p.replaceEach a b others]

variable {p q : Path} {f g : Formula}

theorem contains_iff : p.contains f ↔ ∃ g ∈ p.formulas, g.structurallyEquals f := List.any_eq_true

theorem contains_of_mem (h : f ∈ p.formulas) : p.contains f :=
  contains_iff.2 ⟨f, h, f.structurallyEquals_refl⟩

/-! ## Longer branches -/

/-- Whether one branch continues another. -/
structure Continues (p q : Path) : Prop where
  formulas : p.formulas <:+ q.formulas
  constants : ∀ c ∈ p.constants, c ∈ q.constants

namespace Continues

theorem refl (p : Path) : Continues p p := ⟨List.suffix_refl _, fun _ => id⟩

theorem trans {p q r : Path} (h : Continues p q) (k : Continues q r) : Continues p r :=
  ⟨h.formulas.trans k.formulas, fun c hc => k.constants c (h.constants c hc)⟩

theorem push (p : Path) (f : Formula) : Continues p (p.push f) :=
  ⟨List.suffix_cons f _, fun _ => id⟩

theorem addConstant (p : Path) (c : Char) : Continues p (p.addConstant c) :=
  ⟨List.suffix_refl _, fun _ hd => Symbols.mem_insert.2 (.inr hd)⟩

theorem contains (h : Continues p q) (hf : p.contains f) : q.contains f := by
  obtain ⟨g, hg, hgf⟩ := contains_iff.1 hf
  exact contains_iff.2 ⟨g, h.formulas.subset hg, hgf⟩

end Continues

/-! ## Stacking -/

section Stack

variable (fs : List Formula)

theorem constants_stack (p : Path) : (p.stack fs).constants = p.constants := by
  fun_induction p.stack fs with
  | case1 => rfl
  | case2 => rfl
  | case3 p f fs _ _ ih => exact ih
  | case4 p f fs _ _ ih => exact ih

theorem continues_stack (p : Path) : p.Continues (p.stack fs) := by
  fun_induction p.stack fs with
  | case1 p => exact .refl p
  | case2 p => exact .refl p
  | case3 p f fs _ _ ih => exact ih
  | case4 p f fs _ _ ih => exact (Continues.push p f).trans ih

variable {fs}

theorem mem_of_mem_stack (h : g ∈ (p.stack fs).formulas) : g ∈ p.formulas ∨ g ∈ fs := by
  fun_induction p.stack fs with
  | case1 => exact .inl h
  | case2 => exact .inl h
  | case3 p f fs _ _ ih => exact (ih h).imp_right (List.mem_cons_of_mem f)
  | case4 p f fs _ _ ih =>
    rcases ih h with h | h
    · exact (List.mem_cons.1 h).elim (fun e => .inr (e ▸ List.mem_cons_self)) .inl
    · exact .inr (List.mem_cons_of_mem f h)

theorem contains_stack (h : ¬(p.stack fs).isClosed) (hf : f ∈ fs) : (p.stack fs).contains f := by
  fun_induction p.stack fs with
  | case1 => exact absurd hf List.not_mem_nil
  | case2 p g fs hclosed => exact absurd hclosed h
  | case3 p g fs _ hg ih =>
    rcases List.mem_cons.1 hf with rfl | hf
    · exact (continues_stack fs p).contains hg
    · exact ih h hf
  | case4 p g fs _ _ ih =>
    rcases List.mem_cons.1 hf with rfl | hf
    · exact (continues_stack fs (p.push f)).contains (contains_of_mem List.mem_cons_self)
    · exact ih h hf

end Stack

/-! ## Instances -/

section Instances

variable {x : Char} {body : Formula} {cs : List Char}

theorem mem_constants_seed {c : Char} (h : c ∈ p.seed.constants) :
    c ∈ p.constants ∨ p.constants.isEmpty ∧ c = firstConstant := by
  rw [seed] at h
  split at h
  · next he => exact (Symbols.mem_insert.1 h).symm.imp_right fun h => ⟨he, h⟩
  · exact .inl h

theorem exists_mem_constants_seed (p : Path) : ∃ c, c ∈ p.seed.constants := by
  rw [seed]
  split
  · exact ⟨firstConstant, Symbols.mem_insert.2 (.inl rfl)⟩
  · next h => exact List.exists_mem_of_ne_nil _ fun he => h (List.isEmpty_iff.2 he)

theorem continues_seed (p : Path) : p.Continues p.seed := by
  rw [seed]
  split
  · exact .addConstant p _
  · exact .refl p

theorem formulas_seed (p : Path) : p.seed.formulas = p.formulas := by
  rw [seed]
  split <;> rfl

theorem constants_instantiateEach (p : Path) :
    (p.instantiateEach x body cs).constants = p.constants := by
  fun_induction p.instantiateEach x body cs with
  | case1 => rfl
  | case2 => exact constants_stack _ _
  | case3 p c cs q _ ih => exact ih.trans (constants_stack _ _)

theorem continues_instantiateEach (p : Path) : p.Continues (p.instantiateEach x body cs) := by
  fun_induction p.instantiateEach x body cs with
  | case1 p => exact .refl p
  | case2 => exact continues_stack _ _
  | case3 p c cs q _ ih => exact (continues_stack _ _).trans ih

theorem mem_of_mem_instantiateEach (h : g ∈ (p.instantiateEach x body cs).formulas) :
    g ∈ p.formulas ∨ ∃ c ∈ cs, g = body.substitute x c .const := by
  fun_induction p.instantiateEach x body cs with
  | case1 => exact .inl h
  | case2 p c cs q _ =>
    refine (mem_of_mem_stack h).imp_right fun h => ⟨c, List.mem_cons_self, ?_⟩
    exact List.mem_singleton.1 h
  | case3 p c cs q _ ih =>
    rcases ih h with h | ⟨d, hd, hg⟩
    · refine (mem_of_mem_stack h).imp_right fun h => ⟨c, List.mem_cons_self, ?_⟩
      exact List.mem_singleton.1 h
    · exact .inr ⟨d, List.mem_cons_of_mem c hd, hg⟩

theorem contains_instantiateEach {c : Char} (h : ¬(p.instantiateEach x body cs).isClosed)
    (hc : c ∈ cs) : (p.instantiateEach x body cs).contains (body.substitute x c .const) := by
  fun_induction p.instantiateEach x body cs with
  | case1 => exact absurd hc List.not_mem_nil
  | case2 p d cs q hclosed => exact absurd hclosed h
  | case3 p d cs q hopen ih =>
    rcases List.mem_cons.1 hc with rfl | hc
    · exact (continues_instantiateEach q).contains
        (contains_stack hopen (List.mem_singleton_self _))
    · exact ih h hc

end Instances

/-! ## Witnesses -/

theorem continues_witness (p : Path) (f : Formula) (c : Char) : p.Continues (p.witness f c) := by
  rw [witness]
  split
  · exact .refl p
  · exact (Continues.push p f).trans (.addConstant _ c)

theorem contains_witness (p : Path) (f : Formula) (c : Char) : (p.witness f c).contains f := by
  rw [witness]
  split
  · next h => exact h
  · exact contains_of_mem List.mem_cons_self

theorem mem_of_mem_witness {c : Char} (h : g ∈ (p.witness f c).formulas) :
    g ∈ p.formulas ∨ g = f ∧ c ∈ (p.witness f c).constants := by
  rw [witness] at h ⊢
  split at h
  · exact .inl h
  · next hf =>
    rw [if_neg hf]
    exact (List.mem_cons.1 h).symm.imp_right fun h => ⟨h, Symbols.mem_insert.2 (.inl rfl)⟩

/-! ## Replacements -/

section Replacements

variable {a b : Char} {fs : List Formula}

theorem replacement?_eq_some {target replacement : Char}
    (h : Expand.replacement? a b f = some (target, replacement)) :
    f.mentions target ∧ (target = a ∧ replacement = b ∨ target = b ∧ replacement = a) := by
  rw [Expand.replacement?] at h
  split at h
  · next hm =>
    cases h
    exact ⟨hm, .inl ⟨rfl, rfl⟩⟩
  · split at h
    · next hm =>
      cases h
      exact ⟨hm, .inr ⟨rfl, rfl⟩⟩
    · cases h

theorem constants_replaceEach (p : Path) : (p.replaceEach a b fs).constants = p.constants := by
  fun_induction p.replaceEach a b fs with
  | case1 => rfl
  | case2 p f fs _ ih => exact ih
  | case3 p f fs _ _ _ g _ ih => exact ih
  | case4 p f fs _ _ _ g _ _ => rfl
  | case5 p f fs _ _ _ g _ _ ih => exact ih

theorem continues_replaceEach (p : Path) : p.Continues (p.replaceEach a b fs) := by
  fun_induction p.replaceEach a b fs with
  | case1 p => exact .refl p
  | case2 p f fs _ ih => exact ih
  | case3 p f fs _ _ _ g _ ih => exact ih
  | case4 p f fs _ _ _ g _ _ => exact .push p g
  | case5 p f fs _ _ _ g _ _ ih => exact (Continues.push p g).trans ih

theorem mem_of_mem_replaceEach (h : g ∈ (p.replaceEach a b fs).formulas) :
    g ∈ p.formulas ∨ ∃ f ∈ fs, ∃ target replacement,
      Expand.replacement? a b f = some (target, replacement) ∧
        g = f.substitute target replacement .const := by
  fun_induction p.replaceEach a b fs with
  | case1 => exact .inl h
  | case2 p f fs _ ih =>
    refine (ih h).imp_right fun ⟨e, he, hg⟩ => ⟨e, List.mem_cons_of_mem f he, hg⟩
  | case3 p f fs _ _ _ r _ ih =>
    refine (ih h).imp_right fun ⟨e, he, hg⟩ => ⟨e, List.mem_cons_of_mem f he, hg⟩
  | case4 p f fs _ _ hr r _ _ =>
    exact (List.mem_cons.1 h).symm.imp_right fun e => ⟨f, List.mem_cons_self, _, _, hr, e⟩
  | case5 p f fs _ _ hr r _ _ ih =>
    rcases ih h with h | ⟨e, he, hg⟩
    · exact (List.mem_cons.1 h).symm.imp_right fun e => ⟨f, List.mem_cons_self, _, _, hr, e⟩
    · exact .inr ⟨e, List.mem_cons_of_mem f he, hg⟩

end Replacements

/-! ## Growth -/

/-- The formulas that a rule can bring to a branch, where `q` is the branch that it makes. -/
inductive Brings (q : Path) (c : Char) (others : List Formula) : Decomposition → Formula → Prop
  | part {d : Decomposition} {g : Formula} (h : g ∈ d.parts) : Brings q c others d g
  | witness {x : Char} {body : Formula} (h : c ∈ q.constants) :
    Brings q c others (.witness x body) (body.substitute x c .const)
  | instantiated {x e : Char} {body : Formula} (h : e ∈ q.constants) :
    Brings q c others (.instances x body) (body.substitute x e .const)
  | replaced {a b target replacement : Char} {f : Formula} (hf : f ∈ others)
    (h : Expand.replacement? a b f = some (target, replacement)) :
    Brings q c others (.replace a b) (f.substitute target replacement .const)

section Grow

variable {c : Char} {others : List Formula} {d : Decomposition}

theorem mem_of_mem_grow (hq : q ∈ p.grow c others d) (hg : g ∈ q.formulas) :
    g ∈ p.formulas ∨ Brings q c others d g := by
  cases d with
  | nothing => exact .inl (List.mem_singleton.1 hq ▸ hg)
  | unexpected => exact .inl (List.mem_singleton.1 hq ▸ hg)
  | stack fs =>
    rw [List.mem_singleton.1 hq] at hg
    exact (mem_of_mem_stack hg).imp_right .part
  | split left lefts right rights =>
    have hside : ∀ f fs, q = (p.push f).stack fs → f :: fs ⊆ (Decomposition.split left lefts right
        rights).parts → g ∈ p.formulas ∨ Brings q c others (.split left lefts right rights) g := by
      intro f fs hq' hsub
      rw [hq'] at hg
      rcases mem_of_mem_stack hg with hg | hg
      · rcases List.mem_cons.1 hg with rfl | hg
        · exact .inr (.part (hsub List.mem_cons_self))
        · exact .inl hg
      · exact .inr (.part (hsub (List.mem_cons_of_mem f hg)))
    rcases List.mem_cons.1 hq with hq | hq
    · exact hside left lefts hq (List.subset_append_left _ _)
    · exact hside right rights (List.mem_singleton.1 hq) (List.subset_append_right _ _)
  | witness x body =>
    obtain rfl := List.mem_singleton.1 hq
    rcases mem_of_mem_witness hg with hg | ⟨rfl, hc⟩
    · exact .inl hg
    · exact .inr (.witness hc)
  | instances x body =>
    obtain rfl := List.mem_singleton.1 hq
    rcases mem_of_mem_instantiateEach hg with h | ⟨e, he, rfl⟩
    · exact .inl (formulas_seed p ▸ h)
    · exact .inr (.instantiated ((constants_instantiateEach p.seed).symm ▸ he))
  | replace a b =>
    rw [List.mem_singleton.1 hq] at hg
    rcases mem_of_mem_replaceEach hg with h | ⟨f, hf, target, replacement, hr, rfl⟩
    · exact .inl h
    · exact .inr (.replaced hf hr)

theorem mem_constants_of_mem_grow (hq : q ∈ p.grow c others d) {e : Char} (he : e ∈ q.constants) :
    e ∈ p.constants ∨ (∃ x body, d = .witness x body ∧ e = c) ∨
      ∃ x body, d = .instances x body ∧ e = firstConstant := by
  cases d with
  | nothing => exact .inl (List.mem_singleton.1 hq ▸ he)
  | unexpected => exact .inl (List.mem_singleton.1 hq ▸ he)
  | stack fs =>
    rw [List.mem_singleton.1 hq, constants_stack] at he
    exact .inl he
  | split left lefts right rights =>
    rcases List.mem_cons.1 hq with rfl | hq
    · rw [constants_stack] at he
      exact .inl he
    · rw [List.mem_singleton.1 hq, constants_stack] at he
      exact .inl he
  | witness x body =>
    rw [List.mem_singleton.1 hq, witness] at he
    split at he
    · exact .inl he
    · exact (Symbols.mem_insert.1 he).symm.imp_right fun h => .inl ⟨x, body, rfl, h⟩
  | instances x body =>
    rw [List.mem_singleton.1 hq, constants_instantiateEach] at he
    exact (mem_constants_seed he).imp_right fun h => .inr ⟨x, body, rfl, h.2⟩
  | replace a b =>
    rw [List.mem_singleton.1 hq, constants_replaceEach] at he
    exact .inl he

theorem continues_of_mem_grow (hq : q ∈ p.grow c others d) : p.Continues q := by
  cases d with
  | nothing => exact List.mem_singleton.1 hq ▸ .refl p
  | unexpected => exact List.mem_singleton.1 hq ▸ .refl p
  | stack fs => exact List.mem_singleton.1 hq ▸ continues_stack fs p
  | split left lefts right rights =>
    rcases List.mem_cons.1 hq with rfl | hq
    · exact (Continues.push p left).trans (continues_stack lefts _)
    · exact List.mem_singleton.1 hq ▸ (Continues.push p right).trans (continues_stack rights _)
  | witness x body => exact List.mem_singleton.1 hq ▸ continues_witness p _ c
  | instances x body =>
    exact List.mem_singleton.1 hq ▸ (continues_seed p).trans (continues_instantiateEach p.seed)
  | replace a b => exact List.mem_singleton.1 hq ▸ continues_replaceEach p

end Grow

/-! ## Contradiction -/

theorem isAbsurd_iff : (Keyed.of f).isAbsurd ↔
    f = .falsum ∨ ∃ g, f = .not g ∧ g.isTrivialIdentity := by
  cases f <;> simp [Keyed.isAbsurd, Keyed.of]

theorem affirmed_eq_some_iff {form : Canonical} : (Keyed.of f).affirmed = some form ↔
    f.isAtomic ∧ f.canonical = form := by
  have hatomic : (f.isClosable && !f.isNegation) = f.isAtomic := by
    cases f <;> simp [Formula.isClosable, Formula.isNegation, Formula.isAtomic]
  rw [Keyed.affirmed, Keyed.of]
  simp only [hatomic]
  split <;> simp_all

theorem mem_denied_iff {form : Canonical} : form ∈ (Keyed.of f).denied ↔
    ∃ g, f = .not g ∧ g.isAtomic ∧ form ∈ g.canonicalForms := by
  cases f with
  | not g =>
    rw [Keyed.denied, Keyed.of]
    simp only
    split <;> simp_all
  | _ => simp [Keyed.denied, Keyed.of]

/-- A branch is closed exactly if it has falsum, the denial that a thing is itself, or what it also
denies. -/
theorem isClosed_iff : p.isClosed ↔
    .falsum ∈ p.formulas ∨ (∃ g, .not g ∈ p.formulas ∧ g.isTrivialIdentity) ∨
      ∃ f g, f ∈ p.formulas ∧ .not g ∈ p.formulas ∧ f.isAtomic ∧ g.isAtomic ∧
        g.structurallyEquals f := by
  have habsurd : (p.formulas.map Keyed.of).any (·.isAbsurd) ↔
      .falsum ∈ p.formulas ∨ ∃ g, .not g ∈ p.formulas ∧ g.isTrivialIdentity := by
    simp only [List.any_map, List.any_eq_true, Function.comp_apply, isAbsurd_iff]
    grind
  rw [Path.isClosed, contradictory, Bool.or_eq_true, habsurd, or_assoc]
  refine or_congr_right (or_congr_right ?_)
  simp only [List.any_eq_true, List.mem_filterMap, List.mem_map, List.contains_iff_mem,
    List.mem_flatMap, Formula.structurallyEquals_iff]
  constructor
  · rintro ⟨form, ⟨_, ⟨f, hf, rfl⟩, haff⟩, _, ⟨h, hh, rfl⟩, hden⟩
    obtain ⟨hatomic, rfl⟩ := affirmed_eq_some_iff.1 haff
    obtain ⟨g, rfl, hg, hmem⟩ := mem_denied_iff.1 hden
    exact ⟨f, g, hf, hh, hatomic, hg, hmem⟩
  · rintro ⟨f, g, hf, hg, hfa, hga, hmem⟩
    refine ⟨f.canonical, ⟨_, ⟨f, hf, rfl⟩, affirmed_eq_some_iff.2 ⟨hfa, rfl⟩⟩, _, ⟨_, hg, rfl⟩, ?_⟩
    exact mem_denied_iff.2 ⟨g, rfl, hga, hmem⟩

end Path

end Sequitur
