import Sequitur.Proofs.Formula.Kinds
import Sequitur.Proofs.Tableau.Descent

/-!
# What the formulas of a branch inherit

A property of formulas that passes to parts and to instances holds of every formula of every branch
if it holds of the one at the root (`Steps.forall_formula`). Two such properties are that no
quantifier binds again what a quantifier around it binds, and that a kind of formula which the rules
do not bring in is nowhere in it.
-/

namespace Sequitur

open Tableau Expansion

namespace Formula

/-- A property of formulas that all the rules hand down. -/
structure Inherited (P : Formula → Prop) : Prop extends Hereditary P where
  body : ∀ {k x p}, P (.quantified k x p) → P p
  substitute : ∀ {p} (a b : Char), P p → P (p.substitute a b .const)

/-- A property of formulas that each rule hands down to what it gives. -/
structure HandsDown (P : Formula → Prop) : Prop where
  parts : ∀ {f}, P f → ∀ g ∈ f.decompose.parts, P g
  instantiate : ∀ {k x p c}, P (.quantified k x p) → P (p.substitute x c .const)
  substitute : ∀ {p} (a b : Char), P p → P (p.substitute a b .const)

/-! ## Variables bound once -/

theorem Unrepeated.anti {scope wider : Finset Char} (hs : scope ⊆ wider) {f : Formula}
    (h : f.Unrepeated wider) : f.Unrepeated scope := by
  induction f generalizing scope wider with
  | not p ih => exact ih hs h
  | root p ih => exact ih hs h
  | binary op p q hp hq => exact ⟨hp hs h.1, hq hs h.2⟩
  | quantified k x p ih =>
    exact ⟨fun hx => h.1 (hs hx), ih (Finset.insert_subset_insert x hs) h.2⟩
  | _ => exact trivial

theorem Unrepeated.substitute {scope : Finset Char} {f : Formula} (h : f.Unrepeated scope)
    (a b : Char) (k : TermKind) : (f.substitute a b k).Unrepeated scope := by
  induction f generalizing scope with
  | term l s =>
    rw [Formula.substitute]
    split <;> exact trivial
  | predicate s ps _ =>
    rw [substitute_predicate]
    exact trivial
  | not p ih => exact ih h
  | root p ih => exact ih h
  | binary op p q hp hq => exact ⟨hp h.1, hq h.2⟩
  | quantified k x p ih => exact ⟨h.1, ih h.2⟩
  | _ => exact trivial

theorem inherited_unrepeated : Inherited (Unrepeated ∅) where
  toHereditary := hereditary_unrepeated
  body h := h.2.anti (Finset.empty_subset _)
  substitute a b h := h.substitute a b .const

/-- The rules bring in neither wrappers nor identities. -/
theorem inherited_lacks {k : Kind} (hk : k = .root ∨ k = .identity) : Inherited (Lacks k) where
  not := by
    intro p
    rw [lacks_iff, children, List.forall_mem_singleton]
    exact and_iff_right (by rcases hk with rfl | rfl <;> exact Kind.noConfusion)
  root h := h.of_mem_children (List.mem_singleton_self _)
  binary := by
    intro op p q
    rw [lacks_iff, children, List.forall_mem_cons, List.forall_mem_singleton]
    exact and_iff_right (by rcases hk with rfl | rfl <;> cases op <;> exact Kind.noConfusion)
  quantified := by
    intro q q' x p h
    simp only [lacks_iff (f := .quantified _ _ _), lacks_iff (f := .not _), children,
      List.forall_mem_singleton]
    refine ⟨?_, ?_, h.of_mem_children (List.mem_singleton_self _)⟩
    · rcases hk with rfl | rfl <;> cases q' <;> exact Kind.noConfusion
    · rcases hk with rfl | rfl <;> exact Kind.noConfusion
  body h := h.of_mem_children (List.mem_singleton_self _)
  substitute a b h := by
    refine h.substitute ?_ a b
    rcases hk with rfl | rfl <;> exact Kind.noConfusion

end Formula

/-! ## Branches -/

section Branches

variable {P : Formula → Prop} {p q : Path} {s s' : Expansion}

theorem Formula.Inherited.handsDown (hP : Inherited P) : HandsDown P where
  parts h _ hg := hP.parts h (fun _ _ _ he _ => hP.body (he ▸ h)) hg
  instantiate h := hP.substitute _ _ (hP.body h)
  substitute := hP.substitute

theorem Formula.HandsDown.grow (hP : HandsDown P) (hp : ∀ f ∈ p.formulas, P f) {f : Formula}
    {c : Char} {others : List Formula} (ha : p.Admits f c others)
    (hq : q ∈ p.grow c others f.decompose) : ∀ g ∈ q.formulas, P g := by
  intro g hg
  rcases Path.mem_of_mem_grow hq hg with hg | hg
  · exact hp g hg
  have hf := hp f ha.mem
  generalize hd : f.decompose = d at hg
  cases hg with
  | part hpart =>
    subst hd
    exact hP.parts hf g hpart
  | witness hc =>
    obtain ⟨rfl, -⟩ := eq_of_decompose_witness hd
    exact hP.instantiate hf
  | instantiated he =>
    obtain ⟨rfl, -⟩ := eq_of_decompose_instances hd
    exact hP.instantiate hf
  | replaced hmem hr => exact hP.substitute _ _ (hp _ (ha.copied _ hmem))

/-- What the formula at the root has and the rules hand down, all formulas of the tableau have. -/
theorem Expansion.Steps.forall_handedDown (hP : Formula.HandsDown P) {f : Formula} {requeues : Bool}
    (h : Steps s s') (h₀ : Begins s f requeues) (hf : P f.unrooted) :
    ∀ l, s'.tableau.IsLeaf l → ∀ g ∈ (s'.tableau.path l).formulas, P g := by
  refine h.forall_path (P := fun p => ∀ g ∈ p.formulas, P g) (fun p f c others q hp ha hq => ?_)
    h₀.valid fun l hl => ?_
  · exact hP.grow hp ha hq
  · rw [h₀.eq_root hl.lt_size, h₀.path]
    exact List.forall_mem_singleton.2 hf

/-- What the formula at the root has, all formulas of the tableau inherit. -/
theorem Expansion.Steps.forall_formula (hP : Formula.Inherited P) {f : Formula} {requeues : Bool}
    (h : Steps s s') (h₀ : Begins s f requeues) (hf : P f.unrooted) :
    ∀ l, s'.tableau.IsLeaf l → ∀ g ∈ (s'.tableau.path l).formulas, P g :=
  h.forall_handedDown hP.handsDown h₀ hf

end Branches

end Sequitur
