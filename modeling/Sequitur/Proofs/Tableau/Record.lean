import Sequitur.Proofs.Derivation.Inheritance
import Sequitur.Proofs.Tableau.Descent

/-!
# Constants on record

Formulas are compared by what is printed, and a branch has its constants on record. If the formula at
the root is over the usual symbols then every constant symbol that is printed on a branch is on record
there (`Steps.recorded`). Free variables are no exception: an identity may put one where a constant
was, and then the literal is no longer over the usual symbols, but it is printed as before. So an
instance with a constant that is not on record is on no branch
(`Path.Recorded.mem_constants_of_contains`).
-/

namespace Sequitur

open Tableau Expand Expansion

/-! ## Printed symbols -/

theorem sign_not_isConstantSymbol :
    ∀ s ∈ spellings, s.sign.all fun c => !isConstantSymbol c := by decide

/-- The constant symbols of a canonical form are those of the text. -/
theorem mem_of_mem_scan {c : Char} (hc : isConstantSymbol c) {before : Option Char} {pending : Nat}
    {text : List Char} (h : c ∈ scan before pending text) : c ∈ text := by
  fun_induction scan before pending text with
  | case1 => exact h
  | case2 before d rest n ih => exact List.mem_cons_of_mem _ (ih h)
  | case3 before d rest hblank ih => exact List.mem_cons_of_mem _ (ih h)
  | case4 before d rest hblank s hs ih =>
    rcases List.mem_append.1 h with h | h
    · have hsign := List.all_eq_true.1
        (sign_not_isConstantSymbol s (List.mem_of_find?_eq_some hs)) c h
      rw [hc] at hsign
      cases hsign
    · exact List.mem_cons_of_mem _ (ih h)
  | case5 before d rest hblank hs ih =>
    rcases List.mem_cons.1 h with rfl | h
    · exact List.mem_cons_self
    · exact List.mem_cons_of_mem _ (ih h)

namespace Formula

variable {f g : Formula} {c : Char}

theorem Lettered.unrooted (h : f.Lettered) : f.unrooted.Lettered := by
  induction f with
  | root p ih => exact ih h
  | _ => exact h

theorem Lettered.mem_signs (h : f.Lettered) {k : TermKind} (hc : (k, c) ∈ f.terms) :
    c ∈ f.signs := by
  have hterm : ∀ {t : Formula}, t.IsLetteredTerm → (k, c) ∈ t.terms → t.symbol = some c := by
    intro t ht hmem
    cases t with
    | term l s =>
      obtain ⟨-, rfl⟩ : k = l ∧ c = s := by simpa using hmem
      rfl
    | _ => exact ht.elim
  induction f with
  | atom s => simp at hc
  | falsum => simp at hc
  | term l s =>
    obtain ⟨-, rfl⟩ : k = l ∧ c = s := by simpa using hc
    exact List.mem_singleton_self _
  | predicate s ps _ =>
    rw [terms_predicate] at hc
    obtain ⟨p, hp, hpc⟩ := List.mem_flatMap.1 hc
    exact List.mem_cons_of_mem _ (List.mem_filterMap.2 ⟨p, hp, hterm (h.2 p hp) hpc⟩)
  | not p ih => exact List.mem_cons_of_mem _ (ih h hc)
  | root p ih => exact ih h hc
  | binary op p q hp hq =>
    rw [terms_binary, List.mem_append] at hc
    have hsides := hc.imp (hp h.1) (hq h.2)
    simp only [signs, List.mem_cons, List.mem_append]
    grind
  | identity p q _ _ =>
    rw [terms_identity, List.mem_append] at hc
    have hsides := hc.imp (hterm h.1) (hterm h.2)
    simp only [signs, List.mem_cons, List.mem_append, Option.mem_toList]
    grind
  | quantified l x p ih =>
    have hbody := ih h.2 hc
    cases l <;> simp only [signs, List.mem_cons] <;> grind

/-- In a formula over the usual symbols, only constants are printed with the symbols of constants. -/
theorem Lettered.mem_constants (h : f.Lettered) (hc : c ∈ f.chars)
    (hsymbol : Sequitur.isConstantSymbol c) : c ∈ f.constants := by
  have hterm : ∀ {t : Formula}, t.IsLetteredTerm → c ∈ t.chars → c ∈ t.constants := by
    intro t ht hmem
    cases t with
    | term k s =>
      obtain rfl : c = s := by simpa using hmem
      cases k with
      | const => simp [mem_constants_iff]
      | var => exact absurd ht (by simp [IsLetteredTerm, isVariableSymbol_of_isConstantSymbol hsymbol])
    | _ => exact ht.elim
  have hletter : ¬isLetter c := by
    intro hl
    have hupper := isUpper_of_isLower (isLower_of_isConstantSymbol hsymbol)
    rw [isUpper_of_isLetter hl] at hupper
    cases hupper
  simp only [mem_constants_iff] at hterm ⊢
  induction f with
  | atom s =>
    obtain rfl : c = s := by simpa using hc
    exact absurd h hletter
  | falsum =>
    obtain rfl : c = '⊥' := by simpa using hc
    cases hsymbol
  | term k s => exact hterm h hc
  | predicate s ps _ =>
    rw [chars_predicate] at hc
    rcases List.mem_cons.1 hc with rfl | hc
    · exact absurd h.1 hletter
    · obtain ⟨p, hp, hpc⟩ := List.mem_flatMap.1 hc
      rw [terms_predicate]
      exact List.mem_flatMap.2 ⟨p, hp, hterm (h.2 p hp) hpc⟩
  | not p ih =>
    rcases List.mem_cons.1 hc with rfl | hc
    · cases hsymbol
    · exact ih h hc
  | root p ih => exact ih h hc
  | binary op p q hp hq =>
    have hsign : op.sign ≠ c := by
      rintro rfl
      cases op <;> cases hsymbol
    simp only [chars_binary, List.mem_cons, List.mem_append, List.not_mem_nil] at hc
    rw [terms_binary, List.mem_append]
    rcases hc with rfl | hc | rfl | rfl | rfl | hc | rfl | hc
    · cases hsymbol
    · exact .inl (hp h.1 hc)
    · cases hsymbol
    · exact absurd rfl hsign
    · cases hsymbol
    · exact .inr (hq h.2 hc)
    · cases hsymbol
    · exact hc.elim
  | identity p q _ _ =>
    simp only [chars_identity, List.mem_cons, List.mem_append] at hc
    rw [terms_identity, List.mem_append]
    rcases hc with hc | rfl | rfl | rfl | hc
    · exact .inl (hterm h.1 hc)
    · cases hsymbol
    · cases hsymbol
    · cases hsymbol
    · exact .inr (hterm h.2 hc)
  | quantified k x p ih =>
    simp only [chars_quantified, List.mem_cons] at hc
    rcases hc with rfl | rfl | rfl | rfl | hc
    · cases hsymbol
    · cases k <;> cases hsymbol
    · exact absurd h.1 (by simp [isVariableSymbol_of_isConstantSymbol hsymbol])
    · cases hsymbol
    · exact ih h.2 hc

/-- A constant of a formula over the usual symbols is printed wherever that formula is found. -/
theorem mem_chars_of_structurallyEquals (hg : g.Lettered) (h : f.structurallyEquals g)
    (hc : c ∈ g.constants) : c ∈ f.chars := by
  have hterm := mem_constants_iff.1 hc
  have hsymbol := hg.isConstantSymbol hterm
  have hsigns : c ∈ g.canonical := by
    rw [canonical_eq_signs hg]
    exact hg.mem_signs hterm
  rw [structurallyEquals_iff, canonicalForms] at h
  rcases List.mem_cons.1 h with h | h
  · rw [h] at hsigns
    exact mem_of_mem_scan hsymbol hsigns
  obtain ⟨f', hf', hcanonical⟩ := Option.map_eq_some_iff.1 (Option.mem_toList.1 h)
  rw [← hcanonical] at hsigns
  have hprinted : c ∈ f'.chars := mem_of_mem_scan hsymbol hsigns
  obtain ⟨p, q, ⟨rfl, rfl⟩ | ⟨rfl, rfl⟩⟩ := exchanges_iff.2 hf' <;>
  · simp only [chars_not, chars_identity, List.mem_cons, List.mem_append] at hprinted ⊢
    grind

/-! ## What the rules print -/

/-- Whether `K` holds of the constant symbols that are printed. -/
def PrintsIn (K : Char → Prop) (f : Formula) : Prop := ∀ c ∈ f.chars, isConstantSymbol c → K c

variable {K : Char → Prop}

theorem hereditary_printsIn : Hereditary (PrintsIn K) where
  not := by
    intro p
    have hsign : ¬isConstantSymbol '¬' := by decide
    simp [PrintsIn, hsign]
  root h := h
  binary := by
    intro op p q
    have hsign : ¬isConstantSymbol op.sign := by cases op <;> decide
    have hopen : ¬isConstantSymbol '(' := by decide
    have hclose : ¬isConstantSymbol ')' := by decide
    have hblank : ¬isConstantSymbol ' ' := by decide
    simp only [PrintsIn, chars_binary, List.forall_mem_cons, List.forall_mem_append]
    grind
  quantified := by
    intro k l x p h
    have hsign : ¬isConstantSymbol '¬' := by decide
    have hquantifier : ¬isConstantSymbol l.sign := by cases l <;> decide
    simp only [PrintsIn, chars_quantified, chars_not, List.forall_mem_cons] at h ⊢
    grind

theorem PrintsIn.body {k : Quantifier} {x : Char} {p : Formula}
    (h : (quantified k x p).PrintsIn K) : p.PrintsIn K := fun c hc =>
  h c (by simp [hc])

theorem symbol_mem_chars (h : f.symbol = some c) : c ∈ f.chars := by
  cases f with
  | atom s => cases h; exact List.mem_cons_self
  | predicate s ps => cases h; simp
  | term k s => cases h; exact List.mem_cons_self
  | quantified k x p => cases h; simp
  | _ => cases h

theorem mem_chars_substitute {a b : Char} {k : TermKind} (h : c ∈ (f.substitute a b k).chars) :
    c ∈ f.chars ∨ c = b := by
  induction f with
  | atom s => exact .inl h
  | falsum => exact .inl h
  | term l s =>
    rw [substitute] at h
    split at h
    · exact .inr (by simpa using h)
    · exact .inl h
  | predicate s ps ih =>
    rw [substitute_predicate, chars_predicate, List.flatMap_map] at h
    rw [chars_predicate]
    rcases List.mem_cons.1 h with rfl | h
    · exact .inl List.mem_cons_self
    · obtain ⟨p, hp, hpc⟩ := List.mem_flatMap.1 h
      exact (ih p hp hpc).imp_left fun hc =>
        List.mem_cons_of_mem _ (List.mem_flatMap.2 ⟨p, hp, hc⟩)
  | not p ih =>
    simp only [substitute, chars_not, List.mem_cons] at h ⊢
    grind
  | root p ih => exact ih h
  | binary op p q hp hq =>
    simp only [substitute, chars_binary, List.mem_cons, List.mem_append] at h ⊢
    grind
  | identity p q hp hq =>
    simp only [substitute, chars_identity, List.mem_cons, List.mem_append] at h ⊢
    grind
  | quantified l x p ih =>
    simp only [substitute, chars_quantified, List.mem_cons] at h ⊢
    grind

theorem PrintsIn.substitute (h : f.PrintsIn K) (a : Char) {b : Char}
    (hb : isConstantSymbol b → K b) (k : TermKind) : (f.substitute a b k).PrintsIn K := by
  intro c hc hsymbol
  rcases mem_chars_substitute hc with hc | rfl
  · exact h c hc hsymbol
  · exact hb hsymbol

/-! ## Literals -/

theorem isClosable_substitute (h : f.isClosable) (a b : Char) (k : TermKind) :
    (f.substitute a b k).isClosable := by
  have hatomic : ∀ {p : Formula}, p.isAtomic → (p.substitute a b k).isAtomic := by
    intro p hp
    cases p <;> first | rfl | cases hp
  cases f with
  | not p => exact hatomic (p := p) h
  | atom s => rfl
  | predicate s ps => rfl
  | identity p q => rfl
  | _ => cases h

/-- The rule for a literal gives no part of it. -/
theorem parts_of_isClosable (h : f.isClosable) : f.decompose.parts = [] := by
  cases f with
  | atom s => rfl
  | predicate s ps => rfl
  | not p => cases p <;> first | rfl | cases h
  | identity p q =>
    rw [decompose]
    split
    · split <;> rfl
    · rfl
  | _ => cases h

theorem hereditary_lettered : Hereditary Lettered where
  not := Iff.rfl
  root h := h
  binary := Iff.rfl
  quantified h := h

end Formula

/-! ## Branches -/

namespace Path

variable {p q : Path} {f : Formula} {c : Char} {others : List Formula}

/-- Whether the formulas of a branch are over the usual symbols, but perhaps for literals, and the
constant symbols that are printed there are among its constants. -/
structure Recorded (p : Path) : Prop where
  lettered : ∀ f ∈ p.formulas, f.Lettered ∨ f.isClosable
  printed : ∀ f ∈ p.formulas, f.PrintsIn (· ∈ p.constants)
  symbol : ∀ c ∈ p.constants, isConstantSymbol c

namespace Recorded

theorem start (hf : f.Lettered) : Recorded ⟨[f], f.constants⟩ where
  lettered := List.forall_mem_singleton.2 (.inl hf)
  printed := List.forall_mem_singleton.2 fun _ => hf.mem_constants
  symbol _ hc := hf.isConstantSymbol (Formula.mem_constants_iff.1 hc)

theorem lettered_body (h : p.Recorded) {k : Quantifier} {x : Char} {body : Formula}
    (hf : .quantified k x body ∈ p.formulas) : body.Lettered := by
  rcases h.lettered _ hf with hf | hf
  · exact hf.2
  · cases hf

/-- An instance of a quantifier on the branch is there only with a constant on record. -/
theorem mem_constants_of_contains (h : p.Recorded) {k : Quantifier} {x : Char} {body : Formula}
    (hf : .quantified k x body ∈ p.formulas) (hx : body.mentions x) (hc : isConstantSymbol c)
    (hcontains : p.contains (body.substitute x c .const)) : c ∈ p.constants := by
  obtain ⟨g, hg, hequals⟩ := contains_iff.1 hcontains
  have hlettered : (body.substitute x c .const).Lettered := (h.lettered_body hf).substitute x hc
  exact h.printed g hg c (Formula.mem_chars_of_structurallyEquals hlettered hequals
    (Formula.mem_constants_substitute_self hx)) hc

section Grow

variable (h : p.Recorded) (ha : p.Admits f c others) (hclosable : ∀ g ∈ others, g.isClosable)
  (hq : q ∈ p.grow c others f.decompose)

include h ha hclosable hq

theorem brings {g : Formula} (hg : Brings q c others f.decompose g) :
    (g.Lettered ∨ g.isClosable) ∧ g.PrintsIn (· ∈ q.constants) := by
  have hprinted : ∀ g ∈ p.formulas, g.PrintsIn (· ∈ q.constants) := fun g hg e he hsymbol =>
    (continues_of_mem_grow hq).constants e (h.printed g hg e he hsymbol)
  have hsymbol := ha.symbol h.symbol hq
  have hinstance : ∀ {k x body e}, f = .quantified k x body → e ∈ q.constants →
      (body.substitute x e .const).Lettered ∧
        (body.substitute x e .const).PrintsIn (· ∈ q.constants) := by
    rintro k x body e rfl he
    exact ⟨(h.lettered_body ha.mem).substitute x (hsymbol e he),
      (hprinted _ ha.mem).body.substitute x (fun _ => he) .const⟩
  generalize hd : f.decompose = d at hg hq
  cases hg with
  | part hpart =>
    subst hd
    refine ⟨?_, Formula.hereditary_printsIn.parts (hprinted f ha.mem)
      (fun _ _ _ hf _ => (hf ▸ hprinted f ha.mem).body) hpart⟩
    rcases h.lettered f ha.mem with hf | hf
    · exact .inl (Formula.hereditary_lettered.parts hf (fun _ _ _ he _ => (he ▸ hf).2) hpart)
    · rw [Formula.parts_of_isClosable hf] at hpart
      exact absurd hpart List.not_mem_nil
  | @witness x body hc =>
    obtain ⟨hl, hp⟩ := hinstance (Formula.eq_of_decompose_witness hd).1 hc
    exact ⟨.inl hl, hp⟩
  | @instantiated x e body he =>
    obtain ⟨hl, hp⟩ := hinstance (Formula.eq_of_decompose_instances hd).1 he
    exact ⟨.inl hl, hp⟩
  | @replaced a b target replacement g hmem hr =>
    refine ⟨.inr (Formula.isClosable_substitute (hclosable g hmem) _ _ _),
      (hprinted g (ha.copied g hmem)).substitute target (fun hsymbol => ?_) .const⟩
    -- what is put in is printed in the identity
    obtain ⟨t, u, rfl, ht, hu⟩ := Formula.eq_of_decompose_replace hd
    refine hprinted _ ha.mem replacement ?_ hsymbol
    rw [Formula.chars_identity, List.mem_append]
    rcases (replacement?_eq_some hr).2 with ⟨-, rfl⟩ | ⟨-, rfl⟩
    · exact .inr (by simp [Formula.symbol_mem_chars hu])
    · exact .inl (Formula.symbol_mem_chars ht)

theorem grow : q.Recorded := by
  refine ⟨fun g hg => ?_, fun g hg => ?_, ha.symbol h.symbol hq⟩
  · rcases mem_of_mem_grow hq hg with hg | hg
    · exact h.lettered g hg
    · exact (h.brings ha hclosable hq hg).1
  · rcases mem_of_mem_grow hq hg with hg | hg
    · exact fun e he hsymbol =>
        (continues_of_mem_grow hq).constants e (h.printed g hg e he hsymbol)
    · exact (h.brings ha hclosable hq hg).2

end Grow

end Recorded

end Path

theorem Tableau.isClosable_of_mem_closableOn {t : Tableau} {key l : Nat} {f : Formula}
    (h : f ∈ closableOn t key l) : f.isClosable := by
  rw [closableOn_eq] at h
  obtain ⟨e, he, rfl⟩ := List.mem_map.1 h
  exact (Bool.and_eq_true_iff.1 (List.mem_filter.1 he).2).2

namespace Expansion

variable {s s' : Expansion}

theorem Step.recorded (h : Step s s') (hs : s.Valid)
    (h₀ : ∀ l, s.tableau.IsLeaf l → (s.tableau.path l).Recorded) :
    ∀ l, s'.tableau.IsLeaf l → (s'.tableau.path l).Recorded := by
  intro l' hl'
  cases h with
  | idle ha h => exact h₀ l' hl'
  | @applied e rest m c n _ ha hne hm hd hc h =>
    obtain ⟨l, hl, -, ⟨-, rfl, hp⟩ | ⟨hL, hq⟩⟩ := h.descends ⟨hs.tree, hs.marked⟩ hl'
    · exact hp ▸ h₀ l' hl
    · exact (h₀ l hl).grow (admits_of_mem hs.toCoherent hm hc hL)
        (fun g => isClosable_of_mem_closableOn) hq

/-- Every branch of a run has the constants that are printed on it on record. -/
theorem Steps.recorded {f : Formula} {requeues : Bool} (h : Steps s s') (h₀ : Begins s f requeues)
    (hf : f.unrooted.Lettered) : ∀ l, s'.tableau.IsLeaf l → (s'.tableau.path l).Recorded := by
  induction h with
  | refl =>
    intro l hl
    rw [h₀.eq_root hl.lt_size, h₀.path]
    exact .start hf
  | tail hsteps hstep ih => exact hstep.recorded (Steps.valid hsteps h₀.valid) ih

end Expansion

end Sequitur
