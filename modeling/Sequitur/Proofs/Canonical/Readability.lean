import Sequitur.Proofs.Canonical.Projection

/-!
# Canonical forms can be read back

Both parentheses have one sign and a universal has none, yet no two formulas share a canonical form,
but for wrappers and for the two ways to write an atom. `Formula.plain` takes these away, and
`canonical_eq_iff` says that nothing else is lost.

The proof reads two formulas from the left at once. What comes behind a formula never continues it,
as that would take a small letter or a sign of identity.
-/

namespace Sequitur.Formula

/-! ## Plain formulas -/

/-- The formula without wrappers, and with every letter without parameters written as an atom. -/
def plain : Formula → Formula
  | .predicate s [] => .atom s
  | .not p => .not p.plain
  | .binary op p q => .binary op p.plain q.plain
  | .quantified k x p => .quantified k x p.plain
  | .root p => p.plain
  | f => f

def IsPlain : Formula → Prop
  | .predicate _ ps => ps ≠ []
  | .not p | .quantified _ _ p => p.IsPlain
  | .binary _ p q => p.IsPlain ∧ q.IsPlain
  | .root _ => False
  | .atom _ | .term _ _ | .identity _ _ | .falsum => True

theorem isPlain_plain (f : Formula) : f.plain.IsPlain := by
  induction f with
  | predicate s ps _ => cases ps <;> simp [plain, IsPlain]
  | not p ih => exact ih
  | binary op p q hp hq => exact ⟨hp, hq⟩
  | quantified k x p ih => exact ih
  | root p ih => exact ih
  | _ => exact trivial

theorem Lettered.plain {f : Formula} (h : f.Lettered) : f.plain.Lettered := by
  induction f with
  | predicate s ps _ =>
    cases ps with
    | nil => exact h.1
    | cons p ps => exact h
  | not p ih => exact ih h
  | binary op p q hp hq => exact ⟨hp h.1, hq h.2⟩
  | quantified k x p ih => exact ⟨h.1, ih h.2⟩
  | root p ih => exact ih h
  | _ => exact h

theorem signs_plain (f : Formula) : f.plain.signs = f.signs := by
  induction f with
  | predicate s ps _ => cases ps <;> rfl
  | not p ih => rw [plain, signs, signs, ih]
  | binary op p q hp hq => rw [plain, signs, signs, hp, hq]
  | quantified k x p ih => cases k <;> rw [plain, signs, signs, ih]
  | root p ih => exact ih
  | _ => rfl

theorem terms_plain (f : Formula) : f.plain.terms = f.terms := by
  induction f with
  | predicate s ps _ => cases ps <;> simp [plain]
  | not p ih => exact ih
  | binary op p q hp hq => rw [plain, terms_binary, terms_binary, hp, hq]
  | quantified k x p ih => exact ih
  | root p ih => exact ih
  | _ => rfl

/-! ## The first sign -/

/-- What kind of formula a sign can begin. -/
inductive Opening where
  | letter
  | term
  | negation
  | falsum
  | parenthesis
  | none
  deriving DecidableEq

/-- The kind of formula that the sign begins. -/
def openingOf (c : Char) : Opening :=
  if c.isUpper then .letter
  else if c.isLower then .term
  else if c = negationSign then .negation
  else if c = '⊥' then .falsum
  else if c = parenthesisSign then .parenthesis
  else .none

/-- How the canonical form of a formula begins. -/
def opening : Formula → Opening
  | .atom _ | .predicate _ _ => .letter
  | .term _ _ | .identity _ _ => .term
  | .not _ => .negation
  | .falsum => .falsum
  | .binary _ _ _ | .quantified _ _ _ => .parenthesis
  | .root p => p.opening

theorem openingOf_letter {c : Char} (h : isLetter c) : openingOf c = .letter := by
  rw [openingOf, if_pos (isUpper_of_isLetter h)]

theorem openingOf_lower {c : Char} (h : c.isLower) : openingOf c = .term := by
  rw [openingOf, isUpper_of_isLower h, if_neg Bool.false_ne_true, if_pos h]

theorem exists_signs {f : Formula} (h : f.Lettered) :
    ∃ c cs, f.signs = c :: cs ∧ openingOf c = f.opening := by
  induction f with
  | atom s => exact ⟨s, [], rfl, openingOf_letter h⟩
  | predicate s ps _ => exact ⟨s, _, rfl, openingOf_letter h.1⟩
  | term k s =>
    obtain ⟨c, -, hsymbol, hc⟩ := IsLetteredTerm.exists_symbol h
    obtain rfl : s = c := Option.some.inj hsymbol
    exact ⟨s, [], rfl, openingOf_lower hc⟩
  | identity p q _ _ =>
    obtain ⟨c, -, hsymbol, hc⟩ := h.1.exists_symbol
    exact ⟨c, '=' :: q.symbol.toList, by rw [signs, hsymbol]; rfl, openingOf_lower hc⟩
  | not p _ => exact ⟨_, _, rfl, rfl⟩
  | falsum => exact ⟨_, _, rfl, rfl⟩
  | binary op p q _ _ => exact ⟨_, _, rfl, rfl⟩
  | quantified k x p _ => cases k <;> exact ⟨_, _, rfl, rfl⟩
  | root p ih => exact ih h

/-- Formulas whose canonical forms begin alike are of one kind. -/
theorem opening_eq {f g : Formula} (hf : f.Lettered) (hg : g.Lettered) {r r' : List Char}
    (h : f.signs ++ r = g.signs ++ r') : f.opening = g.opening := by
  obtain ⟨c, cs, hfs, hc⟩ := exists_signs hf
  obtain ⟨d, ds, hgs, hd⟩ := exists_signs hg
  rw [hfs, hgs] at h
  rw [← hc, ← hd, (List.cons.inj h).1]

/-! ## Where a formula ends -/

/-- Whether what comes next cannot continue a formula. -/
def Ends (r : List Char) : Prop := ∀ c, r.head? = some c → c.isLower = false ∧ c ≠ '='

theorem ends_nil : Ends [] := fun _ h => by simp at h

theorem ends_cons {c : Char} (hl : c.isLower = false) (he : c ≠ '=') (r : List Char) :
    Ends (c :: r) :=
  fun _ h => Option.some.inj h ▸ ⟨hl, he⟩

theorem ends_canonicalSign (op : Connective) (r : List Char) : Ends (op.canonicalSign :: r) := by
  cases op <;> exact ends_cons (by decide) (by decide) r

theorem ends_parenthesis (r : List Char) : Ends (parenthesisSign :: r) :=
  ends_cons (by decide) (by decide) r

/-- Small letters are read up to the first other sign. -/
theorem eq_of_append_lower {xs ys r r' : List Char} (hx : ∀ c ∈ xs, c.isLower)
    (hy : ∀ c ∈ ys, c.isLower) (hr : Ends r) (hr' : Ends r') (h : xs ++ r = ys ++ r') :
    xs = ys ∧ r = r' := by
  induction xs generalizing ys with
  | nil =>
    cases ys with
    | nil => exact ⟨rfl, h⟩
    | cons y ys =>
      rw [List.nil_append, List.cons_append] at h
      have hlow := (hr y (by rw [h]; rfl)).1
      rw [hy y List.mem_cons_self] at hlow
      exact Bool.noConfusion hlow
  | cons x xs ih =>
    cases ys with
    | nil =>
      rw [List.nil_append, List.cons_append] at h
      have hlow := (hr' x (by rw [← h]; rfl)).1
      rw [hx x List.mem_cons_self] at hlow
      exact Bool.noConfusion hlow
    | cons y ys =>
      obtain ⟨rfl, hrest⟩ := List.cons.inj h
      have := ih (fun c hc => hx c (List.mem_cons_of_mem x hc))
        (fun c hc => hy c (List.mem_cons_of_mem x hc)) hrest
      exact ⟨by rw [this.1], this.2⟩

/-! ## Reading back -/

/-- A term is known by its symbol. -/
theorem eq_of_symbol {s t : Formula} (hs : s.IsLetteredTerm) (ht : t.IsLetteredTerm)
    (h : s.symbol = t.symbol) : s = t := by
  cases s with
  | term k a =>
    cases t with
    | term l b =>
      obtain rfl : a = b := Option.some.inj h
      cases k <;> cases l
      · rfl
      · exact absurd hs (by rw [IsLetteredTerm, isVariableSymbol_of_isConstantSymbol ht]; simp)
      · exact absurd ht (by rw [IsLetteredTerm, isVariableSymbol_of_isConstantSymbol hs]; simp)
      · rfl
    | _ => exact ht.elim
  | _ => exact hs.elim

theorem eq_of_symbols {ps qs : List Formula} (hp : ∀ p ∈ ps, p.IsLetteredTerm)
    (hq : ∀ q ∈ qs, q.IsLetteredTerm) (h : ps.filterMap symbol = qs.filterMap symbol) :
    ps = qs := by
  induction ps generalizing qs with
  | nil =>
    cases qs with
    | nil => rfl
    | cons q qs =>
      obtain ⟨c, -, hc, -⟩ := (hq q List.mem_cons_self).exists_symbol
      rw [List.filterMap_cons_some hc] at h
      simp at h
  | cons p ps ih =>
    obtain ⟨c, -, hc, -⟩ := (hp p List.mem_cons_self).exists_symbol
    rw [List.filterMap_cons_some hc] at h
    cases qs with
    | nil => simp at h
    | cons q qs =>
      obtain ⟨d, -, hd, -⟩ := (hq q List.mem_cons_self).exists_symbol
      rw [List.filterMap_cons_some hd] at h
      obtain ⟨hcd, hrest⟩ := List.cons.inj h
      rw [eq_of_symbol (hp p List.mem_cons_self) (hq q List.mem_cons_self)
          (by rw [hc, hd, hcd]),
        ih (fun r hr => hp r (List.mem_cons_of_mem p hr))
          (fun r hr => hq r (List.mem_cons_of_mem q hr)) hrest]

theorem isLower_of_mem_symbols {ps : List Formula} (hp : ∀ p ∈ ps, p.IsLetteredTerm) {c : Char}
    (hc : c ∈ ps.filterMap symbol) : c.isLower := by
  obtain ⟨p, hmem, hsymbol⟩ := List.mem_filterMap.1 hc
  obtain ⟨d, -, hd, hlow⟩ := (hp p hmem).exists_symbol
  rw [hsymbol] at hd
  exact Option.some.inj hd ▸ hlow

theorem canonicalSign_injective {op op' : Connective}
    (h : op.canonicalSign = op'.canonicalSign) : op = op' := by
  revert h
  cases op <;> cases op' <;> decide

/-! ### By the kind of the first sign -/

theorem exists_of_letter {g : Formula} (hg : g.Lettered) (pg : g.IsPlain)
    (h : g.opening = .letter) :
    ∃ s ps, g = (predicate s ps).plain ∧ ∀ p ∈ ps, p.IsLetteredTerm := by
  cases g with
  | atom s => exact ⟨s, [], rfl, fun p hp => absurd hp List.not_mem_nil⟩
  | predicate s ps =>
    refine ⟨s, ps, ?_, hg.2⟩
    cases ps with
    | nil => exact absurd rfl pg
    | cons p ps => rfl
  | root p => exact pg.elim
  | _ => exact Opening.noConfusion h

theorem exists_of_term {g : Formula} (pg : g.IsPlain) (h : g.opening = .term) :
    (∃ k s, g = .term k s) ∨ ∃ p q, g = .identity p q := by
  cases g with
  | term k s => exact Or.inl ⟨k, s, rfl⟩
  | identity p q => exact Or.inr ⟨p, q, rfl⟩
  | root p => exact pg.elim
  | _ => exact Opening.noConfusion h

theorem exists_of_negation {g : Formula} (pg : g.IsPlain) (h : g.opening = .negation) :
    ∃ p, g = .not p := by
  cases g with
  | not p => exact ⟨p, rfl⟩
  | root p => exact pg.elim
  | _ => exact Opening.noConfusion h

theorem eq_falsum_of_opening {g : Formula} (pg : g.IsPlain) (h : g.opening = .falsum) :
    g = .falsum := by
  cases g with
  | falsum => rfl
  | root p => exact pg.elim
  | _ => exact Opening.noConfusion h

theorem exists_of_parenthesis {g : Formula} (pg : g.IsPlain) (h : g.opening = .parenthesis) :
    (∃ op p q, g = .binary op p q) ∨ ∃ k x p, g = .quantified k x p := by
  cases g with
  | binary op p q => exact Or.inl ⟨op, p, q, rfl⟩
  | quantified k x p => exact Or.inr ⟨k, x, p, rfl⟩
  | root p => exact pg.elim
  | _ => exact Opening.noConfusion h

theorem eq_of_signs_predicate {s t : Char} {ps qs : List Formula}
    (hp : ∀ p ∈ ps, p.IsLetteredTerm) (hq : ∀ q ∈ qs, q.IsLetteredTerm) {r r' : List Char}
    (hr : Ends r) (hr' : Ends r')
    (h : (predicate s ps).signs ++ r = (predicate t qs).signs ++ r') :
    predicate s ps = predicate t qs ∧ r = r' := by
  obtain ⟨rfl, hrest⟩ := List.cons.inj h
  obtain ⟨hsymbols, hend⟩ := eq_of_append_lower (fun c => isLower_of_mem_symbols hp)
    (fun c => isLower_of_mem_symbols hq) hr hr' hrest
  rw [eq_of_symbols hp hq hsymbols]
  exact ⟨rfl, hend⟩

theorem signs_identity {p q : Formula} (h : (identity p q).Lettered) :
    ∃ c d, p.symbol = some c ∧ q.symbol = some d ∧ (identity p q).signs = [c, '=', d] := by
  obtain ⟨c, -, hc, -⟩ := h.1.exists_symbol
  obtain ⟨d, -, hd, -⟩ := h.2.exists_symbol
  exact ⟨c, d, hc, hd, by rw [signs, hc, hd]; rfl⟩

/-- What begins with a term is a term alone or an identity, as an identity sign follows or not. -/
theorem eq_of_signs_term {f g : Formula} (hf : f.Lettered) (hg : g.Lettered) (pf : f.IsPlain)
    (pg : g.IsPlain) (of : f.opening = .term) (og : g.opening = .term) {r r' : List Char}
    (hr : Ends r) (hr' : Ends r') (h : f.signs ++ r = g.signs ++ r') : f = g ∧ r = r' := by
  rcases exists_of_term pf of with ⟨k, s, rfl⟩ | ⟨p, q, rfl⟩ <;>
    rcases exists_of_term pg og with ⟨l, t, rfl⟩ | ⟨p', q', rfl⟩
  · obtain ⟨hst, hrest⟩ := List.cons.inj h
    exact ⟨eq_of_symbol hf hg (congrArg some hst), hrest⟩
  · obtain ⟨c, d, -, -, hsigns⟩ := signs_identity hg
    rw [hsigns] at h
    have hrest := (List.cons.inj h).2
    have hequals := hr '=' (by rw [show r = _ from hrest]; rfl)
    exact absurd rfl hequals.2
  · obtain ⟨c, d, -, -, hsigns⟩ := signs_identity hf
    rw [hsigns] at h
    have hrest := (List.cons.inj h).2
    have hequals := hr' '=' (by rw [show r' = _ from hrest.symm]; rfl)
    exact absurd rfl hequals.2
  · obtain ⟨c, d, hc, hd, hsigns⟩ := signs_identity hf
    obtain ⟨c', d', hc', hd', hsigns'⟩ := signs_identity hg
    rw [hsigns, hsigns'] at h
    simp only [List.cons_append, List.nil_append, List.cons.injEq, true_and] at h
    obtain ⟨rfl, rfl, hrest⟩ := h
    rw [eq_of_symbol hf.1 hg.1 (hc.trans hc'.symm), eq_of_symbol hf.2 hg.2 (hd.trans hd'.symm)]
    exact ⟨rfl, hrest⟩

/-- A quantifier is not read as a connective: its variable is followed by a parenthesis. -/
theorem binary_ne_quantified {op : Connective} {p q : Formula} {k : Quantifier} {x : Char}
    {b : Formula} (hp : p.Lettered) (pp : p.IsPlain) (hx : isVariableSymbol x) {r r' : List Char} :
    (binary op p q).signs ++ r ≠ (quantified k x b).signs ++ r' := by
  intro h
  obtain ⟨c, cs, hc, hopen⟩ := exists_signs hp
  cases k with
  | existential =>
    rw [signs, signs, hc] at h
    have hce : c = '∃' := (List.cons.inj (List.cons.inj h).2).1
    have hnone : p.opening = .none := by
      rw [← hopen, hce]
      decide
    cases p with
    | root p => exact pp
    | _ => exact Opening.noConfusion hnone
  | universal =>
    have hterm : p.opening = .term := by
      rw [signs, signs, hc] at h
      rw [← hopen, (List.cons.inj (List.cons.inj h).2).1]
      exact openingOf_lower (isLower_of_isVariableSymbol hx)
    rw [signs, signs] at h
    have hrest := (List.cons.inj h).2
    rcases exists_of_term pp hterm with ⟨k, s, rfl⟩ | ⟨p₁, p₂, rfl⟩
    · have hsign : op.canonicalSign = parenthesisSign :=
        (List.cons.inj (List.cons.inj hrest).2).1
      revert hsign
      cases op <;> decide
    · obtain ⟨c, d, -, -, hsigns⟩ := signs_identity hp
      rw [hsigns] at hrest
      exact absurd (List.cons.inj (List.cons.inj hrest).2).1 (by decide)

/-! ### Any formula -/

/-- Formulas that are read from the same signs are the same. -/
theorem eq_of_signs {f g : Formula} (hf : f.Lettered) (hg : g.Lettered) (pf : f.IsPlain)
    (pg : g.IsPlain) {r r' : List Char} (hr : Ends r) (hr' : Ends r')
    (h : f.signs ++ r = g.signs ++ r') : f = g ∧ r = r' := by
  have ho := opening_eq hf hg h
  induction f generalizing g r r' with
  | atom s =>
    obtain ⟨t, qs, rfl, hq⟩ := exists_of_letter hg pg ho.symm
    rw [signs_plain] at h
    have h : (predicate s []).signs ++ r = (predicate t qs).signs ++ r' := h
    have := eq_of_signs_predicate (fun p hp => absurd hp List.not_mem_nil) hq hr hr' h
    exact ⟨congrArg plain this.1, this.2⟩
  | predicate s ps _ =>
    obtain ⟨s', ps', hplain, hps⟩ := exists_of_letter hf pf rfl
    obtain ⟨t, qs, rfl, hq⟩ := exists_of_letter hg pg ho.symm
    rw [hplain, signs_plain, signs_plain] at h
    have := eq_of_signs_predicate hps hq hr hr' h
    exact ⟨hplain.trans (congrArg plain this.1), this.2⟩
  | term k s => exact eq_of_signs_term hf hg pf pg rfl ho.symm hr hr' h
  | identity p q _ _ => exact eq_of_signs_term hf hg pf pg rfl ho.symm hr hr' h
  | falsum =>
    obtain rfl := eq_falsum_of_opening pg ho.symm
    exact ⟨rfl, (List.cons.inj h).2⟩
  | not p ih =>
    obtain ⟨p', rfl⟩ := exists_of_negation pg ho.symm
    have hrest : p.signs ++ r = p'.signs ++ r' := (List.cons.inj h).2
    have ho := opening_eq (f := p) (g := p') hf hg hrest
    obtain ⟨rfl, hend⟩ := ih (g := p') hf hg pf pg hr hr' hrest ho
    exact ⟨rfl, hend⟩
  | root p _ => exact pf.elim
  | binary op p q hp hq =>
    rcases exists_of_parenthesis pg ho.symm with ⟨op', p', q', rfl⟩ | ⟨k, x, b, rfl⟩
    · simp only [signs, List.cons_append, List.append_assoc, List.nil_append, List.cons.injEq,
        true_and] at h
      obtain ⟨rfl, hrest⟩ := hp hf.1 hg.1 pf.1 pg.1 (ends_canonicalSign op _)
        (ends_canonicalSign op' _) h (opening_eq hf.1 hg.1 h)
      obtain ⟨hop, hrest⟩ := List.cons.inj hrest
      obtain ⟨rfl, hend⟩ := hq hf.2 hg.2 pf.2 pg.2 (ends_parenthesis r) (ends_parenthesis r') hrest
        (opening_eq hf.2 hg.2 hrest)
      rw [canonicalSign_injective hop]
      exact ⟨rfl, (List.cons.inj hend).2⟩
    · exact absurd h (binary_ne_quantified hf.1 pf.1 hg.1)
  | quantified k x p ih =>
    rcases exists_of_parenthesis pg ho.symm with ⟨op, p', q', rfl⟩ | ⟨l, y, p', rfl⟩
    · exact absurd h.symm (binary_ne_quantified hg.1 pg.1 hf.1)
    · have hx := isLower_of_isVariableSymbol hf.1
      have hy := isLower_of_isVariableSymbol hg.1
      have hlow : '∃'.isLower = false := by decide
      cases k <;> cases l <;>
        simp only [signs, List.cons_append, List.cons.injEq, true_and] at h
      · obtain ⟨rfl, hrest⟩ := h
        obtain ⟨rfl, hend⟩ := ih hf.2 hg.2 pf pg hr hr' hrest (opening_eq hf.2 hg.2 hrest)
        exact ⟨rfl, hend⟩
      · rw [h.1, hlow] at hx
        exact Bool.noConfusion hx
      · rw [← h.1, hlow] at hy
        exact Bool.noConfusion hy
      · obtain ⟨rfl, hrest⟩ := h
        obtain ⟨rfl, hend⟩ := ih hf.2 hg.2 pf pg hr hr' hrest (opening_eq hf.2 hg.2 hrest)
        exact ⟨rfl, hend⟩

/-- Formulas over the usual symbols have one canonical form only if they are the same but for
wrappers and the ways to write an atom. -/
theorem canonical_eq_iff {f g : Formula} (hf : f.Lettered) (hg : g.Lettered) :
    f.canonical = g.canonical ↔ f.plain = g.plain := by
  rw [canonical_eq_signs hf, canonical_eq_signs hg, ← signs_plain f, ← signs_plain g]
  constructor
  · intro h
    have h : f.plain.signs ++ [] = g.plain.signs ++ [] := by rw [h]
    exact (eq_of_signs hf.plain hg.plain f.isPlain_plain g.isPlain_plain ends_nil ends_nil h).1
  · exact congrArg signs

end Sequitur.Formula
