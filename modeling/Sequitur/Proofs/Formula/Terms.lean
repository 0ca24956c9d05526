import Mathlib.Data.List.Basic
import Sequitur.Formula.Terms

/-!
# The terms of compound formulas

The terms of a formula are those of its parts, and a replacement changes only the terms with the
symbol that is replaced. The symbols mentioned and the constants follow from the terms.
-/

namespace Sequitur.Formula

/-! ## Terms of compound formulas -/

@[simp] theorem terms_atom (s : Char) : (atom s).terms = [] := rfl

@[simp] theorem terms_term (k : TermKind) (s : Char) : (term k s).terms = [(k, s)] := rfl

@[simp] theorem terms_falsum : falsum.terms = [] := rfl

@[simp] theorem terms_not (p : Formula) : (Formula.not p).terms = p.terms := rfl

@[simp] theorem terms_root (p : Formula) : (root p).terms = p.terms := rfl

@[simp] theorem terms_quantified (k : Quantifier) (x : Char) (p : Formula) :
    (quantified k x p).terms = p.terms := rfl

@[simp] theorem terms_binary (op : Connective) (p q : Formula) :
    (binary op p q).terms = p.terms ++ q.terms := by
  simp [terms, subformulas]

@[simp] theorem terms_identity (p q : Formula) : (identity p q).terms = p.terms ++ q.terms := by
  simp [terms, subformulas]

@[simp] theorem terms_predicate (s : Char) (ps : List Formula) :
    (predicate s ps).terms = ps.flatMap terms := by
  rw [terms, subformulas, subformulasOf_eq_flatMap, List.filterMap_cons, List.filterMap_flatMap]
  rfl

theorem terms_unrooted (f : Formula) : f.unrooted.terms = f.terms := by
  induction f with
  | root p ih => exact ih
  | _ => rfl

theorem mem_constants_unrooted {f : Formula} {c : Char} :
    c ∈ f.unrooted.constants ↔ c ∈ f.constants := by
  rw [mem_constants_iff, mem_constants_iff, terms_unrooted]

/-! ## Mention of a symbol -/

theorem mem_constants_of_mem_params {s c : Char} {ps : List Formula} {p : Formula} (hp : p ∈ ps)
    (hc : c ∈ p.constants) : c ∈ (predicate s ps).constants := by
  rw [mem_constants_iff] at hc ⊢
  rw [terms_predicate]
  exact List.mem_flatMap.2 ⟨p, hp, hc⟩

/-! ## Replacement -/

@[simp] theorem substitute_predicate (a b : Char) (k : TermKind) (s : Char) (ps : List Formula) :
    (predicate s ps).substitute a b k = predicate s (ps.map (substitute a b k)) := by
  rw [substitute, substituteAll_eq_map]

/-- A replacement acts on the terms one by one. -/
theorem terms_substitute (a b : Char) (k : TermKind) (f : Formula) :
    (f.substitute a b k).terms = f.terms.map fun t => if t.2 = a then (k, b) else t := by
  induction f with
  | term l s => by_cases h : s = a <;> simp [substitute, h]
  | predicate s ps ih =>
    rw [substitute_predicate, terms_predicate, terms_predicate, List.flatMap_map, List.map_flatMap]
    exact List.flatMap_congr ih
  | not p ih => simpa [substitute] using ih
  | root p ih => simpa [substitute] using ih
  | quantified l x p ih => simpa [substitute] using ih
  | binary op p q hp hq => simp [substitute, hp, hq]
  | identity p q hp hq => simp [substitute, hp, hq]
  | atom s => rfl
  | falsum => rfl

/-- A constant of an instance is the constant that was put in, or was there before. -/
theorem mem_constants_substitute {a b c : Char} {f : Formula}
    (h : c ∈ (f.substitute a b .const).constants) : c = b ∨ c ∈ f.constants := by
  rw [mem_constants_iff, terms_substitute] at h
  obtain ⟨⟨l, d⟩, hd, e⟩ := List.mem_map.1 h
  by_cases hda : d = a
  · simp only [hda, if_true, Prod.mk.injEq, true_and] at e
    exact Or.inl e.symm
  · simp only [hda, if_false, Prod.mk.injEq] at e
    rw [mem_constants_iff, ← e.1, ← e.2]
    exact Or.inr hd

/-- What is true of the constants of a formula and of the constant that is put in is true of those of
the instance. -/
theorem forall_mem_constants_substitute {P : Char → Prop} {a b : Char} {f : Formula}
    (hf : ∀ c ∈ f.constants, P c) (hb : P b) : ∀ c ∈ (f.substitute a b .const).constants, P c := by
  intro c hc
  rcases mem_constants_substitute hc with rfl | hc
  · exact hb
  · exact hf c hc

/-- An instance has the constant that was put in, if anything was replaced. -/
theorem mem_constants_substitute_self {a b : Char} {f : Formula} (h : f.mentions a) :
    b ∈ (f.substitute a b .const).constants := by
  obtain ⟨k, hk⟩ := mentions_iff.1 h
  rw [mem_constants_iff, terms_substitute]
  exact List.mem_map.2 ⟨(k, a), hk, by simp⟩

/-- Nothing is replaced where the symbol is not mentioned. -/
theorem substitute_of_not_mentions {a b : Char} {k : TermKind} {f : Formula} (h : ¬f.mentions a) :
    f.substitute a b k = f := by
  induction f with
  | term l s =>
    have hs : s ≠ a := by simpa [mentions] using h
    simp [substitute, hs]
  | predicate s ps ih =>
    rw [substitute_predicate]
    congr 1
    refine (List.map_congr_left fun p hp => ih p hp fun hm => h ?_).trans (List.map_id ps)
    obtain ⟨l, hl⟩ := mentions_iff.1 hm
    exact mentions_iff.2 ⟨l, terms_predicate s ps ▸ List.mem_flatMap.2 ⟨p, hp, hl⟩⟩
  | not p ih => rw [substitute, ih (by simpa [mentions] using h)]
  | root p ih => rw [substitute, ih (by simpa [mentions] using h)]
  | quantified l x p ih => rw [substitute, ih (by simpa [mentions] using h)]
  | binary op p q hp hq =>
    have hpq : ¬p.mentions a ∧ ¬q.mentions a := by simpa [mentions, not_or] using h
    rw [substitute, hp hpq.1, hq hpq.2]
  | identity p q hp hq =>
    have hpq : ¬p.mentions a ∧ ¬q.mentions a := by simpa [mentions, not_or] using h
    rw [substitute, hp hpq.1, hq hpq.2]
  | atom s => rfl
  | falsum => rfl

end Sequitur.Formula
