import Sequitur.Proofs.Canonical.Equality
import Sequitur.Proofs.Derivation.Passes
import Sequitur.Proofs.Tableau.Inheritance

/-!
# What the formulas of a search inherit

A property of formulas that every rule hands on (`Formula.Handed`) is true of all that a search
derives, if it is true of the assumptions and the conclusion (`Search.Moves.upholds`). One such
property is to be over the usual symbols and without wrappers (`Formula.Regular`), where structural
equality is an equivalence.
-/

namespace Sequitur

open Formula Search

namespace Formula

/-- A property of formulas that all the rules of a search hand on. -/
structure Handed (Q : Formula → Prop) : Prop extends Hereditary Q where
  falsum : Q .falsum
  vacuous : ∀ {k x p}, ¬p.mentions x → Q (.quantified k x p) → Q p
  instantiate : ∀ {k x p c}, isConstantSymbol c → Q (.quantified k x p) →
    Q (p.substitute x c .const)

theorem handed_sentence : Handed Sentence where
  toHereditary := hereditary_sentence
  falsum := trivial
  vacuous hx h := h.body hx
  instantiate hc h := h.instantiate hc

end Formula

/-! ## Searches -/

/-- Whether all that may be assumed, and the conclusion, have a property, and the constants of the
argument are constant symbols. -/
structure Problem.Upholds (Q : Formula → Prop) (P : Problem) : Prop where
  assumed : ∀ step f, P.Assumes step f → Q f
  conclusion : Q P.conclusion.unrooted
  symbols : ∀ c ∈ P.constants, isConstantSymbol c

namespace Search

variable {Q : Formula → Prop} {P : Problem} {s s' : Search} {e : Inference}

/-- Whether all that a search has derived has a property, and the constants it knows are constant
symbols. -/
structure Upholds (Q : Formula → Prop) (P : Problem) (s : Search) : Prop extends s.Covered P where
  formula : ∀ i f, s.Has i f → Q f
  symbols : ∀ c ∈ s.known, isConstantSymbol c

theorem Licensed.upholds (h : s.Licensed P e) (hQ : Handed Q) (hP : P.Upholds Q)
    (hs : s.Upholds Q P) : Q e.formula := by
  have hconclusion : Q s.conclusion.formula := hs.conclusion ▸ hP.conclusion
  cases h with
  | assumed h => exact hP.assumed _ _ h
  | inferred hi h =>
    refine h.hereditary hQ.toHereditary hQ.falsum hQ.vacuous fun p hp => ?_
    obtain ⟨i, hi⟩ := hi.exists_has hp
    exact hs.formula i p hi
  | instantiated hi _ hc => exact hQ.instantiate (hs.symbols _ hc) (hs.formula _ _ hi)
  | witnessed hi _ hc _ _ => exact hQ.instantiate (hs.symbols _ hc) (hs.formula _ _ hi)
  | introduced _ _ => exact hconclusion
  | generalized _ _ _ _ => exact hconclusion

theorem Move.upholds (h : Move P s s') (hQ : Handed Q) (hP : P.Upholds Q) (hs : s.Upholds Q P) :
    s'.Upholds Q P := by
  have hcovered := h.covered hs.toCovered
  have hinsert : ∀ c, isConstantSymbol c → ∀ d ∈ s.known.insert c, isConstantSymbol d := by
    intro c hc d hd
    rcases Symbols.mem_insert.1 hd with rfl | hd
    · exact hc
    · exact hs.symbols d hd
  cases h with
  | rest h =>
    refine ⟨hcovered, fun i f hf => hs.formula i f (h.has_iff.1 hf), ?_⟩
    rw [h.known]
    exact hs.symbols
  | derive hlt h =>
    refine ⟨hcovered, fun i f hf => ?_, hs.symbols⟩
    rcases hf.of_push with hf | rfl
    · exact hs.formula i f hf
    · exact h.upholds hQ hP hs
  | find _ _ => exact ⟨hcovered, hs.formula, hs.symbols⟩
  | exhaust => exact ⟨hcovered, hs.formula, hs.symbols⟩
  | learn hc => exact ⟨hcovered, hs.formula, hinsert _ hc⟩
  | seed _ => exact ⟨hcovered, hs.formula, hinsert _ isConstantSymbol_firstConstant⟩

theorem upholds_start (hP : P.Upholds Q) (limit : Nat) :
    (start P.premises P.conclusion limit).Upholds Q P where
  toCovered := covered_start P limit
  formula i _ hf := absurd hf.lt_size (Nat.not_lt_zero i)
  symbols := hP.symbols

/-- All that a search derives has a property that the rules hand on. -/
theorem Moves.upholds (h : Moves P s s') (hQ : Handed Q) (hP : P.Upholds Q) (hs : s.Upholds Q P) :
    s'.Upholds Q P := by
  induction h with
  | refl => exact hs
  | tail _ h ih => exact h.upholds hQ hP ih

end Search

/-! ## The usual symbols -/

namespace Formula

theorem IsLetteredTerm.substitute {t : Formula} (h : t.IsLetteredTerm) (a : Char) {b : Char}
    (hb : isConstantSymbol b) : (t.substitute a b .const).IsLetteredTerm := by
  cases t with
  | term k s =>
    rw [Formula.substitute]
    split
    · exact hb
    · exact h
  | _ => exact h.elim

theorem Lettered.substitute {f : Formula} (h : f.Lettered) (a : Char) {b : Char}
    (hb : isConstantSymbol b) : (f.substitute a b .const).Lettered := by
  induction f with
  | atom s => exact h
  | falsum => exact h
  | term k s =>
    rw [Formula.substitute]
    split
    · exact hb
    · exact h
  | predicate s ps _ =>
    rw [substitute_predicate]
    refine ⟨h.1, fun p hp => ?_⟩
    obtain ⟨q, hq, rfl⟩ := List.mem_map.1 hp
    exact (h.2 q hq).substitute a hb
  | not p ih => exact ih h
  | root p ih => exact ih h
  | binary op p q hp hq => exact ⟨hp h.1, hq h.2⟩
  | identity p q _ _ => exact ⟨h.1.substitute a hb, h.2.substitute a hb⟩
  | quantified k x p ih => exact ⟨h.1, ih h.2⟩

theorem IsLetteredTerm.isConstantSymbol {t : Formula} (h : t.IsLetteredTerm) {c : Char}
    (hc : (.const, c) ∈ t.terms) : isConstantSymbol c := by
  cases t with
  | term k s =>
    obtain ⟨rfl, rfl⟩ : TermKind.const = k ∧ c = s := by simpa using hc
    exact h
  | _ => exact h.elim

theorem Lettered.isConstantSymbol {f : Formula} (h : f.Lettered) {c : Char}
    (hc : (.const, c) ∈ f.terms) : isConstantSymbol c := by
  induction f with
  | atom s => simp at hc
  | falsum => simp at hc
  | term k s => exact IsLetteredTerm.isConstantSymbol h hc
  | predicate s ps _ =>
    rw [terms_predicate] at hc
    obtain ⟨p, hp, hpc⟩ := List.mem_flatMap.1 hc
    exact (h.2 p hp).isConstantSymbol hpc
  | not p ih => exact ih h hc
  | root p ih => exact ih h hc
  | binary op p q hp hq =>
    rw [terms_binary, List.mem_append] at hc
    exact hc.elim (hp h.1) (hq h.2)
  | identity p q _ _ =>
    rw [terms_identity, List.mem_append] at hc
    exact hc.elim h.1.isConstantSymbol h.2.isConstantSymbol
  | quantified l x p ih => exact ih h.2 hc

/-- Whether a formula is over the usual symbols and without wrappers. -/
def Regular (f : Formula) : Prop := f.Lettered ∧ f.Lacks .root

theorem handed_regular : Handed Regular := by
  have hlacks := inherited_lacks (.inl rfl : Kind.root = .root ∨ Kind.root = .identity)
  refine ⟨⟨?_, ?_, ?_, ?_⟩, ⟨trivial, by decide⟩, ?_, ?_⟩
  · intro p
    exact and_congr Iff.rfl hlacks.not
  · intro p h
    exact ⟨h.1, hlacks.root h.2⟩
  · intro op p q
    unfold Regular
    rw [hlacks.binary, Lettered]
    tauto
  · intro k l x p h
    exact ⟨h.1, hlacks.quantified h.2⟩
  · intro k x p _ h
    exact ⟨h.1.2, hlacks.body h.2⟩
  · intro k x p c hc h
    exact ⟨h.1.2.substitute x hc, hlacks.substitute x c (hlacks.body h.2)⟩

theorem Regular.symm {f g : Formula} (hf : f.Regular) (hg : g.Regular)
    (h : f.structurallyEquals g) : g.structurallyEquals f :=
  structurallyEquals_symm hf.1 hg.1 hg.2 h

theorem Regular.trans {f g h : Formula} (hf : f.Regular) (hg : g.Regular) (hh : h.Regular)
    (hfg : f.structurallyEquals g) (hgh : g.structurallyEquals h) : f.structurallyEquals h :=
  structurallyEquals_trans hf.1 hg.1 hh.1 hf.2 hg.2 hh.2 hfg hgh

/-- Nothing is structurally equal to falsum but itself. -/
theorem Regular.eq_falsum {f : Formula} (hf : f.Regular) (h : f.structurallyEquals .falsum) :
    f = .falsum := by
  have hfalsum : Formula.falsum.Regular := handed_regular.falsum
  rw [structurallyEquals_iff_plain hf.1 hfalsum.1 hfalsum.2] at h
  rcases h with h | ⟨s, t, ⟨-, h⟩ | ⟨-, h⟩⟩
  · cases f with
    | falsum => rfl
    | root p => exact absurd rfl hf.2.kind_ne
    | predicate l ps => cases ps <;> cases h
    | _ => cases h
  · cases h
  · cases h

end Formula

/-- Whether an argument is over the usual symbols and without wrappers. -/
structure Problem.Regular (P : Problem) : Prop where
  premises : ∀ p ∈ P.premises, p.Regular
  conclusion : P.conclusion.Regular

theorem Problem.Regular.upholds {P : Problem} (hP : P.Regular) : P.Upholds Formula.Regular := by
  have hconclusion : P.conclusion.unrooted.Regular :=
    hP.conclusion.2.unrooted_eq.symm ▸ hP.conclusion
  refine ⟨fun step f hf => ?_, hconclusion, fun c hc => ?_⟩
  · cases step with
    | premise =>
      obtain ⟨p, hp, rfl⟩ := hf
      have hregular := hP.premises p hp
      exact hregular.2.unrooted_eq.symm ▸ hregular
    | reductioAssumption =>
      obtain ⟨-, rfl⟩ := hf
      exact handed_regular.not.2 hconclusion
    | _ => exact hf.elim
  · rcases Problem.mem_constants.1 hc with hc | ⟨p, hp, hc⟩
    · exact hP.conclusion.1.isConstantSymbol (mem_constants_iff.1 hc)
    · exact (hP.premises p hp).1.isConstantSymbol (mem_constants_iff.1 hc)

end Sequitur
