import Mathlib.Data.List.Find
import Sequitur.Formula.Canonical
import Sequitur.Proofs.Semantics.Sentence

/-!
# The canonical form of a formula

A formula over the usual symbols never has a word among its characters, so its canonical form can be
read off its tree: `Formula.signs` writes it, and `canonical_eq_signs` says that the scan of the text
comes to the same.
-/

namespace Sequitur

def Connective.canonicalSign : Connective → Char
  | .and => conjunctionSign
  | .or => disjunctionSign
  | .implies => implicationSign
  | .iff => biconditionalSign
  | .xor => exclusiveOrSign

namespace Formula

/-- Whether the formula is a term, a constant or a variable by its symbol. -/
def IsLetteredTerm : Formula → Prop
  | .term .const c => isConstantSymbol c
  | .term .var x => isVariableSymbol x
  | _ => False

/-- Whether all letters, constants and variables are of the usual symbols, and predicates and
identities are over terms. -/
def Lettered : Formula → Prop
  | .atom s => isLetter s
  | .predicate s ps => isLetter s ∧ ∀ p ∈ ps, p.IsLetteredTerm
  | .term k s => (Formula.term k s).IsLetteredTerm
  | .not p => p.Lettered
  | .binary _ p q => p.Lettered ∧ q.Lettered
  | .identity p q => p.IsLetteredTerm ∧ q.IsLetteredTerm
  | .quantified _ x p => isVariableSymbol x ∧ p.Lettered
  | .falsum => True
  | .root p => p.Lettered

theorem IsTermIn.isLetteredTerm {scope : Finset Char} {t : Formula} (h : t.IsTermIn scope) :
    t.IsLetteredTerm := by
  cases t with
  | term k s =>
    cases k with
    | var => exact h.1
    | const => exact h
  | _ => exact h.elim

theorem WellFormed.lettered {scope : Finset Char} {f : Formula} (h : f.WellFormed scope) :
    f.Lettered := by
  induction f generalizing scope with
  | atom s => exact h
  | falsum => exact h
  | term k s => exact h.elim
  | predicate s ps _ => exact ⟨h.1, fun p hp => (h.2 p hp).isLetteredTerm⟩
  | not p ih => exact ih h
  | root p ih => exact ih h
  | binary op p q hp hq => exact ⟨hp h.1, hq h.2⟩
  | identity p q _ _ => exact ⟨h.1.isLetteredTerm, h.2.isLetteredTerm⟩
  | quantified k x p ih => exact ⟨h.1, ih h.2⟩

/-- The canonical form, written from the tree. A universal has no sign of its own. -/
def signs : Formula → Canonical
  | .atom s => [s]
  | .predicate s ps => s :: ps.filterMap symbol
  | .term _ s => [s]
  | .not p => negationSign :: p.signs
  | .binary op p q =>
    parenthesisSign :: (p.signs ++ op.canonicalSign :: (q.signs ++ [parenthesisSign]))
  | .identity p q => p.symbol.toList ++ '=' :: q.symbol.toList
  | .quantified .universal x p => parenthesisSign :: x :: parenthesisSign :: p.signs
  | .quantified .existential x p => parenthesisSign :: '∃' :: x :: parenthesisSign :: p.signs
  | .falsum => ['⊥']
  | .root p => p.signs

end Formula

/-! ## Letters -/

theorem isUpper_iff {c : Char} : c.isUpper ↔ 'A' ≤ c ∧ c ≤ 'Z' := by
  show decide ('A' ≤ c ∧ c ≤ 'Z') ↔ _
  exact decide_eq_true_iff

theorem isLower_iff {c : Char} : c.isLower ↔ 'a' ≤ c ∧ c ≤ 'z' := by
  show (decide ('a' ≤ c) && decide (c ≤ 'z')) ↔ _
  rw [Bool.and_eq_true, decide_eq_true_eq, decide_eq_true_eq]

theorem isAlpha_iff {c : Char} : c.isAlpha ↔ c.isUpper ∨ c.isLower := by
  show (c.isUpper || c.isLower) ↔ _
  rw [Bool.or_eq_true]

theorem isAlpha_eq_false_iff {c : Char} :
    c.isAlpha = false ↔ c.isUpper = false ∧ c.isLower = false := by
  show (c.isUpper || c.isLower) = false ↔ _
  rw [Bool.or_eq_false_iff]

theorem isUpper_of_isLower {c : Char} (h : c.isLower) : c.isUpper = false := by
  rw [isLower_iff] at h
  rw [Bool.eq_false_iff, Ne, isUpper_iff]
  exact fun h' => absurd (Char.le_trans h.1 h'.2) (by decide)

theorem toNat_of_isAlpha {c : Char} (h : c.isAlpha) :
    (65 ≤ c.toNat ∧ c.toNat ≤ 90) ∨ (97 ≤ c.toNat ∧ c.toNat ≤ 122) := by
  rw [isAlpha_iff, isUpper_iff, isLower_iff] at h
  exact h

theorem isUpper_of_isLetter {c : Char} (h : isLetter c) : c.isUpper := by
  rw [isLetter, decide_eq_true_eq] at h
  exact isUpper_iff.2 h

theorem isLower_of_isConstantSymbol {c : Char} (h : isConstantSymbol c) : c.isLower := by
  rw [isConstantSymbol, decide_eq_true_eq] at h
  exact isLower_iff.2 ⟨h.1, Char.le_trans h.2 (by decide)⟩

theorem isLower_of_isVariableSymbol {c : Char} (h : isVariableSymbol c) : c.isLower := by
  rw [isVariableSymbol, decide_eq_true_eq] at h
  exact isLower_iff.2 ⟨Char.le_trans (by decide) h.1, h.2⟩

theorem isBlank_of_isAlpha {c : Char} (h : c.isAlpha) : isBlank c = false := by
  have := toNat_of_isAlpha h
  simp only [isBlank, Bool.or_eq_false_iff, Bool.and_eq_false_iff, decide_eq_false_iff_not,
    beq_eq_false_iff_ne]
  omega

theorem isAlphanumeric_of_isAlpha {c : Char} (h : c.isAlpha) : isAlphanumeric c := by
  have := toNat_of_isAlpha h
  rw [isAlphanumeric, if_pos (by omega), Char.isAlphanum, h, Bool.true_or]

/-! ## Reading one character -/

/-- Whether both characters are capitals or both are small letters. -/
def sameCase (c d : Char) : Bool := (c.isUpper && d.isUpper) || (c.isLower && d.isLower)

/-- Whether the spelling starts with two letters of one case, if it is a word, and else with no
letter. -/
def Spelling.opensPlainly (s : Spelling) : Bool :=
  match s.isWord, s.text with
  | true, a :: b :: _ => a.isAlpha && sameCase a b
  | false, a :: _ => !a.isAlpha
  | _, _ => false

theorem opensPlainly_of_mem : ∀ s ∈ spellings, s.opensPlainly := by decide

/-- Nothing is spelled from a letter on, if a letter stands before it or none of its case after. -/
theorem read?_eq_none {before : Option Char} {c : Char} {rest : List Char} (hc : c.isAlpha)
    (h : before.any isAlphanumeric ∨ ∀ d, rest.head? = some d → sameCase c d = false) :
    Spelling.read? before (c :: rest) = none := by
  rw [Spelling.read?, List.find?_eq_none]
  intro s hs hstart
  have hfact := opensPlainly_of_mem s hs
  rw [Spelling.opensPlainly] at hfact
  rw [Spelling.starts, Bool.and_eq_true, beginsWith_iff] at hstart
  obtain ⟨htext, halone⟩ := hstart
  split at hfact
  · next a b t hword ht =>
    rw [ht, List.cons_prefix_cons] at htext
    obtain ⟨rfl, rest', rfl⟩ := htext
    rcases h with hbefore | hafter
    · simp [hword, Spelling.standsAlone, hbefore] at halone
    · rw [hafter b rfl, Bool.and_false] at hfact
      exact Bool.noConfusion hfact
  · next a t hword ht =>
    rw [ht, List.cons_prefix_cons] at htext
    rw [htext.1, hc] at hfact
    exact Bool.noConfusion hfact
  · exact Bool.noConfusion hfact

theorem scan_letter {before : Option Char} {c : Char} {rest : List Char} (hc : c.isAlpha)
    (h : before.any isAlphanumeric ∨ ∀ d, rest.head? = some d → sameCase c d = false) :
    scan before 0 (c :: rest) = c :: scan (some c) 0 rest := by
  rw [scan, isBlank_of_isAlpha hc, read?_eq_none hc h]
  rfl

theorem sameCase_of_isUpper {c d : Char} (hc : c.isUpper) (hd : d.isUpper = false) :
    sameCase c d = false := by
  have hl : c.isLower = false :=
    Bool.eq_false_iff.2 fun hl => Bool.noConfusion ((isUpper_of_isLower hl).symm.trans hc)
  rw [sameCase, hd, hl, Bool.and_false, Bool.false_and, Bool.or_false]

/-- Whether no letter comes next. -/
def Stops (rest : List Char) : Prop := ∀ c, rest.head? = some c → c.isAlpha = false

theorem stops_nil : Stops [] := fun _ h => by simp at h

theorem stops_cons {c : Char} (h : c.isAlpha = false) (rest : List Char) : Stops (c :: rest) :=
  fun _ hd => Option.some.inj hd ▸ h

/-- Where no letter comes next, it does not matter what stands before. -/
theorem scan_of_stops {rest : List Char} (h : Stops rest) (before : Option Char) :
    scan before 0 rest = scan none 0 rest := by
  cases rest with
  | nil => rfl
  | cons c rest =>
    have hread : Spelling.read? before (c :: rest) = Spelling.read? none (c :: rest) := by
      rw [Spelling.read?, Spelling.read?]
      refine List.find?_congr fun s hs => ?_
      have hfact := opensPlainly_of_mem s hs
      rw [Spelling.opensPlainly] at hfact
      split at hfact
      · next a b t hword ht =>
        have hne : (a == c) = false := by
          refine beq_false_of_ne fun hac => ?_
          rw [hac, h c rfl, Bool.false_and] at hfact
          exact Bool.noConfusion hfact
        simp only [Spelling.starts, ht, beginsWith, hne, Bool.false_and]
      · next a t hword ht => simp only [Spelling.starts, hword, Bool.not_false, Bool.true_or]
      · exact Bool.noConfusion hfact
    rw [scan, scan, hread]

theorem scan_blank (before : Option Char) (rest : List Char) :
    scan before 0 (' ' :: rest) = scan (some ' ') 0 rest := rfl

theorem scan_open (before : Option Char) (rest : List Char) :
    scan before 0 ('(' :: rest) = parenthesisSign :: scan (some '(') 0 rest := rfl

theorem scan_close (before : Option Char) (rest : List Char) :
    scan before 0 (')' :: rest) = parenthesisSign :: scan (some ')') 0 rest := rfl

theorem scan_negation (before : Option Char) (rest : List Char) :
    scan before 0 ('¬' :: rest) = negationSign :: scan (some '¬') 0 rest := rfl

theorem scan_identity (before : Option Char) (rest : List Char) :
    scan before 0 ('=' :: rest) = '=' :: scan (some '=') 0 rest := rfl

theorem scan_falsum (before : Option Char) (rest : List Char) :
    scan before 0 ('⊥' :: rest) = '⊥' :: scan (some '⊥') 0 rest := rfl

theorem scan_connective (op : Connective) (before : Option Char) (rest : List Char) :
    scan before 0 (op.sign :: rest) = op.canonicalSign :: scan (some op.sign) 0 rest := by
  cases op <;> rfl

/-- A letter before what is no letter is read as it is. -/
theorem scan_lone {c : Char} (hc : c.isAlpha) {rest : List Char} (hr : Stops rest)
    (before : Option Char) : scan before 0 (c :: rest) = c :: scan none 0 rest := by
  have hnext : ∀ d, rest.head? = some d → sameCase c d = false := by
    intro d hd
    have hd := hr d hd
    rw [isAlpha_eq_false_iff] at hd
    rw [sameCase, hd.1, hd.2, Bool.and_false, Bool.and_false, Bool.or_false]
  rw [scan_letter hc (Or.inr hnext), scan_of_stops hr]

/-! ## Reading a formula -/

namespace Formula

theorem IsLetteredTerm.exists_symbol {t : Formula} (h : t.IsLetteredTerm) :
    ∃ c, t.chars = [c] ∧ t.symbol = some c ∧ c.isLower := by
  cases t with
  | term k s =>
    refine ⟨s, rfl, rfl, ?_⟩
    cases k with
    | var => exact isLower_of_isVariableSymbol h
    | const => exact isLower_of_isConstantSymbol h
  | _ => exact h.elim

theorem scan_term {t : Formula} (h : t.IsLetteredTerm) {rest : List Char} (hr : Stops rest)
    (before : Option Char) :
    scan before 0 (t.chars ++ rest) = t.symbol.toList ++ scan none 0 rest := by
  obtain ⟨c, hchars, hsymbol, hc⟩ := h.exists_symbol
  rw [hchars, hsymbol]
  exact scan_lone (isAlpha_iff.2 (Or.inr hc)) hr before

/-- Parameters are read as they are, as each stands behind a letter. -/
theorem scan_params {ps : List Formula} (h : ∀ p ∈ ps, p.IsLetteredTerm) {rest : List Char}
    (hr : Stops rest) {b : Char} (hb : b.isAlpha) :
    scan (some b) 0 (ps.flatMap chars ++ rest) = ps.filterMap symbol ++ scan none 0 rest := by
  induction ps generalizing b with
  | nil => exact scan_of_stops hr (some b)
  | cons p ps ih =>
    obtain ⟨c, hchars, hsymbol, hc⟩ := (h p List.mem_cons_self).exists_symbol
    have hc : c.isAlpha := isAlpha_iff.2 (Or.inr hc)
    have hps := ih (fun q hq => h q (List.mem_cons_of_mem p hq)) hc
    rw [List.flatMap_cons, hchars, List.filterMap_cons_some hsymbol, List.append_assoc]
    show scan (some b) 0 (c :: (ps.flatMap chars ++ rest)) = _
    have hbefore : (some b).any isAlphanumeric := isAlphanumeric_of_isAlpha hb
    rw [scan_letter hc (Or.inl hbefore), hps, List.cons_append]

/-- No capital comes next after the letter of a predicate. -/
theorem not_isUpper_head {ps : List Formula} (h : ∀ p ∈ ps, p.IsLetteredTerm) {rest : List Char}
    (hr : Stops rest) (d : Char) (hd : (ps.flatMap chars ++ rest).head? = some d) :
    d.isUpper = false := by
  cases ps with
  | nil =>
    have hlone := isAlpha_eq_false_iff.1 (hr d hd)
    exact hlone.1
  | cons p ps =>
    obtain ⟨c, hchars, -, hc⟩ := (h p List.mem_cons_self).exists_symbol
    rw [List.flatMap_cons, hchars] at hd
    obtain rfl : c = d := Option.some.inj hd
    exact isUpper_of_isLower hc

/-- Reading the characters of a formula gives its signs, and goes on with what comes behind. -/
theorem scan_chars {f : Formula} (h : f.Lettered) {rest : List Char} (hr : Stops rest)
    (before : Option Char) : scan before 0 (f.chars ++ rest) = f.signs ++ scan none 0 rest := by
  induction f generalizing rest before with
  | atom s => exact scan_lone (isAlpha_iff.2 (Or.inl (isUpper_of_isLetter h))) hr before
  | falsum =>
    rw [chars_falsum, List.singleton_append, scan_falsum, scan_of_stops hr]
    rfl
  | term k s => exact scan_term h hr before
  | predicate s ps _ =>
    have hs := isUpper_of_isLetter h.1
    have hnext : ∀ d, (ps.flatMap chars ++ rest).head? = some d → sameCase s d = false :=
      fun d hd => sameCase_of_isUpper hs (not_isUpper_head h.2 hr d hd)
    rw [chars_predicate, List.cons_append, scan_letter (isAlpha_iff.2 (Or.inl hs)) (Or.inr hnext),
      scan_params h.2 hr (isAlpha_iff.2 (Or.inl hs))]
    rfl
  | not p ih =>
    rw [chars_not, List.cons_append, scan_negation, ih h hr]
    rfl
  | root p ih => exact ih h hr before
  | binary op p q hp hq =>
    simp only [chars_binary, signs, List.cons_append, List.append_assoc, List.nil_append]
    rw [scan_open, hp h.1 (stops_cons (by decide) _), scan_blank, scan_connective, scan_blank,
      hq h.2 (stops_cons (by decide) _), scan_close, scan_of_stops hr]
  | identity p q _ _ =>
    simp only [chars_identity, signs, List.cons_append, List.append_assoc]
    rw [scan_term h.1 (stops_cons (by decide) _), scan_blank, scan_identity, scan_blank,
      scan_term h.2 hr]
  | quantified k x p ih =>
    have hx : x.isAlpha := isAlpha_iff.2 (Or.inr (isLower_of_isVariableSymbol h.1))
    have hbody : ∀ before, scan before 0 (x :: ')' :: (p.chars ++ rest)) =
        x :: parenthesisSign :: (p.signs ++ scan none 0 rest) := by
      intro before
      rw [scan_lone hx (stops_cons (by decide) _), scan_close, ih h.2 hr]
    rw [chars_quantified]
    cases k with
    | universal => exact congrArg (parenthesisSign :: ·) (hbody _)
    | existential => exact congrArg (parenthesisSign :: '∃' :: ·) (hbody _)

/-- The canonical form of a formula over the usual symbols can be read off its tree. -/
theorem canonical_eq_signs {f : Formula} (h : f.Lettered) : f.canonical = f.signs := by
  have := scan_chars h stops_nil none
  rwa [List.append_nil, scan, List.append_nil] at this

end Formula

end Sequitur
