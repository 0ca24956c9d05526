import Sequitur.Proofs.Canonical.Projection

/-!
# Texts that spell one formula

A formula can be written in many ways: each connective has several spellings, a universal may leave out
its sign, and blanks may stand between tokens. `Formula.Spelled` gives the tokens and `Spaced` the texts
in which they stand. The scan reads every token as it would if it stood alone (`Spaced.scan_eq`), so all
texts of one formula have the same canonical form.
-/

namespace Sequitur

/-! ## Texts -/

/-- The ways to write a negation. -/
def negationSpellings : List (List Char) := [['~'], ['¬'], ['!'], ['n', 'o', 't'], ['N', 'O', 'T']]

/-- The ways to write a connective. -/
def Connective.spellings : Connective → List (List Char)
  | .and => [['&'], ['∧'], ['^'], ['⋅'], ['a', 'n', 'd'], ['A', 'N', 'D']]
  | .or => [['∨'], ['|'], ['|', '|'], ['+'], ['o', 'r'], ['O', 'R']]
  | .implies => [['→'], ['⇒'], ['⊃'], ['>'], ['-', '>'], ['i', 'm', 'p', 'l', 'i', 'e', 's'],
      ['I', 'M', 'P', 'L', 'I', 'E', 'S']]
  | .iff => [['↔'], ['⇔'], ['≡'], ['<', '>'], ['<', '-', '>'], ['i', 'f', 'f'], ['I', 'F', 'F']]
  | .xor => [['⊕'], ['⊻'], ['≢'], ['⩒'], ['↮'], ['x', 'o', 'r'], ['X', 'O', 'R']]

/-- The tokens in which a formula can be written. The letter and the parameters of a predicate are one
token, and a universal has its sign or not. -/
inductive Formula.Spelled : Formula → List (List Char) → Prop
  | atom (s : Char) : Spelled (.atom s) [[s]]
  | predicate (s : Char) (ps : List Formula) : Spelled (.predicate s ps) [s :: ps.flatMap chars]
  | term (k : TermKind) (s : Char) : Spelled (.term k s) [[s]]
  | not {p t ts} : t ∈ negationSpellings → Spelled p ts → Spelled (.not p) (t :: ts)
  | binary {op p q t ts us} : t ∈ op.spellings → Spelled p ts → Spelled q us →
      Spelled (.binary op p q) (['('] :: (ts ++ t :: (us ++ [[')']])))
  | identity (p q : Formula) : Spelled (.identity p q) [p.chars, ['='], q.chars]
  | universal {x p ts} : Spelled p ts → Spelled (.all x p) (['('] :: ['∀'] :: [x] :: [')'] :: ts)
  | bare {x p ts} : Spelled p ts → Spelled (.all x p) (['('] :: [x] :: [')'] :: ts)
  | existential {x p ts} : Spelled p ts → Spelled (.ex x p) (['('] :: ['∃'] :: [x] :: [')'] :: ts)
  | falsum : Spelled .falsum [['⊥']]
  | root {p ts} : Spelled p ts → Spelled (.root p) ts

/-- The texts that come from tokens by putting in blanks, where `before` is the character in front. Two
letters of different tokens do not touch. -/
inductive Spaced : Option Char → List (List Char) → List Char → Prop
  | nil (before : Option Char) : Spaced before [] []
  | blank {before c ts text} : isBlank c → Spaced (some c) ts text → Spaced before ts (c :: text)
  | token {before t ts text} : ¬(before.any Char.isAlpha ∧ t.head?.any Char.isAlpha) →
      Spaced t.getLast? ts text → Spaced before (t :: ts) (t ++ text)

variable {before : Option Char} {ts us : List (List Char)} {text rest : List Char}
  {signs : Canonical}

/-! ## Blanks -/

theorem isAlphanumeric_of_isBlank {c : Char} (h : isBlank c) : isAlphanumeric c = false := by
  have hcodes : ∀ n ∈ [0x09, 0x0a, 0x0b, 0x0c, 0x0d, 0x20, 0x85, 0xa0, 0x1680, 0x2000, 0x2001, 0x2002,
      0x2003, 0x2004, 0x2005, 0x2006, 0x2007, 0x2008, 0x2009, 0x200a, 0x2028, 0x2029, 0x202f, 0x205f,
      0x3000], isAlphanumeric (Char.ofNat n) = false := by
    decide +kernel
  have hc := hcodes c.toNat
  rw [Char.ofNat_toNat] at hc
  apply hc
  simp only [isBlank, Bool.or_eq_true, Bool.and_eq_true, decide_eq_true_eq, beq_iff_eq] at h
  simp only [List.mem_cons, List.not_mem_nil, or_false]
  omega

theorem scan_of_isBlank {c : Char} (h : isBlank c) :
    scan before 0 (c :: rest) = scan (some c) 0 rest := by
  rw [scan, if_pos h]

/-! ## Reading one spelling -/

/-- No text starts with both of two spellings, but that `||` comes before `|`. -/
theorem pairwise_spellings : spellings.Pairwise fun s t =>
    (¬beginsWith s.text t.text ∧ ¬beginsWith t.text s.text) ∨
      (s.text = ['|', '|'] ∧ t.text = ['|']) := by
  decide

theorem read?_append {s : Spelling} (hs : s ∈ spellings) (hstarts : s.starts before (s.text ++ rest))
    (hbar : s.text = ['|'] → rest.head? ≠ some '|') :
    Spelling.read? before (s.text ++ rest) = some s := by
  obtain ⟨xs, ys, hsplit⟩ := List.append_of_mem hs
  have hpairwise := pairwise_spellings
  rw [hsplit, List.pairwise_append] at hpairwise
  rw [Spelling.read?, List.find?_eq_some_iff_append]
  refine ⟨hstarts, xs, ys, hsplit, fun t ht => ?_⟩
  rw [Bool.not_eq_true', Spelling.starts, Bool.and_eq_false_iff]
  refine Or.inl (Bool.eq_false_iff.2 fun hbegins => ?_)
  rw [beginsWith_iff] at hbegins
  rcases hpairwise.2.2 t ht s List.mem_cons_self with ⟨hts, hst⟩ | ⟨htext, hstext⟩
  · rw [beginsWith_iff] at hts hst
    exact (List.prefix_or_prefix_of_prefix hbegins (List.prefix_append s.text rest)).elim hts hst
  · rw [htext, hstext, List.singleton_append, List.cons_prefix_cons] at hbegins
    obtain ⟨-, rest', rfl⟩ := hbegins
    exact hbar hstext rfl

/-- The characters that belong to a spelling are passed over. -/
theorem scan_pending (before : Option Char) (xs rest : List Char) :
    scan before xs.length (xs ++ rest) = scan (xs.getLast?.or before) 0 rest := by
  induction xs generalizing before with
  | nil => rfl
  | cons c xs ih =>
    rw [List.length_cons, List.cons_append, scan, ih, List.getLast?_cons]
    cases xs.getLast? <;> rfl

/-- Whether the spelling starts with a character that is no blank, and the only letters and digits in
it are those of a word. -/
def Spelling.isPlain (s : Spelling) : Bool :=
  s.text.head?.any (!isBlank ·) && s.text.all fun c => !isAlphanumeric c || c.isAlpha

theorem isPlain_of_mem : ∀ s ∈ spellings, s.isPlain := by decide +kernel

theorem scan_spelling {s : Spelling} (hs : s ∈ spellings)
    (hstarts : s.starts before (s.text ++ rest)) (hbar : s.text = ['|'] → rest.head? ≠ some '|') :
    scan before 0 (s.text ++ rest) = s.sign ++ scan s.text.getLast? 0 rest := by
  have hread := read?_append hs hstarts hbar
  have hplain := isPlain_of_mem s hs
  rw [Spelling.isPlain, Bool.and_eq_true] at hplain
  obtain ⟨c, cs, htext⟩ : ∃ c cs, s.text = c :: cs := by
    cases htext : s.text with
    | nil => simp [htext] at hplain
    | cons c cs => exact ⟨c, cs, rfl⟩
  have hc : isBlank c = false := by simpa [htext] using hplain.1
  rw [htext, List.cons_append] at hread ⊢
  rw [scan, hc, hread, if_neg Bool.false_ne_true]
  simp only [htext, List.length_cons, Nat.add_sub_cancel]
  rw [scan_pending, List.getLast?_cons]
  cases cs.getLast? <;> rfl

/-! ## Reading tokens -/

theorem Formula.chars_ne_nil (f : Formula) : f.chars ≠ [] := by
  induction f with
  | root p ih => exact ih
  | _ => simp

/-- What comes of tokens that are read one by one. A bar is not to be followed by another. -/
inductive Reads : List (List Char) → Canonical → Prop
  | nil : Reads [] []
  | name {f : Formula} {ts signs} : f.Lettered → (∀ c ∈ f.chars, c.isAlpha) → Reads ts signs →
      Reads (f.chars :: ts) (f.signs ++ signs)
  | sign {c ts signs} : c ∈ ['=', '∃', '⊥'] → Reads ts signs → Reads ([c] :: ts) (c :: signs)
  | spelling {s : Spelling} {ts signs} : s ∈ spellings →
      (s.text = ['|'] → ts.flatten.head? ≠ some '|') → Reads ts signs →
      Reads (s.text :: ts) (s.sign ++ signs)

theorem Reads.plain {t : List Char} (h : Reads (t :: ts) signs) :
    t ≠ [] ∧ ∀ c ∈ t, isAlphanumeric c → c.isAlpha := by
  cases h with
  | name _ hletters _ => exact ⟨Formula.chars_ne_nil _, fun c hc _ => hletters c hc⟩
  | @sign c _ _ hc _ =>
    have hsigns : ['=', '∃', '⊥'].all (!isAlphanumeric ·) := by decide +kernel
    have hc := List.all_eq_true.1 hsigns c hc
    refine ⟨List.cons_ne_nil _ _, List.forall_mem_singleton.2 fun h => ?_⟩
    rw [h] at hc
    cases hc
  | @spelling s _ _ hs _ _ =>
    have hplain := isPlain_of_mem s hs
    rw [Spelling.isPlain, Bool.and_eq_true, List.all_eq_true] at hplain
    refine ⟨fun hnil => by simp [hnil] at hplain, fun c hc halnum => ?_⟩
    simpa [halnum] using hplain.2 c hc

/-- No letter or digit comes right after a letter. -/
theorem Spaced.apart (h : Spaced before ts text) (hreads : Reads ts signs)
    (hbefore : before.any Char.isAlpha) : text.head?.any isAlphanumeric = false := by
  cases h with
  | nil => rfl
  | blank hc _ => exact isAlphanumeric_of_isBlank hc
  | @token _ t _ _ hapart _ =>
    obtain ⟨hne, hplain⟩ := hreads.plain
    obtain ⟨c, t', rfl⟩ := List.exists_cons_of_ne_nil hne
    refine Bool.eq_false_iff.2 fun halnum => hapart ⟨hbefore, ?_⟩
    exact hplain c List.mem_cons_self halnum

theorem Spaced.stops (h : Spaced before ts text) (hreads : Reads ts signs)
    (hbefore : before.any Char.isAlpha) : Stops text := by
  intro c hc
  have hapart := h.apart hreads hbefore
  rw [hc] at hapart
  exact Bool.eq_false_iff.2 fun halpha =>
    Bool.noConfusion (hapart.symm.trans (isAlphanumeric_of_isAlpha halpha))

theorem Spaced.head_ne_bar (h : Spaced before ts text) (hreads : Reads ts signs)
    (hts : ts.flatten.head? ≠ some '|') : text.head? ≠ some '|' := by
  cases h with
  | nil => simp
  | blank hc _ =>
    rintro ⟨⟩
    exact absurd hc (by decide)
  | token _ _ =>
    obtain ⟨c, t', rfl⟩ := List.exists_cons_of_ne_nil hreads.plain.1
    exact hts

theorem scan_sign {c : Char} (h : c ∈ ['=', '∃', '⊥']) (before : Option Char) (rest : List Char) :
    scan before 0 (c :: rest) = c :: scan (some c) 0 rest := by
  simp only [List.mem_cons, List.not_mem_nil, or_false] at h
  rcases h with rfl | rfl | rfl <;> rfl

theorem any_isAlpha_getLast? {t : List Char} (hne : t ≠ []) (h : ∀ c ∈ t, c.isAlpha) :
    t.getLast?.any Char.isAlpha := by
  rw [List.getLast?_eq_some_getLast hne]
  exact h _ (List.getLast_mem hne)

/-- A word stands alone, as it is apart from the letters of other tokens. -/
theorem starts_append {s : Spelling} (hs : s ∈ spellings)
    (hbefore : before.any isAlphanumeric → before.any Char.isAlpha)
    (hapart : ¬(before.any Char.isAlpha ∧ s.text.head?.any Char.isAlpha))
    (hrest : Spaced s.text.getLast? ts rest) (hreads : Reads ts signs) :
    s.starts before (s.text ++ rest) := by
  rw [Spelling.starts, Bool.and_eq_true, beginsWith_iff, List.drop_left]
  refine ⟨List.prefix_append _ _, ?_⟩
  cases hword : s.isWord with
  | false => rfl
  | true =>
    have hletters : ∀ c ∈ s.text, c.isAlpha := List.all_eq_true.1 hword
    have hne : s.text ≠ [] := by
      have hplain := isPlain_of_mem s hs
      intro hnil
      simp [Spelling.isPlain, hnil] at hplain
    have hafter := hrest.apart hreads (any_isAlpha_getLast? hne hletters)
    have hfront : before.any isAlphanumeric = false := by
      refine Bool.eq_false_iff.2 fun halnum => hapart ⟨hbefore halnum, ?_⟩
      rw [List.head?_eq_some_head hne]
      exact hletters _ (List.head_mem hne)
    rw [Spelling.standsAlone, hafter, hfront]
    rfl

/-- However the tokens are spaced, the scan reads them one by one. -/
theorem Spaced.scan_eq (h : Spaced before ts text)
    (hbefore : before.any isAlphanumeric → before.any Char.isAlpha) (hreads : Reads ts signs) :
    scan before 0 text = signs := by
  induction h generalizing signs with
  | nil =>
    cases hreads
    rfl
  | blank hc _ ih =>
    rw [scan_of_isBlank hc]
    refine ih (fun halnum => ?_) hreads
    exact absurd ((isAlphanumeric_of_isBlank hc).symm.trans halnum) Bool.false_ne_true
  | @token before t ts text hapart hrest ih =>
    -- the last character of a token is a letter, if it is a letter or a digit at all
    have hlast : t.getLast?.any isAlphanumeric → t.getLast?.any Char.isAlpha := by
      obtain ⟨hne, hplain⟩ := hreads.plain
      rw [List.getLast?_eq_some_getLast hne]
      exact hplain _ (List.getLast_mem hne)
    cases hreads with
    | @name f _ _ hf hletters htail =>
      have hstops := hrest.stops htail (any_isAlpha_getLast? f.chars_ne_nil hletters)
      rw [Formula.scan_chars hf hstops, ← scan_of_stops hstops f.chars.getLast?, ih hlast htail]
    | sign hc htail =>
      rw [List.singleton_append, scan_sign hc]
      exact congrArg (List.cons _) (ih hlast htail)
    | spelling hs hbar htail =>
      rw [scan_spelling hs (starts_append hs hbefore hapart hrest htail) fun h =>
        hrest.head_ne_bar htail (hbar h), ih hlast htail]

/-! ## Reading a formula -/

/-- The ways to write a negation are those of the table. -/
theorem mem_negationSpellings {t : List Char} :
    t ∈ negationSpellings ↔ ⟨t, [negationSign]⟩ ∈ spellings := by
  have hall : ∀ t ∈ negationSpellings, ⟨t, [negationSign]⟩ ∈ spellings := by decide
  have htable : ∀ s ∈ spellings, s.sign = [negationSign] → s.text ∈ negationSpellings := by decide
  exact ⟨hall t, fun h => htable _ h rfl⟩

/-- The ways to write a connective are those of the table. -/
theorem Connective.mem_spellings {op : Connective} {t : List Char} :
    t ∈ op.spellings ↔ ⟨t, [op.canonicalSign]⟩ ∈ Sequitur.spellings := by
  have hall : ∀ t ∈ op.spellings, ⟨t, [op.canonicalSign]⟩ ∈ Sequitur.spellings := by
    cases op <;> decide
  have htable : ∀ s ∈ Sequitur.spellings, s.sign = [op.canonicalSign] → s.text ∈ op.spellings := by
    cases op <;> decide
  exact ⟨hall t, fun h => htable _ h rfl⟩

namespace Reads

theorem openParenthesis (h : Reads ts signs) : Reads (['('] :: ts) (parenthesisSign :: signs) :=
  .spelling (s := ⟨['('], [parenthesisSign]⟩) (by decide) (by simp) h

theorem closeParenthesis (h : Reads ts signs) : Reads ([')'] :: ts) (parenthesisSign :: signs) :=
  .spelling (s := ⟨[')'], [parenthesisSign]⟩) (by decide) (by simp) h

theorem universal (h : Reads ts signs) : Reads (['∀'] :: ts) signs :=
  .spelling (s := ⟨['∀'], []⟩) (by decide) (by simp) h

theorem bound {x : Char} (hx : isVariableSymbol x) (h : Reads ts signs) :
    Reads ([x] :: ts) (x :: signs) :=
  .name (f := .var x) hx
    (List.forall_mem_singleton.2 (isAlpha_iff.2 (.inr (isLower_of_isVariableSymbol hx)))) h

end Reads

namespace Formula

theorem IsLetteredTerm.reads {t : Formula} (ht : t.IsLetteredTerm) (h : Reads ts signs) :
    Reads (t.chars :: ts) (t.symbol.toList ++ signs) := by
  obtain ⟨c, hchars, hsymbol, hc⟩ := ht.exists_symbol
  have hletters : ∀ d ∈ t.chars, d.isAlpha := by
    rw [hchars]
    exact List.forall_mem_singleton.2 (isAlpha_iff.2 (.inr hc))
  cases t with
  | term k s => exact .name ht hletters h
  | _ => exact ht.elim

namespace Spelled

/-- No formula begins with a bar. -/
theorem head_ne_bar {f : Formula} (h : f.Spelled ts) (hf : f.Lettered) (us : List (List Char)) :
    (ts ++ us).flatten.head? ≠ some '|' := by
  have halpha {c : Char} (hc : c.isAlpha) : c ≠ '|' := by
    rintro rfl
    exact absurd hc (by decide)
  induction h with
  | atom s => simpa using halpha (isAlpha_iff.2 (.inl (isUpper_of_isLetter hf)))
  | predicate s ps => simpa using halpha (isAlpha_iff.2 (.inl (isUpper_of_isLetter hf.1)))
  | term k s =>
    obtain ⟨c, hchars, -, hc⟩ := IsLetteredTerm.exists_symbol hf
    obtain rfl : s = c := List.head_eq_of_cons_eq hchars
    simpa using halpha (isAlpha_iff.2 (.inr hc))
  | @not p t _ ht _ _ =>
    have hall : ∀ t ∈ negationSpellings, t ≠ [] ∧ t.head? ≠ some '|' := by decide
    obtain ⟨hne, hhead⟩ := hall t ht
    obtain ⟨c, t', rfl⟩ := List.exists_cons_of_ne_nil hne
    simpa using hhead
  | identity p q =>
    obtain ⟨c, hchars, -, hc⟩ := IsLetteredTerm.exists_symbol hf.1
    simpa [hchars] using halpha (isAlpha_iff.2 (.inr hc))
  | root _ ih => exact ih hf
  | _ => simp

/-- The tokens of a formula are read as its signs, whatever follows. -/
theorem reads {f : Formula} (h : f.Spelled ts) (hf : f.Lettered) (hus : Reads us signs) :
    Reads (ts ++ us) (f.signs ++ signs) := by
  induction h generalizing us signs with
  | atom s =>
    have hs : s.isAlpha := isAlpha_iff.2 (.inl (isUpper_of_isLetter hf))
    exact .name (f := .atom s) hf (List.forall_mem_singleton.2 hs) hus
  | predicate s ps =>
    rw [← chars_predicate]
    refine .name (f := .predicate s ps) hf ?_ hus
    rw [chars_predicate]
    refine List.forall_mem_cons.2 ⟨isAlpha_iff.2 (.inl (isUpper_of_isLetter hf.1)), fun c hc => ?_⟩
    obtain ⟨p, hp, hc⟩ := List.mem_flatMap.1 hc
    obtain ⟨d, hchars, -, hd⟩ := (hf.2 p hp).exists_symbol
    rw [hchars] at hc
    rw [List.mem_singleton.1 hc]
    exact isAlpha_iff.2 (.inr hd)
  | term k s => exact IsLetteredTerm.reads (t := .term k s) hf hus
  | not ht _ ih =>
    exact .spelling (mem_negationSpellings.1 ht) (by rintro rfl; exact absurd ht (by decide))
      (ih hf hus)
  | binary ht _ hq ihp ihq =>
    simp only [Formula.signs, List.cons_append, List.append_assoc, List.nil_append]
    refine .openParenthesis (ihp hf.1 ?_)
    exact .spelling (Connective.mem_spellings.1 ht) (fun _ => hq.head_ne_bar hf.2 _)
      (ihq hf.2 hus.closeParenthesis)
  | identity p q =>
    simp only [Formula.signs, List.cons_append, List.append_assoc, List.nil_append]
    exact hf.1.reads (.sign List.mem_cons_self (hf.2.reads hus))
  | universal _ ih =>
    exact .openParenthesis (.universal (.bound hf.1 (.closeParenthesis (ih hf.2 hus))))
  | bare _ ih => exact .openParenthesis (.bound hf.1 (.closeParenthesis (ih hf.2 hus)))
  | existential _ ih =>
    exact .openParenthesis (.sign (by decide) (.bound hf.1 (.closeParenthesis (ih hf.2 hus))))
  | falsum => exact .sign (by decide) hus
  | root _ ih => exact ih hf hus

end Spelled

/-- The text of a formula is one of those that spell it. -/
theorem exists_spelled_chars (f : Formula) {b : Option Char}
    (hbefore : ¬b.any Char.isAlpha) (hus : ∀ b, Spaced b us text) :
    ∃ ts, f.Spelled ts ∧ Spaced b (ts ++ us) (f.chars ++ text) := by
  have hfree {b : Option Char} {t : List Char} (hb : ¬b.any Char.isAlpha) :
      ¬(b.any Char.isAlpha ∧ t.head?.any Char.isAlpha) := fun h => hb h.1
  have hnone {b : Option Char} {t : List Char} (ht : ¬t.head?.any Char.isAlpha) :
      ¬(b.any Char.isAlpha ∧ t.head?.any Char.isAlpha) := fun h => ht h.2
  induction f generalizing b us text with
  | atom s => exact ⟨_, .atom s, .token (hfree hbefore) (hus _)⟩
  | predicate s ps _ =>
    rw [chars_predicate]
    exact ⟨_, .predicate s ps, .token (hfree hbefore) (hus _)⟩
  | term k s => exact ⟨_, .term k s, .token (hfree hbefore) (hus _)⟩
  | not p ih =>
    obtain ⟨ts, hts, hspaced⟩ := ih (b := some '¬') (by decide) hus
    exact ⟨_, .not (t := ['¬']) (by decide) hts, .token (hfree hbefore) hspaced⟩
  | binary op p q ihp ihq =>
    have hclose : ∀ b, Spaced b ([')'] :: us) (')' :: text) := fun _ =>
      .token (t := [')']) (hnone (by decide)) (hus _)
    obtain ⟨tq, htq, hq⟩ := ihq (b := some ' ') (by decide) hclose
    have hop : ¬(some ' ').any Char.isAlpha := by decide
    obtain ⟨tp, htp, hp⟩ := ihp (b := some '(') (by decide) fun _ =>
      .blank (by decide) (.token (t := [op.sign]) (hfree hop) (.blank (by decide) hq))
    refine ⟨_, .binary (t := [op.sign]) (by cases op <;> decide) htp htq, ?_⟩
    simp only [chars_binary, List.cons_append, List.append_assoc, List.nil_append]
    exact .token (hfree hbefore) hp
  | identity p q _ _ =>
    refine ⟨_, .identity p q, ?_⟩
    simp only [chars_identity, List.append_assoc, List.cons_append]
    refine .token (hfree hbefore) (.blank (by decide) (.token (t := ['=']) (hfree (by decide)) ?_))
    exact .blank (by decide) (.token (hfree (by decide)) (hus _))
  | quantified k x p ih =>
    obtain ⟨ts, hts, hspaced⟩ := ih (b := some ')') (by decide) hus
    have hbody : ∀ b, ¬b.any Char.isAlpha →
        Spaced b ([x] :: [')'] :: (ts ++ us)) (x :: ')' :: (p.chars ++ text)) := fun b hb =>
      .token (t := [x]) (hfree hb) (.token (t := [')']) (hnone (by decide)) hspaced)
    cases k with
    | universal =>
      exact ⟨_, .universal hts, .token (t := ['(']) (hfree hbefore)
        (.token (t := ['∀']) (hfree (by decide)) (hbody _ (by decide)))⟩
    | existential =>
      exact ⟨_, .existential hts, .token (t := ['(']) (hfree hbefore)
        (.token (t := ['∃']) (hfree (by decide)) (hbody _ (by decide)))⟩
  | falsum => exact ⟨_, .falsum, .token (hfree hbefore) (hus _)⟩
  | root p ih =>
    obtain ⟨ts, hts, hspaced⟩ := ih hbefore hus
    exact ⟨ts, .root hts, hspaced⟩

/-- All texts that spell a formula over the usual symbols, its own text among them, have its canonical
form. -/
theorem canonicalForm_of_spelled {f : Formula} (hf : f.Lettered) :
    (∃ ts, f.Spelled ts ∧ Spaced none ts f.chars) ∧
      ∀ ts text, f.Spelled ts → Spaced none ts text → canonicalForm text = f.canonical := by
  constructor
  · obtain ⟨ts, hts, hspaced⟩ := f.exists_spelled_chars (b := none) (by decide) .nil
    rw [List.append_nil, List.append_nil] at hspaced
    exact ⟨ts, hts, hspaced⟩
  · intro ts text hts hspaced
    have hreads := hts.reads hf .nil
    rw [List.append_nil, List.append_nil] at hreads
    rw [canonicalForm, hspaced.scan_eq (by decide) hreads, canonical_eq_signs hf]

/-- In `(x)(Pand||not Oor )` neither the parameters of `Pand` nor those of `Oor` are a connective. -/
theorem canonicalForm_of_spelled_words :
    let f : Formula := .all 'x' (.or (.predicate 'P' [.const 'a', .const 'n', .const 'd'])
      (.not (.predicate 'O' [.const 'o', .const 'r'])))
    let ts : List (List Char) := [['('], ['x'], [')'], ['('], ['P', 'a', 'n', 'd'], ['|', '|'],
      ['n', 'o', 't'], ['O', 'o', 'r'], [')']]
    let text := ['(', 'x', ')', '(', 'P', 'a', 'n', 'd', '|', '|', 'n', 'o', 't', ' ', 'O', 'o', 'r',
      ' ', ')']
    f.Lettered ∧ f.Spelled ts ∧ Spaced none ts text ∧ canonicalForm text = f.canonical := by
  intro f ts text
  have hf : f.Sentence := by decide
  have hts : f.Spelled ts :=
    .bare (.binary (t := ['|', '|']) (by decide) (.predicate _ _)
      (.not (t := ['n', 'o', 't']) (by decide) (.predicate _ _)))
  have hword : Spaced (some '|') [['n', 'o', 't'], ['O', 'o', 'r'], [')']]
      ['n', 'o', 't', ' ', 'O', 'o', 'r', ' ', ')'] :=
    .token (t := ['n', 'o', 't']) (by decide) (.blank (by decide)
      (.token (t := ['O', 'o', 'r']) (by decide) (.blank (by decide)
        (.token (t := [')']) (by decide) (.nil _)))))
  have htext : Spaced none ts text :=
    .token (t := ['(']) (by decide) (.token (t := ['x']) (by decide)
      (.token (t := [')']) (by decide) (.token (t := ['(']) (by decide)
        (.token (t := ['P', 'a', 'n', 'd']) (by decide)
          (.token (t := ['|', '|']) (by decide) hword)))))
  exact ⟨hf.lettered, hts, htext, (canonicalForm_of_spelled hf.lettered).2 ts text hts htext⟩

end Formula

end Sequitur
