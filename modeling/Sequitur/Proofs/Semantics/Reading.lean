import Sequitur.Proofs.Semantics.Interpretation
import Sequitur.Proofs.Semantics.Sentence

/-!
# The reading of the procedures

A replacement also reaches below a quantifier that binds the replaced variable, so the procedures
take a variable to belong to the outermost quantifier that binds it. `Interpretation.Reads` is truth
under that reading. It agrees with `Interpretation.Holds` where no quantifier repeats a variable
(`reads_iff_holds`), and under it an instance always means what it should (`reads_substitute`),
repeated variables or not.
-/

namespace Sequitur

universe u

/-- A quantifier binds nothing in what does not depend on its variable. -/
theorem Quantifier.truth_const {D : Type u} [Nonempty D] (k : Quantifier) (p : Prop) :
    (k.truth fun _ : D => p) ↔ p := by
  cases k
  · exact forall_const D
  · exact exists_const D

namespace Interpretation

variable {D : Type u}

/-- Truth where the variables in `bound` belong to quantifiers further out, so that a quantifier that
repeats one of them binds nothing. -/
def Reads (I : Interpretation D) (bound : Finset Char) (v : Char → D) : Formula → Prop
  | .atom s => I.relation s []
  | .predicate s ps => I.relation s (ps.map (I.value v))
  | .term _ _ => False
  | .not p => ¬I.Reads bound v p
  | .binary op p q => op.truth (I.Reads bound v p) (I.Reads bound v q)
  | .identity p q => I.same (I.value v p) (I.value v q)
  | .quantified k x p =>
    if x ∈ bound then I.Reads bound v p
    else k.truth fun d => I.Reads (insert x bound) (Function.update v x d) p
  | .falsum => False
  | .root p => I.Reads bound v p

/-- The interpretation with another value for the constant `c`. -/
def assign (I : Interpretation D) (c : Char) (d : D) : Interpretation D :=
  { I with constant := Function.update I.constant c d }

variable (I : Interpretation D)

@[simp] theorem constant_assign_self (c : Char) (d : D) : (I.assign c d).constant c = d := by
  show Function.update I.constant c d c = d
  rw [Function.update_self]

theorem constant_assign_of_ne {c e : Char} (h : e ≠ c) (d : D) :
    (I.assign c d).constant e = I.constant e := by
  show Function.update I.constant c d e = I.constant e
  rw [Function.update_of_ne h]

/-! ## One connective at a time -/

@[simp] theorem reads_falsum (bound : Finset Char) (v : Char → D) :
    I.Reads bound v .falsum ↔ False := Iff.rfl

@[simp] theorem reads_not (bound : Finset Char) (v : Char → D) (p : Formula) :
    I.Reads bound v (.not p) ↔ ¬I.Reads bound v p := Iff.rfl

@[simp] theorem reads_root (bound : Finset Char) (v : Char → D) (p : Formula) :
    I.Reads bound v (.root p) ↔ I.Reads bound v p := Iff.rfl

@[simp] theorem reads_and (bound : Finset Char) (v : Char → D) (p q : Formula) :
    I.Reads bound v (.and p q) ↔ I.Reads bound v p ∧ I.Reads bound v q := Iff.rfl

@[simp] theorem reads_or (bound : Finset Char) (v : Char → D) (p q : Formula) :
    I.Reads bound v (.or p q) ↔ I.Reads bound v p ∨ I.Reads bound v q := Iff.rfl

@[simp] theorem reads_implies (bound : Finset Char) (v : Char → D) (p q : Formula) :
    I.Reads bound v (.implies p q) ↔ (I.Reads bound v p → I.Reads bound v q) := Iff.rfl

@[simp] theorem reads_iff (bound : Finset Char) (v : Char → D) (p q : Formula) :
    I.Reads bound v (.iff p q) ↔ (I.Reads bound v p ↔ I.Reads bound v q) := Iff.rfl

@[simp] theorem reads_xor (bound : Finset Char) (v : Char → D) (p q : Formula) :
    I.Reads bound v (.xor p q) ↔ ¬(I.Reads bound v p ↔ I.Reads bound v q) := Iff.rfl

theorem reads_quantified {bound : Finset Char} (v : Char → D) (k : Quantifier) {x : Char}
    (p : Formula) (hx : x ∉ bound) :
    I.Reads bound v (.quantified k x p) ↔
      k.truth fun d => I.Reads (insert x bound) (Function.update v x d) p := by
  rw [Reads, if_neg hx]

theorem reads_quantified_of_mem {bound : Finset Char} (v : Char → D) (k : Quantifier) {x : Char}
    (p : Formula) (hx : x ∈ bound) :
    I.Reads bound v (.quantified k x p) ↔ I.Reads bound v p := by
  rw [Reads, if_pos hx]

theorem reads_unrooted (bound : Finset Char) (v : Char → D) (f : Formula) :
    I.Reads bound v f.unrooted ↔ I.Reads bound v f := by
  induction f with
  | root p ih => rw [Formula.unrooted, ih, reads_root]
  | _ => rfl

/-- Flipping a formula denies it. -/
theorem reads_flip (bound : Finset Char) (v : Char → D) (f : Formula) :
    I.Reads bound v f.flip ↔ ¬I.Reads bound v f := by
  induction f with
  | root p ih => rw [Formula.flip, ih, reads_root]
  | not p ih => rw [Formula.flip, reads_not, not_not]
  | binary op p q _ _ =>
    cases op <;> simp only [Formula.flip, reads_and, reads_or, reads_implies, reads_iff, reads_xor,
      reads_not] <;> tauto
  | quantified k x p _ =>
    by_cases hx : x ∈ bound
    · cases k <;> simp only [Formula.flip, reads_quantified_of_mem I v _ _ hx, reads_not]
    · cases k <;> simp only [Formula.flip, reads_quantified I v _ _ hx, Quantifier.truth, reads_not,
        not_forall, not_exists]
  | _ => rfl

/-! ## The usual reading -/

theorem reads_iff_holds {bound : Finset Char} {f : Formula} (h : f.Unrepeated bound)
    (v : Char → D) : I.Reads bound v f ↔ I.Holds v f := by
  induction f generalizing bound v with
  | not p ih => rw [reads_not, ih h]; rfl
  | root p ih => exact ih h v
  | binary op p q hp hq => rw [Reads, Holds, hp h.1, hq h.2]
  | quantified k x p ih =>
    rw [reads_quantified I v k p h.1, Holds]
    simp only [ih h.2]
  | _ => rfl

/-! ## Instances -/

theorem value_substitute {x c : Char} {t : Formula} (h : (.const, x) ∉ t.terms) (v : Char → D) :
    I.value v (t.substitute x c .const) =
      I.value (Function.update v x (I.constant c)) t := by
  cases t with
  | term k s =>
    by_cases hs : s = x
    · subst hs
      cases k with
      | var => simp [Formula.substitute, value]
      | const => simp at h
    · cases k <;> simp [Formula.substitute, value, hs]
  | _ => rfl

/-- An instance is true if the body is, with the value of the constant for the variable. -/
theorem reads_substitute {x c : Char} {f : Formula} (h : (.const, x) ∉ f.terms)
    (bound : Finset Char) (v : Char → D) :
    I.Reads bound v (f.substitute x c .const) ↔
      I.Reads (insert x bound) (Function.update v x (I.constant c)) f := by
  induction f generalizing bound v with
  | atom s => rfl
  | falsum => rfl
  | term k s =>
    have hs : I.Reads bound v ((Formula.term k s).substitute x c .const) ↔ False := by
      rw [Formula.substitute]
      split <;> rfl
    rw [hs, Reads]
  | predicate s ps _ =>
    have hvalue : ∀ p ∈ ps, I.value v (p.substitute x c .const) =
        I.value (Function.update v x (I.constant c)) p := fun p hp =>
      I.value_substitute (fun hx => h (by simpa using ⟨p, hp, hx⟩)) v
    rw [Formula.substitute_predicate, Reads, Reads, List.map_map]
    exact iff_of_eq (congrArg _ (List.map_congr_left hvalue))
  | not p ih => exact not_congr (ih h bound v)
  | root p ih => exact ih h bound v
  | binary op p q hp hq =>
    rw [Formula.terms_binary, List.mem_append, not_or] at h
    rw [Formula.substitute, Reads, Reads, hp h.1, hq h.2]
  | identity p q _ _ =>
    rw [Formula.terms_identity, List.mem_append, not_or] at h
    rw [Formula.substitute, Reads, Reads, I.value_substitute h.1, I.value_substitute h.2]
  | quantified k y p ih =>
    rw [Formula.substitute]
    by_cases hyx : y = x
    · -- the quantifier repeats the variable, so it binds nothing on either side
      subst hyx
      rw [reads_quantified_of_mem I _ k p (Finset.mem_insert_self y bound)]
      by_cases hy : y ∈ bound
      · rw [reads_quantified_of_mem I v k _ hy]
        exact ih h bound v
      · rw [reads_quantified I v k _ hy]
        simp only [ih h, Finset.insert_idem, Function.update_idem]
        have : Nonempty D := ⟨I.constant c⟩
        exact k.truth_const _
    · have hmem : y ∈ insert x bound ↔ y ∈ bound := by
        rw [Finset.mem_insert, or_iff_right hyx]
      by_cases hy : y ∈ bound
      · rw [reads_quantified_of_mem I v k _ hy, reads_quantified_of_mem I _ k p (hmem.2 hy)]
        exact ih h bound v
      · rw [reads_quantified I v k _ hy, reads_quantified I _ k p (mt hmem.1 hy)]
        simp only [ih h, Finset.insert_comm y x, Function.update_comm hyx]

/-! ## What a formula depends on -/

theorem value_congr {I J : Interpretation D} {scope : Finset Char} {t : Formula}
    (ht : t.IsTermIn scope) (hc : ∀ c ∈ t.constants, J.constant c = I.constant c) (v : Char → D) :
    J.value v t = I.value v t := by
  cases t with
  | term k s =>
    cases k with
    | var => rfl
    | const => exact hc s (Formula.mem_constants_iff.2 (by simp))
  | _ => exact ht.elim

/-- Truth depends only on the relations and on the constants that occur. -/
theorem reads_congr {I J : Interpretation D} {scope : Finset Char} {f : Formula}
    (hf : f.WellFormed scope) (hr : J.relation = I.relation) (hs : J.same = I.same)
    (hc : ∀ c ∈ f.constants, J.constant c = I.constant c) (bound : Finset Char) (v : Char → D) :
    J.Reads bound v f ↔ I.Reads bound v f := by
  induction f generalizing scope bound v with
  | atom s => rw [Reads, Reads, hr]
  | falsum => rfl
  | term k s => exact hf.elim
  | predicate s ps _ =>
    have hvalue : ∀ p ∈ ps, J.value v p = I.value v p := fun p hp =>
      value_congr (hf.2 p hp) (fun c h => hc c (Formula.mem_constants_of_mem_params hp h)) v
    rw [Reads, Reads, hr, List.map_congr_left hvalue]
  | not p ih => exact not_congr (ih hf hc bound v)
  | root p ih => exact ih hf hc bound v
  | binary op p q hp hq =>
    simp only [Formula.mem_constants_iff, Formula.terms_binary, List.mem_append] at hc hp hq
    rw [Reads, Reads, hp hf.1 (fun c h => hc c (Or.inl h)), hq hf.2 fun c h => hc c (Or.inr h)]
  | identity p q _ _ =>
    simp only [Formula.mem_constants_iff, Formula.terms_identity, List.mem_append] at hc
    rw [Reads, Reads, hs,
      value_congr hf.1 fun c h => hc c (Or.inl (Formula.mem_constants_iff.1 h)),
      value_congr hf.2 fun c h => hc c (Or.inr (Formula.mem_constants_iff.1 h))]
  | quantified k x p ih =>
    by_cases hx : x ∈ bound
    · rw [reads_quantified_of_mem J v k p hx, reads_quantified_of_mem I v k p hx]
      exact ih hf.2 hc bound v
    · rw [reads_quantified J v k p hx, reads_quantified I v k p hx]
      simp only [ih hf.2 hc]

theorem reads_assign {scope : Finset Char} {f : Formula} (hf : f.WellFormed scope) {c : Char}
    (hc : c ∉ f.constants) (d : D) (bound : Finset Char) (v : Char → D) :
    (I.assign c d).Reads bound v f ↔ I.Reads bound v f := by
  refine reads_congr (I := I) (J := I.assign c d) hf rfl rfl (fun e he => ?_) bound v
  have hne : e ≠ c := fun h => hc (h ▸ he)
  exact I.constant_assign_of_ne hne d

/-- An instance with a constant that is new to the body is true, once the constant has the right
value. -/
theorem reads_assign_substitute {scope : Finset Char} {f : Formula} (hf : f.WellFormed scope)
    {x c : Char} (hx : (.const, x) ∉ f.terms) (hc : c ∉ f.constants) (d : D) (bound : Finset Char)
    (v : Char → D) :
    (I.assign c d).Reads bound v (f.substitute x c .const) ↔
      I.Reads (insert x bound) (Function.update v x d) f := by
  rw [reads_substitute _ hx, constant_assign_self, reads_assign I hf hc]

/-- A variable that is not mentioned makes no difference. -/
theorem reads_insert_of_not_mentions {scope : Finset Char} {f : Formula} (hf : f.WellFormed scope)
    {x : Char} (h : ¬f.mentions x) (bound : Finset Char) (v : Char → D) (d : D) :
    I.Reads (insert x bound) (Function.update v x d) f ↔ I.Reads bound v f := by
  have hx : (.const, x) ∉ f.terms := fun hm => h (Formula.mentions_iff.2 ⟨_, hm⟩)
  have hc : x ∉ f.constants := mt Formula.mem_constants_iff.1 hx
  -- as the symbol is free to be a constant of value `d`, the formula is an instance of itself
  rw [← reads_assign_substitute I hf hx hc d, Formula.substitute_of_not_mentions h,
    reads_assign I hf hc]

/-- A quantifier whose variable is not mentioned stands for its body. -/
theorem reads_vacuous {scope : Finset Char} {p : Formula} (hp : p.WellFormed scope) {x : Char}
    (h : ¬p.mentions x) (k : Quantifier) (bound : Finset Char) (v : Char → D) :
    I.Reads bound v (.quantified k x p) ↔ I.Reads bound v p := by
  by_cases hx : x ∈ bound
  · exact reads_quantified_of_mem I v k p hx
  · rw [reads_quantified I v k p hx]
    simp only [reads_insert_of_not_mentions I hp h]
    have : Nonempty D := ⟨I.constant x⟩
    exact k.truth_const _

/-! ## Equal constants -/

theorem value_substitute_of_eq {a b : Char} (hab : I.constant a = I.constant b) {t : Formula}
    (h : (.var, a) ∉ t.terms) (v : Char → D) :
    I.value v (t.substitute a b .const) = I.value v t := by
  cases t with
  | term k s =>
    by_cases hs : s = a
    · subst hs
      cases k with
      | var => simp at h
      | const => simp [Formula.substitute, value, hab]
    · simp [Formula.substitute, hs]
  | _ => rfl

/-- Of two constants with the same value, one may be put for the other. -/
theorem reads_substitute_of_eq {a b : Char} (hab : I.constant a = I.constant b) {f : Formula}
    (h : (.var, a) ∉ f.terms) (bound : Finset Char) (v : Char → D) :
    I.Reads bound v (f.substitute a b .const) ↔ I.Reads bound v f := by
  induction f generalizing bound v with
  | atom s => rfl
  | falsum => rfl
  | term k s =>
    have hs : I.Reads bound v ((Formula.term k s).substitute a b .const) ↔ False := by
      rw [Formula.substitute]
      split <;> rfl
    rw [hs, Reads]
  | predicate s ps _ =>
    have hvalue : ∀ p ∈ ps, I.value v (p.substitute a b .const) = I.value v p := fun p hp =>
      I.value_substitute_of_eq hab (fun hx => h (by simpa using ⟨p, hp, hx⟩)) v
    rw [Formula.substitute_predicate, Reads, Reads, List.map_map]
    exact iff_of_eq (congrArg _ (List.map_congr_left hvalue))
  | not p ih => exact not_congr (ih h bound v)
  | root p ih => exact ih h bound v
  | binary op p q hp hq =>
    rw [Formula.terms_binary, List.mem_append, not_or] at h
    rw [Formula.substitute, Reads, Reads, hp h.1, hq h.2]
  | identity p q _ _ =>
    rw [Formula.terms_identity, List.mem_append, not_or] at h
    rw [Formula.substitute, Reads, Reads, I.value_substitute_of_eq hab h.1,
      I.value_substitute_of_eq hab h.2]
  | quantified k y p ih =>
    rw [Formula.substitute, Reads, Reads]
    simp only [ih h]

end Interpretation

end Sequitur
