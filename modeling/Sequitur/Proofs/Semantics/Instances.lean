import Sequitur.Proofs.Semantics.Reading

/-!
# What an instance means

An instance is true if the body is, with the value of the constant for the variable, as long as no
quantifier of the body binds the variable again. A replacement does not stop at such a quantifier,
and leaves it with nothing to bind. So in general an instance means the body without the quantifiers
that bind its variable, which is `Formula.release`; `Structure.holds_instantiate` says both.
-/

namespace Sequitur

universe u

namespace Formula

/-- The formula without the quantifiers that bind `x`. -/
def release (x : Char) : Formula → Formula
  | .atom s => .atom s
  | .predicate s ps => .predicate s ps
  | .term k s => .term k s
  | .not p => .not (p.release x)
  | .binary op p q => .binary op (p.release x) (q.release x)
  | .identity p q => .identity p q
  | .quantified k y p => if y = x then p.release x else .quantified k y (p.release x)
  | .falsum => .falsum
  | .root p => .root (p.release x)

/-- Whether the formula is a quantifier that binds `x` and has `x` in its body. -/
def binds (x : Char) : Formula → Bool
  | .quantified _ y p => y = x && p.mentions x
  | _ => false

/-- Whether some quantifier of the formula takes `x` away from one around it. -/
def Rebinds (x : Char) (f : Formula) : Prop := ∃ g ∈ f.subformulas, g.binds x

instance (x : Char) (f : Formula) : Decidable (f.Rebinds x) :=
  inferInstanceAs (Decidable (∃ g ∈ f.subformulas, g.binds x))

theorem rebinds_iff {x : Char} {f : Formula} :
    f.Rebinds x ↔ f.binds x ∨ ∃ p ∈ f.children, p.Rebinds x := by
  simp only [Rebinds, subformulas_eq f, List.exists_mem_cons_iff, List.mem_flatMap]
  refine or_congr_right ⟨?_, ?_⟩
  · rintro ⟨g, ⟨p, hp, hg⟩, hx⟩
    exact ⟨p, hp, g, hg, hx⟩
  · rintro ⟨p, hp, g, hg, hx⟩
    exact ⟨g, ⟨p, hp, hg⟩, hx⟩

theorem Rebinds.of_mem_children {x : Char} {f p : Formula} (hp : p ∈ f.children)
    (h : p.Rebinds x) : f.Rebinds x :=
  rebinds_iff.2 (.inr ⟨p, hp, h⟩)

end Formula

namespace Interpretation

variable {D : Type u} (I : Interpretation D)

/-! ## Variables that are not mentioned -/

theorem value_update_of_not_mentions {x : Char} {t : Formula} (h : ¬t.mentions x) (v : Char → D)
    (d : D) : I.value (Function.update v x d) t = I.value v t := by
  cases t with
  | term k s =>
    cases k with
    | const => rfl
    | var =>
      have hs : s ≠ x := by simpa [Formula.mentions] using h
      exact Function.update_of_ne hs d v
  | _ => rfl

theorem holds_update_of_not_mentions {x : Char} {f : Formula} (h : ¬f.mentions x) (v : Char → D)
    (d : D) : I.Holds (Function.update v x d) f ↔ I.Holds v f := by
  induction f generalizing v with
  | predicate s ps _ =>
    have hvalue : ∀ p ∈ ps, I.value (Function.update v x d) p = I.value v p := by
      intro p hp
      refine I.value_update_of_not_mentions (fun hm => h ?_) v d
      obtain ⟨k, hk⟩ := Formula.mentions_iff.1 hm
      exact Formula.mentions_iff.2
        ⟨k, Formula.terms_predicate s ps ▸ List.mem_flatMap.2 ⟨p, hp, hk⟩⟩
    rw [Holds, Holds, List.map_congr_left hvalue]
  | not p ih => exact not_congr (ih h v)
  | root p ih => exact ih h v
  | binary op p q hp hq =>
    have hpq : ¬p.mentions x ∧ ¬q.mentions x := by simpa [Formula.mentions, not_or] using h
    rw [Holds, Holds, hp hpq.1, hq hpq.2]
  | identity p q _ _ =>
    have hpq : ¬p.mentions x ∧ ¬q.mentions x := by simpa [Formula.mentions, not_or] using h
    rw [Holds, Holds, I.value_update_of_not_mentions hpq.1, I.value_update_of_not_mentions hpq.2]
  | quantified k y p ih =>
    rw [Holds, Holds]
    by_cases hyx : y = x
    · subst hyx
      simp only [Function.update_idem]
    · simp only [Function.update_comm (Ne.symm hyx), ih h]
  | _ => rfl

/-! ## Quantifiers that bind a variable again -/

/-- A replacement takes the variable from every quantifier that binds it. -/
theorem holds_substitute {x c : Char} {f : Formula} (h : (.const, x) ∉ f.terms) (v : Char → D) :
    I.Holds v (f.substitute x c .const) ↔
      I.Holds (Function.update v x (I.constant c)) (f.release x) := by
  induction f generalizing v with
  | atom s => rfl
  | falsum => rfl
  | term k s =>
    have hs : I.Holds v ((Formula.term k s).substitute x c .const) ↔ False := by
      rw [Formula.substitute]
      split <;> rfl
    rw [hs, Formula.release, Holds]
  | predicate s ps _ =>
    have hvalue : ∀ p ∈ ps, I.value v (p.substitute x c .const) =
        I.value (Function.update v x (I.constant c)) p := fun p hp =>
      I.value_substitute (fun hx => h (by simpa using ⟨p, hp, hx⟩)) v
    rw [Formula.substitute_predicate, Formula.release, Holds, Holds, List.map_map]
    exact iff_of_eq (congrArg _ (List.map_congr_left hvalue))
  | not p ih => exact not_congr (ih h v)
  | root p ih => exact ih h v
  | binary op p q hp hq =>
    rw [Formula.terms_binary, List.mem_append, not_or] at h
    rw [Formula.substitute, Formula.release, Holds, Holds, hp h.1, hq h.2]
  | identity p q _ _ =>
    rw [Formula.terms_identity, List.mem_append, not_or] at h
    rw [Formula.substitute, Formula.release, Holds, Holds, I.value_substitute h.1,
      I.value_substitute h.2]
  | quantified k y p ih =>
    rw [Formula.substitute, Formula.release, Holds]
    by_cases hyx : y = x
    · -- the instance keeps the quantifier, but its variable is gone from the body
      subst hyx
      rw [if_pos rfl]
      simp only [ih h, Function.update_idem]
      have : Nonempty D := ⟨I.constant c⟩
      exact k.truth_const _
    · rw [if_neg hyx, Holds]
      simp only [ih h, Function.update_comm hyx]

/-- Quantifiers without their variable in the body make no difference. -/
theorem holds_release {x : Char} {f : Formula} (h : ¬f.Rebinds x) (v : Char → D) :
    I.Holds v (f.release x) ↔ I.Holds v f := by
  induction f generalizing v with
  | not p ih => exact not_congr (ih (fun hr => h (hr.of_mem_children List.mem_cons_self)) v)
  | root p ih => exact ih (fun hr => h (hr.of_mem_children List.mem_cons_self)) v
  | binary op p q ihp ihq =>
    have hp : ¬p.Rebinds x := fun hr => h (hr.of_mem_children (by simp [Formula.children]))
    have hq : ¬q.Rebinds x := fun hr => h (hr.of_mem_children (by simp [Formula.children]))
    rw [Formula.release, Holds, Holds, ihp hp, ihq hq]
  | quantified k y p ih =>
    have hp : ¬p.Rebinds x := fun hr => h (hr.of_mem_children List.mem_cons_self)
    rw [Formula.release, Holds]
    by_cases hyx : y = x
    · subst hyx
      have hy : ¬p.mentions y := fun hm =>
        h (Formula.rebinds_iff.2 (.inl (by simp [Formula.binds, hm])))
      rw [if_pos rfl]
      simp only [ih hp, I.holds_update_of_not_mentions hy]
      have : Nonempty D := ⟨I.constant y⟩
      exact (k.truth_const _).symm
    · rw [if_neg hyx, Holds]
      simp only [ih hp]
  | _ => rfl

end Interpretation

namespace Structure

variable {D : Type u}

/-- What an instance means. It is true if the body, without the quantifiers that bind its variable
once more, is true with the value of the constant for the variable. Those quantifiers may stay if
none of them has the variable in its body. -/
theorem holds_instantiate (S : Structure D) (v : Char → D) (k : Quantifier) {x : Char} {p : Formula}
    (hx : isVariableSymbol x) (hp : ∀ d ∈ p.constants, isConstantSymbol d) (c : Char) :
    ∃ g, (Formula.quantified k x p).instantiate c = some g ∧
      (S.Holds v g ↔ S.Holds (Function.update v x (S.constant c)) (p.release x)) ∧
      (¬p.Rebinds x → (S.Holds v g ↔ S.Holds (Function.update v x (S.constant c)) p)) := by
  have hterm : (.const, x) ∉ p.terms := by
    intro hm
    have hconst := hp x (Formula.mem_constants_iff.2 hm)
    rw [isVariableSymbol_of_isConstantSymbol hconst] at hx
    exact Bool.noConfusion hx
  have hmeans := S.reading.holds_substitute (c := c) hterm v
  refine ⟨_, rfl, hmeans, fun hr => ?_⟩
  exact hmeans.trans (S.reading.holds_release hr _)

/-- With `R` for `<` on the numbers, the instance of `(∀x)((∃y)Rxy ∧ (∃x)Rab)` is true like its
body: the inner quantifier of `x` has nothing to bind. -/
theorem holds_instantiate_order :
    ¬(Formula.and (.ex 'y' (.predicate 'R' [.term .var 'x', .term .var 'y']))
        (.ex 'x' (.predicate 'R' [.term .const 'a', .term .const 'b']))).Rebinds 'x' ∧
      ∃ g, (Formula.all 'x' (.and (.ex 'y' (.predicate 'R' [.term .var 'x', .term .var 'y']))
          (.ex 'x' (.predicate 'R' [.term .const 'a', .term .const 'b'])))).instantiate 'a' = some g ∧
        (Structure.mk Char.toNat fun _ ds => ds.IsChain (· < ·)).Holds (fun _ => 0) g := by
  have hr : ¬(Formula.and (.ex 'y' (.predicate 'R' [.term .var 'x', .term .var 'y']))
      (.ex 'x' (.predicate 'R' [.term .const 'a', .term .const 'b']))).Rebinds 'x' := by decide
  obtain ⟨g, hg, _, hmeans⟩ := holds_instantiate
    (Structure.mk Char.toNat fun _ ds => ds.IsChain (· < ·)) (fun _ => 0) .universal
    (x := 'x') (p := .and (.ex 'y' (.predicate 'R' [.term .var 'x', .term .var 'y']))
      (.ex 'x' (.predicate 'R' [.term .const 'a', .term .const 'b']))) (by decide)
    (List.all_eq_true.1 (by decide)) 'a'
  refine ⟨hr, g, hg, (hmeans hr).2 ⟨⟨98, ?_⟩, ⟨0, ?_⟩⟩⟩
  · show List.IsChain (· < ·) [97, 98]
    decide
  · show List.IsChain (· < ·) [97, 98]
    decide

/-- `(∃x)Px` is true in a structure where `P` is true of something else than `a`, but its instance
`(∃x)Pa` as the body of `(∀x)(∃x)Px` is not. -/
theorem instance_of_rebound :
    ¬∀ (D : Type) (S : Structure D) (v : Char → D) (k : Quantifier) (x c : Char) (p g : Formula),
      isVariableSymbol x → isConstantSymbol c → p.WellFormed {x} →
      (Formula.quantified k x p).instantiate c = some g →
      (S.Holds v g ↔ S.Holds (Function.update v x (S.constant c)) p) := by
  intro h
  have hiff := h Bool ⟨fun _ => false, fun _ ds => ds = [true]⟩ (fun _ => false) .universal 'x' 'a'
    (.ex 'x' (.predicate 'P' [.term .var 'x'])) _ (by decide) (by decide) (by decide) rfl
  obtain ⟨d, hd⟩ := hiff.2 ⟨true, rfl⟩
  exact absurd (show [false] = [true] from hd) (by decide)

end Structure

end Sequitur
