import Sequitur.Proofs.Derivation.Extraction
import Sequitur.Proofs.Derivation.Passes

/-!
# Every line of a proof follows

A line of a proof is an assumption, repeats a premise, or applies its rule to the lines that it cites.
`Follows` has all that a line may be, given what it cites and what stands above it. All that a search
derives is of this kind (`Moves.grounded`), and writing it up changes nothing but the numbers
(`Context.prove_follows`).
-/

namespace Sequitur

open Formula Search

/-- What may be said by a step in a proof, given by which steps and of which formulas that is said
which it cites, and what stands above.

The arbitrary constants are those over which a generalization may be made. They are not those of the
argument, nor does an existential ever have one of them as its witness. -/
inductive Follows (P : Problem) (arbitrary : Symbols) (above : List Formula) :
    Step → List Step → List Formula → Formula → Prop
  | assumed {step : Step} {f : Formula} (h : P.Assumes step f) : Follows P arbitrary above step [] [] f
  | repeated {f : Formula} (h : f.Alike P.conclusion.unrooted) :
    Follows P arbitrary above .conclusion [.premise] [f] P.conclusion.unrooted
  | inferred {step : Step} {reasons : List Step} {ps : List Formula} {f : Formula}
    (h : Infers step ps f) : Follows P arbitrary above step reasons ps f
  | instantiated {reasons : List Step} {x c : Char} {p : Formula} (hx : p.mentions x) :
    Follows P arbitrary above .universalElimination reasons [.all x p] (p.substitute x c .const)
  | witnessed {reasons : List Step} {x c : Char} {p : Formula} (hx : p.mentions x)
    (hargument : c ∉ P.constants) (harbitrary : c ∉ arbitrary)
    (hfresh : ∀ f ∈ above, c ∉ f.constants) :
    Follows P arbitrary above .existentialElimination reasons [.ex x p] (p.substitute x c .const)
  | introduced {step : Step} {reasons : List Step} {ps : List Formula}
    (h : Introduces step ps P.conclusion.unrooted) :
    Follows P arbitrary above step reasons ps P.conclusion.unrooted
  | generalized {reasons : List Step} {x c : Char} {p f : Formula}
    (hconclusion : P.conclusion.unrooted = .all x p) (hc : c ∈ arbitrary)
    (h : (p.substitute x c .const).Alike f) :
    Follows P arbitrary above .universalIntroduction reasons [f] P.conclusion.unrooted

variable {P : Problem} {s s' : Search} {arbitrary : Symbols} {es : List Inference}

/-- Less may stand above, and constants that the formula does not have may become arbitrary. -/
theorem Follows.mono {above above' : List Formula} {step : Step} {reasons : List Step}
    {ps : List Formula} {f : Formula} (h : Follows P arbitrary above step reasons ps f)
    {arbitrary' : Symbols} (habove : above' ⊆ above) (hsub : ∀ c ∈ arbitrary, c ∈ arbitrary')
    (hnew : ∀ c ∈ f.constants, c ∈ arbitrary' → c ∈ arbitrary) :
    Follows P arbitrary' above' step reasons ps f := by
  cases h with
  | assumed h => exact .assumed h
  | repeated h => exact .repeated h
  | inferred h => exact .inferred h
  | instantiated hx => exact .instantiated hx
  | introduced h => exact .introduced h
  | generalized hconclusion hc h => exact .generalized hconclusion (hsub _ hc) h
  | witnessed hx hargument harbitrary hfresh =>
    refine .witnessed hx hargument (fun hc => ?_) fun f hf => hfresh f (habove hf)
    exact harbitrary (hnew _ (mem_constants_substitute_self hx) hc)

/-- What follows by the rule for existentials follows from a single existential. -/
theorem Follows.of_existentialElimination {above ps : List Formula} {reasons : List Step}
    {f : Formula} (h : Follows P arbitrary above .existentialElimination reasons ps f) :
    ∃ x p, ps = [.ex x p] ∧ (¬p.mentions x ∧ f = p ∨
      p.mentions x ∧ ∃ c, f = p.substitute x c .const ∧ c ∉ P.constants ∧ c ∉ arbitrary ∧
        ∀ g ∈ above, c ∉ g.constants) := by
  cases h with
  | assumed h => exact h.elim
  | inferred h =>
    cases h with
    | vacuousExistential hx => exact ⟨_, _, rfl, .inl ⟨hx, rfl⟩⟩
  | witnessed hx hargument harbitrary hfresh =>
    exact ⟨_, _, rfl, .inr ⟨hx, _, rfl, hargument, harbitrary, hfresh⟩⟩
  | introduced h =>
    generalize P.conclusion.unrooted = g at h
    cases h

/-! ## What a search derives -/

/-- Whether indices are those of inferences, in order. -/
def Names (es : List Inference) : List Nat → List Inference → Prop :=
  List.Forall₂ fun i e => es[i]? = some e

/-- Whether all that has been derived follows from what it rests on. -/
def Grounded (P : Problem) (arbitrary : Symbols) (es : List Inference) : Prop :=
  ∀ i e, es[i]? = some e → ∃ cited, Names es e.parents cited ∧
    Follows P arbitrary ((es.take i).map Inference.formula) e.step (cited.map Inference.step)
      (cited.map Inference.formula) e.formula

theorem Names.append {is : List Nat} {cited : List Inference} (h : Names es is cited)
    (added : List Inference) : Names (es ++ added) is cited := by
  refine List.Forall₂.imp (fun i e he => ?_) h
  rw [List.getElem?_append_left (List.getElem?_eq_some_iff.1 he).1, he]

/-- Of a single formula that is cited the index is given. -/
theorem Names.exists_of_map_eq_singleton {cited : List Inference} {is : List Nat} {f : Formula}
    (h : Names es is cited) (hf : cited.map Inference.formula = [f]) :
    ∃ i e, is = [i] ∧ es[i]? = some e ∧ e.formula = f := by
  obtain ⟨e, rfl, he⟩ := List.map_eq_singleton_iff.1 hf
  obtain ⟨i, js, hi, hjs, rfl⟩ := List.forall₂_cons_right_iff.1 h
  rw [List.forall₂_nil_right_iff] at hjs
  exact ⟨i, e, by rw [hjs], hi, he⟩

theorem Grounded.concat (h : Grounded P arbitrary es) {e : Inference} {cited : List Inference}
    (hcited : Names es e.parents cited)
    (hfollows : Follows P arbitrary (es.map Inference.formula) e.step (cited.map Inference.step)
      (cited.map Inference.formula) e.formula) : Grounded P arbitrary (es ++ [e]) := by
  intro i d hd
  rcases Nat.lt_trichotomy i es.length with hlt | rfl | hgt
  · rw [List.getElem?_append_left hlt] at hd
    obtain ⟨ds, hds, hrow⟩ := h i d hd
    refine ⟨ds, hds.append [e], ?_⟩
    rwa [List.take_append_of_le_length (Nat.le_of_lt hlt)]
  · rw [List.getElem?_concat_length] at hd
    cases hd
    refine ⟨cited, hcited.append [e], ?_⟩
    rwa [List.take_left]
  · rw [List.getElem?_eq_none (by simp; omega)] at hd
    cases hd

theorem Search.Cites.exists_names {is : List Nat} {ps : List Formula} (h : s.Cites is ps) :
    ∃ cited, Names s.store.inferences is cited ∧ cited.map Inference.formula = ps := by
  induction h with
  | nil => exact ⟨[], .nil, rfl⟩
  | cons hi _ ih =>
    obtain ⟨e, he, rfl⟩ := hi
    obtain ⟨cited, hcited, rfl⟩ := ih
    exact ⟨e :: cited, .cons he hcited, rfl⟩

/-- What is licensed follows from what it rests on. -/
theorem Search.Licensed.follows {e : Inference} (h : s.Licensed P e) (hs : s.Covered P) :
    ∃ cited, Names s.store.inferences e.parents cited ∧
      Follows P s.arbitrary (s.store.inferences.map Inference.formula) e.step
        (cited.map Inference.step) (cited.map Inference.formula) e.formula := by
  cases h with
  | assumed h => exact ⟨[], .nil, .assumed h⟩
  | inferred hi h =>
    obtain ⟨cited, hcited, rfl⟩ := hi.exists_names
    exact ⟨cited, hcited, .inferred h⟩
  | introduced hi h =>
    obtain ⟨cited, hcited, rfl⟩ := hi.exists_names
    rw [hs.conclusion] at h ⊢
    exact ⟨cited, hcited, .introduced h⟩
  | instantiated hi hx hc =>
    obtain ⟨d, hd, hf⟩ := hi
    refine ⟨[d], .cons hd .nil, ?_⟩
    rw [List.map_singleton, List.map_singleton, hf]
    exact .instantiated hx
  | witnessed hi hx hc hnew hfresh =>
    obtain ⟨d, hd, hf⟩ := hi
    refine ⟨[d], .cons hd .nil, ?_⟩
    rw [List.map_singleton, List.map_singleton, hf]
    refine .witnessed hx hnew.1 hnew.2 fun g hg => ?_
    obtain ⟨e, he, rfl⟩ := List.mem_map.1 hg
    obtain ⟨j, hj⟩ := List.mem_iff_getElem?.1 he
    exact hfresh j e.formula ⟨e, hj, rfl⟩
  | generalized hf hc hi h =>
    obtain ⟨d, hd, rfl⟩ := hi
    refine ⟨[d], .cons hd .nil, ?_⟩
    rw [hs.conclusion] at hf ⊢
    exact .generalized hf hc h

theorem Search.Move.grounded (h : Move P s s') (hs : s.Covered P)
    (hg : Grounded P s.arbitrary s.store.inferences) :
    Grounded P s'.arbitrary s'.store.inferences := by
  cases h with
  | rest h =>
    rw [h.arbitrary, h.inferences]
    exact hg
  | derive hlt h =>
    obtain ⟨cited, hcited, hfollows⟩ := h.follows hs
    show Grounded P s.arbitrary (s.store.push _ _ _ hlt).inferences
    rw [Derivations.inferences_push]
    exact hg.concat hcited hfollows
  | seed hempty =>
    -- no constant is known, so none is in what has been derived
    intro i e he
    obtain ⟨cited, hcited, hfollows⟩ := hg i e he
    refine ⟨cited, hcited, hfollows.mono (List.Subset.refl _) (fun c hc => ?_) fun c hc _ => ?_⟩
    · exact Symbols.mem_insert.2 (.inr hc)
    · exact absurd (hs.derived i e.formula ⟨e, he, rfl⟩ c hc) (Symbols.isEmpty_iff.1 hempty c)
  | find _ _ => exact hg
  | learn _ => exact hg
  | exhaust => exact hg

/-- All that a search derives follows. -/
theorem Search.Moves.grounded (h : Moves P s s') (hs : s.Covered P)
    (hg : Grounded P s.arbitrary s.store.inferences) :
    Grounded P s'.arbitrary s'.store.inferences := by
  induction h with
  | refl => exact hg
  | tail hmoves h ih => exact h.grounded (Moves.covered hmoves hs) ih

theorem grounded_start (P : Problem) (limit : Nat) :
    Grounded P (start P.premises P.conclusion limit).arbitrary
      (start P.premises P.conclusion limit).store.inferences := by
  intro i e he
  cases he

/-! ## Lines -/

namespace Line

/-- Whether a line is the one of a number, counted from 1. -/
def IsAt (lines : List Line) (n : Nat) (l : Line) : Prop := 0 < n ∧ lines[n - 1]? = some l

/-- Whether a line applies its rule, in some order, to lines above it. -/
def Follows (P : Problem) (arbitrary : Symbols) (above : List Line) (l : Line) : Prop :=
  ∃ ns cited, ns.Perm l.parents ∧ List.Forall₂ (IsAt above) ns cited ∧
    Sequitur.Follows P arbitrary (above.map Line.formula) l.step (cited.map Line.step)
      (cited.map Line.formula) l.formula

end Line

section Numbered

variable {kept : List Nat} {lines : List Line} {i k : Nat} {l : Line}

/-- What stands above a line was derived before it. -/
theorem Numbered.above_subset (h : Numbered es kept lines) (hkept : kept.Pairwise (· < ·))
    (hk : kept[k]? = some i) :
    (lines.take k).map Line.formula ⊆ (es.take i).map Inference.formula := by
  intro f hf
  obtain ⟨l, hl, rfl⟩ := List.mem_map.1 hf
  obtain ⟨j, hj⟩ := List.mem_iff_getElem?.1 hl
  obtain ⟨hjk, hj⟩ : j < k ∧ lines[j]? = some l := by
    rw [List.getElem?_take] at hj
    split at hj
    · next hlt => exact ⟨hlt, hj⟩
    · cases hj
  obtain ⟨p, e, hp, he, rfl⟩ := h.exists_inference hj
  have hlt : p < i := lt_of_getElem? hkept hp hk hjk
  refine List.mem_map.2 ⟨e, List.mem_of_getElem? (i := p) ?_, rfl⟩
  rw [List.getElem?_take_of_lt hlt, he]

/-- What is kept of what follows still does, under its numbers. -/
theorem Numbered.follows (h : Numbered es kept lines) (hg : Grounded P arbitrary es)
    (hkept : kept.Pairwise (· < ·))
    (hclosed : ∀ i ∈ kept, ∀ e, es[i]? = some e → ∀ p ∈ e.parents, p ∈ kept ∧ p < i)
    (hl : lines[k]? = some l) : l.Follows P arbitrary (lines.take k) := by
  obtain ⟨i, e, hi, he, rfl⟩ := h.exists_inference hl
  obtain ⟨cited, hcited, hfollows⟩ := hg i e he
  have hparents := hclosed i (List.mem_of_getElem? hi) e he
  refine ⟨e.parents.map fun p => kept.idxOf p + 1, cited.map (Inference.line kept), ?_, ?_, ?_⟩
  · exact (List.mergeSort_perm _ _).symm
  · rw [List.forall₂_map_left_iff, List.forall₂_map_right_iff]
    refine List.Forall₂.imp ?_ ((List.forall₂_and_left _ _).2 ⟨hparents, hcited⟩)
    rintro p c ⟨⟨hp, hlt⟩, hc⟩
    refine ⟨Nat.succ_pos _, ?_⟩
    rw [Nat.add_sub_cancel, List.getElem?_take_of_lt (idxOf_lt_of_lt hkept hp hi hlt)]
    exact h.getElem?_idxOf hp hc
  · rw [List.map_map, List.map_map]
    exact hfollows.mono (h.above_subset hkept hi) (fun _ => id) fun _ _ => id

end Numbered

/-! ## Proofs -/

/-- The conclusion, repeated from a premise, follows like the rest. -/
theorem Derive.Completes.grounded {found : Nat} {f : Formula} {store : Derivations}
    (h : Completes s found store) (hg : Grounded P s.arbitrary s.store.inferences)
    (hs : s.Covered P) (hf : s.Has found f)
    (hlike : f.structurallyEquals s.conclusion.formula) :
    Grounded P s.arbitrary store.inferences := by
  rcases h with rfl | ⟨e, he, hstep, hstore⟩
  · exact hg
  · obtain ⟨e', he', rfl⟩ := hf
    obtain rfl : e = e' := Option.some.inj (he.symm.trans he')
    rw [hs.conclusion] at hlike hstore
    rw [hstore]
    refine hg.concat (List.Forall₂.cons he .nil : Names _ [found] [e]) ?_
    rw [List.map_singleton, List.map_singleton, hstep]
    exact .repeated (.inl hlike)

/-- Every line of a proof is an assumption of the argument, or repeats a premise as the conclusion, or
applies its rule to lines above it. -/
theorem Context.prove_follows (ctx : Context) (premises : List Formula) (conclusion : Formula)
    (kind : ProofType) (lines : List Line)
    (h : (ctx.prove premises conclusion kind).2 = .ok (some lines)) :
    ∃ arbitrary : Symbols,
      (∀ c ∈ arbitrary, c ∉ conclusion.constants ∧ ∀ p ∈ premises, c ∉ p.constants) ∧
      ∀ (k : Nat) (l : Line), lines[k]? = some l →
        l.Follows ⟨premises, conclusion, kind⟩ arbitrary (lines.take k) := by
  obtain ⟨limit, s, s', i, hmoves, hfound, hfinish⟩ :=
    exists_finish_of_prove (P := ⟨premises, conclusion, kind⟩) h
  have hstart := covered_start ⟨premises, conclusion, kind⟩ limit
  have hs := hmoves.covered hstart
  have hg := hmoves.grounded hstart (grounded_start _ limit)
  obtain ⟨f, hf, hlike⟩ := hmoves.located (fun _ hi => nomatch hi) i hfound
  obtain ⟨lines', s'', store, last, hfinish', hcompletes, hnumbered⟩ := Derive.finish_ok hf
  obtain ⟨rfl, -⟩ := EStateM.Result.ok.inj (hfinish.symm.trans hfinish')
  refine ⟨s.arbitrary, fun c hc => ?_, fun k l hl => ?_⟩
  · have hnew := (hs.arbitrary c hc).2
    rw [Problem.mem_constants] at hnew
    exact ⟨fun hc => hnew (.inl hc), fun p hp hc => hnew (.inr ⟨p, hp, hc⟩)⟩
  · obtain ⟨wanted, hpruned⟩ := store.pruned_ancestorsOf last
    exact hnumbered.follows (hcompletes.grounded hg hs hf hlike) hpruned.ascending
      (fun i hi e he p hp => Derivations.mem_ancestorsOf_of_parent hi he hp) hl

/-- That all are `G` if all are `F` and `G` is proved by an instance, a conjunct and a generalization.
-/
theorem Context.prove_follows_generalization :
    ∃ lines, (({} : Context).prove
        [.all 'x' (.and (.predicate 'F' [.var 'x']) (.predicate 'G' [.var 'x']))]
        (.all 'y' (.predicate 'G' [.var 'y'])) .direct).2 = .ok (some lines) ∧
      lines.map Line.step = [.premise, .universalElimination, .conjunctionElimination,
        .universalIntroduction] ∧
      ∃ arbitrary : Symbols, ∀ (k : Nat) (l : Line), lines[k]? = some l → l.Follows
        ⟨[.all 'x' (.and (.predicate 'F' [.var 'x']) (.predicate 'G' [.var 'x']))],
          .all 'y' (.predicate 'G' [.var 'y']), .direct⟩ arbitrary (lines.take k) := by
  have h : (({} : Context).prove
      [.all 'x' (.and (.predicate 'F' [.var 'x']) (.predicate 'G' [.var 'x']))]
      (.all 'y' (.predicate 'G' [.var 'y'])) .direct).2.toOption.join.map (List.map Line.step) =
        some [.premise, .universalElimination, .conjunctionElimination, .universalIntroduction] := by
    decide +kernel
  obtain ⟨lines, hlines, hsteps⟩ := Option.map_eq_some_iff.1 h
  have hprove := eq_ok_of_join hlines
  obtain ⟨arbitrary, -, hfollows⟩ := prove_follows {} _ _ .direct lines hprove
  exact ⟨lines, hprove, hsteps, arbitrary, hfollows⟩

end Sequitur
