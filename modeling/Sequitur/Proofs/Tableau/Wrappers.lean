import Sequitur.Proofs.Canonical.Equality
import Sequitur.Proofs.Tableau.Requeueing

/-!
# Wrappers inside a formula

A wrapper does not show in the canonical form. So when the rule for a wrapped formula is to place its
content, the branch is found to contain that already, and the content never comes to stand on it. A
formula that is denied is opened through its wrappers, unless it is atomic. `Formula.unwraps` says
whether all wrappers of a formula come off in this way.

Where they do, a saturated branch stays saturated when they are taken off (`Path.Unwrapped.finished_bare`),
and so an open branch has a model. Hence two verdicts on a sentence, with wrappers and without, oppose
each other only if a wrapper stays on, or for the reasons for which the tableaux of sentences without
wrappers mislead as well (`Context.opposite_verdicts_of_bare`). As there, what opposite verdicts say of
truth is said of `Interpretation.Reads`, and of truth proper if no quantifier repeats a variable.
-/

namespace Sequitur

open Tableau Expand Expansion

universe u

namespace Formula

/-! ## Taking wrappers off -/

/-- The formula with all wrappers taken off. -/
def bare : Formula → Formula
  | .not p => .not p.bare
  | .binary op p q => .binary op p.bare q.bare
  | .quantified k x p => .quantified k x p.bare
  | .root p => p.bare
  | f => f

theorem bare_unrooted (f : Formula) : f.unrooted.bare = f.bare := by
  induction f with
  | root p ih => exact ih
  | _ => rfl

theorem unrooted_bare (f : Formula) : f.bare.unrooted = f.bare := by
  induction f with
  | root p ih => exact ih
  | _ => rfl

theorem isAtomic_bare (f : Formula) : f.bare.isAtomic = f.unrooted.isAtomic := by
  induction f with
  | root p ih => exact ih
  | _ => rfl

theorem plain_bare (f : Formula) : f.bare.plain = f.plain := by
  induction f with
  | not p ih => exact congrArg Formula.not ih
  | binary op p q hp hq => rw [bare, plain, plain, hp, hq]
  | quantified k x p ih => rw [bare, plain, plain, ih]
  | root p ih => exact ih
  | _ => rfl

theorem terms_bare (f : Formula) : f.bare.terms = f.terms := by
  rw [← terms_plain, plain_bare, terms_plain]

theorem mem_constants_bare {f : Formula} {c : Char} : c ∈ f.bare.constants ↔ c ∈ f.constants := by
  rw [mem_constants_iff, mem_constants_iff, terms_bare]

theorem mentions_bare (f : Formula) (c : Char) : f.bare.mentions c = f.mentions c := by
  rw [mentions, mentions, terms_bare]

theorem wellFormed_bare {scope : Finset Char} {f : Formula} :
    f.bare.WellFormed scope ↔ f.WellFormed scope := by
  induction f generalizing scope with
  | not p ih => exact ih
  | binary op p q hp hq => exact and_congr hp hq
  | quantified k x p ih => exact and_congr_right fun _ => ih
  | root p ih => exact ih
  | _ => exact Iff.rfl

theorem unrepeated_bare {scope : Finset Char} {f : Formula} :
    f.bare.Unrepeated scope ↔ f.Unrepeated scope := by
  induction f generalizing scope with
  | not p ih => exact ih
  | binary op p q hp hq => exact and_congr hp hq
  | quantified k x p ih => exact and_congr_right fun _ => ih
  | root p ih => exact ih
  | _ => exact Iff.rfl

theorem lacks_bare {k : Kind} (hk : k ≠ .root) {f : Formula} : f.bare.Lacks k ↔ f.Lacks k := by
  induction f with
  | not p ih => simp only [bare, lacks_iff (f := .not _), children, List.forall_mem_singleton, ih, kind]
  | binary op p q hp hq =>
    simp only [bare, lacks_iff (f := .binary _ _ _), children, List.forall_mem_cons, hp, hq, kind]
  | quantified q x p ih =>
    simp only [bare, lacks_iff (f := .quantified _ _ _), children, List.forall_mem_singleton, ih, kind]
  | root p ih =>
    rw [bare, ih, lacks_iff (f := .root p), children, List.forall_mem_singleton]
    exact (and_iff_right fun h => hk h.symm).symm
  | _ => exact Iff.rfl

theorem lacks_unrooted {k : Kind} (hk : k ≠ .root) {f : Formula} : f.unrooted.Lacks k ↔ f.Lacks k := by
  rw [← lacks_bare hk, bare_unrooted, lacks_bare hk]

theorem IsTermIn.lacks_root {scope : Finset Char} {t : Formula} (h : t.IsTermIn scope) :
    t.Lacks .root := by
  cases t with
  | term k s =>
    rw [lacks_iff]
    exact ⟨by cases k <;> exact Kind.noConfusion, fun g hg => absurd hg List.not_mem_nil⟩
  | _ => exact h.elim

theorem WellFormed.lacks_root_bare {scope : Finset Char} {f : Formula} (h : f.WellFormed scope) :
    f.bare.Lacks .root := by
  have hlacks := inherited_lacks (k := .root) (.inl rfl)
  induction f generalizing scope with
  | atom s => exact lacks_iff.2 ⟨Kind.noConfusion, fun g hg => absurd hg List.not_mem_nil⟩
  | falsum => exact lacks_iff.2 ⟨Kind.noConfusion, fun g hg => absurd hg List.not_mem_nil⟩
  | term k s => exact h.elim
  | predicate s ps _ => exact lacks_iff.2 ⟨Kind.noConfusion, fun g hg => (h.2 g hg).lacks_root⟩
  | identity p q _ _ =>
    refine lacks_iff.2 ⟨Kind.noConfusion, ?_⟩
    exact List.forall_mem_cons.2 ⟨h.1.lacks_root, List.forall_mem_singleton.2 h.2.lacks_root⟩
  | not p ih => exact hlacks.not.2 (ih h)
  | root p ih => exact ih h
  | binary op p q hp hq => exact hlacks.binary.2 ⟨hp h.1, hq h.2⟩
  | quantified k x p ih =>
    refine lacks_iff.2 ⟨by cases k <;> exact Kind.noConfusion, ?_⟩
    exact List.forall_mem_singleton.2 (ih h.2)

theorem bare_substitute (a b : Char) (k : TermKind) (f : Formula) :
    (f.substitute a b k).bare = f.bare.substitute a b k := by
  induction f with
  | not p ih => simp only [substitute, bare, ih]
  | binary op p q hp hq => simp only [substitute, bare, hp, hq]
  | quantified l x p ih => simp only [substitute, bare, ih]
  | root p ih => simp only [substitute, bare, ih]
  | term l s =>
    rw [show (term l s).bare = term l s from rfl, substitute]
    split <;> rfl
  | _ => rfl

theorem bare_flip (f : Formula) : f.flip.bare = f.bare.flip := by
  induction f with
  | root p ih => exact ih
  | binary op p q _ _ => cases op <;> rfl
  | quantified k x p _ => cases k <;> rfl
  | _ => rfl

/-! ## Wrappers that come off -/

/-- Whether a tableau takes off all wrappers of a formula that it has affirmed, or denied. It takes off
none from what is affirmed, and of what is denied only those around what is not atomic. -/
def unwraps (denied : Bool) : Formula → Bool
  | .not p => p.unwraps (!denied)
  | .binary .and p q | .binary .or p q => p.unwraps denied && q.unwraps denied
  | .binary .implies p q => p.unwraps (!denied) && q.unwraps denied
  | .binary .iff p q | .binary .xor p q =>
    p.unwraps false && p.unwraps true && (q.unwraps false && q.unwraps true)
  | .quantified _ _ p => p.unwraps denied
  | .root p => denied && !p.unrooted.isAtomic && p.unwraps denied
  | .atom _ | .predicate _ _ | .term _ _ | .identity _ _ | .falsum => true

theorem unwraps_bare (f : Formula) (denied : Bool) : f.bare.unwraps denied = true := by
  induction f generalizing denied with
  | not p ih => exact ih (!denied)
  | binary op p q hp hq => cases op <;> simp only [bare, unwraps, hp, hq, Bool.and_self]
  | quantified k x p ih => exact ih denied
  | root p ih => exact ih denied
  | _ => rfl

theorem isAtomic_substitute (a b : Char) (k : TermKind) (f : Formula) :
    (f.substitute a b k).isAtomic = f.isAtomic := by
  cases f with
  | term l s =>
    rw [substitute]
    split <;> rfl
  | _ => rfl

theorem unrooted_substitute (a b : Char) (k : TermKind) (f : Formula) :
    (f.substitute a b k).unrooted = f.unrooted.substitute a b k := by
  induction f with
  | root p ih => exact ih
  | term l s =>
    rw [show (term l s).unrooted = term l s from rfl, substitute]
    split <;> rfl
  | _ => rfl

theorem unwraps_substitute (a b : Char) (k : TermKind) (f : Formula) (denied : Bool) :
    (f.substitute a b k).unwraps denied = f.unwraps denied := by
  induction f generalizing denied with
  | not p ih => exact ih (!denied)
  | binary op p q hp hq => cases op <;> simp only [substitute, unwraps, hp, hq]
  | quantified l x p ih => exact ih denied
  | root p ih =>
    simp only [substitute, unwraps, ih, unrooted_substitute, isAtomic_substitute]
  | term l s =>
    rw [substitute]
    split <;> rfl
  | _ => rfl

/-- What is denied may as well be affirmed in its flipped form. -/
theorem unwraps_flip {f : Formula} (h : f.unwraps true) : f.flip.unwraps false := by
  induction f with
  | root p ih =>
    simp only [unwraps, Bool.and_eq_true] at h
    exact ih h.2
  | binary op p q _ _ =>
    cases op <;> simp only [flip, unwraps, Bool.and_eq_true, Bool.not_true, Bool.not_false] at h ⊢ <;>
      tauto
  | quantified k x p _ => cases k <;> exact h
  | _ => exact h

theorem unwraps_negationParts {p : Formula} (h : p.unwraps true) :
    ∀ g ∈ p.decomposeNegation.parts, g.unwraps false := by
  have hflip : ∀ g ∈ [p.flip], g.unwraps false := List.forall_mem_singleton.2 (unwraps_flip h)
  have hnone : ∀ g ∈ ([] : List Formula), g.unwraps false := fun g hg => absurd hg List.not_mem_nil
  cases p with
  | atom s => exact hnone
  | predicate s ps => exact hnone
  | identity p q => exact hnone
  | falsum => exact hnone
  | binary op p q =>
    cases op with
    | and => exact hflip
    | or => exact hflip
    | _ =>
      simp only [unwraps, Bool.and_eq_true, Bool.not_true] at h
      simp only [decomposeNegation_implies, decomposeNegation_iff, decomposeNegation_xor,
        Decomposition.parts, List.forall_mem_append, List.forall_mem_cons, unwraps, Bool.not_false]
      tauto
  | _ => exact hflip

/-- The rules hand down that all wrappers come off. -/
theorem unwraps_parts {f : Formula} (h : f.unwraps false) :
    ∀ g ∈ f.decompose.parts, g.unwraps false := by
  have hnone : ∀ g ∈ ([] : List Formula), g.unwraps false := fun g hg => absurd hg List.not_mem_nil
  cases f with
  | not p => exact unwraps_negationParts h
  | root p => exact absurd h Bool.false_ne_true
  | binary op p q =>
    cases op <;> simp only [unwraps, Bool.and_eq_true, Bool.not_false] at h <;>
      simp only [decompose, Decomposition.parts, List.forall_mem_append, List.forall_mem_cons, unwraps,
        Bool.not_false, h, and_self, true_and] <;> exact hnone
  | quantified k x p =>
    by_cases hx : p.mentions x
    · rw [decompose_of_mentions hx]
      cases k <;> exact hnone
    · rw [decompose_of_not_mentions hx]
      exact List.forall_mem_singleton.2 h
  | identity p q =>
    rcases decompose_identity p q with he | he | ⟨a, b, -, -, he⟩ <;> rw [he] <;> exact hnone
  | _ => exact hnone

end Formula

theorem Interpretation.reads_bare {D : Type u} (I : Interpretation D) (bound : Finset Char)
    (v : Char → D) (f : Formula) : I.Reads bound v f.bare ↔ I.Reads bound v f := by
  rw [← I.reads_plain, Formula.plain_bare, I.reads_plain]

/-- The rule without the wrappers of what it gives. -/
def Decomposition.bare : Decomposition → Decomposition
  | .stack fs => .stack (fs.map Formula.bare)
  | .split left lefts right rights =>
    .split left.bare (lefts.map Formula.bare) right.bare (rights.map Formula.bare)
  | .witness x p => .witness x p.bare
  | .instances x p => .instances x p.bare
  | .nothing => .nothing
  | .replace a b => .replace a b
  | .unexpected => .unexpected

/-- Unless it is itself wrapped, or denies what is wrapped, a formula has the rule that it has without
wrappers. -/
theorem Formula.decompose_bare {f : Formula} (hroot : ∀ p, f ≠ .root p)
    (hdenied : ∀ p, f ≠ .not (.root p)) : f.bare.decompose = f.decompose.bare := by
  cases f with
  | root p => exact absurd rfl (hroot p)
  | not p =>
    cases p with
    | root p => exact absurd rfl (hdenied p)
    | binary op p q => cases op <;> rfl
    | quantified k x p => cases k <;> rfl
    | _ => rfl
  | binary op p q => cases op <;> rfl
  | quantified k x p =>
    by_cases hx : p.mentions x
    · rw [decompose_of_mentions hx, bare, decompose_of_mentions (by rwa [mentions_bare])]
      cases k <;> rfl
    · rw [decompose_of_not_mentions hx, bare, decompose_of_not_mentions (by rwa [mentions_bare])]
      rfl
  | identity p q =>
    rcases decompose_identity p q with he | he | ⟨a, b, -, -, he⟩ <;> rw [he] <;> exact he
  | _ => rfl

theorem Formula.handsDown_unwraps : Formula.HandsDown fun f => f.unwraps false where
  parts := Formula.unwraps_parts
  instantiate h := by
    rw [Formula.unwraps_substitute]
    exact h
  substitute a b h := by
    rw [Formula.unwraps_substitute]
    exact h

/-! ## Branches without their wrappers -/

namespace Path

variable {p : Path} {f g a b : Formula}

/-- The branch with all wrappers taken off. -/
def bare (p : Path) : Path := ⟨p.formulas.map Formula.bare, p.constants⟩

/-- Whether the formula is on the branch, wrapped or not. -/
def Displays (p : Path) (g : Formula) : Prop := ∃ e ∈ p.formulas, e.plain = g.plain

theorem Displays.of_plain (h : p.Displays f) (hfg : f.plain = g.plain) : p.Displays g := by
  obtain ⟨e, he, hef⟩ := h
  exact ⟨e, he, hef.trans hfg⟩

/-- Whether the branch is one of sentences without identities, from which all wrappers come off, and
has what the rules call for. -/
structure Unwrapped (p : Path) : Prop where
  formed : p.Formed
  relational : ∀ f ∈ p.formulas, f.Lacks .identity
  unwraps : ∀ f ∈ p.formulas, f.unwraps false
  saturated : p.Saturated

namespace Unwrapped

variable (h : p.Unwrapped)

include h

theorem displays (hg : g.Sentence) (hcontains : p.contains g) : p.Displays g := by
  obtain ⟨e, he, hequal⟩ := contains_iff.1 hcontains
  rcases Formula.plain_of_structurallyEquals (h.formed.sentence e he).lettered hg.lettered hequal with
    hplain | ⟨e', hcommuted, -⟩
  · exact ⟨e, he, hplain⟩
  · -- only an identity, or a denied one, can be turned round
    have hlacks := h.relational e he
    obtain ⟨t, u, ⟨rfl, -⟩ | ⟨rfl, -⟩⟩ := Formula.exchanges_iff.2 hcommuted
    · exact absurd rfl hlacks.kind_ne
    · exact absurd rfl (hlacks.of_mem_children (List.mem_singleton_self _)).kind_ne

theorem contains_bare (hg : g.Sentence) (hdisplays : p.Displays g) : p.bare.contains g.bare := by
  obtain ⟨e, he, hplain⟩ := hdisplays
  refine contains_iff.2 ⟨e.bare, List.mem_map_of_mem he, ?_⟩
  have hcanonical : e.bare.canonical = g.bare.canonical := by
    refine (Formula.canonical_eq_iff ?_ ?_).2 ?_
    · exact (Formula.wellFormed_bare.2 (h.formed.sentence e he)).lettered
    · exact (Formula.wellFormed_bare.2 hg).lettered
    · rw [Formula.plain_bare, Formula.plain_bare, hplain]
  rw [Formula.structurallyEquals, hcanonical, beq_self_eq_true, Bool.true_or]

/-- A connective that is displayed is on the branch itself. -/
theorem exists_binary {op : Connective} (hdisplays : p.Displays (.binary op a b)) :
    ∃ a' b', .binary op a' b' ∈ p.formulas ∧ a'.plain = a.plain ∧ b'.plain = b.plain := by
  obtain ⟨e, he, hplain⟩ := hdisplays
  cases e with
  | binary op' a' b' =>
    obtain ⟨rfl, ha, hb⟩ := Formula.binary.inj hplain
    exact ⟨a', b', he, ha, hb⟩
  | root e => exact absurd (h.unwraps _ he) Bool.false_ne_true
  | predicate s ps => cases ps <;> cases hplain
  | _ => cases hplain

theorem displays_and (hdisplays : p.Displays (.and a b)) : p.Displays a ∧ p.Displays b := by
  obtain ⟨a', b', hmem, ha, hb⟩ := h.exists_binary hdisplays
  have hs := h.formed.sentence _ hmem
  have hmeets := h.saturated _ hmem
  exact ⟨(h.displays hs.1 (hmeets a' List.mem_cons_self)).of_plain ha,
    (h.displays hs.2 (hmeets b' (List.mem_cons_of_mem _ List.mem_cons_self))).of_plain hb⟩

theorem displays_or (hdisplays : p.Displays (.or a b)) : p.Displays a ∨ p.Displays b := by
  obtain ⟨a', b', hmem, ha, hb⟩ := h.exists_binary hdisplays
  have hs := h.formed.sentence _ hmem
  refine (h.saturated _ hmem).imp (fun hleft => ?_) fun hright => ?_
  · exact (h.displays hs.1 (hleft a' List.mem_cons_self)).of_plain ha
  · exact (h.displays hs.2 (hright b' List.mem_cons_self)).of_plain hb

theorem displays_iff (hdisplays : p.Displays (.iff a b)) :
    p.Displays a ∧ p.Displays b ∨ p.Displays (.not a) ∧ p.Displays (.not b) := by
  obtain ⟨a', b', hmem, ha, hb⟩ := h.exists_binary hdisplays
  have hs := h.formed.sentence _ hmem
  refine (h.saturated _ hmem).imp (fun hleft => ?_) fun hright => ?_
  · exact ⟨(h.displays hs.1 (hleft a' List.mem_cons_self)).of_plain ha,
      (h.displays hs.2 (hleft b' (List.mem_cons_of_mem _ List.mem_cons_self))).of_plain hb⟩
  · have ha' : p.Displays (.not a') := h.displays hs.1 (hright _ List.mem_cons_self)
    have hb' : p.Displays (.not b') :=
      h.displays hs.2 (hright _ (List.mem_cons_of_mem _ List.mem_cons_self))
    exact ⟨ha'.of_plain (congrArg Formula.not ha), hb'.of_plain (congrArg Formula.not hb)⟩

/-- Where the flipped form of a formula is displayed, the bare branch meets the rule for its denial:
what that rule calls for at once, the rules for the flipped form have brought. -/
theorem meets_negation (hs : f.Sentence) (hunwraps : f.unwraps true) (hatomic : ¬f.unrooted.isAtomic)
    (hdisplays : p.Displays f.flip) : p.bare.Meets f.bare.decomposeNegation := by
  have hflip := h.contains_bare (Formula.hereditary_sentence.flip hs) hdisplays
  induction f with
  | root q ih =>
    simp only [Formula.unwraps, Bool.and_eq_true] at hunwraps
    exact ih hs hunwraps.2 hatomic hdisplays hflip
  | atom s => exact absurd rfl hatomic
  | predicate s ps => exact absurd rfl hatomic
  | identity t u => exact absurd rfl hatomic
  | term k s => exact hs.elim
  | falsum => exact trivial
  | not q => exact List.forall_mem_singleton.2 hflip
  | quantified k x q =>
    rw [Formula.bare_flip] at hflip
    exact List.forall_mem_singleton.2 hflip
  | binary op a b =>
    have ha : (Formula.not a).Sentence := hs.1
    have hb : (Formula.not b).Sentence := hs.2
    cases op with
    | and => exact List.forall_mem_singleton.2 hflip
    | or => exact List.forall_mem_singleton.2 hflip
    | implies =>
      obtain ⟨hda, hdb⟩ := h.displays_and hdisplays
      exact List.forall_mem_cons.2 ⟨h.contains_bare hs.1 hda,
        List.forall_mem_singleton.2 (h.contains_bare hb hdb)⟩
    | iff =>
      refine (h.displays_or hdisplays).imp (fun hleft => ?_) fun hright => ?_
      · obtain ⟨hda, hdb⟩ := h.displays_and hleft
        exact List.forall_mem_cons.2 ⟨h.contains_bare hs.1 hda,
          List.forall_mem_singleton.2 (h.contains_bare hb hdb)⟩
      · obtain ⟨hda, hdb⟩ := h.displays_and hright
        exact List.forall_mem_cons.2 ⟨h.contains_bare ha hda,
          List.forall_mem_singleton.2 (h.contains_bare hs.2 hdb)⟩
    | xor =>
      refine (h.displays_iff hdisplays).imp (fun hleft => ?_) fun hright => ?_
      · exact List.forall_mem_cons.2 ⟨h.contains_bare hs.1 hleft.1,
          List.forall_mem_singleton.2 (h.contains_bare hs.2 hleft.2)⟩
      · exact List.forall_mem_cons.2 ⟨h.contains_bare ha hright.1,
          List.forall_mem_singleton.2 (h.contains_bare hb hright.2)⟩

theorem meets_decompose_bare (hs : f.Sentence) (hmeets : p.Meets f.decompose) :
    p.bare.Meets f.decompose.bare := by
  have hpart : ∀ {g : Formula}, g.Sentence → p.contains g → p.bare.contains g.bare :=
    fun hg hcontains => h.contains_bare hg (h.displays hg hcontains)
  have hparts : ∀ {gs}, gs ⊆ f.decompose.parts → (∀ g ∈ gs, p.contains g) →
      ∀ g ∈ gs.map Formula.bare, p.bare.contains g := by
    intro gs hsub hgs
    rw [List.forall_mem_map]
    exact fun g hg => hpart (hs.parts (hsub hg)) (hgs g hg)
  have hinstance : ∀ {k x body c}, f = .quantified k x body → c ∈ p.constants →
      p.contains (body.substitute x c .const) →
      p.bare.contains (body.bare.substitute x c .const) := by
    rintro k x body c rfl hc hcontains
    rw [← Formula.bare_substitute]
    exact hpart (hs.instantiate (h.formed.symbol c hc)) hcontains
  cases hd : f.decompose with
  | stack fs =>
    rw [hd] at hmeets hparts
    exact hparts (List.Subset.refl _) hmeets
  | split left lefts right rights =>
    rw [hd] at hmeets hparts
    exact hmeets.imp (hparts (List.subset_append_left _ _)) (hparts (List.subset_append_right _ _))
  | witness x body =>
    rw [hd] at hmeets
    obtain ⟨c, hc, hcontains⟩ := hmeets
    exact ⟨c, hc, hinstance (Formula.eq_of_decompose_witness hd).1 hc hcontains⟩
  | instances x body =>
    rw [hd] at hmeets
    exact ⟨hmeets.1, fun c hc =>
      hinstance (Formula.eq_of_decompose_instances hd).1 hc (hmeets.2 c hc)⟩
  | _ => exact trivial

theorem meets_bare (hf : f ∈ p.formulas) : p.bare.Meets f.bare.decompose := by
  have hs := h.formed.sentence f hf
  have hunwraps := h.unwraps f hf
  have hmeets := h.saturated f hf
  by_cases hdenied : ∃ q, f = .not (.root q)
  · obtain ⟨q, rfl⟩ := hdenied
    simp only [Formula.unwraps, Bool.not_false, Bool.true_and, Bool.and_eq_true] at hunwraps
    refine h.meets_negation (f := q) hs hunwraps.2 (by simpa using hunwraps.1) ?_
    exact h.displays (Formula.hereditary_sentence.flip (f := q) hs)
      (hmeets q.flip (List.mem_singleton_self _))
  · rw [Formula.decompose_bare ?_ fun q hq => hdenied ⟨q, hq⟩]
    · exact h.meets_decompose_bare hs hmeets
    · rintro q rfl
      exact absurd hunwraps Bool.false_ne_true

/-- Nothing on the bare branch is atomic, or denies what is, that was wrapped before. -/
theorem mem_of_bare (hf : f ∈ p.bare.formulas) (hatomic : f.isAtomic ∨ f = .falsum) :
    f ∈ p.formulas := by
  obtain ⟨e, he, rfl⟩ := List.mem_map.1 hf
  cases e with
  | root e => exact absurd (h.unwraps _ he) Bool.false_ne_true
  | not e => rcases hatomic with hatomic | hatomic <;> cases hatomic
  | binary op a b => rcases hatomic with hatomic | hatomic <;> cases hatomic
  | quantified k x q => rcases hatomic with hatomic | hatomic <;> cases hatomic
  | _ => exact he

theorem not_mem_of_bare (hf : .not f ∈ p.bare.formulas) (hatomic : f.isAtomic) :
    .not f ∈ p.formulas := by
  obtain ⟨e, he, hbare⟩ := List.mem_map.1 hf
  have hunwraps := h.unwraps e he
  cases e with
  | root e => exact absurd hunwraps Bool.false_ne_true
  | not e =>
    obtain rfl := Formula.not.inj hbare
    cases e with
    | root e =>
      simp only [Formula.unwraps, Bool.and_eq_true, Bool.not_eq_true'] at hunwraps
      rw [Formula.isAtomic_bare] at hatomic
      exact absurd (hatomic.symm.trans hunwraps.1.2) (by decide)
    | not e => cases hatomic
    | binary op a b => cases hatomic
    | quantified k x q => cases hatomic
    | _ => exact he
  | _ => cases hbare

theorem finished_bare (hopen : p.isClosed = false) : p.bare.Finished where
  formed := by
    refine ⟨List.forall_mem_map.2 fun f hf => ?_, List.forall_mem_map.2 fun f hf c hc => ?_,
      h.formed.symbol⟩
    · exact Formula.wellFormed_bare.2 (h.formed.sentence f hf)
    · exact h.formed.covers f hf c (Formula.mem_constants_bare.1 hc)
  unwrapped := List.forall_mem_map.2 fun f hf => (h.formed.sentence f hf).lacks_root_bare
  saturated := List.forall_mem_map.2 fun f hf => h.meets_bare hf
  isOpen := by
    rw [Bool.eq_false_iff] at hopen ⊢
    intro hclosed
    rcases isClosed_iff.1 hclosed with hfalsum | ⟨g, hg, htrivial⟩ | ⟨f, g, hf, hg, hfa, hga, hequal⟩
    · exact hopen (isClosed_iff.2 (.inl (h.mem_of_bare hfalsum (.inr rfl))))
    · have hatomic : g.isAtomic := by cases g <;> first | rfl | cases htrivial
      exact hopen (isClosed_iff.2 (.inr (.inl ⟨g, h.not_mem_of_bare hg hatomic, htrivial⟩)))
    · exact hopen (isClosed_iff.2 (.inr (.inr ⟨f, g, h.mem_of_bare hf (.inl hfa),
        h.not_mem_of_bare hg hga, hfa, hga, hequal⟩)))

end Unwrapped

end Path

/-! ## Verdicts -/

namespace Context

/-- If the tableau of a sentence from which all wrappers come off is left open, some structure makes the
sentence true as the rules read it, unless it has identities or its universal formulas may have missed
a constant. -/
theorem exists_reads_of_unwraps {f : Formula} (hf : f.Sentence) (hunwraps : f.unrooted.unwraps false)
    (hidentity : f.Lacks .identity) {ctx : Context}
    (hwake : ctx.settings.requeueUniversals.value ∨ f.QuantifierFree)
    (h : (ctx.buildTableau f).1.report = .unclosed) :
    ∃ (D : Type) (S : Structure D) (v : Char → D), S.reading.Reads ∅ v f := by
  have hidentity' : f.unrooted.Lacks .identity := (Formula.lacks_unrooted Kind.noConfusion).2 hidentity
  have hwakeful : ∀ s₀ s, Begins s₀ f ctx.reset.settings.requeueUniversals.value → Steps s₀ s →
      s.Wakeful := by
    intro s₀ s h₀ h
    rcases hwake with hon | hfree
    · exact .inl ((h.requeues_eq.trans h₀.requeues).trans hon)
    · exact h.wakeful_of_unrooted h₀ hf hidentity'
        ⟨(Formula.lacks_unrooted Kind.noConfusion).2 hfree.1,
          (Formula.lacks_unrooted Kind.noConfusion).2 hfree.2⟩
  obtain ⟨t, hexpand⟩ := expand_of_report h Report.noConfusion
  obtain ⟨⟨l, hl, hopen⟩, hall⟩ := saturated_of_expand hf hwakeful hexpand
  obtain ⟨hmem, hformed, hsaturated, hopen', hhanded⟩ := hall l hl hopen
  have hrelational := hhanded (Formula.inherited_lacks (.inr rfl)).handsDown hidentity'
  have hbranch : (t.path l).Unwrapped :=
    ⟨hformed, hrelational, hhanded Formula.handsDown_unwraps hunwraps, hsaturated⟩
  have htrue := (hbranch.finished_bare hopen').isTrue_model
    (List.forall_mem_map.2 fun g hg => (Formula.lacks_bare Kind.noConfusion).2 (hrelational g hg))
    (fun _ => (t.path l).bare.origin) _ (List.mem_map_of_mem hmem)
  rw [Formula.bare_unrooted, Interpretation.reads_bare] at htrue
  exact ⟨_, _, _, htrue⟩

/-- If a sentence and the same sentence with wrappers in it get opposite verdicts, no structure makes
them true as the rules read them. If no quantifier repeats a variable they are true in none, and so it
is the open branch that misleads. And there is an identity in them, or a quantifier while dormant nodes
are not woken, or a wrapper that does not come off in the one that is left open. -/
theorem opposite_verdicts_of_bare {w w' : Formula} (hw : w.Sentence) (hbare : w'.bare = w)
    (ctx : Context)
    (h : (ctx.buildTableau w).1.report = .closed ∧ (ctx.buildTableau w').1.report = .unclosed ∨
      (ctx.buildTableau w).1.report = .unclosed ∧ (ctx.buildTableau w').1.report = .closed) :
    (∀ (D : Type) (S : Structure D) (v : Char → D),
      ¬S.reading.Reads ∅ v w ∧ ¬S.reading.Reads ∅ v w' ∧
      (w.Standard → ¬S.Holds v w ∧ ¬S.Holds v w')) ∧
    (¬w.Lacks .identity ∨ (ctx.settings.requeueUniversals.value = false ∧ ¬w.QuantifierFree) ∨
      (ctx.buildTableau w').1.report = .unclosed ∧ w'.unrooted.unwraps false = false) := by
  subst hbare
  have hw' : w'.Sentence := Formula.wellFormed_bare.1 hw
  have hfalse : ∀ (D : Type) (S : Structure D) (v : Char → D), ¬S.reading.Reads ∅ v w' := by
    intro D S v
    rcases h with ⟨hclosed, -⟩ | ⟨-, hclosed⟩
    · obtain ⟨t, hexpand⟩ := expand_of_report hclosed Report.noConfusion
      rw [← Interpretation.reads_bare]
      exact not_reads_of_expand hw hexpand S v
    · obtain ⟨t, hexpand⟩ := expand_of_report hclosed Report.noConfusion
      exact not_reads_of_expand hw' hexpand S v
  have hfalse' : ∀ (D : Type) (S : Structure D) (v : Char → D), ¬S.reading.Reads ∅ v w'.bare := by
    intro D S v
    rw [Interpretation.reads_bare]
    exact hfalse D S v
  refine ⟨fun D S v => ⟨hfalse' D S v, hfalse D S v, fun hstandard => ⟨?_, ?_⟩⟩, ?_⟩
  · rw [Structure.Holds, ← Interpretation.reads_iff_holds _ hstandard.2]
    exact hfalse' D S v
  · rw [Structure.Holds, ← Interpretation.reads_iff_holds _ (Formula.unrepeated_bare.1 hstandard.2)]
    exact hfalse D S v
  by_contra! hnone
  obtain ⟨hidentity, hwake, hunwraps⟩ := hnone
  have hwake' : ctx.settings.requeueUniversals.value ∨ w'.bare.QuantifierFree :=
    (Bool.eq_false_or_eq_true _).imp_right hwake
  rcases h with ⟨-, hopen⟩ | ⟨hopen, -⟩
  · obtain ⟨D, S, v, hreads⟩ := exists_reads_of_unwraps hw'
      ((Bool.eq_false_or_eq_true _).resolve_right (hunwraps hopen))
      ((Formula.lacks_bare Kind.noConfusion).1 hidentity)
      (hwake'.imp_right fun hfree => ⟨(Formula.lacks_bare Kind.noConfusion).1 hfree.1,
        (Formula.lacks_bare Kind.noConfusion).1 hfree.2⟩) hopen
    exact hfalse D S v hreads
  · obtain ⟨D, S, v, hreads⟩ := exists_reads_of_unwraps hw
      (by rw [Formula.unrooted_bare, Formula.unwraps_bare]) hidentity hwake' hopen
    exact hfalse' D S v hreads

/-- `P ∧ ¬P` has a closed tableau, but the tableau of the same sentence with its first conjunct wrapped
is left open. -/
theorem opposite_verdicts_of_bare_conjunction :
    let w : Formula := .and (.atom 'P') (.not (.atom 'P'))
    let w' : Formula := .and (.root (.atom 'P')) (.not (.atom 'P'))
    w'.bare = w ∧ (({} : Context).buildTableau w).1.report = .closed ∧
      (({} : Context).buildTableau w').1.report = .unclosed ∧
      (∀ (D : Type) (S : Structure D) (v : Char → D), ¬S.Holds v w ∧ ¬S.Holds v w') ∧
      w'.unwraps false = false := by
  intro w w'
  have hclosed : (({} : Context).buildTableau w).1.report = .closed := by decide +kernel
  have hunclosed : (({} : Context).buildTableau w').1.report = .unclosed := by decide +kernel
  obtain ⟨hfalse, hidentity | ⟨hoff, -⟩ | ⟨-, hunwraps⟩⟩ :=
    opposite_verdicts_of_bare (by decide) (rfl : w'.bare = w) {} (.inl ⟨hclosed, hunclosed⟩)
  · exact absurd (by decide) hidentity
  · exact absurd hoff (by decide)
  · refine ⟨rfl, hclosed, hunclosed, fun D S v => ?_, hunwraps⟩
    exact (hfalse D S v).2.2 (by decide)

-- Wrappers that come off change verdicts too, with identities or without requeueing: the denial of what
-- is wrapped comes later than a double negation, so that two nodes are dispatched in another order.
example :
    let w (denied : Formula → Formula) : Formula :=
      .and (.not (denied (.not (.xor (.and (.predicate 'P' [.const 'a'])
          (.not (.predicate 'P' [.const 'b']))) .falsum))))
        (.not (.not (.identity (.const 'a') (.const 'b'))))
    (({} : Context).buildTableau (w id)).1.report = .closed ∧
      (({} : Context).buildTableau (w .root)).1.report = .unclosed ∧ (w .root).unwraps false := by
  decide +kernel

example :
    let w (denied : Formula → Formula) : Formula :=
      .and (.not (denied (.not (.all 'x' (.and (.predicate 'R' [.var 'x'])
          (.ex 'y' (.predicate 'P' [.var 'y'])))))))
        (.not (.not (.all 'x' (.not (.predicate 'P' [.var 'x'])))))
    let ctx : Context :=
      { settings := { requeueUniversals := ⟨"requeue_universals", false, true, false⟩ } }
    (ctx.buildTableau (w id)).1.report = .closed ∧ (ctx.buildTableau (w .root)).1.report = .unclosed ∧
      (w .root).unwraps false := by
  decide +kernel

/-- A wrapper can turn a verdict into its opposite. The wrapped conjunct stands on the branch and has
the canonical form of its content, so the content is not placed and does not meet the denial of it. -/
theorem wrapper_changes_verdict :
    ¬∀ w w' : Formula, w.Sentence → w'.bare = w → ∀ ctx : Context,
      ¬((ctx.buildTableau w).1.report = .closed ∧ (ctx.buildTableau w').1.report = .unclosed) := by
  intro h
  exact h (.and (.atom 'P') (.not (.atom 'P'))) (.and (.root (.atom 'P')) (.not (.atom 'P')))
    (by decide) rfl {} ⟨by decide +kernel, by decide +kernel⟩

end Context

end Sequitur
