import Mathlib.Order.Bounds.Basic
import Sequitur.Proofs.Derivation.Applications
import Sequitur.Proofs.Derivation.Cone

/-!
# The store of derivations, whatever is asked of it

A store takes requests to insert and to mark derivations, and refuses those that name what it has not.
After any requests it holds just what it could accept (`Derivations.inferences_requests`). As each
derivation rests on earlier ones, following these links never leads back, and both queries are exact:
what a derivation rests on is all that its links lead to, and a formula is found where something
structurally equal to it was first stored (`Derivations.exact_requests`).
-/

namespace Sequitur

namespace Derivations

/-! ## Requests -/

/-- A request to a store. Derivations may be named that are not there. -/
inductive Request where
  | insertion (f : Formula) (step : Step) (parents : List Nat)
  | marking (i : Nat) (step : Step)

/-- The store after a request. One that fails changes nothing. -/
def request (s : Derivations) : Request → Derivations
  | .insertion f step parents => (s.insert (.of f) step parents).toOption.elim s Prod.snd
  | .marking i step => (s.mark i step).toOption.elim s Prod.snd

/-- The store after all the requests, one after another. -/
def requests (s : Derivations) (rs : List Request) : Derivations := rs.foldl request s

/-- What is on file after a request: an insertion goes to the end, if all it rests on is on file. -/
def Request.file (es : List Inference) : Request → List Inference
  | .insertion f step parents =>
    if ∀ p ∈ parents, p < es.length then es ++ [⟨f, step, parents⟩] else es
  | .marking _ _ => es

variable {s : Derivations} {i j p : Nat} {parents : List Nat}

theorem insert_of_lt (content : Keyed) (step : Step) (h : ∀ p ∈ parents, p < s.size) :
    s.insert content step parents = .ok (s.size, s.push content step parents h) := by
  rw [insert, dif_pos h]

theorem insert_of_le (content : Keyed) (step : Step) (hp : p ∈ parents) (h : s.size ≤ p) :
    s.insert content step parents = .error .missingNode := by
  rw [insert, dif_neg fun hlt => absurd (hlt p hp) (Nat.not_lt.2 h)]

/-- A request changes what has been derived as it changes what is on file. -/
theorem inferences_request (s : Derivations) (r : Request) :
    (s.request r).inferences = r.file s.inferences := by
  cases r with
  | insertion f step parents =>
    rw [Request.file, length_inferences]
    split
    · next h =>
      rw [request, insert_of_lt (.of f) step h]
      exact inferences_push h
    · next h =>
      rw [request, insert, dif_neg h]
      rfl
  | marking i step =>
    rw [Request.file, request, mark]
    split
    · exact s.inferences_addMark i step
    · rfl

theorem inferences_requests (s : Derivations) (rs : List Request) :
    (s.requests rs).inferences = rs.foldl Request.file s.inferences := by
  induction rs generalizing s with
  | nil => rfl
  | cons r rs ih =>
    rw [requests, List.foldl_cons, List.foldl_cons, ← inferences_request]
    exact ih (s.request r)

/-! ## Links -/

theorem lt_of_restsOn (h : RestsOn s.inferences i p) : p < i :=
  lt_of_mem_parentsOf (mem_parentsOf_iff.2 h)

/-- Following links only leads to earlier derivations. -/
theorem lt_of_transGen (h : Relation.TransGen (RestsOn s.inferences) i j) : j < i := by
  induction h with
  | single h => exact lt_of_restsOn h
  | tail _ h ih => exact (lt_of_restsOn h).trans ih

theorem ancestorsOf_of_le (h : s.size ≤ i) : s.ancestorsOf i = [] := by
  rw [ancestorsOf, if_neg (Nat.not_lt.2 h)]

/-! ## Positions -/

/-- To look up a canonical form is to look for what is structurally equal. -/
theorem position?_canonical (s : Derivations) (f : Formula) :
    s.position? f.canonical = s.inferences.findIdx? (·.formula.structurallyEquals f) := by
  rw [position?, inferences, List.findIdx?_map, ← List.findIdx?_toArray]
  congr 1
  funext d
  exact d.content.reads_canonical f

theorem position?_eq_some_iff {f : Formula} : s.position? f.canonical = some i ↔
    IsLeast {k | ∃ e, s.inferences[k]? = some e ∧ e.formula.structurallyEquals f} i := by
  rw [position?_canonical, List.findIdx?_eq_some_iff_getElem]
  constructor
  · rintro ⟨hi, hequal, hleast⟩
    refine ⟨⟨_, List.getElem?_eq_getElem hi, hequal⟩, ?_⟩
    rintro k ⟨e, he, hk⟩
    obtain ⟨hlt, rfl⟩ := List.getElem?_eq_some_iff.1 he
    exact Nat.le_of_not_lt fun hki => hleast k hki hk
  · rintro ⟨⟨e, he, hequal⟩, hleast⟩
    obtain ⟨hi, rfl⟩ := List.getElem?_eq_some_iff.1 he
    refine ⟨hi, hequal, fun k hki hk => ?_⟩
    have hle := hleast ⟨_, List.getElem?_eq_getElem (hki.trans hi), hk⟩
    omega

theorem position?_eq_none_iff {f : Formula} : s.position? f.canonical = none ↔
    ∀ e ∈ s.inferences, e.formula.structurallyEquals f = false := by
  rw [position?_canonical, List.findIdx?_eq_none_iff]

/-! ## Every store -/

/-- Whether a store takes what rests on what it has and nothing else, has no circle among its links,
and answers its queries by them. -/
structure Exact (s : Derivations) : Prop where
  accepts : ∀ f step parents, (∀ p ∈ parents, p < s.size) →
    ∃ s', s.insert (.of f) step parents = .ok (s.size, s') ∧
      s'.inferences = s.inferences ++ [⟨f, step, parents⟩]
  /-- A refusal leaves the store as it is, and the search that it belongs to. -/
  refuses : ∀ f step parents, (∃ p ∈ parents, s.size ≤ p) →
    s.insert (.of f) step parents = .error .missingNode ∧
      s.request (.insertion f step parents) = s ∧
      ∀ t : Search, t.store = s →
        Derive.insert (.of f) step parents t = .error (.deduction .missingNode) t
  earlier : ∀ i p, RestsOn s.inferences i p → p < i
  acyclic : ∀ i, ¬Relation.TransGen (RestsOn s.inferences) i i
  ascending : ∀ i, (s.ancestorsOf i).Pairwise (· < ·)
  reach : ∀ i < s.size, ∀ j,
    j ∈ s.ancestorsOf i ↔ Relation.ReflTransGen (RestsOn s.inferences) i j
  last : ∀ i < s.size, (s.ancestorsOf i).getLast? = some i
  unknown : ∀ i, s.size ≤ i → s.ancestorsOf i = []
  position : ∀ f i, s.position? f.canonical = some i ↔
    IsLeast {k | ∃ e, s.inferences[k]? = some e ∧ e.formula.structurallyEquals f} i
  nowhere : ∀ f, s.position? f.canonical = none ↔
    ∀ e ∈ s.inferences, e.formula.structurallyEquals f = false

theorem insert_refused {t : Search} (content : Keyed) (step : Step) (hp : p ∈ parents)
    (h : t.store.size ≤ p) :
    Derive.insert content step parents t = .error (.deduction .missingNode) t := by
  rw [Derive.insert, insert_of_le content step hp h]

theorem isExact (s : Derivations) : s.Exact where
  accepts f step _ h := ⟨_, insert_of_lt (.of f) step h, inferences_push h⟩
  refuses f step _ := by
    rintro ⟨p, hp, h⟩
    have herror := insert_of_le (.of f) step hp h
    refine ⟨herror, by rw [request, herror]; rfl, ?_⟩
    rintro t rfl
    exact insert_refused (.of f) step hp h
  earlier _ _ := lt_of_restsOn
  acyclic _ h := Nat.lt_irrefl _ (lt_of_transGen h)
  ascending i := (s.pruned_ancestorsOf i).choose_spec.ascending
  reach _ h _ := mem_ancestorsOf_iff h
  last _ := getLast?_ancestorsOf
  unknown _ := ancestorsOf_of_le
  position _ _ := position?_eq_some_iff
  nowhere _ := position?_eq_none_iff

/-- Whatever was asked of a store, it holds what it could accept of the insertions, in order, and its
queries are exact. -/
theorem exact_requests (rs : List Request) :
    (empty.requests rs).inferences = rs.foldl Request.file [] ∧ (empty.requests rs).Exact :=
  ⟨inferences_requests empty rs, isExact _⟩

-- Of three insertions after the first one names what is to come; the last rests twice on one parent.
example :
    let s := empty.requests [.insertion (.identity (.const 'a') (.const 'b')) .premise [],
      .insertion (.atom 'P') .premise [2], .insertion (.atom 'Q') .premise [], .marking 7 .modusPonens,
      .insertion (.atom 'R') .conjunctionIntroduction [0, 0]]
    s.size = 3 ∧ s.ancestorsOf 2 = [0, 2] ∧ s.ancestorsOf 3 = [] ∧
      s.position? (Formula.identity (.const 'b') (.const 'a')).canonical = some 0 := by
  decide +kernel

end Derivations

end Sequitur
