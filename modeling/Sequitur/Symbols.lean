/-!
# Sets of symbols

A set of symbols is the ascending list of its members, without repetition, so that two sets with
the same members are equal and reading a set out is reading its list.
-/

namespace Sequitur

/-- A finite set of characters, kept in ascending order of code point. -/
structure Symbols where
  members : List Char
  ascending : members.Pairwise (· < ·)
  deriving DecidableEq

/-- Places a character in an ascending list, unless the list has it. -/
def insertAscending (c : Char) : List Char → List Char
  | [] => [c]
  | d :: ds =>
    if c < d then c :: d :: ds
    else if c = d then d :: ds
    else d :: insertAscending c ds

theorem mem_insertAscending {c x : Char} {ds : List Char} :
    x ∈ insertAscending c ds ↔ x = c ∨ x ∈ ds := by
  induction ds with
  | nil => simp [insertAscending]
  | cons d ds ih =>
    unfold insertAscending
    split
    · simp
    · split
      · next h => subst h; simp
      · simp only [List.mem_cons, ih]; grind

theorem pairwise_insertAscending (c : Char) {ds : List Char} (h : ds.Pairwise (· < ·)) :
    (insertAscending c ds).Pairwise (· < ·) := by
  induction ds with
  | nil => simp [insertAscending]
  | cons d ds ih =>
    obtain ⟨hd, hds⟩ := List.pairwise_cons.1 h
    unfold insertAscending
    split
    · next hc =>
      refine List.pairwise_cons.2 ⟨fun x hx => ?_, h⟩
      rcases List.mem_cons.1 hx with rfl | hx
      · exact hc
      · exact Char.lt_trans hc (hd x hx)
    · split
      · exact h
      · next hc hne =>
        refine List.pairwise_cons.2 ⟨fun x hx => ?_, ih hds⟩
        rcases mem_insertAscending.1 hx with rfl | hx
        · exact Char.not_le.1 fun hle => hne (Char.le_antisymm hle (Char.not_lt.1 hc))
        · exact hd x hx

/-- An ascending list is determined by its members: the least of them comes first. -/
theorem eq_of_ascending {xs ys : List Char} (hx : xs.Pairwise (· < ·)) (hy : ys.Pairwise (· < ·))
    (h : ∀ c, c ∈ xs ↔ c ∈ ys) : xs = ys := by
  induction xs generalizing ys with
  | nil => exact (List.eq_nil_iff_forall_not_mem.2 fun c hc => by simpa using (h c).2 hc).symm
  | cons x xs ih =>
    cases ys with
    | nil => simpa using (h x).1
    | cons y ys =>
      obtain ⟨hx, hxs⟩ := List.pairwise_cons.1 hx
      obtain ⟨hy, hys⟩ := List.pairwise_cons.1 hy
      have first : x = y := by
        rcases List.mem_cons.1 ((h x).1 List.mem_cons_self) with e | hxy
        · exact e
        rcases List.mem_cons.1 ((h y).2 List.mem_cons_self) with e | hyx
        · exact e.symm
        exact absurd (Char.lt_trans (hx y hyx) (hy x hxy)) (Char.lt_irrefl x)
      subst first
      congr 1
      refine ih hxs hys fun c => ⟨fun hc => ?_, fun hc => ?_⟩
      · have hne : c ≠ x := fun e => Char.lt_irrefl x (e ▸ hx c hc)
        simpa [hne] using (h c).1 (List.mem_cons_of_mem _ hc)
      · have hne : c ≠ x := fun e => Char.lt_irrefl x (e ▸ hy c hc)
        simpa [hne] using (h c).2 (List.mem_cons_of_mem _ hc)

namespace Symbols

instance : EmptyCollection Symbols := ⟨⟨[], .nil⟩⟩

instance : Inhabited Symbols := ⟨∅⟩

instance : Membership Char Symbols := ⟨fun s c => c ∈ s.members⟩

instance (c : Char) (s : Symbols) : Decidable (c ∈ s) := inferInstanceAs (Decidable (c ∈ s.members))

/-- The set with `c` added. -/
def insert (s : Symbols) (c : Char) : Symbols :=
  ⟨insertAscending c s.members, pairwise_insertAscending c s.ascending⟩

/-- The set of the characters of a list. -/
def ofList (cs : List Char) : Symbols := cs.foldl insert ∅

/-- The characters of either set. -/
def union (s t : Symbols) : Symbols := t.members.foldl insert s

/-- The members of `s` that are not in `t`, in ascending order. -/
def diff (s t : Symbols) : List Char := s.members.filter (· ∉ t)

def isEmpty (s : Symbols) : Bool := s.members.isEmpty

/-- The members, written one after another. -/
def text (s : Symbols) : String := String.ofList s.members

/-! ## Membership -/

@[simp] theorem mem_members {s : Symbols} {c : Char} : c ∈ s.members ↔ c ∈ s := Iff.rfl

@[simp] theorem not_mem_empty (c : Char) : c ∉ (∅ : Symbols) := List.not_mem_nil

@[simp] theorem mem_insert {s : Symbols} {c x : Char} : x ∈ s.insert c ↔ x = c ∨ x ∈ s :=
  mem_insertAscending

theorem mem_foldl_insert {cs : List Char} {s : Symbols} {x : Char} :
    x ∈ cs.foldl insert s ↔ x ∈ s ∨ x ∈ cs := by
  induction cs generalizing s with
  | nil => simp
  | cons c cs ih => simp only [List.foldl_cons, ih, mem_insert, List.mem_cons]; grind

@[simp] theorem mem_ofList {cs : List Char} {x : Char} : x ∈ ofList cs ↔ x ∈ cs := by
  simp [ofList, mem_foldl_insert]

@[simp] theorem mem_union {s t : Symbols} {x : Char} : x ∈ s.union t ↔ x ∈ s ∨ x ∈ t :=
  mem_foldl_insert

@[simp] theorem mem_diff {s t : Symbols} {x : Char} : x ∈ s.diff t ↔ x ∈ s ∧ x ∉ t := by
  simp [diff]

theorem isEmpty_iff {s : Symbols} : s.isEmpty ↔ ∀ c, c ∉ s := by
  rw [isEmpty, List.isEmpty_iff, List.eq_nil_iff_forall_not_mem]
  rfl

/-- Sets with the same members are equal, since each has one ascending list. -/
@[ext] theorem ext {s t : Symbols} (h : ∀ c, c ∈ s ↔ c ∈ t) : s = t := by
  obtain ⟨xs, hx⟩ := s
  obtain ⟨ys, hy⟩ := t
  obtain rfl : xs = ys := eq_of_ascending hx hy h
  rfl

end Symbols

end Sequitur
