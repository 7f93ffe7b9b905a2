/-!
# Sorted sets

A set is the list of its elements in strictly increasing order, so a set has exactly one
representation: two sets with the same elements are equal (`SortedSet.ext`), and listing a set is
listing it in order. Every operation comes with its membership equation.
-/

namespace RegularLanguages

/-- Inserts `x` into an increasing list, unless an equal element is there already. -/
def insertSorted {α : Type} [Ord α] (x : α) : List α → List α
  | [] => [x]
  | y :: ys =>
    match compare x y with
    | .lt => x :: y :: ys
    | .eq => y :: ys
    | .gt => y :: insertSorted x ys

/-- A finite set, held as its elements in strictly increasing order. -/
structure SortedSet (α : Type) [Ord α] where
  toList : List α
  sorted : toList.Pairwise (compare · · = .lt)
deriving Repr

namespace SortedSet

variable {α : Type} [Ord α]

instance : Membership α (SortedSet α) := ⟨fun s x => x ∈ s.toList⟩

instance [DecidableEq α] (x : α) (s : SortedSet α) : Decidable (x ∈ s) :=
  inferInstanceAs (Decidable (x ∈ s.toList))

instance [DecidableEq α] : DecidableEq (SortedSet α) := fun s t =>
  decidable_of_iff (s.toList = t.toList) ⟨fun h => by cases s; cases t; cases h; rfl, (· ▸ rfl)⟩

instance : EmptyCollection (SortedSet α) := ⟨⟨[], .nil⟩⟩

instance : Inhabited (SortedSet α) := ⟨∅⟩

def isEmpty (s : SortedSet α) : Bool := s.toList.isEmpty

def size (s : SortedSet α) : Nat := s.toList.length

def min? (s : SortedSet α) : Option α := s.toList.head?

def filter (p : α → Bool) (s : SortedSet α) : SortedSet α := ⟨s.toList.filter p, s.sorted.filter p⟩

def singleton (x : α) : SortedSet α := ⟨[x], List.pairwise_singleton _ x⟩

theorem mem_def {x : α} {s : SortedSet α} : x ∈ s ↔ x ∈ s.toList := Iff.rfl

@[simp] theorem mem_toList {x : α} {s : SortedSet α} : x ∈ s.toList ↔ x ∈ s := Iff.rfl

@[simp] theorem not_mem_empty (x : α) : x ∉ (∅ : SortedSet α) := List.not_mem_nil

@[simp] theorem toList_empty : (∅ : SortedSet α).toList = [] := rfl

@[simp] theorem mem_singleton {x y : α} : x ∈ singleton y ↔ x = y := List.mem_singleton

@[simp] theorem mem_filter {p : α → Bool} {s : SortedSet α} {x : α} :
    x ∈ s.filter p ↔ x ∈ s ∧ p x := List.mem_filter

theorem isEmpty_iff {s : SortedSet α} : s.isEmpty ↔ ∀ x, x ∉ s :=
  List.isEmpty_iff.trans List.eq_nil_iff_forall_not_mem

theorem min?_mem {s : SortedSet α} {x : α} (h : s.min? = some x) : x ∈ s :=
  List.mem_of_mem_head? h

theorem min?_isSome {s : SortedSet α} {x : α} (h : x ∈ s) : ∃ y, s.min? = some y := by
  rcases s with ⟨_ | ⟨y, l⟩, hs⟩
  · exact absurd h List.not_mem_nil
  · exact ⟨y, rfl⟩

theorem eq_or_min?_lt {s : SortedSet α} {x y : α} (h : s.min? = some x) (hy : y ∈ s) :
    y = x ∨ compare x y = .lt := by
  rcases s with ⟨_ | ⟨z, l⟩, hs⟩
  · exact absurd hy List.not_mem_nil
  · obtain rfl := Option.some.inj h
    rcases List.mem_cons.1 hy with rfl | hy
    · exact .inl rfl
    · exact .inr ((List.pairwise_cons.1 hs).1 y hy)

theorem nodup [Std.LawfulEqOrd α] (s : SortedSet α) : s.toList.Nodup :=
  s.sorted.imp fun h => by rintro rfl; simp at h

theorem size_le_one_iff [Std.LawfulEqOrd α] {s : SortedSet α} :
    s.size ≤ 1 ↔ ∀ x ∈ s, ∀ y ∈ s, x = y := by
  rcases s with ⟨_ | ⟨a, _ | ⟨b, l⟩⟩, hs⟩
  · simp [size, mem_def]
  · simp [size, mem_def]
  · have hab : a ≠ b := by
      rintro rfl
      have := (List.pairwise_cons.1 hs).1 a (by simp)
      simp at this
    refine ⟨fun h => ?_, fun h => absurd (h a (by simp [mem_def]) b (by simp [mem_def])) hab⟩
    simp only [size, List.length_cons] at h
    omega

theorem eq_of_size_le_two [Std.LawfulEqOrd α] {s : SortedSet α} (h : s.size ≤ 2) {x y z : α}
    (hx : x ∈ s) (hy : y ∈ s) (hz : z ∈ s) : x = y ∨ x = z ∨ y = z := by
  rcases s with ⟨_ | ⟨a, _ | ⟨b, _ | ⟨c, l⟩⟩⟩, hs⟩
  · exact absurd hx List.not_mem_nil
  · exact .inl ((List.mem_singleton.1 hx).trans (List.mem_singleton.1 hy).symm)
  · simp only [mem_def, List.mem_cons, List.not_mem_nil, or_false] at hx hy hz
    grind
  · simp only [size, List.length_cons] at h
    omega

theorem mem_insertSorted [Std.LawfulEqOrd α] {x y : α} {l : List α} :
    y ∈ insertSorted x l ↔ y = x ∨ y ∈ l := by
  induction l with
  | nil => simp [insertSorted]
  | cons z l ih =>
    rw [insertSorted]
    split
    · simp
    · rename_i h
      have := Std.compare_eq_iff_eq.1 h
      subst this
      simp
    · simp only [List.mem_cons, ih]
      grind

variable [Std.TransOrd α] [Std.LawfulEqOrd α]

theorem sorted_insertSorted {l : List α} (x : α) (h : l.Pairwise (compare · · = .lt)) :
    (insertSorted x l).Pairwise (compare · · = .lt) := by
  induction l with
  | nil => simp [insertSorted]
  | cons z l ih =>
    rw [List.pairwise_cons] at h
    rw [insertSorted]
    split
    · rename_i hxz
      refine List.pairwise_cons.2 ⟨fun y hy => ?_, List.pairwise_cons.2 h⟩
      rcases List.mem_cons.1 hy with rfl | hy
      · exact hxz
      · exact Std.TransCmp.lt_trans hxz (h.1 y hy)
    · exact List.pairwise_cons.2 h
    · rename_i hxz
      refine List.pairwise_cons.2 ⟨fun y hy => ?_, ih h.2⟩
      rcases mem_insertSorted.1 hy with rfl | hy
      · exact Std.OrientedCmp.gt_iff_lt.1 hxz
      · exact h.1 y hy

def insert (x : α) (s : SortedSet α) : SortedSet α :=
  ⟨insertSorted x s.toList, sorted_insertSorted x s.sorted⟩

def ofList (l : List α) : SortedSet α := l.foldr insert ∅

def union (s t : SortedSet α) : SortedSet α := s.toList.foldr insert t

instance : Union (SortedSet α) := ⟨union⟩

@[simp] theorem mem_insert {x y : α} {s : SortedSet α} : y ∈ s.insert x ↔ y = x ∨ y ∈ s :=
  mem_insertSorted

@[simp] theorem mem_ofList {x : α} {l : List α} : x ∈ ofList l ↔ x ∈ l := by
  induction l with
  | nil => simp [ofList]
  | cons y l ih => rw [ofList, List.foldr_cons, mem_insert, List.mem_cons]; exact or_congr_right ih

@[simp] theorem mem_union {x : α} {s t : SortedSet α} : x ∈ s ∪ t ↔ x ∈ s ∨ x ∈ t := by
  change x ∈ s.toList.foldr insert t ↔ x ∈ s.toList ∨ x ∈ t
  induction s.toList with
  | nil => simp
  | cons y l ih => rw [List.foldr_cons, mem_insert, ih, List.mem_cons, or_assoc]

/-- A set is determined by its elements. -/
theorem ext {s t : SortedSet α} (h : ∀ x, x ∈ s ↔ x ∈ t) : s = t := by
  have hl : s.toList = t.toList :=
    List.Perm.eq_of_pairwise
      (fun a b _ _ (hab : compare a b = .lt) hba => (Std.OrientedCmp.not_lt_of_lt hab hba).elim)
      s.sorted t.sorted ((List.perm_ext_iff_of_nodup s.nodup t.nodup).2 h)
  cases s; cases t; cases hl; rfl

theorem union_comm (s t : SortedSet α) : s ∪ t = t ∪ s :=
  ext fun x => by rw [mem_union, mem_union, or_comm]

/-- Every set of elements of `l`, some perhaps more than once. -/
def subsets : List α → List (SortedSet α)
  | [] => [∅]
  | x :: l => subsets l ++ (subsets l).map (insert x)

theorem mem_subsets [DecidableEq α] {l : List α} {s : SortedSet α} (h : ∀ x ∈ s, x ∈ l) :
    s ∈ subsets l := by
  induction l generalizing s with
  | nil => simp [subsets, ext (s := s) (t := ∅) fun x => by simpa using h x]
  | cons a l ih =>
    rw [subsets, List.mem_append, List.mem_map]
    by_cases ha : a ∈ s
    · refine .inr ⟨s.filter (· ≠ a), ih fun x hx => ?_, ext fun x => ?_⟩
      · have := List.mem_cons.1 (h x (mem_filter.1 hx).1)
        simp_all
      · by_cases hx : x = a <;> simp_all
    · refine .inl (ih fun x hx => ?_)
      rcases List.mem_cons.1 (h x hx) with rfl | hx'
      · exact absurd hx ha
      · exact hx'

section FlatMap

variable {α β : Type} [Ord α] [Ord β] [Std.TransOrd β] [Std.LawfulEqOrd β]

def flatMap (f : α → SortedSet β) (s : SortedSet α) : SortedSet β :=
  ofList (s.toList.flatMap fun x => (f x).toList)

@[simp] theorem mem_flatMap {f : α → SortedSet β} {s : SortedSet α} {y : β} :
    y ∈ s.flatMap f ↔ ∃ x ∈ s, y ∈ f x := by
  simp [flatMap]

end FlatMap

end SortedSet

end RegularLanguages
