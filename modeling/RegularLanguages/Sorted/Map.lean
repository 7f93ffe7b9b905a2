/-!
# Sorted maps

A map is the list of its entries in strictly increasing order of keys. `SortedMap.get?` is the view
through which every operation is described; two maps with the same view are equal.
-/

namespace RegularLanguages

/-- A finite map, held as its entries in strictly increasing order of keys. -/
structure SortedMap (κ ν : Type) [Ord κ] where
  toList : List (κ × ν)
  sorted : toList.Pairwise fun a b => compare a.1 b.1 = .lt
deriving Repr

namespace SortedMap

variable {κ ν : Type} [Ord κ]

instance : EmptyCollection (SortedMap κ ν) := ⟨⟨[], .nil⟩⟩

instance : Inhabited (SortedMap κ ν) := ⟨∅⟩

def isEmpty (m : SortedMap κ ν) : Bool := m.toList.isEmpty

def singleton (k : κ) (v : ν) : SortedMap κ ν := ⟨[(k, v)], List.pairwise_singleton _ _⟩

def lookup (k : κ) : List (κ × ν) → Option ν
  | [] => none
  | (k', v) :: es => if compare k k' = .eq then some v else lookup k es

def get? (m : SortedMap κ ν) (k : κ) : Option ν := lookup k m.toList

def contains (m : SortedMap κ ν) (k : κ) : Bool := (m.get? k).isSome

def insertEntry (k : κ) (v : ν) : List (κ × ν) → List (κ × ν)
  | [] => [(k, v)]
  | (k', v') :: es =>
    match compare k k' with
    | .lt => (k, v) :: (k', v') :: es
    | .eq => (k, v) :: es
    | .gt => (k', v') :: insertEntry k v es

/-- Applies `f` to the value beside `k`, if there is one. -/
def modify (m : SortedMap κ ν) (k : κ) (f : ν → ν) : SortedMap κ ν where
  toList := m.toList.map fun e => (e.1, if compare k e.1 = .eq then f e.2 else e.2)
  sorted := List.pairwise_map.2 m.sorted

theorem mem_insertEntry {k : κ} {v : ν} {e : κ × ν} {l : List (κ × ν)}
    (h : e ∈ insertEntry k v l) : e = (k, v) ∨ e ∈ l := by
  induction l with
  | nil => simpa [insertEntry] using h
  | cons d l ih =>
    rw [insertEntry] at h
    split at h <;> grind

@[simp] theorem get?_empty (k : κ) : (∅ : SortedMap κ ν).get? k = none := rfl

variable [Std.LawfulEqOrd κ]

@[simp] theorem get?_singleton [DecidableEq κ] (k k' : κ) (v : ν) :
    (singleton k v).get? k' = if k' = k then some v else none := by
  simp [get?, singleton, lookup]

@[simp] theorem get?_modify [DecidableEq κ] (m : SortedMap κ ν) (k k' : κ) (f : ν → ν) :
    (m.modify k f).get? k' = if k' = k then (m.get? k').map f else m.get? k' := by
  rcases m with ⟨l, hl⟩
  simp only [get?, modify]
  clear hl
  induction l with
  | nil => simp [lookup]
  | cons e es ih =>
    simp only [List.map_cons, lookup, Std.compare_eq_iff_eq] at ih ⊢
    grind

theorem lookup_insertEntry [DecidableEq κ] (k k' : κ) (v : ν) (l : List (κ × ν)) :
    lookup k' (insertEntry k v l) = if k' = k then some v else lookup k' l := by
  induction l with
  | nil => simp [insertEntry, lookup]
  | cons d l ih =>
    rw [insertEntry]
    split
    · simp [lookup]
    · rename_i hk
      have := Std.compare_eq_iff_eq.1 hk
      subst this
      by_cases h : k' = d.1 <;> simp [lookup, h]
    · rename_i hk
      have hne : k ≠ d.1 := fun h => by subst h; simp at hk
      simp only [lookup, ih, Std.compare_eq_iff_eq]
      grind

theorem mem_toList {m : SortedMap κ ν} {k : κ} {v : ν} :
    (k, v) ∈ m.toList ↔ m.get? k = some v := by
  rcases m with ⟨l, hl⟩
  change (k, v) ∈ l ↔ lookup k l = some v
  induction l with
  | nil => simp [lookup]
  | cons d l ih =>
    rw [List.pairwise_cons] at hl
    rw [List.mem_cons, ih hl.2, lookup]
    split
    · rename_i hk
      have := Std.compare_eq_iff_eq.1 hk
      subst this
      have : lookup d.1 l ≠ some v := fun h => by simpa using hl.1 _ ((ih hl.2).2 h)
      simp [this, Prod.ext_iff, eq_comm]
    · rename_i hk
      have hne : k ≠ d.1 := fun h => by subst h; simp at hk
      simp [Prod.ext_iff, hne]

variable [Std.TransOrd κ]

theorem sorted_insertEntry {l : List (κ × ν)} (k : κ) (v : ν)
    (h : l.Pairwise fun a b => compare a.1 b.1 = .lt) :
    (insertEntry k v l).Pairwise fun a b => compare a.1 b.1 = .lt := by
  induction l with
  | nil => simp [insertEntry]
  | cons d l ih =>
    rw [List.pairwise_cons] at h
    rw [insertEntry]
    split
    · rename_i hk
      refine List.pairwise_cons.2 ⟨fun e he => ?_, List.pairwise_cons.2 h⟩
      rcases List.mem_cons.1 he with rfl | he
      · exact hk
      · exact Std.TransCmp.lt_trans hk (h.1 e he)
    · rename_i hk
      have := Std.compare_eq_iff_eq.1 hk
      subst this
      exact List.pairwise_cons.2 h
    · rename_i hk
      refine List.pairwise_cons.2 ⟨fun e he => ?_, ih h.2⟩
      rcases mem_insertEntry he with rfl | he
      · exact Std.OrientedCmp.gt_iff_lt.1 hk
      · exact h.1 e he

def insert (m : SortedMap κ ν) (k : κ) (v : ν) : SortedMap κ ν :=
  ⟨insertEntry k v m.toList, sorted_insertEntry k v m.sorted⟩

def ofList (l : List (κ × ν)) : SortedMap κ ν := l.foldl (fun m e => m.insert e.1 e.2) ∅

@[simp] theorem get?_insert [DecidableEq κ] (m : SortedMap κ ν) (k k' : κ) (v : ν) :
    (m.insert k v).get? k' = if k' = k then some v else m.get? k' :=
  lookup_insertEntry k k' v m.toList

/-- The map that gives each key of a list its own value. -/
theorem get?_ofList_map [DecidableEq κ] (l : List κ) (f : κ → ν) (k : κ) :
    (ofList (l.map fun k => (k, f k))).get? k = if k ∈ l then some (f k) else none := by
  have hfold : ∀ m : SortedMap κ ν, (l.foldl (fun m k => m.insert k (f k)) m).get? k =
      if k ∈ l then some (f k) else m.get? k := by
    induction l with
    | nil => simp
    | cons k' l ih =>
      intro m
      rw [List.foldl_cons, ih, get?_insert]
      by_cases hk : k = k'
      · subst hk
        simp
      · simp [hk]
  rw [ofList, List.foldl_map]
  exact hfold ∅

/-- A map is determined by its view. -/
theorem ext {m n : SortedMap κ ν} (h : ∀ k, m.get? k = n.get? k) : m = n := by
  have nodup : ∀ o : SortedMap κ ν, o.toList.Nodup := fun o =>
    o.sorted.imp fun h => by rintro rfl; simp at h
  have hl : m.toList = n.toList :=
    List.Perm.eq_of_pairwise
      (fun a b _ _ (hab : compare a.1 b.1 = .lt) hba =>
        (Std.OrientedCmp.not_lt_of_lt hab hba).elim)
      m.sorted n.sorted
      ((List.perm_ext_iff_of_nodup (nodup m) (nodup n)).2 fun ⟨k, v⟩ => by
        rw [mem_toList, mem_toList, h k])
  cases m; cases n; cases hl; rfl

end SortedMap

end RegularLanguages
