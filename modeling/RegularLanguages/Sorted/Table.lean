import RegularLanguages.Sorted.Map
/-!
# Sorted tables

A table binds values to pairs of a row and a column. It is a map of rows, each a map of columns, so
it lists by row and then by column. The view is `SortedTable.get?`, a map from pairs to values.
-/

namespace RegularLanguages

/-- A finite map from pairs `(row, column)`, held row by row. -/
structure SortedTable (ρ κ ν : Type) [Ord ρ] [Ord κ] where
  rows : SortedMap ρ (SortedMap κ ν)
deriving Repr

namespace SortedTable

variable {ρ κ ν : Type} [Ord ρ] [Ord κ]

instance : EmptyCollection (SortedTable ρ κ ν) := ⟨⟨∅⟩⟩

instance : Inhabited (SortedTable ρ κ ν) := ⟨∅⟩

def get? (t : SortedTable ρ κ ν) (r : ρ) (c : κ) : Option ν := (t.rows.get? r).bind (·.get? c)

/-- The columns of row `r` with their values, in order. -/
def row (t : SortedTable ρ κ ν) (r : ρ) : List (κ × ν) :=
  match t.rows.get? r with
  | some cols => cols.toList
  | none => []

/-- All values with their keys, by row and then by column. -/
def toList (t : SortedTable ρ κ ν) : List (ρ × κ × ν) :=
  t.rows.toList.flatMap fun e => e.2.toList.map fun d => (e.1, d)

def hasColumn (t : SortedTable ρ κ ν) (c : κ) : Bool := t.rows.toList.any fun e => e.2.contains c

def isEmpty (t : SortedTable ρ κ ν) : Bool := t.rows.toList.all fun e => e.2.isEmpty

/-- Applies `f` to the value at `(r, c)`, if there is one. -/
def modify (t : SortedTable ρ κ ν) (r : ρ) (c : κ) (f : ν → ν) : SortedTable ρ κ ν :=
  ⟨t.rows.modify r (·.modify c f)⟩

variable [Std.TransOrd ρ] [Std.LawfulEqOrd ρ] [Std.TransOrd κ] [Std.LawfulEqOrd κ]

def insert (t : SortedTable ρ κ ν) (r : ρ) (c : κ) (v : ν) : SortedTable ρ κ ν :=
  match t.rows.get? r with
  | some cols => ⟨t.rows.insert r (cols.insert c v)⟩
  | none => ⟨t.rows.insert r (.singleton c v)⟩

/-- Gives what stands at `(r, c)`, and then writes `v` there. -/
def getThenInsert (t : SortedTable ρ κ ν) (r : ρ) (c : κ) (v : ν) : Option ν × SortedTable ρ κ ν :=
  (t.get? r c, t.insert r c v)

/-- Writes `v` at `(r, c)`, or applies `f` to the value that is already there. -/
def insertWith (t : SortedTable ρ κ ν) (r : ρ) (c : κ) (v : ν) (f : ν → ν) : SortedTable ρ κ ν :=
  match t.get? r c with
  | some _ => t.modify r c f
  | none => t.insert r c v

section View

variable [DecidableEq ρ] [DecidableEq κ]

omit [Std.TransOrd ρ] [Std.LawfulEqOrd ρ] [Std.TransOrd κ] [Std.LawfulEqOrd κ] [DecidableEq ρ]
  [DecidableEq κ] in
@[simp] theorem get?_empty (r : ρ) (c : κ) : (∅ : SortedTable ρ κ ν).get? r c = none := rfl

@[simp] theorem get?_insert (t : SortedTable ρ κ ν) (r r' : ρ) (c c' : κ) (v : ν) :
    (t.insert r c v).get? r' c' = if r' = r ∧ c' = c then some v else t.get? r' c' := by
  unfold insert get?
  split <;> rename_i h
  all_goals
    by_cases hr : r' = r
    · subst hr; simp [h]
    · simp [hr]

omit [Std.TransOrd ρ] [Std.TransOrd κ] in
@[simp] theorem get?_modify (t : SortedTable ρ κ ν) (r r' : ρ) (c c' : κ) (f : ν → ν) :
    (t.modify r c f).get? r' c' =
      if r' = r ∧ c' = c then (t.get? r' c').map f else t.get? r' c' := by
  simp only [modify, get?, SortedMap.get?_modify]
  by_cases h : r' = r
  · subst h
    cases t.rows.get? r' <;> simp
  · simp [h]

@[simp] theorem get?_insertWith (t : SortedTable ρ κ ν) (r r' : ρ) (c c' : κ) (v : ν) (f : ν → ν) :
    (t.insertWith r c v f).get? r' c' =
      if r' = r ∧ c' = c then some ((t.get? r c).elim v f) else t.get? r' c' := by
  unfold insertWith
  cases h : t.get? r c with
  | none => simp
  | some w =>
    by_cases he : r' = r ∧ c' = c
    · simp [he, h]
    · simp [he]

end View

omit [Std.TransOrd ρ] [Std.TransOrd κ] in
theorem mem_toList {t : SortedTable ρ κ ν} {r : ρ} {c : κ} {v : ν} :
    (r, c, v) ∈ t.toList ↔ t.get? r c = some v := by
  simp only [toList, List.mem_flatMap, List.mem_map, Prod.exists, Prod.mk.injEq, get?,
    Option.bind_eq_some_iff, SortedMap.mem_toList]
  constructor
  · rintro ⟨r', cols, hr, c', v', hc, rfl, rfl, rfl⟩
    exact ⟨cols, hr, hc⟩
  · rintro ⟨cols, hr, hc⟩
    exact ⟨r, cols, hr, c, v, hc, rfl, rfl, rfl⟩

omit [Std.TransOrd ρ] [Std.TransOrd κ] [Std.LawfulEqOrd κ] in
theorem hasColumn_iff {t : SortedTable ρ κ ν} {c : κ} :
    t.hasColumn c = true ↔ ∃ r v, t.get? r c = some v := by
  simp only [hasColumn, List.any_eq_true, Prod.exists, SortedMap.contains, Option.isSome_iff_exists,
    SortedMap.mem_toList, get?, Option.bind_eq_some_iff]
  constructor
  · rintro ⟨r, cols, hr, v, hv⟩
    exact ⟨r, v, cols, hr, hv⟩
  · rintro ⟨r, v, cols, hr, hv⟩
    exact ⟨r, cols, hr, v, hv⟩

end SortedTable

end RegularLanguages
