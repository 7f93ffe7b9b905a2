import Mathlib
import RegularLanguages.StateTable.Basic
/-!
# Drawn tables

The lines of a drawn table are rules and rows in turn (`getElem?_linesOf_rule`, `getElem?_linesOf_row`). A
column is as wide as its widest cell (`isGreatest_width`), so it begins at one place in all rows
(`exists_line_eq`) and all lines have one length. The text of a table is split into these lines at its line
ends, as long as no cell has one (`draw_aligned`).
-/

namespace RegularLanguages.StateTable

variable (t : StateTable)

/-- The place in a line where column `i` begins, with its bar. -/
def columnStart (i : Nat) : Nat := ((List.range i).map fun j => t.width j + 3).sum

/-- The cell of a row in column `i`, with blanks after it up to the width of the column. A cell that is
missing is blank. -/
def padded (row : List String) (i : Nat) : List Char :=
  (row.getD i "").toList ++ List.replicate (t.width i - (row.getD i "").length) ' '

/-- What a line has of a row in column `i`. -/
def field (row : List String) (i : Nat) : List Char := '|' :: ' ' :: (t.padded row i ++ [' '])

/-- The lines show the table: a rule before every row and after the last one, and each row on a line where
its cells begin at the places of their columns. There is a column for every cell, as wide as the widest cell
in it, so no cell is too long for its column. -/
structure Draws (ls : List (List Char)) : Prop where
  length_eq : ls.length = 2 * t.rows.length + 1
  length_line : ∀ l ∈ ls, l.length = 1 + ((List.range t.columnCount).map fun i => t.width i + 3).sum
  rule : ∀ r ≤ t.rows.length, ∃ n, ls[2 * r]? = some (List.replicate n '-')
  row : ∀ r row, t.rows[r]? = some row → ∃ l, ls[2 * r + 1]? = some l ∧
    (∀ i < t.columnCount, (l.drop (t.columnStart i + 2)).take (t.width i) = t.padded row i) ∧
    ∀ i ≤ t.columnCount, l[t.columnStart i]? = some '|'
  column_iff : ∀ i, i < t.columnCount ↔ ∃ row ∈ t.rows, i < row.length
  widest : ∀ i < t.columnCount,
    IsGreatest {n | ∃ row ∈ t.rows, ∃ cell, row[i]? = some cell ∧ cell.length = n} (t.width i)
  fits : ∀ row ∈ t.rows, ∀ i, (row.getD i "").length ≤ t.width i

variable {t} {row : List String} {i r : Nat}

/-! ### Columns -/

theorem lt_foldr_max {n : Nat} {ns : List Nat} : n < ns.foldr max 0 ↔ ∃ m ∈ ns, n < m := by
  induction ns with
  | nil => simp
  | cons m ns ih => rw [List.foldr_cons, lt_max_iff, ih, List.exists_mem_cons_iff]

theorem le_foldr_max {m : Nat} {ns : List Nat} (h : m ∈ ns) : m ≤ ns.foldr max 0 := by
  by_contra hlt
  exact Nat.lt_irrefl _ (lt_foldr_max.2 ⟨m, h, not_le.1 hlt⟩)

theorem foldr_max_mem {ns : List Nat} (h : ns.foldr max 0 ≠ 0) : ns.foldr max 0 ∈ ns := by
  induction ns with
  | nil => exact absurd rfl h
  | cons m ns ih =>
    rw [List.foldr_cons] at h ⊢
    rcases max_choice m (ns.foldr max 0) with hm | hm
    · rw [hm]
      exact List.mem_cons_self
    · rw [hm] at h ⊢
      exact List.mem_cons_of_mem m (ih h)

theorem lt_columnCount_iff : i < t.columnCount ↔ ∃ row ∈ t.rows, i < row.length := by
  simp only [columnCount, lt_foldr_max, List.mem_map, exists_exists_and_eq_and]

theorem length_le_width (h : row ∈ t.rows) (i : Nat) : (row.getD i "").length ≤ t.width i :=
  le_foldr_max (List.mem_map.2 ⟨row, h, rfl⟩)

theorem isGreatest_width (hi : i < t.columnCount) :
    IsGreatest {n | ∃ row ∈ t.rows, ∃ cell, row[i]? = some cell ∧ cell.length = n} (t.width i) := by
  constructor
  · by_cases hzero : t.width i = 0
    · obtain ⟨row, hrow, hlt⟩ := lt_columnCount_iff.1 hi
      have hle := length_le_width hrow i
      rw [List.getD_eq_getElem _ _ hlt] at hle
      exact ⟨row, hrow, row[i], List.getElem?_eq_getElem hlt, by omega⟩
    · obtain ⟨row, hrow, hlen⟩ := List.mem_map.1 (foldr_max_mem hzero)
      have hlt : i < row.length := by
        by_contra hge
        rw [List.getD_eq_default _ _ (not_lt.1 hge)] at hlen
        exact hzero hlen.symm
      rw [List.getD_eq_getElem _ _ hlt] at hlen
      exact ⟨row, hrow, row[i], List.getElem?_eq_getElem hlt, hlen⟩
  · rintro n ⟨row, hrow, cell, hcell, rfl⟩
    have hle := length_le_width hrow i
    rwa [List.getD_eq_getElem?_getD, hcell] at hle

theorem length_padded (h : row ∈ t.rows) (i : Nat) : (t.padded row i).length = t.width i := by
  have hle := length_le_width h i
  rw [padded, List.length_append, String.length_toList, List.length_replicate]
  omega

theorem length_field (h : row ∈ t.rows) (i : Nat) : (t.field row i).length = t.width i + 3 := by
  rw [field, List.length_cons, List.length_cons, List.length_append, length_padded h]
  rfl

/-! ### Lines -/

theorem line_eq (row : List String) :
    t.line row = (List.range t.columnCount).flatMap (t.field row) ++ ['|'] := by
  have hplaces (n : Nat) : (List.range n).zipIdx = (List.range n).map fun i => (i, i) := by
    rw [List.zipIdx_eq_zip_range', List.length_range, ← List.range_eq_range', List.zip_eq_zipWith,
      List.zipWith_self]
  rw [line, widths, List.zipIdx_map, hplaces, List.map_map, List.flatMap_map]
  refine congrArg (· ++ ['|']) (List.flatMap_congr fun i _ => ?_)
  simp [field, padded, ← String.length_toList]

theorem length_fields (h : row ∈ t.rows) (n : Nat) :
    ((List.range n).flatMap (t.field row)).length = t.columnStart n := by
  rw [List.length_flatMap, columnStart]
  exact congrArg List.sum (List.map_congr_left fun i _ => length_field h i)

theorem exists_line_eq (h : row ∈ t.rows) (hi : i < t.columnCount) :
    ∃ u v, t.line row = u ++ (t.field row i ++ v) ∧ u.length = t.columnStart i := by
  obtain ⟨k, hk⟩ := Nat.exists_eq_add_of_lt hi
  have hline : t.line row = (List.range i).flatMap (t.field row) ++ (t.field row i ++
      (((List.range k).map Nat.succ).map (i + ·)).flatMap (t.field row) ++ ['|']) := by
    rw [line_eq, hk, Nat.add_assoc, List.range_add, List.range_succ_eq_map, List.map_cons,
      List.flatMap_append, List.flatMap_cons, List.append_assoc, Nat.add_zero]
  exact ⟨_, _, hline.trans (by rw [List.append_assoc]), length_fields h i⟩

theorem length_line (h : row ∈ t.rows) : (t.line row).length = t.columnStart t.columnCount + 1 := by
  rw [line_eq, List.length_append, length_fields h, List.length_singleton]

theorem rule_eq : t.rule = List.replicate (t.columnStart t.columnCount + 1) '-' := by
  have hsum (ws : List Nat) : ws.foldr (· + 3 + ·) 1 = (ws.map (· + 3)).sum + 1 := by
    induction ws with
    | nil => rfl
    | cons w ws ih => rw [List.foldr_cons, ih, List.map_cons, List.sum_cons, ← Nat.add_assoc]
  rw [rule, hsum, widths, List.map_map]
  rfl

theorem take_drop_line (h : row ∈ t.rows) (hi : i < t.columnCount) :
    ((t.line row).drop (t.columnStart i + 2)).take (t.width i) = t.padded row i := by
  obtain ⟨u, v, hline, hu⟩ := exists_line_eq h hi
  have hfield : (t.field row i ++ v).drop 2 = t.padded row i ++ ([' '] ++ v) := List.append_assoc _ _ _
  rw [hline, ← hu, ← List.drop_drop, List.drop_left, hfield]
  exact List.take_left' (length_padded h i)

theorem getElem?_line_bar (h : row ∈ t.rows) (hi : i ≤ t.columnCount) :
    (t.line row)[t.columnStart i]? = some '|' := by
  rcases Nat.lt_or_eq_of_le hi with hlt | rfl
  · obtain ⟨u, v, hline, hu⟩ := exists_line_eq h hlt
    rw [hline, ← hu, List.getElem?_append_right (Nat.le_refl _), Nat.sub_self]
    rfl
  · rw [line_eq, ← length_fields h, List.getElem?_append_right (Nat.le_refl _), Nat.sub_self]
    rfl

/-! ### The text of a table -/

/-- The lines of some rows of the table. -/
def linesOf (t : StateTable) (rows : List (List String)) : List (List Char) :=
  t.rule :: rows.flatMap fun row => [t.line row, t.rule]

theorem linesOf_cons (row : List String) (rows : List (List String)) :
    t.linesOf (row :: rows) = t.rule :: t.line row :: t.linesOf rows := rfl

theorem length_linesOf (rows : List (List String)) : (t.linesOf rows).length = 2 * rows.length + 1 := by
  induction rows with
  | nil => rfl
  | cons row rows ih =>
    rw [linesOf_cons, List.length_cons, List.length_cons, ih, List.length_cons, Nat.mul_succ]

theorem getElem?_linesOf_rule {rows : List (List String)} (hr : r ≤ rows.length) :
    (t.linesOf rows)[2 * r]? = some t.rule := by
  induction rows generalizing r with
  | nil =>
    obtain rfl := Nat.le_zero.1 hr
    rfl
  | cons row rows ih =>
    cases r with
    | zero => rfl
    | succ r => exact ih (Nat.le_of_succ_le_succ hr)

theorem getElem?_linesOf_row {rows : List (List String)} (hr : rows[r]? = some row) :
    (t.linesOf rows)[2 * r + 1]? = some (t.line row) := by
  induction rows generalizing r with
  | nil => cases hr
  | cons row' rows ih =>
    cases r with
    | zero =>
      obtain rfl := Option.some.inj hr
      rfl
    | succ r => exact ih hr

theorem rule_or_row_of_mem_lines {l : List Char} (h : l ∈ t.lines) :
    l = t.rule ∨ ∃ row ∈ t.rows, l = t.line row := by
  rcases List.mem_cons.1 h with rfl | h
  · exact .inl rfl
  · obtain ⟨row, hrow, hl⟩ := List.mem_flatMap.1 h
    rcases List.mem_pair.1 hl with rfl | rfl
    · exact .inr ⟨row, hrow, rfl⟩
    · exact .inl rfl

theorem draws_lines (t : StateTable) : t.Draws t.lines where
  length_eq := length_linesOf t.rows
  length_line l hl := by
    rw [Nat.add_comm]
    rcases rule_or_row_of_mem_lines hl with rfl | ⟨row, hrow, rfl⟩
    · rw [rule_eq, List.length_replicate]
      rfl
    · exact length_line hrow
  rule r hr := ⟨_, (getElem?_linesOf_rule hr).trans (congrArg some rule_eq)⟩
  row r row hrow := by
    have hmem := List.mem_of_getElem? hrow
    exact ⟨t.line row, getElem?_linesOf_row hrow, fun i hi => take_drop_line hmem hi,
      fun i hi => getElem?_line_bar hmem hi⟩
  column_iff _ := lt_columnCount_iff
  widest _ hi := isGreatest_width hi
  fits _ hrow i := length_le_width hrow i

theorem newline_notMem_padded (h : ∀ cell ∈ row, '\n' ∉ cell.toList) (i : Nat) :
    '\n' ∉ t.padded row i := by
  intro hmem
  rcases List.mem_append.1 hmem with hcell | hblank
  · rcases Nat.lt_or_ge i row.length with hlt | hge
    · rw [List.getD_eq_getElem _ _ hlt] at hcell
      exact h row[i] (List.getElem_mem hlt) hcell
    · rw [List.getD_eq_default _ _ hge] at hcell
      cases hcell
  · exact absurd (List.eq_of_mem_replicate hblank) (by decide)

theorem newline_notMem_line (h : ∀ cell ∈ row, '\n' ∉ cell.toList) : '\n' ∉ t.line row := by
  have hfield (i : Nat) : '\n' ∉ t.field row i := by
    have hpadded := newline_notMem_padded (t := t) h i
    simpa [field] using hpadded
  rw [line_eq]
  intro hmem
  rcases List.mem_append.1 hmem with hmem | hmem
  · obtain ⟨i, -, hi⟩ := List.mem_flatMap.1 hmem
    exact hfield i hi
  · exact absurd (List.mem_singleton.1 hmem) (by decide)

theorem splitOn_flatMap_newline {ls : List (List Char)} (h : ∀ l ∈ ls, '\n' ∉ l) :
    (ls.flatMap (· ++ ['\n'])).splitOn '\n' = ls ++ [[]] := by
  induction ls with
  | nil => rfl
  | cons l ls ih =>
    have hls := ih fun l' hl' => h l' (List.mem_cons_of_mem l hl')
    rw [List.flatMap_cons, List.append_assoc, List.singleton_append,
      List.splitOn_append_cons_self_of_not_mem (h l List.mem_cons_self), hls, List.cons_append]

/-- A table of which no cell has a line end is drawn as lines that show it, each of them ended. -/
theorem draw_aligned (t : StateTable) (h : ∀ row ∈ t.rows, ∀ cell ∈ row, '\n' ∉ cell.toList) :
    ∃ ls, t.draw.toList.splitOn '\n' = ls ++ [[]] ∧ t.Draws ls := by
  refine ⟨t.lines, ?_, t.draws_lines⟩
  rw [draw, String.toList_ofList]
  refine splitOn_flatMap_newline fun l hl => ?_
  rcases rule_or_row_of_mem_lines hl with rfl | ⟨row, hrow, rfl⟩
  · rw [rule_eq]
    exact fun hmem => absurd (List.eq_of_mem_replicate hmem) (by decide)
  · exact newline_notMem_line (h row hrow)

/-- The second row has no second cell, the third one no cell at all, and some cells have characters of more
than one byte. -/
theorem draw_aligned_ragged :
    let t : StateTable := ⟨[["δ", "é"], ["->q"], [], ["*äöü", "b", "&"]]⟩
    (∀ row ∈ t.rows, ∀ cell ∈ row, '\n' ∉ cell.toList) ∧
      ∃ ls, t.draw.toList.splitOn '\n' = ls ++ [[]] ∧ t.Draws ls ∧ ls.length = 9 ∧ t.columnCount = 3 ∧
        t.width 0 = 4 ∧ t.padded ["->q"] 1 = [' '] ∧
        ∃ l, ls[3]? = some l ∧ (l.drop (t.columnStart 0 + 2)).take 4 = ['-', '>', 'q', ' '] := by
  intro t
  have hcells : ∀ row ∈ t.rows, ∀ cell ∈ row, '\n' ∉ cell.toList := by decide
  obtain ⟨ls, hsplit, hdraws⟩ := draw_aligned t hcells
  obtain ⟨l, hl, htext, -⟩ := hdraws.row 1 ["->q"] rfl
  exact ⟨hcells, ls, hsplit, hdraws, hdraws.length_eq, by decide, by decide, by decide, l, hl,
    htext 0 (by decide)⟩

end RegularLanguages.StateTable
