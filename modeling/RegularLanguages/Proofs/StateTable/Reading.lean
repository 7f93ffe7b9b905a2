import RegularLanguages.Proofs.Automaton.Grants
import RegularLanguages.Proofs.StateTable.RoundTrip
/-!
# Which tables are read

What a table says is told by its cells: which columns it has, what its rows declare and which targets they
list. It is read if that makes sense as an automaton (`Valid`), and is read as that automaton (`Describes`).
Each pass of the reading checks something and requests the rest of a draft (`foldlM_readCell_eq_ok`,
`foldlM_readRow_eq_ok`), so the whole comes down to some checks and a sequence of requests (`toAutomaton_eq_ok`).
-/

namespace RegularLanguages

namespace StateTable

open Text

/-! ### What a table says -/

/-- The text of a cell, without the blanks around it; a cell that is not there is blank. -/
def cellText (row : List String) (i : Nat) : List Char := trim (row.getD i "").toList

/-- What a row declares. -/
def declaration (row : List String) : Declaration := readMarks false false (cellText row 0)

variable (t : StateTable)

def header : List String := t.rows.headD []

def body : List (List String) := t.rows.tail

/-- The column is under a character. -/
def Column (i : Nat) (c : Char) : Prop := 0 < i ∧ cellText t.header i = [c]

def declarations : List Declaration := t.body.map declaration

def declaredNames : List (List Char) := t.declarations.map (·.name)

/-- A cell lists a target. -/
def Lists (row : List String) (i : Nat) (target : List Char) : Prop :=
  cellText row i ≠ [] ∧ cellText row i ≠ dashCell ∧ target ∈ readTargets t.declaredNames (cellText row i)

/-- The table makes sense as an automaton. -/
structure Valid (t : StateTable) : Prop where
  has_header : t.rows ≠ []
  header_cell {i : Nat} : 0 < i → cellText t.header i = [] ∨
    ∃ c, cellText t.header i = [c] ∧ (c = epsilonChar ∨ Symbol.isValid c = true)
  column_unique {i j : Nat} {c : Char} : t.Column i c → t.Column j c → i = j
  name_ne_nil {d : Declaration} : d ∈ t.declarations → d.name ≠ []
  names_nodup : t.declaredNames.Nodup
  one_initial : t.declarations.countP (·.isInitial) = 1
  target_declared {row : List String} {i : Nat} {c : Char} {target : List Char} :
    row ∈ t.body → t.Column i c → t.Lists row i target → target ∈ t.declaredNames

/-- The automaton has a state for each row, in order, and the symbols, marks and edges of the table. -/
structure Describes (t : StateTable) (A : Automaton) : Prop where
  names_eq : A.names = (t.declarations.map fun d => StateName.atom (String.ofList d.name)).toArray
  symbol_iff {x : Symbol} : x ∈ A.alphabet ↔ ∃ i, t.Column i x.char
  initial_iff {q : State} : A.initial = some q ↔ ∃ d, t.declarations[q]? = some d ∧ d.isInitial = true
  final_iff {q : State} : q ∈ A.finals ↔ ∃ d, t.declarations[q]? = some d ∧ d.isFinal = true
  target_iff {p q : State} {l : Label} : q ∈ A.targets p l ↔ ∃ row i d, t.body[p]? = some row ∧
    t.Column i l.char ∧ t.declarations[q]? = some d ∧ t.Lists row i d.name

/-! ### What a reading requests -/

/-- The column of a header cell, unless the cell is blank. -/
def columnAt (cell : String × Nat) : List (Nat × Char) :=
  match trim cell.1.toList with
  | [c] => [(cell.2, c)]
  | _ => []

/-- The cells of the header after the first, with their places. -/
def headerCells : List (String × Nat) := t.header.zipIdx.drop 1

def columns : List (Nat × Char) := t.headerCells.flatMap columnAt

/-- The symbols of columns. -/
def symbolRequests (columns : List (Nat × Char)) : List Draft.Request :=
  ((columns.map (·.2)).filter (· ≠ epsilonChar)).map .symbol

def Declaration.request (d : Declaration) : Draft.Request :=
  .state (String.ofList d.name) d.isInitial d.isFinal

def edges : List (String × Char × String) := listedEdges t.columns t.declaredNames t.body

/-- What is requested before any target is read. -/
def openings : List Draft.Request :=
  symbolRequests t.columns ++ t.declarations.map Declaration.request

def requests : List Draft.Request := t.openings ++ t.edges.map fun e => .edge e.1 e.2.1 e.2.2

variable {t : StateTable} {A : Automaton} {D : Draft} {cell : String × Nat} {cells : List (String × Nat)}
  {row : List String} {rows : List (List String)} {target : List Char} {ds : List Declaration}
  {rs : List Draft.Request} {i : Nat} {c : Char} {h h' : Header} {d d' : Declared}

theorem mem_columnAt {col : Nat × Char} :
    col ∈ columnAt cell ↔ col.1 = cell.2 ∧ trim cell.1.toList = [col.2] := by
  obtain ⟨i, c⟩ := col
  unfold columnAt
  split
  · rename_i c' htrim
    rw [List.mem_singleton, Prod.mk.injEq, htrim, List.singleton_inj, eq_comm (a := c)]
  · rename_i hone
    exact iff_of_false List.not_mem_nil fun hc => hone c hc.2

theorem symbolRequests_append (us vs : List (Nat × Char)) :
    symbolRequests (us ++ vs) = symbolRequests us ++ symbolRequests vs := by
  simp [symbolRequests]

/-! ### The header -/

theorem header_unchanged_iff : (.ok h : Except Error Header) = .ok h' ↔
    h'.columns = h.columns ++ [] ∧ h.draft.grant (symbolRequests []) = .ok h'.draft := by
  obtain ⟨cols, D⟩ := h
  obtain ⟨cols', D'⟩ := h'
  rw [List.append_nil]
  constructor
  · rintro ⟨⟩
    exact ⟨rfl, rfl⟩
  · rintro ⟨rfl, hD⟩
    obtain rfl : D = D' := Except.ok.inj hD
    rfl

theorem grant_symbolRequests_singleton : D.grant (symbolRequests [(i, c)]) =
    if c = epsilonChar then .ok D else D.addSymbol c := by
  by_cases hc : c = epsilonChar
  · rw [if_pos hc, hc]
    rfl
  · have hsymbol : symbolRequests [(i, c)] = [.symbol c] := by simp [symbolRequests, hc]
    rw [if_neg hc, hsymbol]
    exact bind_pure (D.addSymbol c)

/-- A header cell is blank, or a column under a character that there is no column for yet. -/
theorem readCell_eq_ok (hc : (h.columns.map (·.2)).Nodup) : h.read cell.2 cell.1 = .ok h' ↔
    (trim cell.1.toList).length ≤ 1 ∧ ((h.columns ++ columnAt cell).map (·.2)).Nodup ∧
      h'.columns = h.columns ++ columnAt cell ∧
      h.draft.grant (symbolRequests (columnAt cell)) = .ok h'.draft := by
  unfold Header.read columnAt
  split
  · rename_i htrim
    rw [htrim, header_unchanged_iff]
    simp [hc]
  · rename_i c htrim
    have hany : h.columns.any (·.2 = c) = true ↔ c ∈ h.columns.map (·.2) := by simp
    have hnodup : ((h.columns ++ [(cell.2, c)]).map (·.2)).Nodup ↔ c ∉ h.columns.map (·.2) := by
      rw [List.map_append, List.map_singleton, ← List.concat_eq_append, List.nodup_concat]
      exact and_iff_left hc
    rw [htrim, grant_symbolRequests_singleton]
    simp only [hany, hnodup]
    by_cases hdup : c ∈ h.columns.map (·.2)
    · rw [if_pos hdup]
      exact iff_of_false (fun hok => by cases hok) fun hok => hok.2.1 hdup
    · rw [if_neg hdup]
      generalize hcols : h.columns ++ [(cell.2, c)] = cols
      -- the draft is what the label asks for, and the column is added in either case
      have hread : (if c = epsilonChar then (do let D ← .ok h.draft; return ⟨cols, D⟩)
            else (do let D ← h.draft.addSymbol c; return ⟨cols, D⟩) : Except Error Header) =
          (do let D ← (if c = epsilonChar then .ok h.draft else h.draft.addSymbol c); return ⟨cols, D⟩) := by
        split <;> rfl
      rw [hread, bind_eq_ok]
      constructor
      · rintro ⟨D, hD, ⟨⟩⟩
        exact ⟨Nat.le_refl 1, hdup, rfl, hD⟩
      · rintro ⟨-, -, rfl, hD⟩
        exact ⟨h'.draft, hD, rfl⟩
  · rename_i hnil hone
    refine iff_of_false (fun hok => by cases hok) fun hok => ?_
    rcases Nat.le_one_iff_eq_zero_or_eq_one.1 hok.1 with hlen | hlen
    · exact hnil (List.length_eq_zero_iff.1 hlen)
    · obtain ⟨c, hc⟩ := List.length_eq_one_iff.1 hlen
      exact hone c hc

/-- Header cells are read if each is blank or one character, none of them twice, and symbols are granted. -/
theorem foldlM_readCell_eq_ok (hc : (h.columns.map (·.2)).Nodup) :
    cells.foldlM (fun (h : Header) (cell, i) => h.read i cell) h = .ok h' ↔
      (∀ cell ∈ cells, (trim cell.1.toList).length ≤ 1) ∧
      ((h.columns ++ cells.flatMap columnAt).map (·.2)).Nodup ∧
      h'.columns = h.columns ++ cells.flatMap columnAt ∧
      h.draft.grant (symbolRequests (cells.flatMap columnAt)) = .ok h'.draft := by
  induction cells generalizing h with
  | nil =>
    rw [List.foldlM_nil]
    refine header_unchanged_iff.trans ?_
    simp [hc]
  | cons cell cells ih =>
    rw [List.foldlM_cons, bind_eq_ok, List.forall_mem_cons, List.flatMap_cons, symbolRequests_append,
      Draft.grant_append, ← List.append_assoc]
    constructor
    · rintro ⟨k, hk, hrest⟩
      obtain ⟨hlen, hnodup, hcols, hgrant⟩ := (readCell_eq_ok hc).1 hk
      rw [← hcols] at hnodup ⊢
      obtain ⟨hlens, hnodup, hcols, hgrants⟩ := (ih hnodup).1 hrest
      exact ⟨⟨hlen, hlens⟩, hnodup, hcols, k.draft, hgrant, hgrants⟩
    · rintro ⟨⟨hlen, hlens⟩, hnodup, hcols, E, hgrant, hgrants⟩
      have hfirst : ((h.columns ++ columnAt cell).map (·.2)).Nodup := by
        rw [List.map_append] at hnodup
        exact (List.nodup_append.1 hnodup).1
      refine ⟨⟨h.columns ++ columnAt cell, E⟩, ?_, ?_⟩
      · exact (readCell_eq_ok hc).2 ⟨hlen, hfirst, rfl, hgrant⟩
      · exact (ih hfirst).2 ⟨hlens, hnodup, hcols, hgrants⟩

/-! ### The rows -/

/-- A row is read if it declares a state under a name that is not blank and not taken. -/
theorem readRow_eq_ok : d.read row = .ok d' ↔
    (declaration row).name ≠ [] ∧ (declaration row).name ∉ d.names ∧
      d'.names = d.names ++ [(declaration row).name] ∧
      d.draft.request (declaration row).request = .ok d'.draft := by
  have hlabel : trim (row.headD "").toList = cellText row 0 := by cases row <;> rfl
  unfold Declared.read
  rw [hlabel]
  change (do
    if (declaration row).name.isEmpty then throw _
    if (declaration row).name ∈ d.names then throw _
    let D ← d.draft.request (declaration row).request
    return ⟨d.names ++ [(declaration row).name], D⟩ : Except Error Declared) = _ ↔ _
  generalize declaration row = e
  by_cases hnil : e.name = []
  · rw [if_pos (List.isEmpty_iff.2 hnil)]
    exact iff_of_false (fun hok => by cases hok) fun hok => hok.1 hnil
  · rw [if_neg (fun hempty => hnil (List.isEmpty_iff.1 hempty))]
    by_cases hmem : e.name ∈ d.names
    · rw [if_pos hmem]
      exact iff_of_false (fun hok => by cases hok) fun hok => hok.2.1 hmem
    · rw [if_neg hmem]
      change (do let D ← d.draft.request e.request; return Declared.mk (d.names ++ [e.name]) D) = _ ↔ _
      rw [bind_eq_ok]
      constructor
      · rintro ⟨D, hD, ⟨⟩⟩
        exact ⟨hnil, hmem, rfl, hD⟩
      · rintro ⟨-, -, hnames, hD⟩
        refine ⟨d'.draft, hD, ?_⟩
        rw [← hnames]
        rfl

/-- Rows are read if they declare states under different names, and the states are granted. -/
theorem foldlM_readRow_eq_ok (hd : d.names.Nodup) : rows.foldlM Declared.read d = .ok d' ↔
    (∀ e ∈ rows.map declaration, e.name ≠ []) ∧
      (d.names ++ (rows.map declaration).map (·.name)).Nodup ∧
      d'.names = d.names ++ (rows.map declaration).map (·.name) ∧
      d.draft.grant ((rows.map declaration).map Declaration.request) = .ok d'.draft := by
  induction rows generalizing d with
  | nil =>
    obtain ⟨names, D⟩ := d
    obtain ⟨names', D'⟩ := d'
    constructor
    · rintro ⟨⟩
      exact ⟨by simp, by simpa using hd, by simp, rfl⟩
    · rintro ⟨-, -, hnames, hD⟩
      obtain rfl : names' = names := hnames.trans (List.append_nil names)
      obtain rfl : D = D' := Except.ok.inj hD
      rfl
  | cons row rows ih =>
    simp only [List.foldlM_cons, bind_eq_ok, List.map_cons, List.forall_mem_cons, Draft.grant]
    rw [List.append_cons]
    constructor
    · rintro ⟨k, hk, hrest⟩
      obtain ⟨hne, hnew, hnames, hgrant⟩ := readRow_eq_ok.1 hk
      have hnodup : k.names.Nodup := by
        rw [hnames, ← List.concat_eq_append, List.nodup_concat]
        exact ⟨hnew, hd⟩
      obtain ⟨hnes, hnodup, hrest, hgrants⟩ := (ih hnodup).1 hrest
      rw [hnames] at hnodup hrest
      exact ⟨⟨hne, hnes⟩, hnodup, hrest, k.draft, hgrant, hgrants⟩
    · rintro ⟨⟨hne, hnes⟩, hnodup, hnames, E, hgrant, hgrants⟩
      have hfirst := (List.nodup_append.1 hnodup).1
      have hnew : (declaration row).name ∉ d.names := by
        rw [← List.concat_eq_append, List.nodup_concat] at hfirst
        exact hfirst.1
      refine ⟨⟨d.names ++ [(declaration row).name], E⟩, ?_, ?_⟩
      · exact readRow_eq_ok.2 ⟨hne, hnew, rfl, hgrant⟩
      · exact (ih hfirst).2 ⟨hnes, hnodup, hnames, hgrants⟩

/-! ### The whole table -/

/-- A table is read if its header and its rows are, and all that is requested is granted. -/
theorem toAutomaton_eq_ok : t.toAutomaton = .ok A ↔ t.rows ≠ [] ∧
    (∀ cell ∈ t.headerCells, (trim cell.1.toList).length ≤ 1) ∧ (t.columns.map (·.2)).Nodup ∧
    (∀ d ∈ t.declarations, d.name ≠ []) ∧ t.declaredNames.Nodup ∧
    ∃ D, Draft.empty.grant t.requests = .ok D ∧ D.automaton.initial ≠ none ∧ D.automaton = A := by
  obtain ⟨_ | ⟨header, body⟩⟩ := t
  · exact iff_of_false (fun hok => by cases hok) fun hok => hok.1 rfl
  have hedges (D : Draft) (es : List (String × Char × String)) :
      es.foldlM (fun (D : Draft) e => D.addEdge e.1 e.2.1 e.2.2) D =
        D.grant (es.map fun e => .edge e.1 e.2.1 e.2.2) := by
    rw [Draft.grant, List.foldlM_map]
    rfl
  have hstart : ((Header.mk [] .empty).columns.map (·.2)).Nodup := List.nodup_nil
  rw [toAutomaton]
  simp only [bind_eq_ok]
  constructor
  · rintro ⟨h, hh, d, hd, D, hD, hA⟩
    obtain ⟨hlen, hunique, hcols, hsymbols⟩ := (foldlM_readCell_eq_ok hstart).1 hh
    obtain ⟨hne, hnodup, hnames, hstates⟩ := (foldlM_readRow_eq_ok List.nodup_nil).1 hd
    rw [hcols, hnames] at hD
    have hD := (hedges _ _).symm.trans hD
    refine ⟨List.cons_ne_nil _ _, hlen, hunique, hne, hnodup, D, ?_, ?_⟩
    · exact Draft.grant_append.2 ⟨d.draft, Draft.grant_append.2 ⟨h.draft, hsymbols, hstates⟩, hD⟩
    · split at hA
      · cases hA
      · rename_i hinitial
        exact ⟨fun hno => hinitial (Option.isNone_iff_eq_none.2 hno), Except.ok.inj hA⟩
  · rintro ⟨-, hlen, hunique, hne, hnodup, D, hD, hinitial, rfl⟩
    obtain ⟨F, hF, hD⟩ := Draft.grant_append.1 hD
    obtain ⟨E, hE, hF⟩ := Draft.grant_append.1 hF
    refine ⟨⟨_, E⟩, (foldlM_readCell_eq_ok hstart).2 ⟨hlen, hunique, rfl, hE⟩, ⟨_, F⟩,
      (foldlM_readRow_eq_ok List.nodup_nil).2 ⟨hne, hnodup, rfl, hF⟩, D, (hedges _ _).trans hD, ?_⟩
    rw [if_neg fun hno => hinitial (Option.isNone_iff_eq_none.1 hno)]
    rfl

/-! ### What the cells say -/

theorem mem_headerCells :
    cell ∈ t.headerCells ↔ 0 < cell.2 ∧ t.header[cell.2]? = some cell.1 := by
  obtain ⟨text, i⟩ := cell
  unfold headerCells
  cases t.header with
  | nil => simp
  | cons corner cells =>
    rw [List.zipIdx_cons, List.drop_one, List.tail_cons, List.mk_mem_zipIdx_iff_le_and_getElem?_sub]
    refine and_congr_right fun hi => ?_
    obtain ⟨k, rfl⟩ := Nat.exists_eq_add_of_le' hi
    simp

theorem cellText_of_getElem? {text : String} (h : row[i]? = some text) :
    cellText row i = trim text.toList := by
  rw [cellText, List.getD_eq_getElem?_getD, h]
  rfl

theorem cellText_of_getElem?_none (h : row[i]? = none) : cellText row i = [] := by
  rw [cellText, List.getD_eq_getElem?_getD, h]
  rfl

theorem mem_columns {col : Nat × Char} : col ∈ t.columns ↔ t.Column col.1 col.2 := by
  rw [columns, List.mem_flatMap, Column]
  simp only [mem_columnAt, mem_headerCells]
  constructor
  · rintro ⟨cell, ⟨hi, hcell⟩, hcol, htrim⟩
    rw [hcol]
    exact ⟨hi, (cellText_of_getElem? hcell).trans htrim⟩
  · rintro ⟨hi, htext⟩
    cases hcell : t.header[col.1]? with
    | none =>
      rw [cellText_of_getElem?_none hcell] at htext
      cases htext
    | some text => exact ⟨(text, col.1), ⟨hi, hcell⟩, rfl, cellText_of_getElem? hcell ▸ htext⟩

theorem header_cells_iff : (∀ cell ∈ t.headerCells, (trim cell.1.toList).length ≤ 1) ↔
    ∀ i, 0 < i → (cellText t.header i).length ≤ 1 := by
  simp only [mem_headerCells]
  constructor
  · intro h i hi
    cases hcell : t.header[i]? with
    | none => simp [cellText_of_getElem?_none hcell]
    | some text => exact cellText_of_getElem? hcell ▸ h (text, i) ⟨hi, hcell⟩
  · rintro h cell ⟨hi, hcell⟩
    exact cellText_of_getElem? hcell ▸ h cell.2 hi

theorem nodup_columns (t : StateTable) : t.columns.Nodup := by
  have hplaces : t.headerCells.Pairwise fun a b => a.2 ≠ b.2 := by
    refine List.Pairwise.sublist (List.drop_sublist 1 _) (List.pairwise_map.1 ?_)
    rw [List.zipIdx_map_snd]
    exact List.nodup_range'
  refine List.nodup_flatMap.2 ⟨fun cell _ => ?_, hplaces.imp fun {a b} hab col ha hb => ?_⟩
  · unfold columnAt
    split <;> simp
  · exact hab ((mem_columnAt.1 ha).1.symm.trans (mem_columnAt.1 hb).1)

theorem columns_unique_iff : (t.columns.map (·.2)).Nodup ↔
    ∀ i j c, t.Column i c → t.Column j c → i = j := by
  rw [List.nodup_map_iff_inj_on t.nodup_columns]
  simp only [mem_columns]
  constructor
  · intro h i j c hi hj
    exact congrArg Prod.fst (h (i, c) hi (j, c) hj rfl)
  · rintro h ⟨i, c⟩ hi ⟨j, _⟩ hj rfl
    exact congrArg (·, c) (h i j c hi hj)

theorem mem_rowTargets : target ∈ rowTargets t.declaredNames row i ↔ t.Lists row i target := by
  rw [rowTargets, Lists]
  cases h : row[i]? with
  | none =>
    rw [cellText_of_getElem?_none h]
    exact iff_of_false (by simp) fun hlists => hlists.1 rfl
  | some text =>
    rw [cellText_of_getElem? h]
    simp only [List.isEmpty_iff]
    by_cases hnone : trim text.toList = [] ∨ trim text.toList = dashCell
    · rw [if_pos hnone]
      exact iff_of_false List.not_mem_nil fun hlists => hnone.elim hlists.1 hlists.2.1
    · rw [if_neg hnone]
      obtain ⟨hblank, hdash⟩ := not_or.1 hnone
      exact ⟨fun hmem => ⟨hblank, hdash, hmem⟩, fun hlists => hlists.2.2⟩

theorem declaredNames_eq (t : StateTable) :
    t.declaredNames = t.body.map fun row => (declaration row).name := by
  rw [declaredNames, declarations, List.map_map]
  rfl

theorem mem_edges {src dst : String} : (src, c, dst) ∈ t.edges ↔ ∃ row ∈ t.body, ∃ i target,
    t.Column i c ∧ t.Lists row i target ∧ src = String.ofList (declaration row).name ∧
      dst = String.ofList target := by
  have hzip : t.body.zip t.declaredNames = t.body.map fun row => (row, (declaration row).name) := by
    rw [declaredNames_eq]
    simpa using List.zip_map' (f := id) (g := fun row => (declaration row).name) (l := t.body)
  rw [edges, listedEdges, hzip]
  simp only [List.mem_flatMap, List.mem_map, Prod.exists, mem_columns, mem_rowTargets, Prod.mk.injEq]
  constructor
  · rintro ⟨_, _, ⟨row, hrow, rfl, rfl⟩, i, c, hcol, target, hlists, rfl, rfl, rfl⟩
    exact ⟨row, hrow, i, target, hcol, hlists, rfl, rfl⟩
  · rintro ⟨row, hrow, i, target, hcol, hlists, rfl, rfl⟩
    exact ⟨row, _, ⟨row, hrow, rfl, rfl⟩, i, c, hcol, target, hlists, rfl, rfl, rfl⟩

/-! ### What is requested -/

theorem symbol_mem_openings : .symbol c ∈ t.openings ↔ c ≠ epsilonChar ∧ ∃ i, t.Column i c := by
  simp [openings, symbolRequests, Declaration.request, mem_columns, and_comm]

theorem state_mem_openings {name : String} {isInitial isFinal : Bool} :
    .state name isInitial isFinal ∈ t.openings ↔
      ∃ d ∈ t.declarations, d.request = .state name isInitial isFinal := by
  simp [openings, symbolRequests]

theorem exists_state_mem_openings {name : List Char} :
    (∃ isInitial isFinal, .state (String.ofList name) isInitial isFinal ∈ t.openings) ↔
      name ∈ t.declaredNames := by
  simp only [state_mem_openings, Declaration.request, Draft.Request.state.injEq, String.ofList_inj,
    declaredNames, List.mem_map]
  constructor
  · rintro ⟨_, _, d, hd, hname, -⟩
    exact ⟨d, hd, hname⟩
  · rintro ⟨d, hd, rfl⟩
    exact ⟨_, _, d, hd, rfl, rfl, rfl⟩

theorem symbol_mem_requests : .symbol c ∈ t.requests ↔ .symbol c ∈ t.openings := by
  simp [requests]

theorem state_mem_requests {name : String} {isInitial isFinal : Bool} :
    .state name isInitial isFinal ∈ t.requests ↔ .state name isInitial isFinal ∈ t.openings := by
  simp [requests]

theorem edge_mem_requests {src dst : String} : .edge src c dst ∈ t.requests ↔ (src, c, dst) ∈ t.edges := by
  simp [requests, openings, symbolRequests, Declaration.request]

/-- One state at most is to be initial, and none if there was an initial state before. -/
theorem fitInTurn_states : Draft.FitInTurn rs (ds.map Declaration.request) ↔
    ds.countP (·.isInitial) = 0 ∨
      ds.countP (·.isInitial) = 1 ∧ ∀ name isFinal, .state name true isFinal ∉ rs := by
  induction ds generalizing rs with
  | nil => simp [Draft.FitInTurn]
  | cons d ds ih =>
    obtain ⟨name, isInitial, isFinal⟩ := d
    rw [List.map_cons, Draft.FitInTurn, ih, Declaration.request, Draft.Fits]
    cases isInitial with
    | false => simp
    | true =>
      have hnow : ¬∀ n f, .state n true f ∉ rs ++ [.state (String.ofList name) true isFinal] :=
        fun hno => hno _ _ (List.mem_append_right _ List.mem_cons_self)
      rw [List.countP_cons_of_pos rfl, Nat.add_eq_right]
      constructor
      · rintro ⟨hnone, hcount | ⟨-, hno⟩⟩
        · exact .inr ⟨hcount, hnone rfl⟩
        · exact absurd hno hnow
      · rintro (hcount | ⟨hcount, hnone⟩)
        · exact absurd hcount (Nat.succ_ne_zero _)
        · exact ⟨fun _ => hnone, .inl hcount⟩

/-- Edges fit what is requested before them if their targets are declared. -/
theorem fits_edges_iff (hvalid : ∀ i c, t.Column i c → c = epsilonChar ∨ Symbol.isValid c = true) :
    (∀ e ∈ t.edges, Draft.Fits t.openings (.edge e.1 e.2.1 e.2.2)) ↔
    ∀ row ∈ t.body, ∀ i c target, t.Column i c → t.Lists row i target → target ∈ t.declaredNames := by
  constructor
  · intro h row hrow i c target hcol hlists
    obtain ⟨-, hdst, -⟩ := h (_, c, _) (mem_edges.2 ⟨row, hrow, i, target, hcol, hlists, rfl, rfl⟩)
    exact exists_state_mem_openings.1 hdst
  · rintro h ⟨src, c, dst⟩ he
    obtain ⟨row, hrow, i, target, hcol, hlists, rfl, rfl⟩ := mem_edges.1 he
    have hsrc : (declaration row).name ∈ t.declaredNames := by
      rw [declaredNames_eq]
      exact List.mem_map_of_mem hrow
    refine ⟨exists_state_mem_openings.2 hsrc,
      exists_state_mem_openings.2 (h row hrow i c target hcol hlists), ?_⟩
    by_cases hc : c = epsilonChar
    · exact .inl hc
    · exact .inr ⟨(hvalid i c hcol).resolve_left hc, symbol_mem_openings.2 ⟨hc, i, hcol⟩⟩

/-- All that a table requests is granted if its columns can be labels, it has one initial state at most, and
all targets are declared. -/
theorem exists_grant_requests_iff : (∃ D, Draft.empty.grant t.requests = .ok D) ↔
    (∀ i c, t.Column i c → c = epsilonChar ∨ Symbol.isValid c = true) ∧
      t.declarations.countP (·.isInitial) ≤ 1 ∧
      ∀ row ∈ t.body, ∀ i c target, t.Column i c → t.Lists row i target → target ∈ t.declaredNames := by
  have hsymbols : Draft.FitInTurn [] (symbolRequests t.columns) ↔
      ∀ i c, t.Column i c → c = epsilonChar ∨ Symbol.isValid c = true := by
    rw [symbolRequests, Draft.fitInTurn_symbols]
    simp only [List.mem_filter, List.mem_map, decide_eq_true_iff, mem_columns, and_imp,
      forall_exists_index]
    constructor
    · intro h i c hcol
      exact or_iff_not_imp_left.2 (h c (i, c) hcol rfl)
    · rintro h c col hcol rfl hne
      exact (h col.1 col.2 hcol).resolve_left hne
  have hstates : Draft.FitInTurn (symbolRequests t.columns) (t.declarations.map Declaration.request) ↔
      t.declarations.countP (·.isInitial) ≤ 1 := by
    have hno : ∀ name isFinal, .state name true isFinal ∉ symbolRequests t.columns := by
      simp [symbolRequests]
    rw [fitInTurn_states, and_iff_left hno, Nat.le_one_iff_eq_zero_or_eq_one]
  rw [Draft.Records.empty.exists_grant_iff, requests, Draft.fitInTurn_append, List.nil_append,
    Draft.fitInTurn_edges, openings, Draft.fitInTurn_append, List.nil_append, hsymbols, hstates, and_assoc]
  exact and_congr_right fun hvalid => and_congr_right fun _ => fits_edges_iff hvalid

/-! ### What is read -/

/-- Under a map that tells its elements apart, a list has an element where the mapped list has its image. -/
theorem getElem?_map_eq_some_of_nodup {α β : Type} {l : List α} {f : α → β} {a : α} {k : Nat}
    (hl : (l.map f).Nodup) (ha : a ∈ l) : (l.map f)[k]? = some (f a) ↔ l[k]? = some a := by
  rw [List.getElem?_map, Option.map_eq_some_iff]
  constructor
  · rintro ⟨b, hget, hf⟩
    rwa [List.inj_on_of_nodup_map hl (List.mem_of_getElem? hget) ha hf] at hget
  · intro hget
    exact ⟨a, hget, rfl⟩

section Granted

variable (hD : Draft.empty.grant t.requests = .ok D)
include hD

theorem records_requests : D.Records t.requests := Draft.Records.empty.grant hD

theorem indexed_requests : D.Indexed :=
  Draft.requests_of_grant hD ▸ Draft.indexed_empty.requests _

theorem initial_eq_none_iff_countP : D.automaton.initial = none ↔ t.declarations.countP (·.isInitial) = 0 := by
  rw [(records_requests hD).initial_eq_none_iff, List.countP_eq_zero]
  simp only [state_mem_requests, state_mem_openings]
  constructor
  · intro h d hd hi
    exact h _ d.isFinal ⟨d, hd, by rw [Declaration.request, hi]⟩
  · rintro h name isFinal ⟨d, hd, hreq⟩
    exact h d hd (Draft.Request.state.inj hreq).2.1

variable (hn : t.declaredNames.Nodup)
include hn

theorem names_eq : D.automaton.names =
    (t.declarations.map fun d => StateName.atom (String.ofList d.name)).toArray := by
  have hnames : t.requests.filterMap Draft.Request.name? = t.declaredNames.map String.ofList := by
    simp [requests, openings, symbolRequests, declaredNames, List.filterMap_map, Function.comp_def,
      Draft.Request.name?, Declaration.request]
  have hnodup : (t.requests.filterMap Draft.Request.name?).Nodup := by
    rw [hnames]
    exact hn.map fun _ _ => String.ofList_inj.1
  rw [Draft.Records.empty.names_grant hD hnodup, hnames, declaredNames, List.map_map, List.map_map]
  exact Array.empty_append

theorem get?_eq_some_iff {name : List Char} {q : State} :
    D.index.get? (String.ofList name) = some q ↔ t.declaredNames[q]? = some name := by
  rw [(indexed_requests hD).get?_eq_some, names_eq hD hn]
  simp [declaredNames, String.ofList_inj]

theorem get?_declaration {e : Declaration} {q : State} (he : e ∈ t.declarations) :
    D.index.get? (String.ofList e.name) = some q ↔ t.declarations[q]? = some e := by
  rw [get?_eq_some_iff hD hn]
  exact getElem?_map_eq_some_of_nodup hn he

theorem get?_row {q : State} (hrow : row ∈ t.body) :
    D.index.get? (String.ofList (declaration row).name) = some q ↔ t.body[q]? = some row := by
  rw [get?_eq_some_iff hD hn, declaredNames_eq]
  exact getElem?_map_eq_some_of_nodup (declaredNames_eq t ▸ hn) hrow

/-- What is granted is the automaton that the table describes. -/
theorem describes_requests : t.Describes D.automaton := by
  have hrec := records_requests hD
  refine ⟨names_eq hD hn, fun {x} => ?_, fun {q} => ?_, fun {q} => ?_, fun {p q l} => ?_⟩
  · rw [hrec.symbol_iff, symbol_mem_requests, symbol_mem_openings, and_iff_right x.char_ne_epsilonChar]
  · rw [hrec.initial_iff]
    simp only [state_mem_requests, state_mem_openings]
    constructor
    · rintro ⟨name, isFinal, ⟨e, he, hreq⟩, hq⟩
      obtain ⟨rfl, hi, -⟩ := Draft.Request.state.inj hreq
      exact ⟨e, (get?_declaration hD hn he).1 hq, hi⟩
    · rintro ⟨e, hget, hi⟩
      have he := List.mem_of_getElem? hget
      exact ⟨_, e.isFinal, ⟨e, he, by rw [Declaration.request, hi]⟩, (get?_declaration hD hn he).2 hget⟩
  · rw [hrec.final_iff]
    simp only [state_mem_requests, state_mem_openings]
    constructor
    · rintro ⟨name, isInitial, ⟨e, he, hreq⟩, hq⟩
      obtain ⟨rfl, -, hf⟩ := Draft.Request.state.inj hreq
      exact ⟨e, (get?_declaration hD hn he).1 hq, hf⟩
    · rintro ⟨e, hget, hf⟩
      have he := List.mem_of_getElem? hget
      exact ⟨_, e.isInitial, ⟨e, he, by rw [Declaration.request, hf]⟩, (get?_declaration hD hn he).2 hget⟩
  · rw [hrec.target_iff]
    simp only [edge_mem_requests, mem_edges]
    constructor
    · rintro ⟨src, dst, ⟨row, hrow, i, target, hcol, hlists, rfl, rfl⟩, hp, hq⟩
      rw [get?_eq_some_iff hD hn, declaredNames, List.getElem?_map, Option.map_eq_some_iff] at hq
      obtain ⟨e, hget, rfl⟩ := hq
      exact ⟨row, i, e, (get?_row hD hn hrow).1 hp, hcol, hget, hlists⟩
    · rintro ⟨row, i, e, hget, hcol, hdst, hlists⟩
      have hrow := List.mem_of_getElem? hget
      exact ⟨_, _, ⟨row, hrow, i, e.name, hcol, hlists, rfl, rfl⟩, (get?_row hD hn hrow).2 hget,
        (get?_declaration hD hn (List.mem_of_getElem? hdst)).2 hdst⟩

end Granted

/-- A table is read if and only if it makes sense as an automaton. -/
theorem exists_toAutomaton_iff : (∃ A, t.toAutomaton = .ok A) ↔ t.Valid := by
  simp only [toAutomaton_eq_ok, header_cells_iff, columns_unique_iff]
  constructor
  · rintro ⟨_, hrows, hlen, hunique, hne, hnodup, D, hD, hinitial, rfl⟩
    obtain ⟨hvalid, hcount, htargets⟩ := exists_grant_requests_iff.1 ⟨D, hD⟩
    have hsome := mt (initial_eq_none_iff_countP hD).2 hinitial
    refine ⟨hrows, fun {i} hi => ?_, hunique _ _ _, hne _, hnodup, by omega,
      fun hrow => htargets _ hrow _ _ _⟩
    rcases Nat.le_one_iff_eq_zero_or_eq_one.1 (hlen i hi) with hblank | hone
    · exact .inl (List.length_eq_zero_iff.1 hblank)
    · obtain ⟨c, hc⟩ := List.length_eq_one_iff.1 hone
      exact .inr ⟨c, hc, hvalid i c ⟨hi, hc⟩⟩
  · intro h
    have hvalid : ∀ i c, t.Column i c → c = epsilonChar ∨ Symbol.isValid c = true := by
      rintro i c ⟨hi, hc⟩
      rcases h.header_cell hi with hblank | ⟨c', hc', hlabel⟩
      · rw [hc] at hblank
        cases hblank
      · obtain rfl := List.singleton_inj.1 (hc.symm.trans hc')
        exact hlabel
    obtain ⟨D, hD⟩ := exists_grant_requests_iff.2 ⟨hvalid, h.one_initial.le,
      fun row hrow i c target => h.target_declared hrow⟩
    refine ⟨_, h.has_header, fun i hi => ?_, fun i j c => h.column_unique, fun d => h.name_ne_nil,
      h.names_nodup, D, hD, fun hno => ?_, rfl⟩
    · rcases h.header_cell hi with hblank | ⟨c, hc, -⟩
      · simp [hblank]
      · simp [hc]
    · have hnone := (initial_eq_none_iff_countP hD).1 hno
      rw [h.one_initial] at hnone
      cases hnone

/-- A table can be checked by reading it. -/
instance (t : StateTable) : Decidable t.Valid :=
  decidable_of_iff (t.toAutomaton.isOk = true) (by
    rw [← exists_toAutomaton_iff]
    cases t.toAutomaton <;> simp [Except.isOk, Except.toBool])

example : (mk [["δ", "a", ""], ["->p", "q, p", "x"], ["* q"]]).Valid := by decide

example : ¬(mk [["δ", "a"], ["->p", "q,r"], ["*q", "-"]]).Valid := by decide

/-- A table is read if and only if its header, its row labels and its cells make sense as an automaton, and it
is read as the automaton that they describe. -/
theorem toAutomaton_reads (t : StateTable) : ((∃ A, t.toAutomaton = .ok A) ↔ t.Valid) ∧
    ∀ A, t.toAutomaton = .ok A → t.Describes A := by
  refine ⟨exists_toAutomaton_iff, fun A hA => ?_⟩
  obtain ⟨-, -, -, -, hnodup, D, hD, -, rfl⟩ := toAutomaton_eq_ok.1 hA
  exact describes_requests hD hnodup

end StateTable

end RegularLanguages
