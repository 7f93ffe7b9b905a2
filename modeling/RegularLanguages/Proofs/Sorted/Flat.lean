import Mathlib
import RegularLanguages.Sorted.Table
/-!
# Tables as maps from pairs

A table is changed in place: in a row that it has or by a row that is added (`put`), or at a value that
stands in it (`place?`). All that calls answer and leave can be said of one map from pairs of a row and a
column (`perform_flat`), also if what they do to a value has effects of its own. What a table lists is that
map in the order of the pairs (`acts_as_flat`).
-/

namespace RegularLanguages

/-! ### Maps changed in place -/

namespace SortedMap

section

variable {κ ν : Type} [Ord κ]

/-- What stands beside `k`, and what the map becomes when that is written over. -/
def place? (m : SortedMap κ ν) (k : κ) : Option (ν × (ν → SortedMap κ ν)) :=
  (m.get? k).map fun v => (v, fun w => m.modify k fun _ => w)

/-- Writes `v` beside `k`, and answers what stood there. -/
def put [Std.TransOrd κ] [Std.LawfulEqOrd κ] (m : SortedMap κ ν) (k : κ) (v : ν) :
    Option ν × SortedMap κ ν := (m.get? k, m.insert k v)

end

variable {κ ν : Type} [Ord κ] [Std.TransOrd κ] [Std.LawfulEqOrd κ] [DecidableEq κ] {m : SortedMap κ ν}
  {k : κ} {v : ν}

theorem modify_congr {f g : ν → ν} (h : ∀ v, m.get? k = some v → f v = g v) :
    m.modify k f = m.modify k g := by
  refine ext fun k' => ?_
  rw [get?_modify, get?_modify]
  by_cases hk : k' = k
  · rw [if_pos hk, if_pos hk, hk]
    exact Option.map_congr h
  · rw [if_neg hk, if_neg hk]

theorem modify_const (h : m.get? k = some v) (f : ν → ν) : m.modify k (fun _ => f v) = m.modify k f :=
  modify_congr fun _ hw => congrArg f (Option.some.inj (h.symm.trans hw))

theorem modify_eq_self {f : ν → ν} (h : ∀ v, m.get? k = some v → f v = v) : m.modify k f = m := by
  refine (modify_congr (g := id) h).trans (ext fun k' => ?_)
  rw [get?_modify, Option.map_id, id, ite_self]

theorem modify_eq_insert (h : m.get? k = some v) (w : ν) :
    m.modify k (fun _ => w) = m.insert k w := by
  refine ext fun k' => ?_
  rw [get?_modify, get?_insert]
  by_cases hk : k' = k
  · rw [if_pos hk, if_pos hk, hk, h]
    rfl
  · rw [if_neg hk, if_neg hk]

end SortedMap

/-! ### Calls -/

namespace SortedTable

/-- A call that changes a table. What is done to a value that stands there may have effects of its own. -/
inductive Call (ρ κ ν : Type) (m : Type → Type)
  | set (r : ρ) (c : κ) (v : ν)
  | setOr (r : ρ) (c : κ) (v : ν) (f : ν → m ν)
  | update (r : ρ) (c : κ) (f : ν → m ν)

/-- The entries that are still to be taken. -/
structure Cursor (ρ κ ν : Type) where
  rest : List (ρ × κ × ν)

namespace Cursor

variable {ρ κ ν : Type}

/-- Takes the next entry, if there is one. -/
def next (es : Cursor ρ κ ν) : Option (ρ × κ × ν) × Cursor ρ κ ν :=
  match es.rest with
  | [] => (none, es)
  | e :: rest => (some e, ⟨rest⟩)

/-- What the `k`-th call for the next entry answers, counted from 0. -/
def call : Nat → Cursor ρ κ ν → Option (ρ × κ × ν)
  | 0, es => es.next.1
  | k + 1, es => call k es.next.2

theorem call_eq (k : Nat) (es : Cursor ρ κ ν) : es.call k = es.rest[k]? := by
  induction k generalizing es with
  | zero => cases h : es.rest <;> simp [call, next, h]
  | succ k ih =>
    rw [call, ih]
    cases h : es.rest <;> simp [next, h]

end Cursor

section

variable {ρ κ ν : Type} {m : Type → Type} [Ord ρ] [Ord κ]

/-- What stands at `(r, c)`, and what the table becomes when that is written over. -/
def place? (t : SortedTable ρ κ ν) (r : ρ) (c : κ) : Option (ν × (ν → SortedTable ρ κ ν)) := do
  let (cols, writeRow) ← t.rows.place? r
  let (v, write) ← cols.place? c
  return (v, fun w => ⟨writeRow (write w)⟩)

/-- All values, by the pairs at which they stand. -/
def flat (t : SortedTable ρ κ ν) (p : ρ × κ) : Option ν := t.get? p.1 p.2

/-- The entry `a` comes before `b`: in a row before it, or in the same row and a column before it. -/
def Before (a b : ρ × κ × ν) : Prop := compare a.1 b.1 = .lt ∨ a.1 = b.1 ∧ compare a.2.1 b.2.1 = .lt

/-- A table shows a map from pairs: its values are those of the map, and its lists are the map in the order
of the pairs. -/
structure Presents [DecidableEq ρ] (t : SortedTable ρ κ ν) (g : ρ × κ → Option ν) : Prop where
  get?_eq (r : ρ) (c : κ) : t.get? r c = g (r, c)
  mem_toList {r : ρ} {c : κ} {v : ν} : (r, c, v) ∈ t.toList ↔ g (r, c) = some v
  ordered : t.toList.Pairwise Before
  call_eq (k : Nat) : Cursor.call k ⟨t.toList⟩ = t.toList[k]?
  row_eq (r : ρ) : t.row r = (t.toList.filter (·.1 = r)).map (·.2)
  hasColumn_iff (c : κ) : t.hasColumn c = true ↔ ∃ e ∈ t.toList, e.2.1 = c
  isEmpty_iff : t.isEmpty = true ↔ t.toList = []

variable [Std.TransOrd ρ] [Std.LawfulEqOrd ρ] [Std.TransOrd κ] [Std.LawfulEqOrd κ]

/-- Writes `v` at `(r, c)`, and answers what stood there. A row is added if there is none. -/
def put (t : SortedTable ρ κ ν) (r : ρ) (c : κ) (v : ν) : Option ν × SortedTable ρ κ ν :=
  match t.rows.place? r with
  | some (cols, writeRow) => ((cols.put c v).1, ⟨writeRow (cols.put c v).2⟩)
  | none => (none, ⟨(t.rows.put r (.singleton c v)).2⟩)

variable [Monad m]

/-- Makes the call. The first answers what stood at the pair, the second nothing, and the third what it has
changed. -/
def Call.perform : Call ρ κ ν m → StateT (SortedTable ρ κ ν) m (Option ν)
  | set r c v => fun t => return t.put r c v
  | setOr r c v f => fun t =>
    match t.place? r c with
    | some (w, write) => return (none, write (← f w))
    | none => return (none, (t.put r c v).2)
  | update r c f => fun t =>
    match t.place? r c with
    | some (w, write) => return (some w, write (← f w))
    | none => return (none, t)

/-- Makes the call on a map from pairs. -/
def Call.performFlat [DecidableEq ρ] [DecidableEq κ] :
    Call ρ κ ν m → StateT (ρ × κ → Option ν) m (Option ν)
  | set r c v => fun g => return (g (r, c), Function.update g (r, c) (some v))
  | setOr r c v f => fun g =>
    match g (r, c) with
    | some w => return (none, Function.update g (r, c) (some (← f w)))
    | none => return (none, Function.update g (r, c) (some v))
  | update r c f => fun g =>
    match g (r, c) with
    | some w => return (some w, Function.update g (r, c) (some (← f w)))
    | none => return (none, g)

end

variable {ρ κ ν : Type} {m : Type → Type} [Ord ρ] [Ord κ] {t : SortedTable ρ κ ν} {r : ρ} {c : κ} {v w : ν}

/-! ### Lists -/

theorem isEmpty_iff : t.isEmpty = true ↔ t.toList = [] := by
  rw [isEmpty, toList, List.all_eq_true, List.flatMap_eq_nil_iff]
  simp only [SortedMap.isEmpty, List.isEmpty_iff, List.map_eq_nil_iff]

theorem pairwise_toList : t.toList.Pairwise Before := by
  refine List.pairwise_flatMap.2 ⟨fun e _ => ?_, t.rows.sorted.imp fun hlt x hx y hy => ?_⟩
  · exact List.pairwise_map.2 (e.2.sorted.imp fun hlt => .inr ⟨rfl, hlt⟩)
  · obtain ⟨_, -, rfl⟩ := List.mem_map.1 hx
    obtain ⟨_, -, rfl⟩ := List.mem_map.1 hy
    exact .inl hlt

section

variable [Std.LawfulEqOrd ρ]

theorem hasColumn_iff_exists_mem [Std.LawfulEqOrd κ] :
    t.hasColumn c = true ↔ ∃ e ∈ t.toList, e.2.1 = c := by
  rw [hasColumn_iff]
  constructor
  · rintro ⟨r, v, h⟩
    exact ⟨(r, c, v), mem_toList.2 h, rfl⟩
  · rintro ⟨⟨r, _, v⟩, h, rfl⟩
    exact ⟨r, v, mem_toList.1 h⟩

variable [DecidableEq ρ]

/-- What a table lists for a row is in the order of columns. -/
theorem pairwise_filter (t : SortedTable ρ κ ν) (r : ρ) :
    ((t.toList.filter (·.1 = r)).map (·.2)).Pairwise fun a b => compare a.1 b.1 = .lt := by
  refine List.pairwise_map.2 ((pairwise_toList.filter _).imp_of_mem fun {a b} ha hb hab => ?_)
  have har : a.1 = r := of_decide_eq_true (List.mem_filter.1 ha).2
  have hbr : b.1 = r := of_decide_eq_true (List.mem_filter.1 hb).2
  rcases hab with hlt | ⟨-, hlt⟩
  · rw [har, hbr, Std.ReflOrd.compare_self] at hlt
    cases hlt
  · exact hlt

theorem row_eq [Std.TransOrd κ] [Std.LawfulEqOrd κ] (t : SortedTable ρ κ ν) (r : ρ) :
    t.row r = (t.toList.filter (·.1 = r)).map (·.2) := by
  have hrow : t.row r = ((t.rows.get? r).getD ∅).toList := by
    rw [row]
    cases t.rows.get? r <;> rfl
  have hget : ∀ c, ((t.rows.get? r).getD ∅).get? c = t.get? r c := fun c => by
    rw [get?]
    cases t.rows.get? r <;> rfl
  rw [hrow]
  -- both are columns in order, so it is enough that the same values stand in them
  refine congrArg SortedMap.toList
    (SortedMap.ext (n := ⟨_, t.pairwise_filter r⟩) fun c => Option.ext fun v => ?_)
  rw [hget, ← mem_toList, ← SortedMap.mem_toList]
  simp only [List.mem_map, List.mem_filter, decide_eq_true_eq]
  constructor
  · intro h
    exact ⟨_, ⟨h, rfl⟩, rfl⟩
  · rintro ⟨⟨_, _⟩, ⟨h, rfl⟩, rfl⟩
    exact h

theorem presents_flat [Std.TransOrd κ] [Std.LawfulEqOrd κ] (t : SortedTable ρ κ ν) : t.Presents t.flat where
  get?_eq _ _ := rfl
  mem_toList := mem_toList
  ordered := pairwise_toList
  call_eq k := Cursor.call_eq k _
  row_eq := t.row_eq
  hasColumn_iff _ := hasColumn_iff_exists_mem
  isEmpty_iff := isEmpty_iff

end

/-! ### Changes in place -/

theorem get?_of_rows {cols : SortedMap κ ν} (hr : t.rows.get? r = some cols) (hc : cols.get? c = some v) :
    t.get? r c = some v := by
  rw [get?, hr, Option.bind_some, hc]

theorem flat_pair (t : SortedTable ρ κ ν) (r : ρ) (c : κ) : t.flat (r, c) = t.get? r c := rfl

variable [Std.LawfulEqOrd ρ] [Std.LawfulEqOrd κ] [DecidableEq ρ] [DecidableEq κ]

theorem flat_modify (h : t.get? r c = some v) (w : ν) :
    (t.modify r c fun _ => w).flat = Function.update t.flat (r, c) (some w) := by
  ext1 ⟨r', c'⟩
  simp only [flat, get?_modify, Function.update_apply, Prod.mk.injEq]
  by_cases hp : r' = r ∧ c' = c
  · rw [if_pos hp, if_pos hp, hp.1, hp.2, h, Option.map_some]
  · rw [if_neg hp, if_neg hp]

variable [Std.TransOrd ρ] [Std.TransOrd κ]

theorem flat_insert (t : SortedTable ρ κ ν) (r : ρ) (c : κ) (v : ν) :
    (t.insert r c v).flat = Function.update t.flat (r, c) (some v) := by
  ext1 ⟨r', c'⟩
  simp only [flat, get?_insert, Function.update_apply, Prod.mk.injEq]

theorem modify_const (h : t.get? r c = some v) (f : ν → ν) :
    t.modify r c (fun _ => f v) = t.modify r c f :=
  congrArg mk (SortedMap.modify_congr fun _ hr => SortedMap.modify_congr fun _ hc =>
    congrArg f (Option.some.inj (h.symm.trans (get?_of_rows hr hc))))

theorem modify_eq_self (h : t.get? r c = none) (f : ν → ν) : t.modify r c f = t :=
  congrArg mk (SortedMap.modify_eq_self fun _ hr => SortedMap.modify_eq_self fun _ hc => by
    cases h.symm.trans (get?_of_rows hr hc))

omit [DecidableEq κ] in
theorem put_eq (t : SortedTable ρ κ ν) (r : ρ) (c : κ) (v : ν) : t.put r c v = t.getThenInsert r c v := by
  rw [put, getThenInsert, get?, insert, SortedMap.place?]
  cases hr : t.rows.get? r with
  | none => rfl
  | some cols => simp only [Option.map_some, SortedMap.put, SortedMap.modify_eq_insert hr, Option.bind_some]

omit [Std.TransOrd κ] [Std.LawfulEqOrd κ] [DecidableEq κ] in
theorem place?_eq (t : SortedTable ρ κ ν) (r : ρ) (c : κ) :
    t.place? r c = (t.get? r c).map fun v => (v, fun w => t.modify r c fun _ => w) := by
  rw [place?, get?, SortedMap.place?]
  cases hr : t.rows.get? r with
  | none => rfl
  | some cols =>
    simp only [Option.map_some, Option.bind_eq_bind, Option.bind_some, SortedMap.place?]
    cases cols.get? c with
    | none => rfl
    | some v =>
      -- the whole row is written over here, and changed in its place there
      have hrow := fun w => SortedMap.modify_const hr (·.modify c fun _ => w)
      simp only [Option.map_some, Option.bind_some, hrow]
      rfl

/-! ### Calls on a table and on a map from pairs -/

variable [Monad m] [LawfulMonad m]

/-- With a function that has no effects, calls are the definitions that change tables. -/
theorem perform_pure (t : SortedTable ρ κ ν) (r : ρ) (c : κ) (v : ν) (f : ν → ν) :
    (Call.set r c v : Call ρ κ ν m).perform.run t = pure (t.getThenInsert r c v) ∧
      (Call.setOr r c v fun w => pure (f w) : Call ρ κ ν m).perform.run t =
        pure (none, t.insertWith r c v f) ∧
      (Call.update r c fun w => pure (f w) : Call ρ κ ν m).perform.run t =
        pure (t.get? r c, t.modify r c f) := by
  simp only [StateT.run, Call.perform, put_eq, place?_eq, insertWith, true_and]
  cases h : t.get? r c with
  | none => simp only [Option.map_none, getThenInsert, modify_eq_self h, and_self]
  | some w => simp only [Option.map_some, pure_bind, modify_const h, and_self]

theorem perform_flat (call : Call ρ κ ν m) (t : SortedTable ρ κ ν) :
    call.performFlat.run t.flat = (fun a => (a.1, a.2.flat)) <$> call.perform.run t := by
  cases call with
  | set r c v =>
    simp only [StateT.run, Call.performFlat, Call.perform, map_pure, put_eq, getThenInsert, flat_insert,
      flat_pair]
  | setOr r c v f =>
    simp only [StateT.run, Call.performFlat, Call.perform, place?_eq, flat_pair]
    cases h : t.get? r c with
    | none => simp only [Option.map_none, map_pure, put_eq, getThenInsert, flat_insert]
    | some w => simp only [Option.map_some, map_bind, map_pure, flat_modify h]
  | update r c f =>
    simp only [StateT.run, Call.performFlat, Call.perform, place?_eq, flat_pair]
    cases h : t.get? r c with
    | none => simp only [Option.map_none, map_pure]
    | some w => simp only [Option.map_some, map_bind, map_pure, flat_modify h]

theorem mapM_perform_flat (calls : List (Call ρ κ ν m)) (t : SortedTable ρ κ ν) :
    (calls.mapM Call.performFlat).run t.flat =
      (fun a => (a.1, a.2.flat)) <$> (calls.mapM Call.perform).run t := by
  induction calls generalizing t with
  | nil => simp only [List.mapM_nil, StateT.run_pure, map_pure]
  | cons call calls ih =>
    simp only [List.mapM_cons, StateT.run_bind, StateT.run_pure, map_bind, map_pure, perform_flat,
      bind_map_left, ih]

/-- A table acts as one map from pairs under all calls, and shows it in the order of the pairs. -/
theorem acts_as_flat (calls : List (Call ρ κ ν m)) (t : SortedTable ρ κ ν) :
    (calls.mapM Call.performFlat).run t.flat =
        (fun a => (a.1, a.2.flat)) <$> (calls.mapM Call.perform).run t ∧
      (∅ : SortedTable ρ κ ν).flat = (fun _ => none) ∧
      (∀ u : SortedTable ρ κ ν, u.Presents u.flat) ∧
      ∀ (u : SortedTable ρ κ ν) r c v f,
        (Call.set r c v : Call ρ κ ν m).perform.run u = pure (u.getThenInsert r c v) ∧
        (Call.setOr r c v fun w => pure (f w) : Call ρ κ ν m).perform.run u =
          pure (none, u.insertWith r c v f) ∧
        (Call.update r c fun w => pure (f w) : Call ρ κ ν m).perform.run u =
          pure (u.get? r c, u.modify r c f) :=
  ⟨mapM_perform_flat calls t, rfl, presents_flat, perform_pure⟩

/-- Calls that count how often their functions are run. -/
def countedCalls : List (Call Nat Char (List Nat) (StateM Nat)) :=
  [.setOr 0 'a' [1] fun v n => (v ++ [1], n + 1), .setOr 0 'a' [2] fun v n => (v ++ [2], n + 1),
    .set 1 'b' [0], .update 7 'a' fun v n => (v ++ [3], n + 1)]

theorem acts_as_flat_counted :
    ∃ t : SortedTable Nat Char (List Nat),
      ((countedCalls.mapM Call.perform).run ∅).run 0 = (([none, none, none, none], t), 1) ∧
      ((countedCalls.mapM Call.performFlat).run fun _ => none).run 0 =
        (([none, none, none, none], t.flat), 1) ∧
      t.toList = [(0, 'a', [1, 2]), (1, 'b', [0])] ∧ t.Presents t.flat := by
  obtain ⟨hrun, hempty, hpresents, -⟩ := acts_as_flat countedCalls ∅
  refine ⟨_, rfl, ?_, rfl, hpresents _⟩
  rw [← hempty, hrun]
  rfl

end SortedTable

end RegularLanguages
