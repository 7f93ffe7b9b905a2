import Mathlib
import RegularLanguages.Proofs.Assembly
import RegularLanguages.Proofs.Automaton.Draft
import RegularLanguages.Proofs.StateTable.Cells
import RegularLanguages.Proofs.StateTable.Renumbering
/-!
# Tables read back

What is written as a table is read back in three passes: the header gives the alphabet (`readHeader_eq`),
the row labels the states (`foldlM_read`), and the cells the edges (`exists_addEdges`). If its names are
told apart and can be held by a table, an automaton is read back with its states in the order of the rows,
and has the same table again.
-/

namespace RegularLanguages

/-! ### The header -/

theorem Text.isBlank_eq_false {c : Char} (h : 0x21 ≤ c.toNat) (h' : c.toNat < 0x7F) :
    isBlank c = false := by
  rw [Bool.eq_false_iff, ne_eq, isBlank, inRanges, List.any_eq_true]
  simp only [blankRanges, List.mem_cons, List.not_mem_nil, or_false, Bool.and_eq_true,
    decide_eq_true_iff]
  rintro ⟨r, hr, hle⟩
  rcases hr with rfl | rfl | rfl | rfl | rfl | rfl | rfl | rfl | rfl | rfl <;>
    simp only at hle <;> omega

namespace Label

theorem isBlank_char (l : Label) : Text.isBlank l.char = false := by
  cases l with
  | epsilon => decide
  | symbol s =>
    have hv := s.valid
    simp only [Char.isLower, Char.isDigit, Bool.or_eq_true, Bool.and_eq_true, decide_eq_true_iff,
      ge_iff_le, UInt32.le_iff_toNat_le] at hv
    change (97 ≤ s.char.toNat ∧ s.char.toNat ≤ 122) ∨ 48 ≤ s.char.toNat ∧ s.char.toNat ≤ 57 at hv
    exact Text.isBlank_eq_false (c := s.char) (by omega) (by omega)

theorem trim_char (l : Label) : Text.trim [l.char] = [l.char] := by
  simp [Text.trim_eq_self_iff, l.isBlank_char]

end Label

namespace StateTable

variable {labels : List Label} {l : Label} {cols : List (Nat × Char)} {k : Nat}
  {alphabet : SortedSet Symbol}

/-- The columns of labels from the `k`-th on. -/
def columnsFrom (k : Nat) (labels : List Label) : List (Nat × Char) :=
  (labels.zipIdx k).map fun p => (p.2, p.1.char)

/-- Reading the header cell of a label that is new. -/
theorem exists_read_label (alphabet : SortedSet Symbol) (i : Nat) (hnew : ∀ col ∈ cols, col.2 ≠ l.char) : ∃ alphabet',
    Header.read ⟨cols, ⟨.empty alphabet, ∅⟩⟩ i (String.singleton l.char) =
      .ok ⟨cols ++ [(i, l.char)], ⟨.empty alphabet', ∅⟩⟩ ∧
    ∀ x, x ∈ alphabet' ↔ l = .symbol x ∨ x ∈ alphabet := by
  have hany : ¬(cols.any fun col => decide (col.2 = l.char)) = true := by
    rw [List.any_eq_true]
    rintro ⟨col, hcol, hc⟩
    exact hnew col hcol (decide_eq_true_iff.1 hc)
  have htrim : Text.trim (String.singleton l.char).toList = [l.char] := by
    rw [String.toList_singleton, l.trim_char]
  cases l with
  | epsilon =>
    refine ⟨alphabet, ?_, by simp⟩
    rw [Header.read, htrim]
    simp only
    rw [if_neg hany]
    rfl
  | symbol s =>
    refine ⟨.singleton s ∪ alphabet, ?_, fun x => ?_⟩
    · rw [Header.read, htrim]
      simp only
      rw [if_neg hany, Label.char, if_neg s.char_ne_epsilonChar, Draft.addSymbol_eq]
      rfl
    · rw [SortedSet.mem_union, SortedSet.mem_singleton, Label.symbol.injEq, eq_comm]

/-- Reading the header cells of labels from the `k`-th column on. -/
theorem exists_foldlM_read_label (alphabet : SortedSet Symbol) (k : Nat) (hnodup : labels.Nodup)
    (hnew : ∀ l ∈ labels, ∀ col ∈ cols, col.2 ≠ l.char) : ∃ alphabet',
    ((labels.map fun l => String.singleton l.char).zipIdx k).foldlM
        (fun (h : Header) (cell, i) => h.read i cell) ⟨cols, ⟨.empty alphabet, ∅⟩⟩ =
      .ok ⟨cols ++ columnsFrom k labels, ⟨.empty alphabet', ∅⟩⟩ ∧
    ∀ x, x ∈ alphabet' ↔ .symbol x ∈ labels ∨ x ∈ alphabet := by
  induction labels generalizing cols k alphabet with
  | nil => exact ⟨alphabet, by simp [columnsFrom]; rfl, by simp⟩
  | cons l labels ih =>
    obtain ⟨hl, hnodup⟩ := List.nodup_cons.1 hnodup
    obtain ⟨a, hread, ha⟩ := exists_read_label alphabet k (hnew l List.mem_cons_self)
    have hrest : ∀ m ∈ labels, ∀ col ∈ cols ++ [(k, l.char)], col.2 ≠ m.char := by
      intro m hm col hcol
      rcases List.mem_append.1 hcol with hcol | hcol
      · exact hnew m (List.mem_cons_of_mem l hm) col hcol
      · rw [List.mem_singleton.1 hcol]
        intro hc
        exact hl (Label.char_injective hc ▸ hm)
    obtain ⟨b, hfold, hb⟩ := ih a (k + 1) hnodup hrest
    refine ⟨b, ?_, fun x => ?_⟩
    · rw [List.map_cons, List.zipIdx_cons, List.foldlM_cons]
      simp only [hread]
      exact hfold.trans (by simp [columnsFrom])
    · rw [hb, ha, List.mem_cons, eq_comm (a := l)]
      exact or_left_comm.trans or_assoc.symm

/-- The header of a table gives its columns and its alphabet. -/
theorem readHeader_eq (A : Automaton) :
    readHeader (cornerCell :: A.tableLabels.map fun l => String.singleton l.char) =
      .ok ⟨columnsFrom 1 A.tableLabels, ⟨.empty A.alphabet, ∅⟩⟩ := by
  have hsymbols : (A.alphabet.toList.map Label.symbol).Nodup :=
    (SortedSet.nodup _).map fun _ _ h => Label.symbol.inj h
  have hnodup : A.tableLabels.Nodup := by
    unfold Automaton.tableLabels
    split
    · simpa using hsymbols
    · simpa using hsymbols
  have hnew : ∀ l ∈ A.tableLabels, ∀ col ∈ ([] : List (Nat × Char)), col.2 ≠ l.char :=
    fun _ _ _ hcol => by cases hcol
  obtain ⟨alphabet, hfold, hmem⟩ := exists_foldlM_read_label ∅ 1 hnodup hnew
  have halphabet : alphabet = A.alphabet := by
    refine SortedSet.ext fun x => ?_
    rw [hmem, or_iff_left (SortedSet.not_mem_empty x), Automaton.tableLabels]
    split <;> simp
  rw [halphabet] at hfold
  exact hfold

end StateTable

/-! ### The row labels -/

/-- Adding a state under a new name, which may be the initial one if there is none yet. -/
theorem Draft.addState_new {D : Draft} {name : String} {isInitial : Bool}
    (hname : D.index.get? name = none) (hi : isInitial = true → D.automaton.initial = none)
    (isFinal : Bool) : D.addState name isInitial isFinal =
      .ok ⟨{ D.automaton.addState (.atom name) false with
          initial := if isInitial then some D.automaton.size else D.automaton.initial
          finals := if isFinal then D.automaton.finals.insert D.automaton.size
            else D.automaton.finals },
        D.index.insert name D.automaton.size⟩ := by
  unfold addState
  split
  · rename_i p hp
    rw [hi rfl] at hp
    cases hp
  · rw [intern, hname]
    rfl

namespace Automaton

/-- The row of a state. -/
def tableRow (A : Automaton) (q : State) : List String :=
  String.ofList (A.markedName q) :: A.tableLabels.map fun l => String.ofList (A.targetCell q l)

theorem toTable_rows (A : Automaton) : A.toTable.rows =
    (StateTable.cornerCell :: A.tableLabels.map fun l => String.singleton l.char) ::
      A.tableOrder.map A.tableRow := rfl

/-- All names can be held by a table. -/
def NamesReadable (A : Automaton) : Prop := ∀ n ∈ A.names, StateTable.Readable n.chars

variable {A : Automaton} {D : Draft} {p q : State} {l : Label} {qs : List State}

theorem NamesReadable.readable (h : A.NamesReadable) (hq : q < A.size) :
    StateTable.Readable (A.name q).chars :=
  h _ (name_mem_names hq)

/-- The draft has the states `qs` of the automaton, by their texts, and no edges. -/
structure Declares (A : Automaton) (qs : List State) (D : Draft) : Prop where
  names_eq : D.automaton.names = (qs.map fun q => StateName.atom (A.name q).text).toArray
  alphabet_eq : D.automaton.alphabet = A.alphabet
  transitions_eq : D.automaton.transitions = ∅
  initial_iff {i : State} : D.automaton.initial = some i ↔ ∃ q, A.initial = some q ∧ qs[i]? = some q
  mem_finals {i : State} : i ∈ D.automaton.finals ↔ ∃ q ∈ A.finals, qs[i]? = some q
  get?_index {text : String} {i : State} : D.index.get? text = some i ↔
    ∃ q, qs[i]? = some q ∧ (A.name q).text = text

theorem declares_nil (A : Automaton) : A.Declares [] ⟨.empty A.alphabet, ∅⟩ where
  names_eq := rfl
  alphabet_eq := rfl
  transitions_eq := rfl
  initial_iff := by simp [empty]
  mem_finals := by simp [empty]
  get?_index := by simp

theorem Declares.size_eq (h : A.Declares qs D) : D.automaton.size = qs.length := by
  rw [size, h.names_eq]
  simp

/-- A state that has not been declared can be, under its text and with its marks. -/
theorem Declares.exists_addState (h : A.Declares qs D) (hd : A.NamesDistinct)
    (hqs : ∀ p ∈ qs, p < A.size) (hq : q < A.size) (hnew : q ∉ qs) : ∃ D',
    D.addState (A.name q).text (A.initial = some q) (q ∈ A.finals) = .ok D' ∧
      A.Declares (qs ++ [q]) D' := by
  have hget {i p : Nat} : (qs ++ [q])[i]? = some p ↔ qs[i]? = some p ∨ i = qs.length ∧ p = q :=
    MoveSystem.getElem?_concat_eq_some
  have hname : D.index.get? (A.name q).text = none := by
    rw [Option.eq_none_iff_forall_ne_some]
    intro i hi
    obtain ⟨p, hp, htext⟩ := h.get?_index.1 hi
    have hmem := List.mem_of_getElem? hp
    exact hnew (hd.eq_of_text (hqs p hmem) hq htext ▸ hmem)
  have hinitial : decide (A.initial = some q) = true → D.automaton.initial = none := by
    intro hq
    rw [Option.eq_none_iff_forall_ne_some]
    intro i hi
    obtain ⟨p, hp, hget⟩ := h.initial_iff.1 hi
    obtain rfl := Option.some.inj ((decide_eq_true_iff.1 hq).symm.trans hp)
    exact hnew (List.mem_of_getElem? hget)
  refine ⟨_, Draft.addState_new hname hinitial _, ?_, h.alphabet_eq, h.transitions_eq, fun {i} => ?_,
    fun {i} => ?_, fun {text i} => ?_⟩
  · show D.automaton.names.push _ = _
    rw [h.names_eq, List.map_append]
    simp
  · simp only [hget, h.size_eq, decide_eq_true_iff]
    split
    · rename_i hi
      constructor
      · intro hlen
        exact ⟨q, hi, .inr ⟨(Option.some.inj hlen).symm, rfl⟩⟩
      · rintro ⟨p, hp, hold | ⟨rfl, -⟩⟩
        · obtain rfl := Option.some.inj (hi.symm.trans hp)
          exact absurd (List.mem_of_getElem? hold) hnew
        · rfl
    · rename_i hi
      rw [h.initial_iff]
      refine exists_congr fun p => and_congr_right fun hp => (or_iff_left ?_).symm
      rintro ⟨-, rfl⟩
      exact hi hp
  · simp only [hget, h.size_eq, decide_eq_true_iff]
    split
    · rename_i hf
      rw [SortedSet.mem_insert, h.mem_finals]
      constructor
      · rintro (rfl | ⟨p, hp, hold⟩)
        · exact ⟨q, hf, .inr ⟨rfl, rfl⟩⟩
        · exact ⟨p, hp, .inl hold⟩
      · rintro ⟨p, hp, hold | ⟨rfl, -⟩⟩
        · exact .inr ⟨p, hp, hold⟩
        · exact .inl rfl
    · rename_i hf
      rw [h.mem_finals]
      refine exists_congr fun p => and_congr_right fun hp => (or_iff_left ?_).symm
      rintro ⟨-, rfl⟩
      exact hf hp
  · simp only [hget, h.size_eq, SortedMap.get?_insert]
    split
    · rename_i htext
      constructor
      · intro hlen
        exact ⟨q, .inr ⟨(Option.some.inj hlen).symm, rfl⟩, htext.symm⟩
      · rintro ⟨p, hold | ⟨rfl, -⟩, hp⟩
        · have hi := h.get?_index.2 ⟨p, hold, hp⟩
          rw [htext, hname] at hi
          cases hi
        · rfl
    · rename_i htext
      rw [h.get?_index]
      refine exists_congr fun p => and_congr_left fun hp => (or_iff_left ?_).symm
      rintro ⟨-, rfl⟩
      exact htext hp.symm

theorem Declares.exists_read {names : List (List Char)} (h : A.Declares qs D)
    (hn : names = qs.map fun q => (A.name q).chars) (hd : A.NamesDistinct) (hr : A.NamesReadable)
    (hqs : ∀ p ∈ qs, p < A.size) (hq : q < A.size) (hnew : q ∉ qs) : ∃ D',
    StateTable.Declared.read ⟨names, D⟩ (A.tableRow q) =
      .ok ⟨(qs ++ [q]).map fun q => (A.name q).chars, D'⟩ ∧ A.Declares (qs ++ [q]) D' := by
  obtain ⟨D', hD', hdecl⟩ := h.exists_addState hd hqs hq hnew
  refine ⟨D', ?_, hdecl⟩
  have hread := hr.readable hq
  have hlabel : A.markedName q =
      StateTable.withMarks (A.initial = some q) (q ∈ A.finals) (A.name q).chars := by
    simp [markedName, StateTable.withMarks]
  have hmem : (A.name q).chars ∉ names := by
    rw [hn, List.mem_map]
    rintro ⟨p, hp, heq⟩
    exact hnew (hd.eq_of_text (hqs p hp) hq (StateName.text_inj.2 heq) ▸ hp)
  have hne : (A.name q).chars.isEmpty = false := by
    rw [Bool.eq_false_iff, ne_eq, List.isEmpty_iff]
    exact hread.ne_nil
  rw [StateTable.Declared.read, tableRow, List.headD_cons, String.toList_ofList, hlabel,
    hread.trim_withMarks, hread.readMarks_withMarks]
  simp only [hne, hmem]
  rw [if_neg Bool.false_ne_true, if_neg id]
  show (do let D ← D.addState (A.name q).text _ _; _) = _
  rw [hD', hn, List.map_append]
  rfl

/-- The rows of states declare them in turn. -/
theorem Declares.exists_foldlM_read {names : List (List Char)} (rest : List State)
    (h : A.Declares qs D) (hn : names = qs.map fun q => (A.name q).chars) (hd : A.NamesDistinct)
    (hr : A.NamesReadable) (hlt : ∀ q ∈ qs ++ rest, q < A.size) (hnodup : (qs ++ rest).Nodup) :
    ∃ D', (rest.map A.tableRow).foldlM StateTable.Declared.read ⟨names, D⟩ =
      .ok ⟨(qs ++ rest).map fun q => (A.name q).chars, D'⟩ ∧ A.Declares (qs ++ rest) D' := by
  induction rest generalizing qs names D with
  | nil => exact ⟨D, by rw [hn, List.append_nil]; rfl, by rwa [List.append_nil]⟩
  | cons q rest ih =>
    have happend : qs ++ q :: rest = qs ++ [q] ++ rest := by simp
    have hnew : q ∉ qs := fun hq =>
      (List.nodup_append.1 hnodup).2.2 q hq q List.mem_cons_self rfl
    obtain ⟨D₁, hread, hD₁⟩ := h.exists_read hn hd hr
      (fun p hp => hlt p (List.mem_append_left _ hp)) (hlt q (by simp)) hnew
    rw [happend] at hlt hnodup ⊢
    obtain ⟨D', hfold, hD'⟩ := ih hD₁ rfl hlt hnodup
    refine ⟨D', ?_, hD'⟩
    rw [List.map_cons, List.foldlM_cons, hread]
    exact hfold

end Automaton

/-! ### The cells -/

/-- Requests for edges between states that are there, on labels that are allowed, are granted. -/
theorem Draft.exists_addEdges (D : Draft) (ms : List (String × Char × String))
    (h : ∀ m ∈ ms, ∃ p l q, D.index.get? m.1 = some p ∧ D.label m.2.1 = .ok l ∧
      D.index.get? m.2.2 = some q) : ∃ es : List Edge,
    ms.foldlM (fun (D : Draft) (src, c, dst) => D.addEdge src c dst) D =
      .ok { D with automaton := D.automaton.addEdges es } ∧
    ∀ p l q, (p, l, q) ∈ es ↔ ∃ m ∈ ms, D.index.get? m.1 = some p ∧ D.label m.2.1 = .ok l ∧
      D.index.get? m.2.2 = some q := by
  induction ms generalizing D with
  | nil => exact ⟨[], rfl, by simp⟩
  | cons m ms ih =>
    obtain ⟨p, l, q, hp, hl, hq⟩ := h m List.mem_cons_self
    have hadd : D.addEdge m.1 m.2.1 m.2.2 =
        .ok { D with automaton := D.automaton.addEdge (p, l, q) } := by
      rw [addEdge, state, state, hp, hq]
      show (do let l ← D.label m.2.1; _) = _
      rw [hl]
      rfl
    obtain ⟨es, hfold, hes⟩ := ih { D with automaton := D.automaton.addEdge (p, l, q) }
      fun m' hm' => h m' (List.mem_cons_of_mem m hm')
    refine ⟨(p, l, q) :: es, ?_, fun p' l' q' => ?_⟩
    · rw [List.foldlM_cons]
      simp only [hadd]
      exact hfold
    · rw [List.mem_cons, hes]
      simp only [List.mem_cons, exists_eq_or_imp]
      refine or_congr_left ?_
      constructor
      · rintro ⟨⟩
        exact ⟨hp, hl, hq⟩
      · rintro ⟨hp', hl', hq'⟩
        obtain rfl := Option.some.inj (hp.symm.trans hp')
        obtain rfl := Except.ok.inj (hl.symm.trans hl')
        obtain rfl := Option.some.inj (hq.symm.trans hq')
        rfl

namespace Automaton

variable {A : Automaton} {D : Draft} {p q : State} {l : Label}

/-- What the cell of a state on a label lists. -/
def listedNames (A : Automaton) (q : State) (l : Label) : List (List Char) :=
  (sortNames ((A.targets q l).toList.map A.name)).map StateName.chars

theorem targetCell_eq (A : Automaton) (q : State) (l : Label) : A.targetCell q l =
    if A.listedNames q l = [] then StateTable.dashCell
    else [','].intercalate (A.listedNames q l) := by
  rw [targetCell, ← listedNames]
  cases A.listedNames q l with
  | nil => rfl
  | cons n ns => rfl

theorem mem_listedNames {n : List Char} :
    n ∈ A.listedNames q l ↔ ∃ r ∈ A.targets q l, (A.name r).chars = n := by
  simp [listedNames, sortNames, (List.mergeSort_perm _ _).mem_iff]

theorem rowTargets_tableRow (hA : A.WellFormed) (hr : A.NamesReadable) {i : Nat}
    (hl : A.tableLabels[i]? = some l) :
    StateTable.rowTargets (A.tableOrder.map fun q => (A.name q).chars) (A.tableRow q) (i + 1) =
      A.listedNames q l := by
  refine StateTable.rowTargets_eq (fun n hn => ?_) (fun n hn => ?_) ?_
  · obtain ⟨p, hp, rfl⟩ := List.mem_map.1 hn
    exact hr.readable ((mem_tableOrder hA).1 hp)
  · obtain ⟨r, hmem, rfl⟩ := mem_listedNames.1 hn
    exact hr.readable (hA.target_lt hmem)
  · rw [tableRow, List.getElem?_cons_succ, List.getElem?_map, hl, ← targetCell_eq]
    rfl

theorem WellFormed.mem_tableLabels (hA : A.WellFormed) (h : q ∈ A.targets p l) :
    l ∈ A.tableLabels := by
  rw [tableLabels, List.mem_append, List.mem_map]
  cases l with
  | epsilon =>
    have he : A.hasEpsilon = true := hA.populated.hasColumn_iff.2 ⟨p, q, h⟩
    rw [he]
    exact .inl List.mem_cons_self
  | symbol x => exact .inr ⟨x, hA.symbol_mem h, rfl⟩

theorem mem_columnsFrom {labels : List Label} {i : Nat} {c : Char} :
    (i, c) ∈ StateTable.columnsFrom 1 labels ↔ ∃ j l, labels[j]? = some l ∧ i = j + 1 ∧ c = l.char := by
  simp only [StateTable.columnsFrom, List.mem_map, Prod.exists, Prod.mk.injEq]
  constructor
  · rintro ⟨l, i, hl, rfl, rfl⟩
    obtain ⟨hi, hl⟩ := List.mk_mem_zipIdx_iff_le_and_getElem?_sub.1 hl
    exact ⟨i - 1, l, hl, by omega, rfl⟩
  · rintro ⟨j, l, hl, rfl, rfl⟩
    exact ⟨l, j + 1, List.mk_mem_zipIdx_iff_le_and_getElem?_sub.2 ⟨by omega, hl⟩, rfl, rfl⟩

/-- The edges that the cells of a table list are those of the automaton. -/
theorem mem_listedEdges (hA : A.WellFormed) (hr : A.NamesReadable) {src dst : String} {c : Char} :
    (src, c, dst) ∈ StateTable.listedEdges (StateTable.columnsFrom 1 A.tableLabels)
        (A.tableOrder.map fun q => (A.name q).chars) (A.tableOrder.map A.tableRow) ↔
      ∃ q l r, r ∈ A.targets q l ∧ src = (A.name q).text ∧ c = l.char ∧ dst = (A.name r).text := by
  simp only [StateTable.listedEdges, List.zip_map', List.mem_flatMap, List.mem_map, Prod.exists,
    mem_columnsFrom, Prod.mk.injEq]
  constructor
  · rintro ⟨_, _, ⟨q, -, rfl, rfl⟩, i, _, ⟨j, l, hl, rfl, rfl⟩, n, hn, rfl, rfl, rfl⟩
    rw [rowTargets_tableRow hA hr hl] at hn
    obtain ⟨r, hmem, rfl⟩ := mem_listedNames.1 hn
    exact ⟨q, l, r, hmem, rfl, rfl, rfl⟩
  · rintro ⟨q, l, r, hmem, rfl, rfl, rfl⟩
    obtain ⟨j, hj⟩ := List.getElem?_of_mem (hA.mem_tableLabels hmem)
    refine ⟨_, _, ⟨q, (mem_tableOrder hA).2 (hA.source_lt hmem), rfl, rfl⟩, j + 1, l.char,
      ⟨j, l, hj, rfl, rfl⟩, (A.name r).chars, ?_, rfl, rfl, rfl⟩
    rw [rowTargets_tableRow hA hr hj]
    exact mem_listedNames.2 ⟨r, hmem, rfl⟩

/-! ### The whole table -/

theorem Declares.label_eq (h : A.Declares A.tableOrder D) (hA : A.WellFormed)
    (hq : q ∈ A.targets p l) : D.label l.char = .ok l := by
  rw [Draft.label, Label.ofChar?_char]
  cases l with
  | epsilon => rfl
  | symbol x =>
    simp only
    rw [if_pos (h.alphabet_eq ▸ hA.symbol_mem hq)]

theorem getElem?_tableOrder (hA : A.WellFormed) {i : Nat} :
    A.tableOrder[i]? = some q ↔ q < A.size ∧ A.tableOrder.idxOf q = i := by
  constructor
  · intro h
    refine ⟨(mem_tableOrder hA).1 (List.mem_of_getElem? h), ?_⟩
    obtain ⟨hi, rfl⟩ := List.getElem?_eq_some_iff.1 h
    exact A.nodup_tableOrder.idxOf_getElem i hi
  · rintro ⟨hq, rfl⟩
    exact List.getElem?_idxOf ((mem_tableOrder hA).2 hq)

theorem Declares.get?_text (h : A.Declares A.tableOrder D) (hA : A.WellFormed)
    (hd : A.NamesDistinct) (hq : q < A.size) {i : State} :
    D.index.get? (A.name q).text = some i ↔ i = A.tableOrder.idxOf q := by
  rw [h.get?_index]
  simp only [getElem?_tableOrder hA]
  constructor
  · rintro ⟨p, ⟨hp, rfl⟩, htext⟩
    rw [hd.eq_of_text hp hq htext]
  · rintro rfl
    exact ⟨q, ⟨hq, rfl⟩, rfl⟩

section Reread

variable {es : List Edge} (h : A.Declares A.tableOrder D) (hA : A.WellFormed)
  (hes : ∀ i l j, (i, l, j) ∈ es ↔
    ∃ q r, r ∈ A.targets q l ∧ i = A.tableOrder.idxOf q ∧ j = A.tableOrder.idxOf r)
include h hA hes

theorem Declares.renumbering :
    Renumbering A (D.automaton.addEdges es) A.tableOrder.idxOf where
  bijOn := by
    have hsize : (D.automaton.addEdges es).size = A.tableOrder.length := h.size_eq
    refine ⟨fun q hq => ?_, fun p hp q hq hpq => ?_, fun i hi => ?_⟩
    · show A.tableOrder.idxOf q < (D.automaton.addEdges es).size
      rw [hsize]
      exact List.idxOf_lt_length_of_mem ((mem_tableOrder hA).2 hq)
    · exact (List.idxOf_inj ((mem_tableOrder hA).2 hp)).1 hpq
    · have hi' : i < A.tableOrder.length := hsize ▸ hi
      exact ⟨_, (mem_tableOrder hA).1 (List.getElem_mem hi'), A.nodup_tableOrder.idxOf_getElem i hi'⟩
  initial := by
    refine Option.ext fun i => ?_
    show D.automaton.initial = some i ↔ _
    rw [h.initial_iff, Option.map_eq_some_iff]
    refine exists_congr fun q => and_congr_right fun hq => ?_
    rw [getElem?_tableOrder hA]
    exact and_iff_right (hA.initial_lt hq)
  final_iff {q} hq := by
    show A.tableOrder.idxOf q ∈ D.automaton.finals ↔ _
    rw [h.mem_finals]
    simp only [getElem?_tableOrder hA]
    constructor
    · rintro ⟨p, hp, -, hidx⟩
      rwa [← (List.idxOf_inj ((mem_tableOrder hA).2 (hA.final_lt hp))).1 hidx]
    · intro hf
      exact ⟨q, hf, hq, rfl⟩
  target_iff {p q l} hp hq := by
    have hnone : A.tableOrder.idxOf q ∉ D.automaton.targets (A.tableOrder.idxOf p) l := by
      rw [targets, h.transitions_eq, Transitions.targets_empty]
      exact SortedSet.not_mem_empty _
    rw [mem_targets_addEdges, or_iff_left hnone, hes]
    constructor
    · rintro ⟨p', q', hmem, hpp, hqq⟩
      rwa [(List.idxOf_inj ((mem_tableOrder hA).2 hp)).1 hpp,
        (List.idxOf_inj ((mem_tableOrder hA).2 hq)).1 hqq]
    · intro hmem
      exact ⟨p, q, hmem, rfl, rfl⟩
  text_eq {q} hq := by
    have hget := List.getElem?_idxOf ((mem_tableOrder hA).2 hq)
    show (D.automaton.name _).text = _
    rw [name, h.names_eq, List.getElem?_toArray, List.getElem?_map, hget]
    simp [StateName.text, StateName.chars]
  alphabet_eq := h.alphabet_eq

theorem Declares.wellFormed : (D.automaton.addEdges es).WellFormed := by
  have hlt : ∀ q < A.size, A.tableOrder.idxOf q < (D.automaton.addEdges es).size := fun q hq =>
    (h.renumbering hA hes).bijOn.mapsTo hq
  have htransitions : (D.automaton.addEdges es).transitions = .ofEdges es := by
    show D.automaton.transitions.addEdges es = _
    rw [h.transitions_eq]
    rfl
  refine .of_edges htransitions (fun i hi => ?_) (fun i hi => ?_) (fun i l j he => ?_)
    fun i x j he => ?_
  · obtain ⟨q, hq, hget⟩ := h.initial_iff.1 hi
    obtain ⟨-, rfl⟩ := (getElem?_tableOrder hA).1 hget
    exact hlt q (hA.initial_lt hq)
  · obtain ⟨q, hq, hget⟩ := h.mem_finals.1 hi
    obtain ⟨-, rfl⟩ := (getElem?_tableOrder hA).1 hget
    exact hlt q (hA.final_lt hq)
  · obtain ⟨q, r, hmem, rfl, rfl⟩ := (hes _ _ _).1 he
    exact ⟨hlt q (hA.source_lt hmem), hlt r (hA.target_lt hmem)⟩
  · obtain ⟨q, r, hmem, -, -⟩ := (hes _ _ _).1 he
    show x ∈ D.automaton.alphabet
    rw [h.alphabet_eq]
    exact hA.symbol_mem hmem

end Reread

/-- A table of an automaton with an initial state, whose names it can hold and which are told apart, is
read back as that automaton with its states in another order, and this one has the same table. -/
theorem toAutomaton_toTable (hA : A.WellFormed) (hi : A.initial ≠ none) (hd : A.NamesDistinct)
    (hr : A.NamesReadable) : ∃ B f, A.toTable.toAutomaton = .ok B ∧ Renumbering A B f ∧
      B.toTable = A.toTable := by
  obtain ⟨D, hrows, hD⟩ := (declares_nil A).exists_foldlM_read A.tableOrder rfl hd hr
    (fun q hq => (mem_tableOrder hA).1 hq) A.nodup_tableOrder
  rw [List.nil_append, List.map_nil] at hrows
  rw [List.nil_append] at hD
  obtain ⟨es, hcells, hes⟩ := D.exists_addEdges
    (StateTable.listedEdges (StateTable.columnsFrom 1 A.tableLabels)
      (A.tableOrder.map fun q => (A.name q).chars) (A.tableOrder.map A.tableRow))
    fun m hm => by
      obtain ⟨src, c, dst⟩ := m
      obtain ⟨q, l, r, hmem, rfl, rfl, rfl⟩ := (mem_listedEdges hA hr).1 hm
      exact ⟨_, _, _, (hD.get?_text hA hd (hA.source_lt hmem)).2 rfl, hD.label_eq hA hmem,
        (hD.get?_text hA hd (hA.target_lt hmem)).2 rfl⟩
  have hes' : ∀ i l j, (i, l, j) ∈ es ↔
      ∃ q r, r ∈ A.targets q l ∧ i = A.tableOrder.idxOf q ∧ j = A.tableOrder.idxOf r := by
    intro i l j
    rw [hes]
    constructor
    · rintro ⟨⟨src, c, dst⟩, hm, hsrc, hl, hdst⟩
      obtain ⟨q, l', r, hmem, rfl, rfl, rfl⟩ := (mem_listedEdges hA hr).1 hm
      obtain rfl := Except.ok.inj ((hD.label_eq hA hmem).symm.trans hl)
      exact ⟨q, r, hmem, (hD.get?_text hA hd (hA.source_lt hmem)).1 hsrc,
        (hD.get?_text hA hd (hA.target_lt hmem)).1 hdst⟩
    · rintro ⟨q, r, hmem, rfl, rfl⟩
      exact ⟨((A.name q).text, l.char, (A.name r).text),
        (mem_listedEdges hA hr).2 ⟨q, l, r, hmem, rfl, rfl, rfl⟩,
        (hD.get?_text hA hd (hA.source_lt hmem)).2 rfl, hD.label_eq hA hmem,
        (hD.get?_text hA hd (hA.target_lt hmem)).2 rfl⟩
  have hB := hD.renumbering hA hes'
  refine ⟨_, _, ?_, hB, hB.toTable_eq hA (hD.wellFormed hA hes') hd⟩
  have hinitial : ¬(D.automaton.addEdges es).initial.isNone = true := by
    rw [Option.isNone_iff_eq_none, hB.initial, Option.map_eq_none_iff]
    exact hi
  rw [StateTable.toAutomaton, toTable_rows]
  simp only [StateTable.readHeader_eq]
  show (do
    let d ← (A.tableOrder.map A.tableRow).foldlM StateTable.Declared.read ⟨[], ⟨.empty A.alphabet, ∅⟩⟩
    _) = _
  rw [hrows]
  show (do
    let D ← (StateTable.listedEdges _ _ _).foldlM (fun (D : Draft) (src, c, dst) => D.addEdge src c dst) D
    _) = _
  rw [hcells]
  exact if_neg hinitial

/-- An automaton with a comma in the name of a state, which two cells list beside and without another. -/
def commaName : Automaton :=
  (Draft.empty.requests [.symbol 'a', .state "q0" true false, .state "[q1,q2]" false true,
    .edge "q0" 'a' "q0", .edge "q0" 'a' "[q1,q2]", .edge "q0" '&' "[q1,q2]"]).automaton

theorem toAutomaton_toTable_commaName :
    commaName.WellFormed ∧ commaName.initial ≠ none ∧ commaName.NamesDistinct ∧
      commaName.NamesReadable ∧ ∃ B f, commaName.toTable.toAutomaton = .ok B ∧
        Renumbering commaName B f ∧ B.toTable = commaName.toTable := by
  have hA : commaName.WellFormed := Draft.wellFormed_requests _
  have hi : commaName.initial ≠ none := by decide
  have hnames : commaName.names = #[.atom "q0", .atom "[q1,q2]"] := by cbv
  have hd : commaName.NamesDistinct := by
    rw [NamesDistinct, hnames]
    decide
  have hr : commaName.NamesReadable := by
    rw [NamesReadable, hnames]
    decide
  exact ⟨hA, hi, hd, hr, toAutomaton_toTable hA hi hd hr⟩

end Automaton

end RegularLanguages
