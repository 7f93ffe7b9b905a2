import RegularLanguages.Proofs.StateTable.Reading
/-!
# Row labels read back

A name that is read from a row label is trimmed, and after it the label is written without the blanks that may
have stood between its marks and the name. So a name that begins with a mark may be told from it no longer:
`* ->q` declares a final state called `->q`, which is written as `*->q`, an initial and final state called `q`.
This is the only way in which what is written can be misread (`readMarks_withMarks_iff`): both marks leave no
other to be taken off, and a label without marks is written as it was read.
-/

namespace RegularLanguages

theorem Text.trim_trim (s : List Char) : trim (trim s) = trim s := by
  have hinit : trim s <+: s.dropWhile isBlank := List.rdropWhile_prefix isBlank _
  refine trim_eq_self_iff.2 ⟨fun c hc => ?_, ?_⟩
  · refine dropWhile_isBlank_eq_self_iff.1 (List.dropWhile_idempotent isBlank s) c ?_
    obtain ⟨rest, hrest⟩ := hinit
    rw [← hrest, List.head?_append, hc]
    rfl
  · exact rdropWhile_isBlank_eq_self_iff.1 (List.rdropWhile_idempotent isBlank _)

/-- What the row of a state is to declare. -/
def Automaton.declared (A : Automaton) (q : State) : StateTable.Declaration :=
  ⟨(A.name q).chars, A.initial = some q, q ∈ A.finals⟩

namespace StateTable

open Text

variable {t : StateTable} {A : Automaton} {q : State} {n : List Char} {d : Declaration}
  {isInitial isFinal : Bool}

/-- The name of a state with one mark begins with the other mark. -/
def Declaration.HidesMark (d : Declaration) : Prop :=
  d.isFinal = true ∧ d.isInitial = false ∧ startMark <+: d.name ∨
    d.isInitial = true ∧ d.isFinal = false ∧ acceptMark <+: d.name

instance (d : Declaration) : Decidable d.HidesMark := inferInstanceAs (Decidable (_ ∨ _))

/-! ### Taking marks off -/

theorem not_startMark_of_ne (hn : ∀ rest, n ≠ '-' :: '>' :: rest) : ¬startMark <+: n := by
  rintro ⟨rest, h⟩
  exact hn rest h.symm

theorem not_acceptMark_of_ne (hn : ∀ rest, n ≠ '*' :: rest) : ¬acceptMark <+: n := by
  rintro ⟨rest, h⟩
  exact hn rest h.symm

/-- Marks are set and never cleared. -/
theorem marks_readMarks (isInitial isFinal : Bool) (cs : List Char) :
    (isInitial = true → (readMarks isInitial isFinal cs).isInitial = true) ∧
      (isFinal = true → (readMarks isInitial isFinal cs).isFinal = true) := by
  fun_induction readMarks isInitial isFinal cs with
  | case1 => simp
  | case2 isInitial isFinal cs _ ih => exact ⟨fun _ => ih.1 rfl, ih.2⟩
  | case3 => simp
  | case4 isInitial isFinal cs _ ih => exact ⟨ih.1, fun _ => ih.2 rfl⟩
  | case5 => simp

/-- What is left for the name begins with no mark that was not taken off, and it is all if none was. -/
theorem exists_readMarks_eq (isInitial isFinal : Bool) (cs : List Char) : ∃ rest,
    (readMarks isInitial isFinal cs).name = trim rest ∧
      (startMark <+: rest → (readMarks isInitial isFinal cs).isInitial = true) ∧
      (acceptMark <+: rest → (readMarks isInitial isFinal cs).isFinal = true) ∧
      ((readMarks isInitial isFinal cs).isInitial = isInitial →
        (readMarks isInitial isFinal cs).isFinal = isFinal → rest = cs) := by
  fun_induction readMarks isInitial isFinal cs with
  | case1 isFinal cs =>
    exact ⟨_, rfl, fun _ => rfl, fun h => absurd h (not_acceptMark_of_ne (by simp)), fun _ _ => rfl⟩
  | case2 isInitial isFinal cs hi ih =>
    obtain ⟨rest, hname, hstart, haccept, -⟩ := ih
    refine ⟨rest, hname, hstart, haccept, fun hsame _ => absurd ?_ hi⟩
    rw [← hsame, (marks_readMarks true isFinal cs).1 rfl]
  | case3 isInitial cs =>
    exact ⟨_, rfl, fun h => absurd h (not_startMark_of_ne (by simp)), fun _ => rfl, fun _ _ => rfl⟩
  | case4 isInitial isFinal cs hf ih =>
    obtain ⟨rest, hname, hstart, haccept, -⟩ := ih
    refine ⟨rest, hname, hstart, haccept, fun _ hsame => absurd ?_ hf⟩
    rw [← hsame, (marks_readMarks isInitial true cs).2 rfl]
  | case5 isInitial isFinal cs hstart haccept =>
    exact ⟨_, rfl, fun h => absurd h (not_startMark_of_ne hstart),
      fun h => absurd h (not_acceptMark_of_ne haccept), fun _ _ => rfl⟩

/-- No mark is taken off if and only if the text begins with none, but for those that were taken before. -/
theorem readMarks_eq_iff (hn : trim n = n) : readMarks isInitial isFinal n = ⟨n, isInitial, isFinal⟩ ↔
    (startMark <+: n → isInitial = true) ∧ (acceptMark <+: n → isFinal = true) := by
  constructor
  · intro h
    obtain ⟨rest, -, hstart, haccept, hall⟩ := exists_readMarks_eq isInitial isFinal n
    rw [h] at hstart haccept hall
    obtain rfl := hall rfl rfl
    exact ⟨hstart, haccept⟩
  · rintro ⟨hstart, haccept⟩
    unfold readMarks
    split
    · rw [if_pos (hstart ⟨_, rfl⟩), hn, hstart ⟨_, rfl⟩]
    · rw [if_pos (haccept ⟨_, rfl⟩), hn, haccept ⟨_, rfl⟩]
    · rw [hn]

/-! ### Labels that were read -/

/-- What a row declares is read back from its label, unless a mark is hidden in its name. -/
theorem readMarks_withMarks_iff {s : List Char} (hs : trim s = s) (h : readMarks false false s = d) :
    readMarks false false (trim (withMarks d.isInitial d.isFinal d.name)) = d ↔ ¬d.HidesMark := by
  obtain ⟨rest, hname, hstart, haccept, hall⟩ := exists_readMarks_eq false false s
  rw [h] at hname hstart haccept hall
  have htrim : trim d.name = d.name := by rw [hname, trim_trim]
  rw [trim_withMarks htrim, readMarks_withMarks]
  -- a label without marks is the name, which begins with none
  have hplain (hi : d.isInitial = false) (hf : d.isFinal = false) : d.name = rest := by
    rw [hname, hall hi hf, hs]
  refine (readMarks_eq_iff htrim).trans ⟨?_, fun hno => ⟨fun hpre => ?_, fun hpre => ?_⟩⟩
  · rintro ⟨hnoStart, hnoAccept⟩ (⟨-, hi, hpre⟩ | ⟨-, hf, hpre⟩)
    · exact Bool.false_ne_true (hi.symm.trans (hnoStart hpre))
    · exact Bool.false_ne_true (hf.symm.trans (hnoAccept hpre))
  · by_contra hi
    rw [Bool.not_eq_true] at hi
    cases hf : d.isFinal with
    | true => exact hno (.inl ⟨hf, hi, hpre⟩)
    | false => exact Bool.false_ne_true (hi.symm.trans (hstart (hplain hi hf ▸ hpre)))
  · by_contra hf
    rw [Bool.not_eq_true] at hf
    cases hi : d.isInitial with
    | true => exact hno (.inr ⟨hi, hf, hpre⟩)
    | false => exact Bool.false_ne_true (hf.symm.trans (haccept (hplain hi hf ▸ hpre)))

/-- A state that is read is the one that a row declares. -/
theorem Describes.declared_eq (h : t.Describes A) (hd : t.declarations[q]? = some d) :
    A.declared q = d := by
  have hname : A.name q = .atom (String.ofList d.name) := by
    rw [Automaton.name, h.names_eq, List.getElem?_toArray, List.getElem?_map, hd]
    rfl
  have hinitial : decide (A.initial = some q) = d.isInitial := by
    rw [Bool.eq_iff_iff]
    simp [h.initial_iff, hd]
  have hfinal : decide (q ∈ A.finals) = d.isFinal := by
    rw [Bool.eq_iff_iff]
    simp [h.final_iff, hd]
  rw [Automaton.declared, hname, hinitial, hfinal, StateName.chars, String.toList_ofList]

theorem Describes.exists_declaration (h : t.Describes A) (hq : q < A.size) :
    ∃ row, A.declared q = declaration row := by
  have hlt : q < t.declarations.length := by
    rw [Automaton.size, h.names_eq] at hq
    simpa using hq
  obtain ⟨row, -, hrow⟩ := List.mem_map.1 (List.getElem_mem hlt)
  exact ⟨row, (h.declared_eq (List.getElem?_eq_getElem hlt)).trans hrow.symm⟩

theorem markedName_eq_withMarks (A : Automaton) (q : State) : A.markedName q =
    withMarks (A.declared q).isInitial (A.declared q).isFinal (A.declared q).name := by
  simp [Automaton.markedName, withMarks, Automaton.declared]

/-- The label of a state that is read declares the state again, unless the state has one mark and its name
begins with the other. -/
theorem label_declares_again (h : t.toAutomaton = .ok A) (hq : q < A.size) :
    readMarks false false (trim (A.markedName q)) = A.declared q ↔ ¬(A.declared q).HidesMark := by
  obtain ⟨-, -, -, -, hnodup, D, hD, -, rfl⟩ := toAutomaton_eq_ok.1 h
  obtain ⟨row, hrow⟩ := (describes_requests hD hnodup).exists_declaration hq
  rw [markedName_eq_withMarks]
  exact readMarks_withMarks_iff (trim_trim _) hrow.symm

/-- Labels with blanks around their marks. -/
def spacedMarks : StateTable := ⟨[["δ", "a"], [" -> p", "q"], ["*\tq ", "-"]]⟩

theorem label_declares_again_spacedMarks : ∃ A, spacedMarks.toAutomaton = .ok A ∧ 1 < A.size ∧
    A.markedName 1 = ['*', 'q'] ∧ readMarks false false (trim (A.markedName 1)) = A.declared 1 := by
  have hread : (do let A ← spacedMarks.toAutomaton; return (A.size, A.markedName 1, A.declared 1)) =
      .ok (2, ['*', 'q'], ⟨['q'], false, true⟩) := by cbv
  obtain ⟨A, hA, hread⟩ := bind_eq_ok.1 hread
  have hvalues := Except.ok.inj hread
  simp only [Prod.mk.injEq] at hvalues
  obtain ⟨hsize, hlabel, hdeclared⟩ := hvalues
  have hno : ¬(A.declared 1).HidesMark := by
    rw [hdeclared]
    decide
  have hq : 1 < A.size := by omega
  exact ⟨A, hA, hq, hlabel, (label_declares_again hA hq).2 hno⟩

/-- An initial state called `*q`, which is not final, is written as a final one called `q`. -/
theorem label_hides_mark : ∃ A, (mk [["δ"], ["-> *q"]]).toAutomaton = .ok A ∧ 0 < A.size ∧
    A.declared 0 = ⟨['*', 'q'], true, false⟩ ∧
    readMarks false false (trim (A.markedName 0)) = ⟨['q'], true, true⟩ ∧
    readMarks false false (trim (A.markedName 0)) ≠ A.declared 0 := by
  have hread : (do
      let A ← (mk [["δ"], ["-> *q"]]).toAutomaton
      return (A.size, A.declared 0, readMarks false false (trim (A.markedName 0)))) =
    .ok (1, ⟨['*', 'q'], true, false⟩, ⟨['q'], true, true⟩) := by cbv
  obtain ⟨A, hA, hread⟩ := bind_eq_ok.1 hread
  have hvalues := Except.ok.inj hread
  simp only [Prod.mk.injEq] at hvalues
  obtain ⟨hsize, hdeclared, hlabel⟩ := hvalues
  exact ⟨A, hA, by omega, hdeclared, hlabel, by rw [hlabel, hdeclared]; decide⟩

end StateTable

end RegularLanguages
