import Mathlib.Data.List.DropRight
import RegularLanguages.StateTable.Import
/-!
# Reading cells back

A text can be read back from a table if it is not taken for something else there: it is trimmed, is not
the dash, does not begin with a mark, closes its brackets and has no comma outside of them (`Readable`).
Marks before such a text are told from it (`Readable.readMarks_withMarks`), and a list of such texts, joined
by commas, is split where they were joined (`readTargets_intercalate`).
-/

namespace RegularLanguages

/-! ### Trimmed texts -/

namespace Text

variable {s t : List Char}

theorem dropWhile_isBlank_eq_self_iff :
    s.dropWhile isBlank = s ↔ ∀ c, s.head? = some c → isBlank c = false := by
  rw [List.dropWhile_eq_self_iff]
  cases s with
  | nil => simp
  | cons c s => simp

theorem rdropWhile_isBlank_eq_self_iff :
    s.rdropWhile isBlank = s ↔ ∀ c, s.getLast? = some c → isBlank c = false := by
  rw [List.rdropWhile_eq_self_iff]
  rcases List.eq_nil_or_concat' s with rfl | ⟨s, c, rfl⟩
  · simp
  · simp

theorem trim_eq_self_iff : trim s = s ↔
    (∀ c, s.head? = some c → isBlank c = false) ∧ ∀ c, s.getLast? = some c → isBlank c = false := by
  rw [← dropWhile_isBlank_eq_self_iff, ← rdropWhile_isBlank_eq_self_iff]
  change (s.dropWhile isBlank).rdropWhile isBlank = s ↔ _
  constructor
  · intro h
    -- nothing is dropped at the end, so nothing was dropped before
    have hle := (List.rdropWhile_prefix isBlank (l := s.dropWhile isBlank)).length_le
    have hdrop := List.dropWhile_suffix isBlank (l := s)
    rw [h] at hle
    have heq := hdrop.eq_of_length (Nat.le_antisymm hdrop.length_le hle)
    exact ⟨heq, by rwa [heq] at h⟩
  · rintro ⟨hl, hr⟩
    rw [hl, hr]

theorem trim_append (hs : trim s = s) (ht : trim t = t) : trim (s ++ t) = s ++ t := by
  rw [trim_eq_self_iff] at hs ht ⊢
  constructor
  · intro c hc
    rw [List.head?_append, Option.or_eq_some_iff] at hc
    rcases hc with hc | ⟨-, hc⟩
    · exact hs.1 c hc
    · exact ht.1 c hc
  · intro c hc
    rw [List.getLast?_append, Option.or_eq_some_iff] at hc
    rcases hc with hc | ⟨-, hc⟩
    · exact ht.2 c hc
    · exact hs.2 c hc

end Text

namespace StateTable

open Text

/-- A name that a table can hold: it is not taken for a mark, a dash or a list when it is read. -/
structure Readable (n : List Char) : Prop where
  ne_nil : n ≠ []
  trim_eq : trim n = n
  ne_dash : n ≠ dashCell
  no_start : ¬startMark <+: n
  no_accept : ¬acceptMark <+: n
  no_comma (u v : List Char) : n = u ++ ',' :: v → u.foldl bracketDepth 0 ≠ 0
  closed : n.foldl bracketDepth 0 = 0

variable {n : List Char} {ns declared : List (List Char)} {depth : Nat}

/-! ### Splitting at commas -/

theorem splitOutside_ne_nil (depth : Nat) (cs : List Char) : splitOutside depth cs ≠ [] := by
  cases cs with
  | nil => simp [splitOutside]
  | cons c cs =>
    rw [splitOutside]
    split
    · simp
    · split <;> simp

theorem splitOutside_comma (cs : List Char) :
    splitOutside 0 (',' :: cs) = [] :: splitOutside 0 cs := by
  rw [splitOutside, if_pos ⟨rfl, rfl⟩]

theorem splitOutside_cons {c : Char} (h : c = ',' → depth ≠ 0) (cs : List Char) :
    splitOutside depth (c :: cs) =
      (splitOutside (bracketDepth depth c) cs).modifyHead (c :: ·) := by
  rw [splitOutside, if_neg fun hc => h hc.1 hc.2]
  have hne := splitOutside_ne_nil (bracketDepth depth c) cs
  split
  · contradiction
  · rename_i part parts heq
    rw [heq]
    rfl

/-- A text without a comma outside brackets is part of the first piece. -/
theorem splitOutside_append (h : ∀ u v, n = u ++ ',' :: v → u.foldl bracketDepth depth ≠ 0)
    (rest : List Char) : splitOutside depth (n ++ rest) =
      (splitOutside (n.foldl bracketDepth depth) rest).modifyHead (n ++ ·) := by
  induction n generalizing depth with
  | nil =>
    rw [List.nil_append, List.foldl_nil]
    cases splitOutside depth rest <;> rfl
  | cons c n ih =>
    have hc : c = ',' → depth ≠ 0 := fun hc => h [] n (by rw [hc]; rfl)
    have hrest : ∀ u v, n = u ++ ',' :: v → u.foldl bracketDepth (bracketDepth depth c) ≠ 0 :=
      fun u v hn => h (c :: u) v (by rw [hn]; rfl)
    rw [List.cons_append, splitOutside_cons hc, ih hrest, List.foldl_cons, List.modifyHead_modifyHead]
    rfl

/-- Splitting leaves a text whole if it has no comma outside brackets, and only then. -/
theorem splitOutside_eq_singleton_iff : splitOutside depth n = [n] ↔
    ∀ u v, n = u ++ ',' :: v → u.foldl bracketDepth depth ≠ 0 := by
  constructor
  · intro h
    induction n generalizing depth with
    | nil =>
      intro u v hn
      simp at hn
    | cons c n ih =>
      by_cases hc : c = ',' ∧ depth = 0
      · rw [splitOutside, if_pos hc] at h
        simp at h
      · rw [splitOutside_cons fun h h' => hc ⟨h, h'⟩] at h
        have hsplit : splitOutside (bracketDepth depth c) n = [n] := by
          cases hparts : splitOutside (bracketDepth depth c) n with
          | nil => exact absurd hparts (splitOutside_ne_nil _ n)
          | cons part parts => simpa [hparts] using h
        rintro (_ | ⟨k, u⟩) v hn
        · exact fun hd => hc ⟨(List.cons.inj hn).1, hd⟩
        · obtain ⟨rfl, htail⟩ := List.cons.inj hn
          exact ih hsplit u v htail
  · intro h
    have happend := splitOutside_append h []
    rwa [List.append_nil, splitOutside, List.modifyHead_cons, List.append_nil] at happend

theorem Readable.splitOutside_append (h : Readable n) (rest : List Char) :
    splitOutside 0 (n ++ rest) = (splitOutside 0 rest).modifyHead (n ++ ·) := by
  rw [StateTable.splitOutside_append h.no_comma, h.closed]

theorem Readable.splitOutside_eq (h : Readable n) : splitOutside 0 n = [n] :=
  splitOutside_eq_singleton_iff.2 h.no_comma

instance : DecidablePred Readable := fun n =>
  decidable_of_iff (n ≠ [] ∧ trim n = n ∧ n ≠ dashCell ∧ ¬startMark <+: n ∧ ¬acceptMark <+: n ∧
      splitOutside 0 n = [n] ∧ n.foldl bracketDepth 0 = 0)
    ⟨fun ⟨hne, htrim, hdash, hstart, haccept, hsplit, hclosed⟩ =>
      ⟨hne, htrim, hdash, hstart, haccept, splitOutside_eq_singleton_iff.1 hsplit, hclosed⟩,
    fun h => ⟨h.ne_nil, h.trim_eq, h.ne_dash, h.no_start, h.no_accept, h.splitOutside_eq, h.closed⟩⟩

example : Readable "[q1,q2]".toList := by decide

example : ¬Readable "q1,q2".toList := by decide

theorem splitOutside_intercalate (h : ∀ n ∈ ns, Readable n) (hne : ns ≠ []) :
    splitOutside 0 ([','].intercalate ns) = ns := by
  induction ns with
  | nil => contradiction
  | cons n ns ih =>
    have hn := h n List.mem_cons_self
    cases ns with
    | nil => simpa using hn.splitOutside_eq
    | cons m ns =>
      have hrest := ih (fun k hk => h k (List.mem_cons_of_mem n hk)) (List.cons_ne_nil m ns)
      rw [List.intercalate_cons_cons, List.append_assoc, hn.splitOutside_append,
        List.singleton_append, splitOutside_comma, hrest, List.modifyHead_cons, List.append_nil]

theorem trim_intercalate (h : ∀ n ∈ ns, Readable n) :
    trim ([','].intercalate ns) = [','].intercalate ns := by
  induction ns with
  | nil => rfl
  | cons n ns ih =>
    have hn := (h n List.mem_cons_self).trim_eq
    cases ns with
    | nil => simpa using hn
    | cons m ns =>
      have hrest := ih fun k hk => h k (List.mem_cons_of_mem n hk)
      rw [List.intercalate_cons_cons]
      exact trim_append (trim_append hn (by decide)) hrest

/-- What is joined is read as what it was joined from, even if other names are declared. -/
theorem readTargets_intercalate (hd : ∀ d ∈ declared, Readable d) (h : ∀ n ∈ ns, Readable n)
    (hne : ns ≠ []) : readTargets declared ([','].intercalate ns) = ns := by
  have hsplit := splitOutside_intercalate h hne
  rw [readTargets]
  split
  · rename_i hmem
    rw [(hd _ hmem).splitOutside_eq] at hsplit
    exact hsplit
  · have hmap : ns.map trim = ns :=
      (List.map_congr_left fun n hn => (h n hn).trim_eq).trans (List.map_id' ns)
    rw [hsplit, hmap, List.filter_eq_self]
    intro n hn
    cases n with
    | nil => exact absurd rfl (h [] hn).ne_nil
    | cons c n => rfl

theorem intercalate_ne_dash (h : ∀ n ∈ ns, Readable n) (hne : ns ≠ []) :
    [','].intercalate ns ≠ dashCell := by
  intro heq
  have hsplit := splitOutside_intercalate h hne
  rw [heq] at hsplit
  have hns : ns = [dashCell] := hsplit.symm
  exact (h dashCell (by simp [hns])).ne_dash rfl

theorem intercalate_ne_nil (h : ∀ n ∈ ns, Readable n) (hne : ns ≠ []) :
    [','].intercalate ns ≠ [] := by
  intro heq
  have hsplit := splitOutside_intercalate h hne
  rw [heq] at hsplit
  have hns : ns = [[]] := hsplit.symm
  exact (h [] (by simp [hns])).ne_nil rfl

/-- The targets of a row under a column whose cell lists names, or nothing. -/
theorem rowTargets_eq {row : List String} {i : Nat} (hd : ∀ d ∈ declared, Readable d)
    (h : ∀ n ∈ ns, Readable n)
    (hrow : row[i]? = some (String.ofList (if ns = [] then dashCell else [','].intercalate ns))) :
    rowTargets declared row i = ns := by
  rw [rowTargets, hrow]
  simp only [String.toList_ofList]
  by_cases hne : ns = []
  · have htrim : trim dashCell = dashCell := by decide
    rw [if_pos hne, htrim, if_pos (.inr rfl), hne]
  · have hcell := intercalate_ne_nil h hne
    rw [if_neg hne, trim_intercalate h, if_neg, readTargets_intercalate hd h hne]
    rw [List.isEmpty_iff]
    exact not_or.2 ⟨hcell, intercalate_ne_dash h hne⟩

/-! ### Marks -/

/-- A name with the marks of a row label before it. -/
def withMarks (isInitial isFinal : Bool) (n : List Char) : List Char :=
  (if isFinal then acceptMark else []) ++ (if isInitial then startMark else []) ++ n

theorem Readable.readMarks_eq (h : Readable n) (isInitial isFinal : Bool) :
    readMarks isInitial isFinal n = ⟨n, isInitial, isFinal⟩ := by
  unfold readMarks
  split
  · exact absurd ⟨_, rfl⟩ h.no_start
  · exact absurd ⟨_, rfl⟩ h.no_accept
  · rw [h.trim_eq]

/-- Marks that are written before a text are taken off again. -/
theorem readMarks_withMarks (n : List Char) (isInitial isFinal : Bool) :
    readMarks false false (withMarks isInitial isFinal n) = readMarks isInitial isFinal n := by
  cases isInitial <;> cases isFinal <;> rfl

theorem trim_withMarks (hn : trim n = n) (isInitial isFinal : Bool) :
    trim (withMarks isInitial isFinal n) = withMarks isInitial isFinal n := by
  refine trim_append (trim_append ?_ ?_) hn
  · cases isFinal <;> decide
  · cases isInitial <;> decide

theorem Readable.readMarks_withMarks (h : Readable n) (isInitial isFinal : Bool) :
    readMarks false false (withMarks isInitial isFinal n) = ⟨n, isInitial, isFinal⟩ :=
  (StateTable.readMarks_withMarks n isInitial isFinal).trans (h.readMarks_eq isInitial isFinal)

theorem Readable.trim_withMarks (h : Readable n) (isInitial isFinal : Bool) :
    trim (withMarks isInitial isFinal n) = withMarks isInitial isFinal n :=
  StateTable.trim_withMarks h.trim_eq isInitial isFinal

end StateTable

end RegularLanguages
