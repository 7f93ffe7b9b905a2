import RegularLanguages.Proofs.Regex.Normalize
/-!
# The place of a fault

What is read without a fault can always go on to an expression: an operand completes what has begun, and
then the open parentheses are closed (`isViable_of_readAll`). So a fault that is found before the end is
found at the first character after which nothing is an expression, and one that is found at the end could
be mended there (`normalize_error_place`).
-/

namespace RegularLanguages

def ParseError.position : ParseError → Nat
  | invalidSymbol _ position => position
  | unbalancedParentheses position => position
  | unbalancedOperators position => position

namespace Regex

/-- Some expression starts with these characters. -/
def IsViable (source : List Char) : Prop := ∃ rest, IsExpression (source ++ rest)

namespace Scan

variable {s t : Scan} {source u v : List Char} {position : Nat} {c : Char} {e : ParseError}

theorem readAll_append : readAll position s (u ++ v) =
    readAll position s u >>= fun t => readAll (position + u.length) t v := by
  induction u generalizing position s with
  | nil => rfl
  | cons c u ih =>
    rw [List.cons_append, readAll, readAll]
    cases s.read position c with
    | error e => rfl
    | ok t =>
      show readAll (position + 1) t (u ++ v) = _
      rw [ih, List.length_cons, Nat.add_right_comm, ← Nat.add_assoc]
      rfl

/-! ### What has been read -/

/-- The open parentheses are those that have not been closed, and `|` is written last only if it is read
last. -/
structure Tracks (source : List Char) (s : Scan) : Prop where
  depth_add : s.depth + source.count ')' = source.count '('
  bar_last : s.written.head? = some '|' → source.getLast? = some '|'

theorem Tracks.start : Tracks [] ⟨[], 0⟩ := ⟨rfl, nofun⟩

theorem Tracks.read (h : Tracks source s) (hr : s.read position c = .ok t) :
    Tracks (source ++ [c]) t := by
  have hdepth := h.depth_add
  have hparens {d : Char} (hopen : d ≠ '(') (hclose : d ≠ ')') :
      s.depth + (source ++ [d]).count ')' = (source ++ [d]).count '(' := by
    rw [List.count_append, List.count_append, List.count_singleton, List.count_singleton]
    simpa [hopen, hclose] using hdepth
  rcases read_cases hr with ⟨x, rfl, rfl⟩ | ⟨rfl, rfl⟩ | ⟨rfl, hd, -, rfl⟩ | ⟨rfl, -, rfl⟩ | ⟨m, rfl, -, rfl⟩
  · refine ⟨?_, fun hbar => absurd (Option.some.inj hbar) (x.char_ne rfl)⟩
    exact (congrArg (· + _) (depth_joined s)).trans (hparens (x.char_ne rfl) (x.char_ne rfl))
  · refine ⟨?_, fun hbar => absurd (Option.some.inj hbar) (by decide)⟩
    rw [List.count_append, List.count_append]
    show s.depth + 1 + (source.count ')' + 0) = source.count '(' + 1
    omega
  · refine ⟨?_, fun hbar => absurd (Option.some.inj hbar) (by decide)⟩
    rw [List.count_append, List.count_append]
    show s.depth - 1 + (source.count ')' + 1) = source.count '(' + 0
    omega
  · exact ⟨hparens (by decide) (by decide), fun _ => List.getLast?_concat⟩
  · obtain ⟨n, w, hn⟩ := writeQuantifier_eq s m
    rw [hn]
    refine ⟨hparens (by cases m <;> decide) (by cases m <;> decide), fun hbar => ?_⟩
    exact absurd (Option.some.inj hbar) (by cases n <;> decide)

theorem Tracks.readAll (h : Tracks source s) (hr : readAll position s u = .ok t) :
    Tracks (source ++ u) t := readAll_invariant Tracks.read h hr

/-! ### Going on -/

theorem exists_readAll_closing (hs : s.endsOperand = true) (position : Nat) :
    ∃ t, readAll position s (List.replicate s.depth ')') = .ok t ∧ t.endsOperand = true ∧ t.depth = 0 := by
  generalize hd : s.depth = d
  induction d generalizing s position with
  | zero => exact ⟨s, rfl, hs, hd⟩
  | succ d ih =>
    have hclose : s.read position ')' = .ok { s.write ')' with depth := s.depth - 1 } :=
      read_close (by omega) (not_lacksOperand_of_endsOperand hs)
    obtain ⟨t, ht, hends, hzero⟩ :=
      ih (s := { s.write ')' with depth := s.depth - 1 }) rfl (position + 1) (by simp [hd])
    refine ⟨t, ?_, hends, hzero⟩
    rw [List.replicate_succ, readAll_cons hclose, ht]

theorem isViable_of_readAll (h : readAll 0 ⟨[], 0⟩ source = .ok s) : IsViable source := by
  let x : Symbol := ⟨'a', rfl⟩
  have hends : (s.joined.write x.char).endsOperand = true := rfl
  have hsymbol := read_symbol s source.length x
  obtain ⟨t, ht, hends, hzero⟩ := exists_readAll_closing hends (source.length + 1)
  refine ⟨x.char :: List.replicate (s.joined.write x.char).depth ')', normalize_isOk_iff.1
    ⟨t.written.reverse, ?_⟩⟩
  rw [normalize, readAll_append, h]
  show readAll (0 + source.length) s _ >>= _ = _
  rw [Nat.zero_add, readAll_cons hsymbol, ht]
  exact finish_of_endsOperand hends hzero

/-! ### Faults -/

/-- All that precedes the first character at fault is read. -/
theorem exists_of_readAll_error (h : readAll position s source = .error e) :
    ∃ u c v t, source = u ++ c :: v ∧ readAll position s u = .ok t ∧
      t.read (position + u.length) c = .error e := by
  induction source generalizing position s with
  | nil => cases h
  | cons c source ih =>
    rw [readAll] at h
    cases hc : s.read position c with
    | error e' =>
      rw [hc] at h
      obtain rfl := Except.error.inj h
      exact ⟨[], c, source, s, rfl, rfl, hc⟩
    | ok t =>
      rw [hc] at h
      obtain ⟨u, d, v, t', rfl, hu, hd⟩ := ih h
      refine ⟨c :: u, d, v, t', rfl, (readAll_cons hc).trans hu, ?_⟩
      rwa [List.length_cons, Nat.add_comm u.length, ← Nat.add_assoc]

theorem position_of_read_error (h : s.read position c = .error e) : e.position = position := by
  unfold read at h
  repeat' split at h
  all_goals cases h
  all_goals rfl

/-- After a character at fault nothing mends an expression. -/
theorem not_isViable_of_read_error (hu : readAll 0 ⟨[], 0⟩ u = .ok t)
    (hc : t.read u.length c = .error e) : ¬ IsViable (u ++ [c]) := by
  rintro ⟨rest, hrest⟩
  obtain ⟨out, hout⟩ := normalize_isOk_iff.2 hrest
  obtain ⟨s, hs, -⟩ := bind_eq_ok.1 hout
  have hread : readAll (0 + u.length) t (c :: rest) = .ok s := by
    rw [List.append_assoc, readAll_append, hu] at hs
    exact hs
  rw [Nat.zero_add, readAll, hc] at hread
  cases hread

theorem finish_error_cases (h : s.finish position = .error e) :
    (0 < s.depth ∧ e = .unbalancedParentheses position) ∨
      s.depth = 0 ∧ s.written.head? = some '|' ∧ e = .unbalancedOperators position := by
  unfold finish at h
  split at h
  · rename_i hd
    exact .inl ⟨hd, (Except.error.inj h).symm⟩
  · rename_i hd
    split at h
    · rename_i hb
      exact .inr ⟨Nat.eq_zero_of_not_pos hd, hb, (Except.error.inj h).symm⟩
    · cases h

end Scan

open Scan

theorem normalize_error_cases {source : List Char} {e : ParseError} (h : normalize source = .error e) :
    (∃ u c v t, source = u ++ c :: v ∧ readAll 0 ⟨[], 0⟩ u = .ok t ∧ t.read u.length c = .error e) ∨
      ∃ t, readAll 0 ⟨[], 0⟩ source = .ok t ∧ t.finish source.length = .error e := by
  rw [normalize] at h
  cases hr : readAll 0 ⟨[], 0⟩ source with
  | error e' =>
    rw [hr] at h
    obtain rfl := Except.error.inj h
    obtain ⟨u, c, v, t, hsource, hu, hc⟩ := exists_of_readAll_error hr
    exact .inl ⟨u, c, v, t, hsource, hu, by rwa [Nat.zero_add] at hc⟩
  | ok t =>
    rw [hr] at h
    exact .inr ⟨t, rfl, h⟩

/-- A text that is no expression is at fault where no expression can be made of it any more. Before its end
that is the first character after which nothing is an expression. At its end it starts some expressions,
and either has parentheses that are not closed or no operand after a last `|`. -/
theorem normalize_error_place {source : List Char} {e : ParseError} (h : normalize source = .error e) :
    (e.position < source.length ∧ IsViable (source.take e.position) ∧
      ¬ IsViable (source.take (e.position + 1))) ∨
    (e.position = source.length ∧ IsViable source ∧ ¬ IsExpression source ∧
      ((source.count ')' < source.count '(' ∧ e = .unbalancedParentheses source.length) ∨
        (source.count ')' = source.count '(' ∧ e = .unbalancedOperators source.length ∧
          source.getLast? = some '|'))) := by
  rcases normalize_error_cases h with ⟨u, c, v, t, rfl, hu, hc⟩ | ⟨t, ht, hfinish⟩
  · left
    have hnext : (u ++ c :: v).take (u.length + 1) = u ++ [c] := by
      rw [List.append_cons]
      exact List.take_left' (by simp)
    rw [position_of_read_error hc, List.take_left, hnext]
    exact ⟨by simp, isViable_of_readAll hu, not_isViable_of_read_error hu hc⟩
  · right
    obtain ⟨hdepth, hbar⟩ := Tracks.start.readAll ht
    rw [List.nil_append] at hdepth hbar
    have hno : ¬ IsExpression source := fun hs => by
      obtain ⟨out, hout⟩ := normalize_isOk_iff.2 hs
      rw [h] at hout
      cases hout
    rcases finish_error_cases hfinish with ⟨hopen, rfl⟩ | ⟨hzero, hlast, rfl⟩
    · exact ⟨rfl, isViable_of_readAll ht, hno, .inl ⟨by omega, rfl⟩⟩
    · exact ⟨rfl, isViable_of_readAll ht, hno, .inr ⟨by omega, rfl, hbar hlast⟩⟩

/-- The first text is at fault before its end, the second one at its end. -/
theorem normalize_error_place_bars :
    normalize "a||b".toList = .error (.unbalancedOperators 2) ∧ IsViable "a|".toList ∧
      ¬ IsViable "a||".toList ∧ normalize "(a|".toList = .error (.unbalancedParentheses 3) ∧
      IsViable "(a|".toList ∧ ¬ IsExpression "(a|".toList := by
  have hbars : normalize "a||b".toList = .error (.unbalancedOperators 2) := by rfl
  have hopen : normalize "(a|".toList = .error (.unbalancedParentheses 3) := by rfl
  obtain ⟨-, hviable, hno⟩ | ⟨hend, -⟩ := normalize_error_place hbars
  · obtain ⟨hbefore, -⟩ | ⟨-, hviable', hno', -⟩ := normalize_error_place hopen
    · exact absurd hbefore (by decide)
    · exact ⟨hbars, hviable, hno, hopen, hviable', hno'⟩
  · exact absurd hend (by decide)

end Regex

end RegularLanguages
