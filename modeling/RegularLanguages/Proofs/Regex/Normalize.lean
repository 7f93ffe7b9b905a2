import RegularLanguages.Proofs.Regex.Grammar
/-!
# Normalizing follows the grammar

Reading the text of a phrase writes its normal text, after a mark if it follows an operand
(`readAll_text`). What is read without a fault is a nest of unfinished expressions, one for each open
parenthesis and one outside of them (`Nested`).
-/

namespace RegularLanguages

theorem Symbol.char_ne (x : Symbol) {c : Char} (h : Symbol.isValid c = false) : x.char ≠ c := by
  rintro rfl
  have hv : Symbol.isValid x.char = true := x.valid
  rw [h] at hv
  cases hv

theorem Quantifier.ofChar?_char (m : Quantifier) : Quantifier.ofChar? m.char = some m := by
  cases m <;> rfl

theorem Quantifier.ofChar?_symbol (x : Symbol) : Quantifier.ofChar? x.char = none := by
  unfold Quantifier.ofChar?
  rw [if_neg (x.char_ne rfl), if_neg (x.char_ne rfl), if_neg (x.char_ne rfl)]

theorem Quantifier.eq_char_of_ofChar? {c : Char} {m : Quantifier}
    (h : Quantifier.ofChar? c = some m) : c = m.char := by
  unfold Quantifier.ofChar? at h
  split at h
  · rw [← Option.some.inj h]; assumption
  · split at h
    · rw [← Option.some.inj h]; assumption
    · split at h
      · rw [← Option.some.inj h]; assumption
      · cases h

namespace Regex.Scan

/-- The scan with concatenation marked if an operand follows another one. -/
def joined (s : Scan) : Scan := if s.endsOperand then s.write '.' else s

variable {s : Scan} {w rest : List Char} {d position : Nat}

theorem depth_joined (s : Scan) : s.joined.depth = s.depth := by
  unfold joined
  split <;> rfl

theorem joined_of_endsOperand (h : s.endsOperand = true) : s.joined = s.write '.' := if_pos h

theorem not_lacksOperand_of_endsOperand (h : s.endsOperand = true) : s.lacksOperand = false := by
  obtain ⟨w, d⟩ := s
  cases w with
  | nil => cases h
  | cons p w =>
    show (decide (p = '(') || decide (p = '|')) = false
    rw [Bool.or_eq_false_iff, decide_eq_false_iff_not, decide_eq_false_iff_not]
    constructor
    · rintro rfl; cases h
    · rintro rfl; cases h

/-! ### Single characters -/

theorem read_symbol (s : Scan) (position : Nat) (x : Symbol) :
    s.read position x.char = .ok (s.joined.write x.char) := by
  have hx : Symbol.isValid x.char = true := x.valid
  unfold read
  rw [if_pos (.inr hx)]
  simp only [if_neg (x.char_ne (c := '(') rfl)]
  show Except.ok { s.joined.write x.char with depth := s.joined.depth } = _
  rfl

theorem read_open (s : Scan) (position : Nat) :
    s.read position '(' = .ok { s.joined.write '(' with depth := s.depth + 1 } := by
  unfold read
  rw [if_pos (.inl rfl)]
  simp only [if_true]
  show Except.ok { s.joined.write '(' with depth := s.joined.depth + 1 } = _
  rw [depth_joined]

theorem read_close (hd : s.depth ≠ 0) (hs : s.lacksOperand = false) :
    s.read position ')' = .ok { s.write ')' with depth := s.depth - 1 } := by
  unfold read
  rw [if_neg (by decide), if_pos rfl, if_neg hd, if_neg (by simp [hs])]

theorem read_bar (hs : s.lacksOperand = false) : s.read position '|' = .ok (s.write '|') := by
  unfold read
  rw [if_neg (by decide), if_neg (by decide), if_pos rfl, if_neg (by simp [hs])]

theorem read_quantifier (hs : s.lacksOperand = false) (m : Quantifier) :
    s.read position m.char = .ok (s.writeQuantifier m) := by
  unfold read
  have hm : Quantifier.ofChar? m.char = some m := m.ofChar?_char
  rw [if_neg (by cases m <;> decide), if_neg (by cases m <;> decide),
    if_neg (by cases m <;> decide), hm]
  simp only
  rw [if_neg (by simp [hs])]

theorem readAll_cons {c : Char} {t : Scan} (h : s.read position c = .ok t) :
    readAll position s (c :: rest) = readAll (position + 1) t rest := by
  rw [readAll, h]
  rfl

/-! ### Texts of phrases -/

/-- What has been written of a phrase ends an operand. -/
theorem endsOperand_normal {c : Category} (p : Phrase c) (w : List Char) (d : Nat) :
    (⟨p.normal.reverse ++ w, d⟩ : Scan).endsOperand = true := by
  induction p generalizing w with
  | symbol x =>
    show (decide (x.char = ')') || (Quantifier.ofChar? x.char).isSome || Symbol.isValid x.char) = true
    have hx : Symbol.isValid x.char = true := x.valid
    rw [hx, Bool.or_true]
  | group e _ =>
    rw [Phrase.normal, List.reverse_cons, List.reverse_append]
    rfl
  | factor a ms ih =>
    rw [Phrase.normal, List.reverse_append, List.append_assoc]
    cases Quantifier.collapse ms with
    | none => exact ih w
    | some m =>
      show (decide (m.char = ')') || (Quantifier.ofChar? m.char).isSome || Symbol.isValid m.char) = true
      rw [m.ofChar?_char, Option.isSome_some, Bool.or_true, Bool.true_or]
  | single f ih => exact ih w
  | juxtapose f t _ ih =>
    rw [Phrase.normal, List.reverse_append, List.reverse_cons, List.append_assoc, List.append_assoc]
    exact ih _
  | lone t ih => exact ih w
  | union t e _ ih =>
    rw [Phrase.normal, List.reverse_append, List.reverse_cons, List.append_assoc, List.append_assoc]
    exact ih _

/-- What has been written of an atom does not end with a quantifier. -/
theorem exists_last_atom (a : Phrase .atom) (w : List Char) :
    ∃ p v, a.normal.reverse ++ w = p :: v ∧ Quantifier.ofChar? p = none := by
  cases a with
  | symbol x => exact ⟨x.char, w, rfl, Quantifier.ofChar?_symbol x⟩
  | group e =>
    refine ⟨')', e.normal.reverse ++ '(' :: w, ?_, rfl⟩
    rw [Phrase.normal, List.reverse_cons, List.reverse_append]
    simp

theorem writeQuantifier_stacked {p : Char} {n m : Quantifier} (h : Quantifier.ofChar? p = some n) :
    (⟨p :: w, d⟩ : Scan).writeQuantifier m = ⟨(n.stack m).char :: w, d⟩ := by
  unfold writeQuantifier Quantifier.stack
  simp only [h]
  split <;> rfl

theorem writeQuantifier_first {p : Char} {m : Quantifier} (h : Quantifier.ofChar? p = none) :
    (⟨p :: w, d⟩ : Scan).writeQuantifier m = ⟨m.char :: p :: w, d⟩ := by
  unfold writeQuantifier
  simp only [h]
  rfl

/-- A run of quantifiers that is stacked on another one changes it step by step. -/
theorem readAll_stacked (n : Quantifier) (ms : List Quantifier) :
    readAll position ⟨n.char :: w, d⟩ (ms.map Quantifier.char ++ rest) =
      readAll (position + ms.length) ⟨(ms.foldl Quantifier.stack n).char :: w, d⟩ rest := by
  induction ms generalizing n position with
  | nil => rfl
  | cons m ms ih =>
    have hends : (⟨n.char :: w, d⟩ : Scan).lacksOperand = false := by cases n <;> rfl
    rw [List.map_cons, List.cons_append, readAll_cons (read_quantifier hends m),
      writeQuantifier_stacked n.ofChar?_char, ih, List.foldl_cons, List.length_cons]
    congr 1
    omega

theorem readAll_quantifiers {p : Char} (hs : (⟨p :: w, d⟩ : Scan).lacksOperand = false)
    (hp : Quantifier.ofChar? p = none) (ms : List Quantifier) :
    readAll position ⟨p :: w, d⟩ (ms.map Quantifier.char ++ rest) =
      readAll (position + ms.length)
        ⟨(Quantifier.collapse ms).toList.map Quantifier.char ++ p :: w, d⟩ rest := by
  cases ms with
  | nil => rfl
  | cons m ms =>
    rw [List.map_cons, List.cons_append, readAll_cons (read_quantifier hs m),
      writeQuantifier_first hp, readAll_stacked, List.length_cons]
    congr 1
    omega

/-- Reading the text of a phrase writes its normal text. -/
theorem readAll_text {c : Category} (p : Phrase c) (position : Nat) (s : Scan) (rest : List Char) :
    readAll position s (p.text ++ rest) =
      readAll (position + p.text.length) ⟨p.normal.reverse ++ s.joined.written, s.depth⟩ rest := by
  induction p generalizing position s rest with
  | symbol x =>
    rw [Phrase.text, List.singleton_append, readAll_cons (read_symbol s position x)]
    show readAll _ ⟨x.char :: s.joined.written, s.joined.depth⟩ rest = _
    rw [depth_joined]
    rfl
  | group e ih =>
    have hends := endsOperand_normal e ('(' :: s.joined.written) (s.depth + 1)
    have hlacks := not_lacksOperand_of_endsOperand hends
    rw [Phrase.text, List.cons_append, List.append_assoc, readAll_cons (read_open s position), ih]
    show readAll _ ⟨e.normal.reverse ++ '(' :: s.joined.written, s.depth + 1⟩ (')' :: rest) = _
    rw [readAll_cons (read_close (Nat.succ_ne_zero _) hlacks), Phrase.normal, List.reverse_cons,
      List.reverse_append]
    show readAll _ ⟨')' :: (e.normal.reverse ++ '(' :: s.joined.written), s.depth⟩ rest = _
    simp only [List.length_cons, List.length_append, List.length_nil, List.reverse_cons,
      List.reverse_nil, List.nil_append, List.cons_append, List.append_assoc]
    congr 1
    omega
  | factor a ms ih =>
    obtain ⟨p, v, hp, hq⟩ := exists_last_atom a s.joined.written
    have hlacks := not_lacksOperand_of_endsOperand (endsOperand_normal a s.joined.written s.depth)
    rw [hp] at hlacks
    rw [Phrase.text, List.append_assoc, ih, hp, readAll_quantifiers hlacks hq, ← hp,
      Phrase.normal, List.reverse_append, List.append_assoc, List.length_append, List.length_map,
      ← Nat.add_assoc]
    cases Quantifier.collapse ms <;> rfl
  | single f ih => exact ih position s rest
  | juxtapose f t ihf iht =>
    have hends := endsOperand_normal f s.joined.written s.depth
    rw [Phrase.text, List.append_assoc, ihf, iht, joined_of_endsOperand hends,
      Phrase.normal, List.reverse_append, List.reverse_cons, List.append_assoc, List.append_assoc,
      List.length_append, ← Nat.add_assoc]
    rfl
  | lone t ih => exact ih position s rest
  | union t e iht ihe =>
    have hlacks := not_lacksOperand_of_endsOperand (endsOperand_normal t s.joined.written s.depth)
    rw [Phrase.text, List.append_assoc, iht, List.cons_append, readAll_cons (read_bar hlacks), ihe]
    show readAll _ ⟨e.normal.reverse ++ '|' :: (t.normal.reverse ++ s.joined.written), s.depth⟩ rest = _
    rw [Phrase.normal, List.reverse_append, List.reverse_cons, List.append_assoc, List.append_assoc,
      List.length_append, List.length_cons]
    congr 1
    omega

theorem finish_of_endsOperand (hs : s.endsOperand = true) (hd : s.depth = 0) :
    s.finish position = .ok s.written.reverse := by
  have hbar : s.written.head? ≠ some '|' := by
    obtain ⟨w, d⟩ := s
    cases w with
    | nil => cases hs
    | cons p w =>
      intro h
      obtain rfl : p = '|' := Option.some.inj h
      cases hs
  unfold finish
  rw [hd, if_neg (Nat.lt_irrefl 0), if_neg hbar]

theorem normalize_text (e : Phrase .expression) : normalize e.text = .ok e.normal := by
  have hread := readAll_text e 0 ⟨[], 0⟩ []
  rw [List.append_nil] at hread
  unfold normalize
  rw [hread]
  show finish ⟨e.normal.reverse ++ [], 0⟩ e.text.length = _
  rw [finish_of_endsOperand (endsOperand_normal e [] 0) rfl, List.append_nil, List.reverse_reverse]

/-! ### Unfinished expressions -/

/-- What a character that is read without a fault can be. -/
theorem read_cases {c : Char} {t : Scan} (h : s.read position c = .ok t) :
    (∃ x : Symbol, c = x.char ∧ t = s.joined.write x.char) ∨
      (c = '(' ∧ t = { s.joined.write '(' with depth := s.depth + 1 }) ∨
      (c = ')' ∧ s.depth ≠ 0 ∧ s.lacksOperand = false ∧
        t = { s.write ')' with depth := s.depth - 1 }) ∨
      (c = '|' ∧ s.lacksOperand = false ∧ t = s.write '|') ∨
      ∃ m : Quantifier, c = m.char ∧ s.lacksOperand = false ∧ t = s.writeQuantifier m := by
  by_cases hx : Symbol.isValid c = true
  · have hc := read_symbol s position ⟨c, hx⟩
    exact .inl ⟨⟨c, hx⟩, rfl, Except.ok.inj (h.symm.trans hc)⟩
  by_cases ho : c = '('
  · subst ho
    exact .inr (.inl ⟨rfl, Except.ok.inj (h.symm.trans (read_open s position))⟩)
  unfold read at h
  rw [if_neg (by simp [hx, ho])] at h
  split at h
  · rename_i hc
    split at h
    · cases h
    · rename_i hd
      split at h
      · cases h
      · rename_i hs
        exact .inr (.inr (.inl ⟨hc, hd, by simpa using hs, by rw [← Except.ok.inj h, hc]⟩))
  · split at h
    · rename_i hc
      split at h
      · cases h
      · rename_i hs
        exact .inr (.inr (.inr (.inl ⟨hc, by simpa using hs, by rw [← Except.ok.inj h, hc]⟩)))
    · split at h
      · rename_i m hm
        split at h
        · cases h
        · rename_i hs
          exact .inr (.inr (.inr (.inr ⟨m, Quantifier.eq_char_of_ofChar? hm, by simpa using hs,
            (Except.ok.inj h).symm⟩)))
      · cases h

/-- An unfinished expression: the terms that are complete and the factors of the next one, in both
lists the last first. -/
structure Frame where
  terms : List (Phrase .term)
  factors : List (Phrase .factor)

namespace Frame

def text (f : Frame) : List Char :=
  (f.terms.reverse.flatMap fun t => t.text ++ ['|']) ++ f.factors.reverse.flatMap Phrase.text

theorem text_empty : (⟨[], []⟩ : Frame).text = [] := rfl

theorem text_addFactor (ts : List (Phrase .term)) (g : Phrase .factor) (fs : List (Phrase .factor)) :
    (⟨ts, g :: fs⟩ : Frame).text = (⟨ts, fs⟩ : Frame).text ++ g.text := by
  simp [text]

theorem exists_term {fs : List (Phrase .factor)} (h : fs ≠ []) :
    ∃ t : Phrase .term, t.text = fs.flatMap Phrase.text := by
  induction fs with
  | nil => exact absurd rfl h
  | cons f fs ih =>
    cases fs with
    | nil => exact ⟨.single f, by simp [Phrase.text]⟩
    | cons g fs =>
      obtain ⟨t, ht⟩ := ih (List.cons_ne_nil _ _)
      exact ⟨.juxtapose f t, by rw [Phrase.text, ht]; rfl⟩

theorem exists_expression (ts : List (Phrase .term)) (t : Phrase .term) :
    ∃ e : Phrase .expression, e.text = (ts.flatMap fun t => t.text ++ ['|']) ++ t.text := by
  induction ts with
  | nil => exact ⟨.lone t, rfl⟩
  | cons u ts ih =>
    obtain ⟨e, he⟩ := ih
    exact ⟨.union u e, by rw [Phrase.text, he]; simp⟩

theorem exists_close {f : Frame} (h : f.factors ≠ []) :
    ∃ e : Phrase .expression, e.text = f.text := by
  obtain ⟨t, ht⟩ := exists_term (List.reverse_ne_nil_iff.2 h)
  obtain ⟨e, he⟩ := exists_expression f.terms.reverse t
  exact ⟨e, by rw [he, ht, text]⟩

theorem exists_bar {f : Frame} (h : f.factors ≠ []) :
    ∃ t : Phrase .term, (⟨t :: f.terms, []⟩ : Frame).text = f.text ++ ['|'] := by
  obtain ⟨t, ht⟩ := exists_term (List.reverse_ne_nil_iff.2 h)
  exact ⟨t, by simp [text, ht]⟩

theorem exists_quantified {f : Frame} (h : f.factors ≠ []) (m : Quantifier) :
    ∃ g fs, (⟨f.terms, g :: fs⟩ : Frame).text = f.text ++ [m.char] := by
  obtain ⟨ts, fs⟩ := f
  cases fs with
  | nil => exact absurd rfl h
  | cons g fs =>
    cases g with
    | factor a ms =>
      refine ⟨.factor a (ms ++ [m]), fs, ?_⟩
      rw [text_addFactor, text_addFactor, Phrase.text, Phrase.text, List.map_append, List.map_singleton]
      simp

end Frame

/-- What has been read is a nest of unfinished expressions, the innermost first of `outer`. -/
structure Nested (source : List Char) (s : Scan) (outer : List Frame) (inner : Frame) : Prop where
  source_eq : source = (outer.reverse.flatMap fun f => f.text ++ ['(']) ++ inner.text
  depth_eq : s.depth = outer.length
  lacksOperand_iff : s.lacksOperand = true ↔ inner.factors = []
  head_eq_bar : inner.factors = [] → inner.terms ≠ [] → s.written.head? = some '|'

theorem Nested.start : Nested [] ⟨[], 0⟩ [] ⟨[], []⟩ where
  source_eq := rfl
  depth_eq := rfl
  lacksOperand_iff := ⟨fun _ => rfl, fun _ => rfl⟩
  head_eq_bar _ h := absurd rfl h

theorem lacksOperand_symbol (x : Symbol) : (⟨x.char :: w, d⟩ : Scan).lacksOperand = false := by
  show (decide (x.char = '(') || decide (x.char = '|')) = false
  rw [decide_eq_false (x.char_ne rfl), decide_eq_false (x.char_ne rfl)]
  rfl

theorem lacksOperand_quantifier (m : Quantifier) :
    (⟨m.char :: w, d⟩ : Scan).lacksOperand = false := by
  cases m <;> rfl

/-- A quantifier leaves a quantifier written last, and the number of open parentheses as it was. -/
theorem writeQuantifier_eq (s : Scan) (m : Quantifier) :
    ∃ (n : Quantifier) (v : List Char), s.writeQuantifier m = ⟨n.char :: v, s.depth⟩ := by
  obtain ⟨w, d⟩ := s
  cases w with
  | nil => exact ⟨m, [], rfl⟩
  | cons p w =>
    cases hp : Quantifier.ofChar? p with
    | none => exact ⟨m, p :: w, writeQuantifier_first hp⟩
    | some n => exact ⟨n.stack m, w, writeQuantifier_stacked hp⟩

variable {source : List Char} {outer : List Frame} {inner : Frame}

theorem Nested.factors_ne_nil (h : Nested source s outer inner) (hs : s.lacksOperand = false) :
    inner.factors ≠ [] := by
  intro hf
  rw [h.lacksOperand_iff.2 hf] at hs
  cases hs

/-- After a complete factor an operator may follow. -/
theorem Nested.of_factor {t : Scan} {ts : List (Phrase .term)} {g : Phrase .factor}
    {fs : List (Phrase .factor)}
    (hsource : source = (outer.reverse.flatMap fun f => f.text ++ ['(']) ++ Frame.text ⟨ts, g :: fs⟩)
    (hdepth : t.depth = outer.length) (ht : t.lacksOperand = false) :
    Nested source t outer ⟨ts, g :: fs⟩ := by
  refine ⟨hsource, hdepth, ?_, fun hf => absurd hf (List.cons_ne_nil g fs)⟩
  rw [ht]
  simp

theorem Nested.symbol (h : Nested source s outer inner) (x : Symbol) :
    Nested (source ++ [x.char]) (s.joined.write x.char) outer
      ⟨inner.terms, .factor (.symbol x) [] :: inner.factors⟩ := by
  refine .of_factor ?_ ((depth_joined s).trans h.depth_eq) (lacksOperand_symbol x)
  rw [Frame.text_addFactor, h.source_eq, List.append_assoc]
  rfl

theorem Nested.openGroup (h : Nested source s outer inner) :
    Nested (source ++ ['(']) { s.joined.write '(' with depth := s.depth + 1 } (inner :: outer)
      ⟨[], []⟩ := by
  refine ⟨?_, congrArg (· + 1) h.depth_eq, ⟨fun _ => rfl, fun _ => rfl⟩, fun _ ht => absurd rfl ht⟩
  rw [Frame.text_empty, h.source_eq]
  simp

/-- The innermost expression becomes a factor of the one around it. -/
theorem Nested.closeGroup {f : Frame} (h : Nested source s (f :: outer) inner)
    (hs : s.lacksOperand = false) : ∃ e : Phrase .expression,
      Nested (source ++ [')']) { s.write ')' with depth := s.depth - 1 } outer
        ⟨f.terms, .factor (.group e) [] :: f.factors⟩ := by
  obtain ⟨e, he⟩ := Frame.exists_close (h.factors_ne_nil hs)
  refine ⟨e, .of_factor ?_ ?_ rfl⟩
  · rw [Frame.text_addFactor, h.source_eq]
    simp [Phrase.text, he]
  · show s.depth - 1 = outer.length
    rw [h.depth_eq]
    rfl

theorem Nested.bar (h : Nested source s outer inner) (hs : s.lacksOperand = false) :
    ∃ t : Phrase .term, Nested (source ++ ['|']) (s.write '|') outer ⟨t :: inner.terms, []⟩ := by
  obtain ⟨t, ht⟩ := Frame.exists_bar (h.factors_ne_nil hs)
  refine ⟨t, ?_, h.depth_eq, ⟨fun _ => rfl, fun _ => rfl⟩, fun _ _ => rfl⟩
  rw [ht, h.source_eq, List.append_assoc]

theorem Nested.quantifier (h : Nested source s outer inner) (hs : s.lacksOperand = false)
    (m : Quantifier) :
    ∃ g fs, Nested (source ++ [m.char]) (s.writeQuantifier m) outer ⟨inner.terms, g :: fs⟩ := by
  obtain ⟨g, fs, hg⟩ := Frame.exists_quantified (h.factors_ne_nil hs) m
  obtain ⟨n, v, hn⟩ := writeQuantifier_eq s m
  refine ⟨g, fs, .of_factor ?_ ?_ ?_⟩
  · rw [hg, h.source_eq, List.append_assoc]
  · rw [hn]
    exact h.depth_eq
  · rw [hn, lacksOperand_quantifier]

/-- Every character that is read goes on with one of the unfinished expressions. -/
theorem Nested.read {c : Char} {t : Scan} (h : Nested source s outer inner)
    (hr : s.read position c = .ok t) : ∃ outer' inner', Nested (source ++ [c]) t outer' inner' := by
  rcases read_cases hr with ⟨x, rfl, rfl⟩ | ⟨rfl, rfl⟩ | ⟨rfl, hd, hs, rfl⟩ | ⟨rfl, hs, rfl⟩ |
    ⟨m, rfl, hs, rfl⟩
  · exact ⟨_, _, h.symbol x⟩
  · exact ⟨_, _, h.openGroup⟩
  · cases outer with
    | nil => exact absurd h.depth_eq hd
    | cons f outer =>
      obtain ⟨e, he⟩ := h.closeGroup hs
      exact ⟨_, _, he⟩
  · obtain ⟨u, hu⟩ := h.bar hs
    exact ⟨_, _, hu⟩
  · obtain ⟨g, fs, hg⟩ := h.quantifier hs m
    exact ⟨_, _, hg⟩

/-- What reading a character keeps is kept by reading all of them. -/
theorem readAll_invariant {P : List Char → Scan → Prop} {source : List Char} {t : Scan}
    (hstep : ∀ {source s position c t},
      P source s → read s position c = .ok t → P (source ++ [c]) t)
    (h : P source s) (hr : readAll position s rest = .ok t) : P (source ++ rest) t := by
  induction rest generalizing source s position with
  | nil =>
    obtain rfl := Except.ok.inj hr
    rwa [List.append_nil]
  | cons c rest ih =>
    rw [readAll] at hr
    obtain ⟨u, hc, hr⟩ := bind_eq_ok.1 hr
    have hrest := ih (hstep h hc) hr
    rwa [List.append_assoc] at hrest

theorem Nested.readAll {t : Scan} (h : Nested source s outer inner)
    (hr : readAll position s rest = .ok t) :
    ∃ outer' inner', Nested (source ++ rest) t outer' inner' := by
  refine readAll_invariant (P := fun source s => ∃ outer inner, Nested source s outer inner) ?_
    ⟨outer, inner, h⟩ hr
  rintro source s position c t ⟨outer, inner, h⟩ hr
  exact h.read hr

theorem finish_cases {out : List Char} (h : s.finish position = .ok out) :
    s.depth = 0 ∧ s.written.head? ≠ some '|' := by
  unfold finish at h
  split at h
  · cases h
  · split at h
    · cases h
    · rename_i hd hb
      exact ⟨Nat.eq_zero_of_not_pos hd, hb⟩

theorem isExpression_of_normalize {out : List Char} (h : normalize source = .ok out) :
    IsExpression source := by
  rw [normalize] at h
  obtain ⟨t, hr, h⟩ := bind_eq_ok.1 h
  obtain ⟨hd, hb⟩ := finish_cases h
  obtain ⟨outer, inner, hn⟩ := Nested.start.readAll hr
  obtain ⟨hsource, hdepth, -, hbar⟩ := hn
  rw [hd] at hdepth
  obtain rfl := List.eq_nil_of_length_eq_zero hdepth.symm
  rw [List.nil_append] at hsource
  by_cases hf : inner.factors = []
  · by_cases ht : inner.terms = []
    · left
      rw [hsource, Frame.text, hf, ht]
      rfl
    · exact absurd (hbar hf ht) hb
  · obtain ⟨e, he⟩ := Frame.exists_close hf
    exact .inr ⟨e, he.trans hsource.symm⟩

end Regex.Scan

namespace Regex

/-- Normalizing succeeds on expressions only, and on all of them. -/
theorem normalize_isOk_iff {source : List Char} :
    (∃ out, normalize source = .ok out) ↔ IsExpression source := by
  constructor
  · rintro ⟨out, h⟩
    exact Scan.isExpression_of_normalize h
  · rintro (rfl | ⟨e, rfl⟩)
    · exact ⟨[], rfl⟩
    · exact ⟨e.normal, Scan.normalize_text e⟩

end Regex

end RegularLanguages
