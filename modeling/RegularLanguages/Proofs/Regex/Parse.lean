import RegularLanguages.Proofs.Regex.Normalize
/-!
# Parsing normal texts

In the normal text of a phrase the operators outside parentheses bind at least as tightly as the
category of the phrase says (`le_precedence`), and a normal text beside other text adds its operators to
theirs (`Balanced`). So an expression is split exactly where its derivation puts it together, and parsing
gives the regular expression of the phrase (`parse_normal`).
-/

namespace RegularLanguages.Regex

/-! ### Operators outside parentheses -/

theorem outerOperators_open (depth place : Nat) (cs : List Char) :
    outerOperators depth place ('(' :: cs) = outerOperators (depth + 1) (place + 1) cs := by
  rw [outerOperators, if_pos rfl]

theorem outerOperators_close (depth place : Nat) (cs : List Char) :
    outerOperators depth place (')' :: cs) = outerOperators (depth - 1) (place + 1) cs := by
  rw [outerOperators, if_neg (by decide), if_pos rfl]

theorem outerOperators_operator {c : Char} {op : Operator} (h : Operator.ofChar? c = some op)
    (place : Nat) (cs : List Char) :
    outerOperators 0 place (c :: cs) = (op, place) :: outerOperators 0 (place + 1) cs := by
  have ho : c ≠ '(' := by rintro rfl; cases h
  have hc : c ≠ ')' := by rintro rfl; cases h
  rw [outerOperators, if_neg ho, if_neg hc, h]
  rfl

theorem operator?_symbol (x : Symbol) : Operator.ofChar? x.char = none := by
  unfold Operator.ofChar?
  rw [if_neg (x.char_ne rfl), if_neg (x.char_ne rfl), Quantifier.ofChar?_symbol]
  rfl

theorem operator?_quantifier (m : Quantifier) :
    Operator.ofChar? m.char = some (.quantifier m) := by
  cases m <;> rfl

theorem outerOperators_symbol (x : Symbol) (place : Nat) :
    outerOperators 0 place [x.char] = [] := by
  rw [outerOperators, if_neg (x.char_ne rfl), if_neg (x.char_ne rfl), operator?_symbol]
  rfl

/-- A text that closes the parentheses that it opens: around it operators are found as if it were not
there, and what it has of them outside of its parentheses comes in between. -/
structure Balanced (xs : List Char) : Prop where
  inside (depth place : Nat) (rest : List Char) : outerOperators (depth + 1) place (xs ++ rest) =
    outerOperators (depth + 1) (place + xs.length) rest
  outside (place : Nat) (rest : List Char) : outerOperators 0 place (xs ++ rest) =
    outerOperators 0 place xs ++ outerOperators 0 (place + xs.length) rest

variable {xs ys : List Char} {place : Nat}

theorem Balanced.append (hx : Balanced xs) (hy : Balanced ys) : Balanced (xs ++ ys) where
  inside depth place rest := by
    rw [List.append_assoc, hx.inside, hy.inside, List.length_append, Nat.add_assoc]
  outside place rest := by
    rw [List.append_assoc, hx.outside, hy.outside, hx.outside, List.append_assoc,
      List.length_append, Nat.add_assoc]

theorem balanced_char {c : Char} (ho : c ≠ '(') (hc : c ≠ ')') : Balanced [c] where
  inside depth place rest := by
    rw [List.singleton_append, outerOperators, if_neg ho, if_neg hc]
    cases Operator.ofChar? c with
    | none => rfl
    | some op => rfl
  outside place rest := by
    rw [List.singleton_append, outerOperators, outerOperators, if_neg ho, if_neg hc, if_neg ho,
      if_neg hc]
    cases Operator.ofChar? c with
    | none => rfl
    | some op => rfl

/-- Nothing in parentheses is outside of them. -/
theorem Balanced.outerOperators_group (hx : Balanced xs) (place : Nat) (rest : List Char) :
    outerOperators 0 place ('(' :: (xs ++ ')' :: rest)) =
      outerOperators 0 (place + 1 + xs.length + 1) rest := by
  rw [outerOperators_open, hx.inside, outerOperators_close]

theorem Balanced.group (hx : Balanced xs) : Balanced ('(' :: (xs ++ [')'])) where
  inside depth place rest := by
    rw [List.cons_append, List.append_assoc, outerOperators_open, hx.inside, List.singleton_append,
      outerOperators_close]
    simp only [List.length_cons, List.length_append, List.length_nil, Nat.add_sub_cancel]
    congr 1
    omega
  outside place rest := by
    rw [List.cons_append, List.append_assoc, List.singleton_append, hx.outerOperators_group,
      hx.outerOperators_group]
    simp only [List.length_cons, List.length_append, List.length_nil, outerOperators,
      List.nil_append]
    congr 1
    omega

theorem balanced_symbol (x : Symbol) : Balanced [x.char] :=
  balanced_char (x.char_ne rfl) (x.char_ne rfl)

theorem balanced_quantifier (m : Quantifier) : Balanced [m.char] :=
  balanced_char (by cases m <;> decide) (by cases m <;> decide)

theorem balanced_normal {c : Category} (p : Phrase c) : Balanced p.normal := by
  induction p with
  | symbol x => exact balanced_symbol x
  | group e ih => exact ih.group
  | factor a ms ih =>
    rw [Phrase.normal]
    cases Quantifier.collapse ms with
    | none => rwa [Option.toList_none, List.map_nil, List.append_nil]
    | some m => exact ih.append (balanced_quantifier m)
  | single f ih => exact ih
  | juxtapose f t ihf iht =>
    have hdot := balanced_char (c := '.') (by decide) (by decide)
    exact ihf.append (hdot.append iht)
  | lone t ih => exact ih
  | union t e iht ihe =>
    have hbar := balanced_char (c := '|') (by decide) (by decide)
    exact iht.append (hbar.append ihe)

/-! ### Where an expression is split -/

/-- The operators of a phrase outside parentheses bind at least as tightly as its category says. -/
theorem le_precedence {c : Category} {p : Phrase c} {o : Operator × Nat}
    (h : o ∈ outerOperators 0 place p.normal) : c.precedence ≤ o.1.precedence := by
  induction p generalizing place with
  | symbol x =>
    rw [Phrase.normal, outerOperators_symbol] at h
    cases h
  | group e _ =>
    rw [Phrase.normal, (balanced_normal e).outerOperators_group] at h
    cases h
  | factor a ms ih =>
    rw [Phrase.normal] at h
    cases hm : Quantifier.collapse ms with
    | none =>
      rw [hm, Option.toList_none, List.map_nil, List.append_nil] at h
      exact Nat.le_of_succ_le (ih h)
    | some m =>
      rw [hm, Option.toList_some, List.map_singleton, (balanced_normal a).outside,
        outerOperators_operator (operator?_quantifier m), List.mem_append, List.mem_cons] at h
      rcases h with h | rfl | h
      · exact Nat.le_of_succ_le (ih h)
      · exact Nat.le_refl 2
      · cases h
  | single f ih => exact Nat.le_of_succ_le (ih h)
  | juxtapose f t ihf iht =>
    rw [Phrase.normal, (balanced_normal f).outside, outerOperators_operator (c := '.') rfl,
      List.mem_append, List.mem_cons] at h
    rcases h with h | rfl | h
    · exact Nat.le_of_succ_le (ihf h)
    · exact Nat.le_refl 1
    · exact iht h
  | lone t ih => exact Nat.zero_le _
  | union t e _ _ => exact Nat.zero_le _

/-- Tighter operators before an operator, and none that is looser after it, leave it the leftmost of
the loosest. -/
theorem loosest?_append {o : Operator × Nat} {before after : List (Operator × Nat)}
    (hb : ∀ x ∈ before, o.1.precedence < x.1.precedence)
    (ha : ∀ x ∈ after, o.1.precedence ≤ x.1.precedence) :
    loosest? (before ++ o :: after) = some o := by
  induction before with
  | nil =>
    rw [List.nil_append, loosest?]
    cases hl : loosest? after with
    | none => rfl
    | some x =>
      simp only
      rw [if_neg (Nat.not_lt.2 (ha x (mem_of_loosest? hl)))]
  | cons x before ih =>
    rw [List.cons_append, loosest?, ih fun y hy => hb y (List.mem_cons_of_mem x hy)]
    simp only
    rw [if_pos (hb x List.mem_cons_self)]

theorem splitPoint?_append {ch : Char} {op : Operator} (hx : Balanced xs)
    (hop : Operator.ofChar? ch = some op)
    (hb : ∀ o ∈ outerOperators 0 0 xs, op.precedence < o.1.precedence)
    (ha : ∀ o ∈ outerOperators 0 (xs.length + 1) ys, op.precedence ≤ o.1.precedence) :
    splitPoint? (xs ++ ch :: ys) = some (op, xs.length) := by
  rw [splitPoint?, hx.outside, outerOperators_operator hop, Nat.zero_add]
  exact loosest?_append hb ha

theorem Balanced.splitPoint?_group (hx : Balanced xs) : splitPoint? ('(' :: (xs ++ [')'])) = none := by
  rw [splitPoint?, hx.outerOperators_group]
  rfl

theorem splitPoint?_atom (a : Phrase .atom) : splitPoint? a.normal = none := by
  cases a with
  | symbol x =>
    rw [splitPoint?, Phrase.normal, outerOperators_symbol]
    rfl
  | group e => exact (balanced_normal e).splitPoint?_group

theorem inner?_group (xs : List Char) : inner? ('(' :: (xs ++ [')'])) = some xs := by
  rw [inner?, List.getLast?_concat, if_pos rfl, List.dropLast_concat]

/-! ### Parsing, case by case -/

variable {offset : Nat} {expr : List Char} {l r : Regex}

/-- One step of parsing. -/
theorem parse_def (offset : Nat) (expr : List Char) : parse offset expr =
    match splitPoint? expr with
    | some (.connective c, place) =>
      if place = 0 ∨ place + 1 = expr.length then .error (.unbalancedOperators (offset + place))
      else do
        let l ← parse offset (expr.take place)
        let r ← parse (offset + place + 1) (expr.drop (place + 1))
        return .binary c l r
    | some (.quantifier m, place) =>
      if place = 0 ∨ place + 1 ≠ expr.length then .error (.unbalancedOperators (offset + place))
      else return .unary m (← parse offset (expr.take place))
    | none =>
      match inner? expr with
      | some inner => parse (offset + 1) inner
      | none => atom offset expr := by
  rw [parse]
  split
  · rename_i h
    rw [h]
  · rename_i h
    rw [h]
  · rename_i h
    rw [h]
    split <;> rename_i hi <;> rw [hi]

theorem parse_binary {c : Connective} (hs : splitPoint? (xs ++ c.char :: ys) =
    some (.connective c, xs.length)) (hx : xs ≠ []) (hy : ys ≠ [])
    (hl : ∀ offset, parse offset xs = .ok l) (hr : ∀ offset, parse offset ys = .ok r) :
    parse offset (xs ++ c.char :: ys) = .ok (.binary c l r) := by
  have hpx := List.length_pos_iff.2 hx
  have hpy := List.length_pos_iff.2 hy
  have hends : ¬(xs.length = 0 ∨ xs.length + 1 = (xs ++ c.char :: ys).length) := by
    rw [List.length_append, List.length_cons]
    omega
  have htake : (xs ++ c.char :: ys).take xs.length = xs := List.take_left
  have hdrop : (xs ++ c.char :: ys).drop (xs.length + 1) = ys := by
    rw [← List.drop_drop, List.drop_left]
    rfl
  rw [parse_def, hs]
  simp only [if_neg hends, htake, hdrop, hl, hr]
  rfl

theorem parse_unary {m : Quantifier} (hs : splitPoint? (xs ++ [m.char]) =
    some (.quantifier m, xs.length)) (hx : xs ≠ []) (hl : ∀ offset, parse offset xs = .ok l) :
    parse offset (xs ++ [m.char]) = .ok (.unary m l) := by
  have hpx := List.length_pos_iff.2 hx
  have hends : ¬(xs.length = 0 ∨ xs.length + 1 ≠ (xs ++ [m.char]).length) := by
    rw [List.length_append, List.length_singleton]
    omega
  have htake : (xs ++ [m.char]).take xs.length = xs := List.take_left
  rw [parse_def, hs]
  simp only [if_neg hends, htake, hl]
  rfl

theorem parse_of_inner {inner : List Char} (hs : splitPoint? expr = none)
    (hi : inner? expr = some inner) : parse offset expr = parse (offset + 1) inner := by
  rw [parse_def, hs, hi]

theorem parse_of_atom (hs : splitPoint? expr = none) (hi : inner? expr = none) :
    parse offset expr = atom offset expr := by
  rw [parse_def, hs, hi]

theorem parse_group (hs : splitPoint? ('(' :: (xs ++ [')'])) = none)
    (hl : ∀ offset, parse offset xs = .ok l) :
    parse offset ('(' :: (xs ++ [')'])) = .ok l := by
  rw [parse_of_inner hs (inner?_group xs)]
  exact hl _

theorem parse_symbol (x : Symbol) : parse offset [x.char] = .ok (.symbol x) := by
  have hs : splitPoint? [x.char] = none := splitPoint?_atom (.symbol x)
  have hinner : inner? [x.char] = none := by
    unfold inner?
    split
    · rename_i h
      exact absurd (List.cons.inj h).1 (x.char_ne rfl)
    · rfl
  rw [parse_of_atom hs hinner, atom, Symbol.ofChar?_char]

/-- Parsing the normal text of a phrase gives its regular expression. -/
theorem parse_normal {c : Category} (p : Phrase c) (offset : Nat) :
    parse offset p.normal = .ok p.regex := by
  induction p generalizing offset with
  | symbol x => exact parse_symbol x
  | group e ih => exact parse_group (splitPoint?_atom (.group e)) ih
  | factor a ms ih =>
    rw [Phrase.normal, Phrase.regex]
    cases Quantifier.collapse ms with
    | none =>
      rw [Option.toList_none, List.map_nil, List.append_nil]
      exact ih offset
    | some m =>
      refine parse_unary (splitPoint?_append (balanced_normal a) (operator?_quantifier m) ?_ ?_)
        a.normal_ne_nil ih
      · intro o ho
        exact le_precedence ho
      · intro o ho
        cases ho
  | single f ih => exact ih offset
  | juxtapose f t ihf iht =>
    refine parse_binary (c := .concat) (splitPoint?_append (balanced_normal f) rfl ?_ ?_)
      f.normal_ne_nil t.normal_ne_nil ihf iht
    · intro o ho
      exact le_precedence ho
    · intro o ho
      exact le_precedence ho
  | lone t ih => exact ih offset
  | union t e iht ihe =>
    refine parse_binary (c := .union) (splitPoint?_append (balanced_normal t) rfl ?_ ?_)
      t.normal_ne_nil e.normal_ne_nil iht ihe
    · intro o ho
      exact le_precedence ho
    · intro o ho
      exact Nat.zero_le _

end RegularLanguages.Regex
