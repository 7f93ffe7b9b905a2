import Mathlib.Data.List.Shortlex
import Mathlib.Data.Set.Card
import RegularLanguages.Automaton.Words
import RegularLanguages.Proofs.Automaton.Induced
/-!
# Levels of words

The level of a length holds the words of that length that some accepted word extends, in order
(`level_eq`); dropping states that are not live loses none of them. A level that is not empty is at
most as many levels before one with an accepted word as there are states (`exists_acceptedAt`).
-/

namespace RegularLanguages

/-- The characters of a word of symbols. -/
def spell (w : List Symbol) : List Char := w.map Symbol.char

/-- The words of one length over an alphabet, in the order of their symbols. -/
def wordsOver (alphabet : SortedSet Symbol) : Nat → List (List Symbol)
  | 0 => [[]]
  | n + 1 => (wordsOver alphabet n).flatMap fun w => alphabet.toList.map fun x => w ++ [x]

namespace Automaton

/-- The states that the empty word leads to. -/
def seed (A : Automaton) : SortedSet State :=
  match A.initial with
  | some p => A.closure (.singleton p)
  | none => ∅

/-- The states that a word leads to. -/
def reading (A : Automaton) (w : List Symbol) : SortedSet State := A.after A.seed (spell w)

def level (A : Automaton) : Nat → Level
  | 0 => A.firstLevel
  | n + 1 => A.nextLevel (A.level n)

/-- What a level holds of a word. -/
def itemOf (A : Automaton) (w : List Symbol) : Level := levelItem A.live (A.reading w) w

/-- The accepted words of one length, in order. -/
def acceptedAt (A : Automaton) (n : Nat) : List (List Symbol) :=
  (wordsOver A.alphabet n).filter fun w => A.meetsFinal (A.reading w)

end Automaton

variable {A : Automaton} {p q : State} {s t : SortedSet State} {v w : List Symbol} {x : Symbol}
  {n : Nat}

/-! ### Words in order -/

theorem spell_injective (h : spell v = spell w) : v = w :=
  List.map_injective_iff.2 (fun _ _ => Symbol.char_injective) h

theorem spell_append : spell (v ++ w) = spell v ++ spell w := List.map_append

theorem length_spell : (spell w).length = w.length := List.length_map _

theorem mem_wordsOver {alphabet : SortedSet Symbol} :
    w ∈ wordsOver alphabet n ↔ w.length = n ∧ ∀ x ∈ w, x ∈ alphabet := by
  induction n generalizing w with
  | zero =>
    rw [wordsOver, List.mem_singleton, List.length_eq_zero_iff]
    constructor
    · rintro rfl
      exact ⟨rfl, by simp⟩
    · exact fun h => h.1
  | succ n ih =>
    simp only [wordsOver, List.mem_flatMap, List.mem_map, ih, SortedSet.mem_toList]
    constructor
    · rintro ⟨v, ⟨rfl, hv⟩, x, hx, rfl⟩
      refine ⟨by simp, fun y hy => ?_⟩
      rcases List.mem_append.1 hy with hy | hy
      · exact hv y hy
      · exact List.mem_singleton.1 hy ▸ hx
    · rintro ⟨hn, hw⟩
      rcases List.eq_nil_or_concat' w with rfl | ⟨v, x, rfl⟩
      · cases hn
      · refine ⟨v, ⟨by simpa using hn, fun y hy => hw y (by simp [hy])⟩, x, hw x (by simp), rfl⟩

/-- What follows does not change the order of words of one length. -/
theorem lex_append {α : Type} {r : α → α → Prop} {a b : List α} (h : List.Lex r a b)
    (hlen : a.length = b.length) (c d : List α) : List.Lex r (a ++ c) (b ++ d) := by
  induction h with
  | nil => cases hlen
  | rel h => exact .rel h
  | cons _ ih => exact .cons (ih (Nat.succ.inj hlen))

theorem pairwise_wordsOver (alphabet : SortedSet Symbol) (n : Nat) :
    (wordsOver alphabet n).Pairwise fun v w => List.Lex (· < ·) (spell v) (spell w) := by
  induction n with
  | zero => exact List.pairwise_singleton _ _
  | succ n ih =>
    rw [wordsOver, List.pairwise_flatMap]
    constructor
    · intro w _
      refine List.pairwise_map.2 (alphabet.sorted.imp fun {x y} h => ?_)
      have hxy : x.char < y.char := compareOfLessAndEq_eq_lt.1 h
      rw [spell_append, spell_append]
      exact List.Lex.append_left _ (.rel hxy) _
    · refine ih.imp_of_mem fun {v w} hv hw h => ?_
      have hlen : (spell v).length = (spell w).length := by
        rw [length_spell, length_spell, (mem_wordsOver.1 hv).1, (mem_wordsOver.1 hw).1]
      simp only [List.mem_map]
      rintro _ ⟨x, -, rfl⟩ _ ⟨y, -, rfl⟩
      rw [spell_append, spell_append]
      exact lex_append h hlen _ _

namespace Automaton

/-! ### What words lead to -/

theorem closed_seed : A.Closed A.seed := by
  rw [seed]
  cases A.initial with
  | some p => exact closed_closure _
  | none => exact fun p hp => absurd hp (SortedSet.not_mem_empty p)

theorem mem_reading : q ∈ A.reading w ↔ ∃ p ∈ A.seed, A.Path p (spell w) q := mem_after closed_seed

theorem meetsFinal_reading : A.meetsFinal (A.reading w) = true ↔ spell w ∈ A.language := by
  rw [meetsFinal_iff]
  simp only [mem_reading, seed]
  cases hi : A.initial with
  | none => simp [language_eq_zero hi, Language.notMem_zero]
  | some p =>
    rw [language_eq hi, mem_languageFrom]
    simp only [mem_closure, SortedSet.mem_singleton, exists_eq_left]
    constructor
    · rintro ⟨q, ⟨r, hr, hq⟩, hf⟩
      exact ⟨q, hf, hr.trans hq⟩
    · rintro ⟨q, hf, hq⟩
      exact ⟨q, ⟨p, .nil p, hq⟩, hf⟩

theorem reading_append_symbol (hx : x ∈ A.alphabet) :
    A.reading (w ++ [x]) = A.step (A.reading w) x := by
  refine SortedSet.ext fun q => ?_
  rw [mem_reading, mem_step, spell_append]
  constructor
  · rintro ⟨p, hp, h⟩
    obtain ⟨r, hr, hlast⟩ := h.append_inv
    obtain ⟨y, t, u, hy, ht, hu, hq⟩ := hlast.cons_inv
    obtain rfl : x = y := Option.some.inj ((symbol?_char hx).symm.trans hy)
    exact ⟨t, mem_reading.2 ⟨p, hp, List.append_nil (spell w) ▸ hr.trans ht⟩, u, hu, hq⟩
  · rintro ⟨t, ht, u, hu, h⟩
    obtain ⟨p, hp, hpt⟩ := mem_reading.1 ht
    exact ⟨p, hp, hpt.trans (.symbol (symbol?_char hx) hu h)⟩

/-- A word over the alphabet is spelled by symbols of the alphabet. -/
theorem exists_spell {u : List Char} (h : ∀ c ∈ u, (A.symbol? c).isSome) :
    ∃ w, spell w = u ∧ ∀ x ∈ w, x ∈ A.alphabet := by
  induction u with
  | nil => exact ⟨[], rfl, by simp⟩
  | cons c u ih =>
    obtain ⟨w, rfl, hw⟩ := ih fun d hd => h d (List.mem_cons_of_mem _ hd)
    obtain ⟨x, hx⟩ := Option.isSome_iff_exists.1 (h c List.mem_cons_self)
    obtain ⟨rfl, hmem⟩ := symbol?_eq_some.1 hx
    exact ⟨x :: w, rfl, List.forall_mem_cons.2 ⟨hmem, hw⟩⟩

theorem mem_acceptedAt : w ∈ A.acceptedAt n ↔ w.length = n ∧ spell w ∈ A.language := by
  rw [acceptedAt, List.mem_filter, mem_wordsOver, meetsFinal_reading]
  constructor
  · exact fun h => ⟨h.1.1, h.2⟩
  · rintro ⟨hn, hw⟩
    obtain ⟨v, hv, hmem⟩ := exists_spell (symbol?_isSome_of_mem_language hw)
    obtain rfl := spell_injective hv
    exact ⟨⟨hn, hmem⟩, hw⟩

/-! ### The levels -/

theorem acceptedWords_cons (level : Level) : A.acceptedWords ((s, w) :: level) =
    if A.meetsFinal s then w :: A.acceptedWords level else A.acceptedWords level := by
  rw [acceptedWords, List.filterMap_cons]
  cases h : A.meetsFinal s with
  | true => simp [h, acceptedWords]
  | false => simp [h, acceptedWords]

theorem acceptedWords_append (k l : Level) :
    A.acceptedWords (k ++ l) = A.acceptedWords k ++ A.acceptedWords l := List.filterMap_append

section Levels
variable (hA : A.WellFormed)
include hA

/-- A state before a live state is live. -/
theorem mem_live_of_path {u : List Char} (h : A.Path p u q) (hq : q ∈ A.live) : p ∈ A.live := by
  obtain ⟨v, f, hf, hv⟩ := hA.mem_live.1 hq
  exact hA.mem_live.2 ⟨u ++ v, f, hf, h.trans hv⟩

theorem filter_live_step (s : SortedSet State) (x : Symbol) :
    (A.step (s.filter (· ∈ A.live)) x).filter (· ∈ A.live) =
      (A.step s x).filter (· ∈ A.live) := by
  refine SortedSet.ext fun q => ?_
  simp only [SortedSet.mem_filter, mem_step, decide_eq_true_iff]
  refine and_congr_left fun hq => ⟨?_, ?_⟩
  · rintro ⟨p, ⟨hp, -⟩, r, hr, h⟩
    exact ⟨p, hp, r, hr, h⟩
  · rintro ⟨p, hp, r, hr, h⟩
    exact ⟨p, ⟨hp, mem_live_of_path hA (.symbol (symbol?_char (hA.symbol_mem hr)) hr h) hq⟩, r,
      hr, h⟩

theorem meetsFinal_filter_live (s : SortedSet State) :
    A.meetsFinal (s.filter (· ∈ A.live)) = A.meetsFinal s := by
  rw [Bool.eq_iff_iff, meetsFinal_iff, meetsFinal_iff]
  simp only [SortedSet.mem_filter, decide_eq_true_iff]
  constructor
  · rintro ⟨q, ⟨hq, -⟩, hf⟩
    exact ⟨q, hq, hf⟩
  · rintro ⟨q, hq, hf⟩
    exact ⟨q, ⟨hq, hA.mem_live.2 ⟨[], q, hf, .nil q⟩⟩, hf⟩

/-- Dropping states that are not live first changes nothing in what the extensions of a word hold. -/
theorem nextLevel_itemOf (w : List Symbol) :
    A.nextLevel (A.itemOf w) = A.alphabet.toList.flatMap fun x => A.itemOf (w ++ [x]) := by
  set s := (A.reading w).filter (· ∈ A.live) with hs
  have hext : ∀ x ∈ A.alphabet, A.itemOf (w ++ [x]) = levelItem A.live (A.step s x) (w ++ [x]) := by
    intro x hx
    rw [itemOf, levelItem, levelItem, reading_append_symbol hx, hs, filter_live_step hA]
  rw [List.flatMap_congr hext, itemOf, levelItem, ← hs]
  by_cases h : s.isEmpty
  · -- nothing is read from no states
    have hnone : ∀ x q, q ∉ (A.step s x).filter (· ∈ A.live) := by
      intro x q hq
      obtain ⟨p, hp, -⟩ := mem_step.1 (SortedSet.mem_filter.1 hq).1
      exact SortedSet.isEmpty_iff.1 h p hp
    simp only [if_pos h]
    refine (List.flatMap_eq_nil_iff.2 fun x _ => ?_).symm
    rw [levelItem, if_pos (SortedSet.isEmpty_iff.2 (hnone x))]
  · simp only [if_neg h]
    rw [nextLevel, List.flatMap_singleton]

/-- A level holds the words of its length, in order, each with what it leads to. -/
theorem level_eq (n : Nat) : A.level n = (wordsOver A.alphabet n).flatMap A.itemOf := by
  induction n with
  | zero =>
    rw [level, firstLevel, wordsOver, List.flatMap_singleton, itemOf, reading, seed]
    cases A.initial with
    | some p => rfl
    | none => rfl
  | succ n ih =>
    have hstep : A.nextLevel ((wordsOver A.alphabet n).flatMap A.itemOf) =
        (wordsOver A.alphabet n).flatMap fun w => A.nextLevel (A.itemOf w) := List.flatMap_assoc
    rw [level, ih, hstep, wordsOver, List.flatMap_assoc]
    refine List.flatMap_congr fun w _ => ?_
    rw [nextLevel_itemOf hA, List.flatMap_map]

theorem acceptedWords_itemOf (w : List Symbol) :
    A.acceptedWords (A.itemOf w) = if A.meetsFinal (A.reading w) then [w] else [] := by
  rw [← meetsFinal_filter_live hA, itemOf, levelItem]
  by_cases h : ((A.reading w).filter (· ∈ A.live)).isEmpty
  · have hno : ¬ A.meetsFinal ((A.reading w).filter (· ∈ A.live)) = true := by
      rw [meetsFinal_iff]
      rintro ⟨q, hq, -⟩
      exact SortedSet.isEmpty_iff.1 h q hq
    rw [if_pos h, if_neg hno]
    rfl
  · rw [if_neg h, acceptedWords_cons]
    rfl

/-- A level gives out the accepted words of its length. -/
theorem acceptedWords_level (n : Nat) : A.acceptedWords (A.level n) = A.acceptedAt n := by
  rw [level_eq hA, acceptedAt]
  induction wordsOver A.alphabet n with
  | nil => rfl
  | cons w ws ih =>
    rw [List.flatMap_cons, acceptedWords_append, List.filter_cons, ih, acceptedWords_itemOf hA]
    cases A.meetsFinal (A.reading w) with
    | true => rfl
    | false => rfl

end Levels

theorem level_eq_nil {m : Nat} (h : A.level n = []) (hm : n ≤ m) : A.level m = [] := by
  induction hm with
  | refl => exact h
  | step _ ih => rw [level, ih]; rfl

/-! ### How far the next accepted word can be -/

/-- The lengths of the words that lead from a state to a final one. -/
def lengthsFrom (A : Automaton) (q : State) : Set Nat := List.length '' A.languageFrom q

/-- On a shortest way to a final state every shorter distance occurs. -/
theorem exists_isLeast_lengthsFrom (hA : A.WellFormed) (hq : q < A.size)
    (h : IsLeast (A.lengthsFrom q) n) : ∀ k ≤ n, ∃ r < A.size, IsLeast (A.lengthsFrom r) k := by
  induction n generalizing q with
  | zero =>
    intro k hk
    obtain rfl := Nat.le_zero.1 hk
    exact ⟨q, hq, h⟩
  | succ n ih =>
    intro k hk
    rcases Nat.le_succ_iff.1 hk with hk | rfl
    · obtain ⟨⟨w, ⟨f, hf, hw⟩, hn⟩, hleast⟩ := h
      obtain ⟨c, w, rfl⟩ : ∃ c v, w = c :: v := List.exists_cons_of_length_eq_add_one hn
      obtain ⟨x, s, t, hc, hs, ht, hw⟩ := hw.cons_inv
      refine ih (hA.target_lt ht) ⟨⟨w, ⟨f, hf, hw⟩, Nat.succ.inj hn⟩, ?_⟩ k hk
      rintro _ ⟨v, ⟨g, hg, hv⟩, rfl⟩
      exact Nat.le_of_succ_le_succ (hleast ⟨c :: v, ⟨g, hg, hs.trans (.symbol hc ht hv)⟩, rfl⟩)
    · exact ⟨q, hq, h⟩

theorem lt_size_of_mem_live (hA : A.WellFormed) (h : q ∈ A.live) : q < A.size := by
  obtain ⟨w, f, hf, hw⟩ := hA.mem_live.1 h
  cases hw with
  | nil => exact hA.final_lt hf
  | epsilon he _ => exact hA.source_lt he
  | symbol _ he _ => exact hA.source_lt he

/-- From a live state a final one is reached by fewer symbols than there are states. -/
theorem exists_length_lt_size (hA : A.WellFormed) (hlive : q ∈ A.live) :
    ∃ w ∈ A.languageFrom q, w.length < A.size := by
  have hq := lt_size_of_mem_live hA hlive
  obtain ⟨w, hw⟩ := hA.mem_live.1 hlive
  have hne : ∃ n, n ∈ A.lengthsFrom q := ⟨_, w, hw, rfl⟩
  classical
  have hleast : IsLeast (A.lengthsFrom q) (Nat.find hne) :=
    ⟨Nat.find_spec hne, fun m hm => Nat.find_min' hne hm⟩
  -- each distance up to the least one is that of another state
  choose! r hr hdist using exists_isLeast_lengthsFrom hA hq hleast
  have hcard : (Finset.range (Nat.find hne + 1)).card ≤ (Finset.range A.size).card := by
    refine Finset.card_le_card_of_injOn r (fun k hk => ?_) fun j hj k hk h => ?_
    · exact Finset.mem_coe.2 (Finset.mem_range.2 (hr k (Nat.lt_succ_iff.1 (Finset.mem_range.1 hk))))
    · have hj := hdist j (Nat.lt_succ_iff.1 (Finset.mem_range.1 hj))
      exact (h ▸ hj).unique (hdist k (Nat.lt_succ_iff.1 (Finset.mem_range.1 hk)))
  rw [Finset.card_range, Finset.card_range] at hcard
  obtain ⟨v, hv, hlen⟩ := hleast.1
  exact ⟨v, hv, by omega⟩

/-- Soon after a level that is not empty there is an accepted word. -/
theorem exists_acceptedAt (hA : A.WellFormed) (h : A.level n ≠ []) :
    ∃ m, n ≤ m ∧ m < n + A.size ∧ A.acceptedAt m ≠ [] := by
  obtain ⟨i, hi⟩ := List.exists_mem_of_ne_nil _ h
  rw [level_eq hA] at hi
  obtain ⟨w, hw, hi⟩ := List.mem_flatMap.1 hi
  have hlive : ∃ q ∈ A.reading w, q ∈ A.live := by
    by_contra hno
    have hempty : ((A.reading w).filter (· ∈ A.live)).isEmpty := by
      refine SortedSet.isEmpty_iff.2 fun q hq => hno ?_
      obtain ⟨hq, hl⟩ := SortedSet.mem_filter.1 hq
      exact ⟨q, hq, of_decide_eq_true hl⟩
    rw [itemOf, levelItem, if_pos hempty] at hi
    exact absurd hi List.not_mem_nil
  obtain ⟨q, hq, hl⟩ := hlive
  obtain ⟨p, hp, hpq⟩ := mem_reading.1 hq
  obtain ⟨u, ⟨f, hf, hu⟩, hlen⟩ := exists_length_lt_size hA hl
  obtain ⟨v, rfl, -⟩ := exists_spell hu.symbol?_isSome
  have hword : w ++ v ∈ A.acceptedAt (n + v.length) := by
    rw [mem_acceptedAt, List.length_append, (mem_wordsOver.1 hw).1, ← meetsFinal_reading,
      meetsFinal_iff]
    exact ⟨rfl, f, mem_reading.2 ⟨p, hp, spell_append ▸ hpq.trans hu⟩, hf⟩
  rw [length_spell] at hlen
  exact ⟨n + v.length, Nat.le_add_right _ _, Nat.add_lt_add_left hlen n, List.ne_nil_of_mem hword⟩

end Automaton

end RegularLanguages
