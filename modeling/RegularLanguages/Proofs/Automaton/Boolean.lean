import Mathlib
import RegularLanguages.Proofs.Automaton.Equivalence
/-!
# Answers of the Boolean operations

What complement, union, intersection and difference answer, word by word, in terms of the answers of
their operands. The complement flips the answers to the words over its own alphabet, also after
symbols have been added (`complement_flips`). The others take the symbols of both operands and make no
exception for words with symbols that one operand lacks (`union_answers`,
`intersection_difference_answer`). Each operation fails only for want of an initial state.
-/

namespace RegularLanguages.Automaton

/-- Of the words over its alphabet `C` accepts those that `A` rejects, and it reads each of them in one
way to the end. -/
structure Complements (C A : Automaton) : Prop where
  deterministic : C.isDeterministic = true
  complete : C.isComplete = true
  answer (w : String) : ∃ a, A.accepts w = .ok a ∧
    C.accepts w = .ok (w.toList.all (fun c => (C.symbol? c).isSome) && !a)

variable {A B C : Automaton} {p q : State}

theorem noInitialState_iff {x : Except Error Automaton}
    (hno : A.initial = none ∨ B.initial = none → x = .error .noInitialState)
    (hok : ∀ p q, A.initial = some p → B.initial = some q → ∃ C, x = .ok C) :
    x = .error .noInitialState ↔ A.initial = none ∨ B.initial = none := by
  refine ⟨fun hx => ?_, hno⟩
  by_contra h
  obtain ⟨hp, hq⟩ := not_or.1 h
  obtain ⟨p, hp⟩ := Option.ne_none_iff_exists'.1 hp
  obtain ⟨q, hq⟩ := Option.ne_none_iff_exists'.1 hq
  obtain ⟨C, hC⟩ := hok p q hp hq
  rw [hC] at hx
  cases hx

/-! ### Complement -/

theorem complements_complementAutomaton (hp : A.initial = some p) :
    (A.complementAutomaton p).Complements A := by
  have hW := wellFormed_complementAutomaton (A := A) (p := p)
  refine ⟨functional_complementAutomaton.isDeterministic,
    (isComplete_iff hW).2 total_complementAutomaton, fun w => ?_⟩
  obtain ⟨a, ha, haw⟩ := exists_answer hp w
  refine ⟨a, ha, ?_⟩
  rw [accepts_eq_ok initial_complementAutomaton, mem_language_complementAutomaton hp, ← haw,
    Bool.and_eq_true, List.all_eq_true, Bool.not_eq_true', Bool.not_eq_true]
  simp only [symbol?_congr alphabet_complementAutomaton]

theorem Complements.of_addSymbols {extra : SortedSet Symbol} (hA : A.WellFormed)
    (h : C.Complements (A.addSymbols extra)) : C.Complements A := by
  refine ⟨h.deterministic, h.complete, fun w => ?_⟩
  obtain ⟨a, ha, hw⟩ := h.answer w
  exact ⟨a, (accepts_addSymbols hA extra w).symm.trans ha, hw⟩

/-- Complementing needs an initial state only. It flips the answers to the words over the alphabet and
rejects all others, and symbols added before count as symbols of the alphabet. -/
theorem complement_flips (A : Automaton) :
    (A.complement = .error .noInitialState ↔ A.initial = none) ∧
      (A.initial ≠ none → ∃ C, A.complement = .ok C ∧ C.alphabet = A.alphabet ∧ C.Complements A) ∧
      (A.initial ≠ none → A.WellFormed → ∀ extra, ∃ C, (A.addSymbols extra).complement = .ok C ∧
        C.alphabet = extra ∪ A.alphabet ∧ C.Complements A) := by
  refine ⟨?_, fun h => ?_, fun h hA extra => ?_⟩
  · have hfails := noInitialState_iff (A := A) (B := A) (x := A.complement)
      (fun h => complement_of_no_initial (or_self_iff.1 h))
      fun p _ hp _ => ⟨_, complement_eq hp⟩
    rwa [or_self_iff] at hfails
  · obtain ⟨p, hp⟩ := Option.ne_none_iff_exists'.1 h
    exact ⟨_, complement_eq hp, alphabet_complementAutomaton, complements_complementAutomaton hp⟩
  · obtain ⟨p, hp⟩ := Option.ne_none_iff_exists'.1 h
    have hp' : (A.addSymbols extra).initial = some p := hp
    exact ⟨_, complement_eq hp', alphabet_complementAutomaton,
      (complements_complementAutomaton hp').of_addSymbols hA⟩

theorem Complements.accepts_letter (h : C.Complements (letter ⟨'a', rfl⟩))
    (hC : C.alphabet = A.alphabet) (w : String) :
    C.accepts w =
      .ok (w.toList.all (fun c => (A.symbol? c).isSome) && !decide (w.toList = ['a'])) := by
  obtain ⟨a, ha, hw⟩ := h.answer w
  rw [Automaton.accepts_letter] at ha
  rw [hw, ← Except.ok.inj ha]
  simp only [symbol?_congr hC]

/-- The symbol of the word `b` has to be added before the complement accepts it. -/
theorem complement_flips_letter :
    (letter ⟨'a', rfl⟩).initial ≠ none ∧ (letter ⟨'a', rfl⟩).WellFormed ∧
      (∃ C, (letter ⟨'a', rfl⟩).complement = .ok C ∧ C.accepts "" = .ok true ∧
        C.accepts "a" = .ok false ∧ C.accepts "b" = .ok false) ∧
      ∃ C, ((letter ⟨'a', rfl⟩).addSymbols (.singleton ⟨'b', rfl⟩)).complement = .ok C ∧
        C.accepts "a" = .ok false ∧ C.accepts "b" = .ok true := by
  have hi : (letter ⟨'a', rfl⟩).initial ≠ none := by decide
  have hA := wellFormed_letter ⟨'a', rfl⟩
  obtain ⟨-, hflips, hextra⟩ := complement_flips (letter ⟨'a', rfl⟩)
  obtain ⟨C, hC, halph, hcomp⟩ := hflips hi
  obtain ⟨D, hD, hadded, hcomp'⟩ := hextra hi hA (.singleton ⟨'b', rfl⟩)
  have hanswer := hcomp.accepts_letter halph
  have hanswer' := hcomp'.accepts_letter
    (A := (letter ⟨'a', rfl⟩).addSymbols (.singleton ⟨'b', rfl⟩)) hadded
  refine ⟨hi, hA, ⟨C, hC, ?_, ?_, ?_⟩, D, hD, ?_, ?_⟩
  · rw [hanswer]; decide
  · rw [hanswer]; decide
  · rw [hanswer]; decide
  · rw [hanswer']; decide
  · rw [hanswer']; decide

/-! ### Union -/

/-- Taking the union needs initial states only. Its states are `q0`, `q1`, … whatever the operands show,
from the initial one to the final one, and it answers as either operand does. -/
theorem union_answers (hA : A.WellFormed) (hB : B.WellFormed) :
    (A.union B = .error .noInitialState ↔ A.initial = none ∨ B.initial = none) ∧
      (A.initial ≠ none → B.initial ≠ none → ∃ U, A.union B = .ok U ∧
        U.alphabet = A.alphabet ∪ B.alphabet ∧
        U.names.toList.map StateName.text =
          (List.range (A.size + B.size + 2)).map (fun k => "q" ++ toString k) ∧
        (U.names.toList.map StateName.text).Nodup ∧ U.initial = some 0 ∧
        U.finals = .singleton (A.size + B.size + 1) ∧
        ∀ w, ∃ a b, A.accepts w = .ok a ∧ B.accepts w = .ok b ∧ U.accepts w = .ok (a || b)) := by
  refine ⟨noInitialState_iff union_of_no_initial fun p q hp hq => ⟨_, union_eq hp hq⟩,
    fun hp hq => ?_⟩
  obtain ⟨p, hp⟩ := Option.ne_none_iff_exists'.1 hp
  obtain ⟨q, hq⟩ := Option.ne_none_iff_exists'.1 hq
  have hlast : A.size + B.size + 1 = 1 + A.size + B.size := by omega
  refine ⟨_, union_eq hp hq, rfl, texts_unionAutomaton, nodup_texts_unionAutomaton, rfl,
    hlast ▸ rfl, fun w => ?_⟩
  obtain ⟨a, ha, haw⟩ := exists_answer hp w
  obtain ⟨b, hb, hbw⟩ := exists_answer hq w
  refine ⟨a, b, ha, hb, ?_⟩
  rw [accepts_eq_ok (A := A.unionAutomaton B p q) rfl, language_unionAutomaton hA hB hp hq,
    Language.mem_add, Bool.or_eq_true, haw, hbw]

/-- Both operands have states that show `q0` and `q1`. -/
theorem union_answers_fork :
    fork.WellFormed ∧ (letter ⟨'b', rfl⟩).WellFormed ∧ fork.initial ≠ none ∧
      (letter ⟨'b', rfl⟩).initial ≠ none ∧ ∃ U, fork.union (letter ⟨'b', rfl⟩) = .ok U ∧
        U.names.toList.map StateName.text = ["q0", "q1", "q2", "q3", "q4", "q5", "q6"] ∧
        U.accepts "aa" = .ok true ∧ U.accepts "b" = .ok true ∧ U.accepts "ab" = .ok false := by
  have hA : fork.WellFormed := Draft.wellFormed_requests _
  have hB := wellFormed_letter ⟨'b', rfl⟩
  have hi : fork.initial ≠ none := by decide
  have hi' : (letter ⟨'b', rfl⟩).initial ≠ none := by decide
  have hsize : fork.size = 3 := by decide
  obtain ⟨U, hU, -, htexts, -, -, -, hanswer⟩ := (union_answers hA hB).2 hi hi'
  have hword : ∀ w a, fork.accepts w = .ok a →
      U.accepts w = .ok (a || decide (w.toList = ['b'])) := by
    intro w a ha
    obtain ⟨a', b, ha', hb, hw⟩ := hanswer w
    rw [ha] at ha'
    rw [accepts_letter] at hb
    rw [hw, Except.ok.inj ha', ← Except.ok.inj hb]
  refine ⟨hA, hB, hi, hi', U, hU, ?_, hword _ true ?_, hword _ false ?_, hword _ false ?_⟩
  · rw [htexts, hsize]
    decide
  · cbv
  · cbv
  · cbv

/-! ### Intersection and difference -/

/-- Intersection and difference need initial states only. They take the symbols of both operands and
answer as both do, and as the first does but the second does not. -/
theorem intersection_difference_answer (hA : A.WellFormed) (hB : B.WellFormed) :
    (A.intersection B = .error .noInitialState ↔ A.initial = none ∨ B.initial = none) ∧
      (A.difference B = .error .noInitialState ↔ A.initial = none ∨ B.initial = none) ∧
      (A.initial ≠ none → B.initial ≠ none → ∃ I D, A.intersection B = .ok I ∧
        A.difference B = .ok D ∧ I.alphabet = A.alphabet ∪ B.alphabet ∧
        D.alphabet = A.alphabet ∪ B.alphabet ∧
        ∀ w, ∃ a b, A.accepts w = .ok a ∧ B.accepts w = .ok b ∧
          I.accepts w = .ok (a && b) ∧ D.accepts w = .ok (a && !b)) := by
  refine ⟨noInitialState_iff intersection_of_no_initial fun p q hp hq => ⟨_, intersection_eq hp hq⟩,
    noInitialState_iff difference_of_no_initial fun p q hp hq => ⟨_, difference_eq hp hq⟩,
    fun hp hq => ?_⟩
  obtain ⟨p, hp⟩ := Option.ne_none_iff_exists'.1 hp
  obtain ⟨q, hq⟩ := Option.ne_none_iff_exists'.1 hq
  refine ⟨_, _, intersection_eq hp hq, difference_eq hp hq, alphabet_intersectionAutomaton,
    alphabet_differenceAutomaton, fun w => ?_⟩
  obtain ⟨a, ha, haw⟩ := exists_answer hp w
  obtain ⟨b, hb, hbw⟩ := exists_answer hq w
  refine ⟨a, b, ha, hb, ?_, ?_⟩
  · rw [accepts_eq_ok initial_intersectionAutomaton, mem_language_intersectionAutomaton hA hB hp hq,
      Bool.and_eq_true, haw, hbw]
  · rw [accepts_eq_ok initial_differenceAutomaton, mem_language_differenceAutomaton hA hB hp hq,
      Bool.and_eq_true, Bool.not_eq_true', haw, ← hbw, Bool.not_eq_true]

/-- The second operand knows a symbol that the first does not. -/
theorem intersection_difference_answer_fork :
    fork.WellFormed ∧ ((letter ⟨'a', rfl⟩).addSymbols (.singleton ⟨'b', rfl⟩)).WellFormed ∧
      fork.initial ≠ none ∧ (letter ⟨'a', rfl⟩).initial ≠ none ∧
      ∃ I D, fork.intersection ((letter ⟨'a', rfl⟩).addSymbols (.singleton ⟨'b', rfl⟩)) = .ok I ∧
        fork.difference ((letter ⟨'a', rfl⟩).addSymbols (.singleton ⟨'b', rfl⟩)) = .ok D ∧
        I.accepts "a" = .ok true ∧ D.accepts "a" = .ok false ∧
        I.accepts "aa" = .ok false ∧ D.accepts "aa" = .ok true := by
  have hA : fork.WellFormed := Draft.wellFormed_requests _
  have hL := wellFormed_letter ⟨'a', rfl⟩
  have hB := hL.addSymbols (.singleton ⟨'b', rfl⟩)
  have hi : fork.initial ≠ none := by decide
  have hi' : (letter ⟨'a', rfl⟩).initial ≠ none := by decide
  obtain ⟨I, D, hI, hD, -, -, hanswer⟩ := (intersection_difference_answer hA hB).2.2 hi hi'
  have hword : ∀ w, fork.accepts w = .ok true →
      I.accepts w = .ok (decide (w.toList = ['a'])) ∧
        D.accepts w = .ok (!decide (w.toList = ['a'])) := by
    intro w ha
    obtain ⟨a, b, ha', hb, hIw, hDw⟩ := hanswer w
    rw [ha] at ha'
    rw [accepts_addSymbols hL, accepts_letter] at hb
    rw [hIw, hDw, ← Except.ok.inj ha', ← Except.ok.inj hb]
    exact ⟨rfl, rfl⟩
  have hone : fork.accepts "a" = .ok true := by cbv
  have htwo : fork.accepts "aa" = .ok true := by cbv
  exact ⟨hA, hB, hi, hi', I, D, hI, hD, (hword _ hone).1, (hword _ hone).2, (hword _ htwo).1,
    (hword _ htwo).2⟩

end RegularLanguages.Automaton
