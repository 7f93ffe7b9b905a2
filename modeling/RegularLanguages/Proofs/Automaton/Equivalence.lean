import RegularLanguages.Proofs.Automaton.Complement
import RegularLanguages.Proofs.Automaton.Induced
import RegularLanguages.Proofs.Automaton.Union
/-!
# Intersection, difference and equivalence

Once both operands have the symbols of either, the complement of the union of the complements accepts
what both accept. Two automata accept the same words if both of their differences are empty, which
shows in the states that the initial state reaches (`isEmpty_iff`).
-/

namespace RegularLanguages.Automaton

variable {A B : Automaton} {p q : State} {w : List Char}

/-! ### Larger alphabets -/

/-- Symbols that no edge carries are of no use. -/
theorem path_addSymbols (hA : A.WellFormed) (extra : SortedSet Symbol) :
    (A.addSymbols extra).Path p w q ↔ A.Path p w q := by
  refine ⟨Path.mono (fun he hc => hA.symbol?_of_mem hc he) id, Path.mono (fun _ hc => ?_) id⟩
  obtain ⟨hx, hmem⟩ := symbol?_eq_some.1 hc
  exact symbol?_eq_some.2 ⟨hx, SortedSet.mem_union.2 (.inr hmem)⟩

theorem language_addSymbols (hA : A.WellFormed) (extra : SortedSet Symbol) :
    (A.addSymbols extra).language = A.language := by
  cases hi : A.initial with
  | none => rw [language_eq_zero (A := A.addSymbols extra) hi, language_eq_zero hi]
  | some p =>
    rw [language_eq (A := A.addSymbols extra) hi, language_eq hi]
    ext w
    simp only [mem_languageFrom, path_addSymbols hA]
    exact Iff.rfl

theorem accepts_addSymbols (hA : A.WellFormed) (extra : SortedSet Symbol) (w : String) :
    (A.addSymbols extra).accepts w = A.accepts w := by
  cases hi : A.initial with
  | none => rw [accepts_of_no_initial (A := A.addSymbols extra) hi, accepts_of_no_initial hi]
  | some p => exact accepts_congr (A := A.addSymbols extra) hi hi (language_addSymbols hA extra) w

theorem symbol?_isSome_addSymbols {extra : SortedSet Symbol} {c : Char}
    (h : (A.symbol? c).isSome = true) : ((A.addSymbols extra).symbol? c).isSome = true := by
  obtain ⟨x, hx⟩ := Option.isSome_iff_exists.1 h
  obtain ⟨hxc, hmem⟩ := symbol?_eq_some.1 hx
  have hx' : (A.addSymbols extra).symbol? c = some x :=
    symbol?_eq_some.2 ⟨hxc, SortedSet.mem_union.2 (.inr hmem)⟩
  rw [hx']
  rfl

/-! ### Intersection -/

/-- The complement of the union of the complements, over the symbols of both. -/
def intersectionAutomaton (A B : Automaton) (p q : State) : Automaton :=
  (((A.addSymbols B.alphabet).complementAutomaton p).unionAutomaton
    ((B.addSymbols A.alphabet).complementAutomaton q) 0 0).complementAutomaton 0

theorem intersection_eq (hp : A.initial = some p) (hq : B.initial = some q) :
    A.intersection B = .ok (A.intersectionAutomaton B p q) := by
  have hl := complement_eq (A := A.addSymbols B.alphabet) hp
  have hr := complement_eq (A := B.addSymbols A.alphabet) hq
  have hu := union_eq
    (initial_complementAutomaton (A := A.addSymbols B.alphabet) (p := p))
    (initial_complementAutomaton (A := B.addSymbols A.alphabet) (p := q))
  rw [intersection, hl, hr]
  show (do (← ((A.addSymbols B.alphabet).complementAutomaton p).union
    ((B.addSymbols A.alphabet).complementAutomaton q)).complement) = _
  rw [hu]
  show (unionAutomaton _ _ 0 0).complement = _
  exact complement_eq rfl

theorem intersection_of_no_initial (h : A.initial = none ∨ B.initial = none) :
    A.intersection B = .error .noInitialState := by
  rw [intersection]
  cases hp : A.initial with
  | none =>
    rw [complement_of_no_initial (A := A.addSymbols B.alphabet) hp]
    rfl
  | some p =>
    have hq := h.resolve_left fun hn => by rw [hp] at hn; cases hn
    rw [complement_eq (A := A.addSymbols B.alphabet) hp,
      complement_of_no_initial (A := B.addSymbols A.alphabet) hq]
    rfl

theorem wellFormed_intersectionAutomaton : (A.intersectionAutomaton B p q).WellFormed :=
  wellFormed_complementAutomaton

theorem initial_intersectionAutomaton : (A.intersectionAutomaton B p q).initial = some 0 :=
  initial_complementAutomaton

theorem alphabet_intersectionAutomaton :
    (A.intersectionAutomaton B p q).alphabet = A.alphabet ∪ B.alphabet := by
  rw [intersectionAutomaton, alphabet_complementAutomaton]
  change ((A.addSymbols B.alphabet).complementAutomaton p).alphabet ∪
    ((B.addSymbols A.alphabet).complementAutomaton q).alphabet = _
  rw [alphabet_complementAutomaton, alphabet_complementAutomaton]
  refine SortedSet.ext fun x => ?_
  simp only [addSymbols, SortedSet.mem_union]
  tauto

theorem mem_language_intersectionAutomaton (hA : A.WellFormed) (hB : B.WellFormed)
    (hp : A.initial = some p) (hq : B.initial = some q) :
    w ∈ (A.intersectionAutomaton B p q).language ↔ w ∈ A.language ∧ w ∈ B.language := by
  have halph := alphabet_intersectionAutomaton (A := A) (B := B) (p := p) (q := q)
  rw [intersectionAutomaton, alphabet_complementAutomaton] at halph
  have hA' : (A.addSymbols B.alphabet).alphabet = A.alphabet ∪ B.alphabet := SortedSet.union_comm _ _
  have hB' : (B.addSymbols A.alphabet).alphabet = A.alphabet ∪ B.alphabet := rfl
  rw [intersectionAutomaton, mem_language_complementAutomaton (p := 0) rfl,
    language_unionAutomaton wellFormed_complementAutomaton wellFormed_complementAutomaton
      initial_complementAutomaton initial_complementAutomaton, Language.mem_add,
    mem_language_complementAutomaton (A := A.addSymbols B.alphabet) hp,
    mem_language_complementAutomaton (A := B.addSymbols A.alphabet) hq,
    language_addSymbols hA, language_addSymbols hB]
  simp only [symbol?_congr (hA'.trans halph.symm), symbol?_congr (hB'.trans halph.symm)]
  constructor
  · rintro ⟨hw, hno⟩
    constructor
    · by_contra h
      exact hno (.inl ⟨hw, h⟩)
    · by_contra h
      exact hno (.inr ⟨hw, h⟩)
  · rintro ⟨hwA, hwB⟩
    refine ⟨fun c hc => ?_, ?_⟩
    · rw [← symbol?_congr (hA'.trans halph.symm)]
      exact symbol?_isSome_addSymbols (symbol?_isSome_of_mem_language hwA c hc)
    · rintro (⟨-, h⟩ | ⟨-, h⟩)
      · exact h hwA
      · exact h hwB

/-! ### Difference -/

/-- The intersection with the complement of `B` over the symbols of both. -/
def differenceAutomaton (A B : Automaton) (p q : State) : Automaton :=
  A.intersectionAutomaton ((B.addSymbols A.alphabet).complementAutomaton q) p 0

theorem difference_eq (hp : A.initial = some p) (hq : B.initial = some q) :
    A.difference B = .ok (A.differenceAutomaton B p q) := by
  rw [difference, complement_eq (A := B.addSymbols A.alphabet) hq]
  exact intersection_eq hp initial_complementAutomaton

theorem difference_of_no_initial (h : A.initial = none ∨ B.initial = none) :
    A.difference B = .error .noInitialState := by
  rw [difference]
  cases hq : B.initial with
  | none =>
    rw [complement_of_no_initial (A := B.addSymbols A.alphabet) hq]
    rfl
  | some q =>
    have hp := h.resolve_right fun hn => by rw [hq] at hn; cases hn
    rw [complement_eq (A := B.addSymbols A.alphabet) hq]
    exact intersection_of_no_initial (.inl hp)

theorem initial_differenceAutomaton : (A.differenceAutomaton B p q).initial = some 0 :=
  initial_intersectionAutomaton

theorem alphabet_differenceAutomaton :
    (A.differenceAutomaton B p q).alphabet = A.alphabet ∪ B.alphabet := by
  rw [differenceAutomaton, alphabet_intersectionAutomaton, alphabet_complementAutomaton]
  refine SortedSet.ext fun x => ?_
  simp only [addSymbols, SortedSet.mem_union]
  tauto

theorem mem_language_differenceAutomaton (hA : A.WellFormed) (hB : B.WellFormed)
    (hp : A.initial = some p) (hq : B.initial = some q) :
    w ∈ (A.differenceAutomaton B p q).language ↔ w ∈ A.language ∧ w ∉ B.language := by
  rw [differenceAutomaton, mem_language_intersectionAutomaton hA wellFormed_complementAutomaton hp
    initial_complementAutomaton, mem_language_complementAutomaton (A := B.addSymbols A.alphabet) hq,
    language_addSymbols hB]
  refine and_congr_right fun hw => ⟨fun h => h.2, fun h => ⟨fun c hc => ?_, h⟩⟩
  have halph : (B.addSymbols A.alphabet).alphabet = (A.addSymbols B.alphabet).alphabet :=
    SortedSet.union_comm _ _
  rw [symbol?_congr halph]
  exact symbol?_isSome_addSymbols (symbol?_isSome_of_mem_language hw c hc)

/-! ### Emptiness -/

theorem isEmpty_iff (hA : A.WellFormed) : A.isEmpty = true ↔ A.language = 0 := by
  cases hi : A.initial with
  | none =>
    rw [isEmpty, hi, language_eq_zero hi]
    exact ⟨fun _ => rfl, fun _ => rfl⟩
  | some p =>
    rw [isEmpty, hi, language_eq hi, eq_zero_iff_forall_notMem]
    show (A.reach p).toList.all (· ∉ A.finals) = true ↔ _
    rw [List.all_eq_true]
    simp only [decide_eq_true_iff, SortedSet.mem_toList, hA.mem_reach]
    constructor
    · rintro h w ⟨f, hf, hw⟩
      exact h f ⟨w, hw⟩ hf
    · rintro h q ⟨w, hw⟩ hq
      exact h w ⟨q, hq, hw⟩

/-! ### Equivalence -/

theorem isEmpty_differenceAutomaton (hA : A.WellFormed) (hB : B.WellFormed)
    (hp : A.initial = some p) (hq : B.initial = some q) :
    (A.differenceAutomaton B p q).isEmpty = true ↔ ∀ w ∈ A.language, w ∈ B.language := by
  have hempty := isEmpty_iff (A := A.differenceAutomaton B p q) wellFormed_intersectionAutomaton
  rw [hempty, eq_zero_iff_forall_notMem]
  simp only [mem_language_differenceAutomaton hA hB hp hq, not_and, not_not]

theorem isEquivalent_eq (hA : A.WellFormed) (hB : B.WellFormed) (hp : A.initial = some p)
    (hq : B.initial = some q) :
    ∃ b, A.isEquivalent B = .ok b ∧ (b = true ↔ A.language = B.language) := by
  refine ⟨(A.differenceAutomaton B p q).isEmpty && (B.differenceAutomaton A q p).isEmpty, ?_, ?_⟩
  · rw [isEquivalent, difference_eq hp hq, difference_eq hq hp]
    show (if (A.differenceAutomaton B p q).isEmpty = true then
      Except.ok (B.differenceAutomaton A q p).isEmpty else Except.ok false) = _
    cases (A.differenceAutomaton B p q).isEmpty <;> rfl
  · rw [Bool.and_eq_true, isEmpty_differenceAutomaton hA hB hp hq,
      isEmpty_differenceAutomaton hB hA hq hp]
    constructor
    · rintro ⟨hAB, hBA⟩
      ext w
      exact ⟨hAB w, hBA w⟩
    · intro h
      rw [h]
      exact ⟨fun w hw => hw, fun w hw => hw⟩

theorem isEquivalent_of_no_initial (h : A.initial = none ∨ B.initial = none) :
    A.isEquivalent B = .error .noInitialState := by
  rw [isEquivalent, difference_of_no_initial h]
  rfl

theorem language_eq_iff :
    A.language = B.language ↔ ∀ w : String, A.accepts w = .ok true ↔ B.accepts w = .ok true := by
  simp only [accepts_eq_ok_true]
  constructor
  · intro h w
    rw [h]
  · intro h
    ext w
    have hw := h (String.ofList w)
    rwa [String.toList_ofList] at hw

theorem language_ne_iff (hp : A.initial = some p) (hq : B.initial = some q) :
    A.language ≠ B.language ↔
      ∃ w : String, (A.accepts w = .ok true ∧ B.accepts w = .ok false) ∨
        (A.accepts w = .ok false ∧ B.accepts w = .ok true) := by
  rw [ne_eq, language_eq_iff, not_forall]
  simp only [accepts_eq_ok_false hp, accepts_eq_ok_false hq, accepts_eq_ok_true]
  refine exists_congr fun w => ?_
  tauto

/-- The test tells for every two automata with initial states whether they accept the same words. -/
theorem isEquivalent_decides (hA : A.WellFormed) (hB : B.WellFormed) :
    (A.isEquivalent B = .ok true ↔ A.initial ≠ none ∧ B.initial ≠ none ∧
      ∀ w : String, A.accepts w = .ok true ↔ B.accepts w = .ok true) ∧
    (A.isEquivalent B = .ok false ↔ A.initial ≠ none ∧ B.initial ≠ none ∧
      ∃ w : String, (A.accepts w = .ok true ∧ B.accepts w = .ok false) ∨
        (A.accepts w = .ok false ∧ B.accepts w = .ok true)) ∧
    (A.isEquivalent B = .error .noInitialState ↔ A.initial = none ∨ B.initial = none) := by
  by_cases hi : A.initial = none ∨ B.initial = none
  · have hno : ¬(A.initial ≠ none ∧ B.initial ≠ none) := fun h => hi.elim h.1 h.2
    rw [isEquivalent_of_no_initial hi]
    refine ⟨⟨?_, fun h => absurd ⟨h.1, h.2.1⟩ hno⟩, ⟨?_, fun h => absurd ⟨h.1, h.2.1⟩ hno⟩,
      fun _ => hi, fun _ => rfl⟩
    · intro h; cases h
    · intro h; cases h
  · obtain ⟨hpn, hqn⟩ := not_or.1 hi
    obtain ⟨p, hp⟩ := Option.ne_none_iff_exists'.1 hpn
    obtain ⟨q, hq⟩ := Option.ne_none_iff_exists'.1 hqn
    obtain ⟨b, hb, heq⟩ := isEquivalent_eq hA hB hp hq
    rw [hb, Except.ok.injEq, Except.ok.injEq, ← Bool.not_eq_true, heq, ← language_eq_iff]
    refine ⟨⟨fun h => ⟨hpn, hqn, h⟩, fun h => h.2.2⟩, ?_, ?_, fun h => absurd h hi⟩
    · rw [← ne_eq, language_ne_iff hp hq]
      exact ⟨fun h => ⟨hpn, hqn, h⟩, fun h => h.2.2⟩
    · intro h; cases h

theorem isEquivalent_letters :
    (letter ⟨'a', rfl⟩).WellFormed ∧ (letter ⟨'b', rfl⟩).WellFormed ∧
      (letter ⟨'a', rfl⟩).isEquivalent (letter ⟨'b', rfl⟩) = .ok false := by
  have ha := wellFormed_letter ⟨'a', rfl⟩
  have hb := wellFormed_letter ⟨'b', rfl⟩
  refine ⟨ha, hb, (isEquivalent_decides ha hb).2.1.2 ⟨by decide, by decide, "a", .inl ⟨?_, ?_⟩⟩⟩
  · rw [accepts_eq_ok_true, language_letter]
    rfl
  · rw [accepts_eq_ok_false (p := 0) rfl, language_letter]
    intro h
    have := List.cons.inj h
    exact absurd this.1 (by decide)

end RegularLanguages.Automaton
