import Mathlib
import RegularLanguages.Proofs.Automaton.DistinctNames
import RegularLanguages.Proofs.Automaton.Singletons
/-!
# Completing an automaton

A complete automaton is the subset construction, with a sink added where edges are missing
(`extendsBySink_addSink`). The subset construction of a functional automaton misses no edge if none is missing
before (`Total.subsetAutomaton`), and has as many states if all are reached. So nothing is added when a complete
automaton is completed again (`complete_addsSink`).
-/

namespace RegularLanguages.Automaton

/-- `C` is `D` with one state more, a sink. Nothing ends there, and it has a name that `D` does not show.
Edges that `D` has stay, and where it has none on a symbol, as on the sink itself, one leads to the sink. -/
structure ExtendsBySink (C D : Automaton) : Prop where
  size_eq : C.size = D.size + 1
  name_eq {q : State} : q < D.size → C.name q = D.name q
  name_ne {q : State} : q < D.size → (C.name D.size).text ≠ (D.name q).text
  alphabet_eq : C.alphabet = D.alphabet
  initial_eq : C.initial = D.initial
  finals_eq : C.finals = D.finals
  not_final : D.size ∉ C.finals
  target_iff {q r : State} {l : Label} : r ∈ C.targets q l ↔ r ∈ D.targets q l ∨
    r = D.size ∧ q ≤ D.size ∧ ∃ x ∈ D.alphabet, l = .symbol x ∧ ∀ t, t ∉ D.targets q l

variable {A C D : Automaton} {p q r : State} {s : SortedSet State} {w : List Char}

/-! ### The sink -/

theorem missing_eq_nil_iff (hA : A.WellFormed) : A.missing = [] ↔ A.Total := by
  rw [List.eq_nil_iff_forall_not_mem]
  constructor
  · intro h q hq x hx
    by_contra hno
    exact h _ (hA.mem_missing_iff.2 ⟨hq, hx, not_exists.1 hno⟩)
  · rintro h ⟨q, l⟩ hm
    obtain ⟨x, -, -, -, rfl⟩ := mem_missing.1 hm
    obtain ⟨hq, hx, hno⟩ := hA.mem_missing_iff.1 hm
    obtain ⟨r, hr⟩ := h q hq x hx
    exact hno r hr

theorem name_addSink (h : A.missing ≠ []) (hq : q < A.size) : A.addSink.name q = A.name q := by
  rw [name, name, names_addSink h, Array.getElem?_push_lt hq, Array.getElem?_eq_getElem hq]

theorem name_size_addSink (h : A.missing ≠ []) : A.addSink.name A.size = A.unusedName := by
  rw [name, names_addSink h, size, Array.getElem?_push_size, Option.getD_some]

theorem extendsBySink_addSink (hA : A.WellFormed) (h : A.missing ≠ []) : A.addSink.ExtendsBySink A where
  size_eq := size_addSink h
  name_eq := name_addSink h
  name_ne {q} hq htext := by
    rw [name_size_addSink h] at htext
    have hshown := isState_iff.2 ⟨_, name_mem_names hq, htext.symm⟩
    rw [isState_unusedName] at hshown
    cases hshown
  alphabet_eq := alphabet_addSink
  initial_eq := initial_addSink
  finals_eq := finals_addSink
  not_final hfinal := by
    rw [finals_addSink] at hfinal
    exact absurd (hA.final_lt hfinal) (Nat.lt_irrefl _)
  target_iff {q r l} := by
    rw [mem_targets_addSink h]
    refine or_congr_right (and_congr_right fun _ => ?_)
    constructor
    · rintro (⟨rfl, x, hx, rfl⟩ | hm)
      · exact ⟨Nat.le_refl _, x, hx, rfl, fun t ht => Nat.lt_irrefl _ (hA.source_lt ht)⟩
      · obtain ⟨x, hx, hq, -, rfl⟩ := mem_missing.1 hm
        exact ⟨Nat.le_of_lt hq, x, hx, rfl, fun _ => not_mem_targets_of_mem_missing hA hm⟩
    · rintro ⟨hq, x, hx, rfl, hno⟩
      rcases Nat.lt_or_eq_of_le hq with hq | rfl
      · exact .inr (hA.mem_missing_iff.2 ⟨hq, hx, hno⟩)
      · exact .inl ⟨rfl, x, hx, rfl⟩

/-- The sink is reached, as some edge is missing. -/
theorem exists_path_addSink (hreach : ∀ q < A.size, ∃ w, A.Path p w q) :
    ∀ q < A.addSink.size, ∃ w, A.addSink.Path p w q := by
  by_cases h : A.missing = []
  · rwa [addSink_of_missing_nil h]
  intro q hq
  rw [size_addSink h] at hq
  rcases Nat.lt_succ_iff_lt_or_eq.1 hq with hq | rfl
  · obtain ⟨w, hw⟩ := hreach q hq
    exact ⟨w, hw.addSink⟩
  · obtain ⟨⟨t, l⟩, hm⟩ := List.exists_mem_of_ne_nil _ h
    obtain ⟨x, hx, ht, -, rfl⟩ := mem_missing.1 hm
    obtain ⟨w, hw⟩ := hreach t ht
    exact ⟨w ++ [x.char], hw.addSink.trans <|
      .edge_symbol (alphabet_addSink.symm ▸ hx) ((mem_targets_addSink h).2 (.inr ⟨rfl, .inr hm⟩))⟩

/-! ### Sets of one state -/

/-- Where a state has an edge on a symbol, the set of it has one too. -/
theorem Total.subsetAutomaton (hT : A.Total) (hA : A.WellFormed) (hF : A.Functional) (hp : p < A.size) :
    (A.subsetAutomaton p).Total := by
  intro i hi x hx
  obtain ⟨s, hs⟩ := (MoveSystem.lt_size_toAutomaton _ _).1 hi
  obtain ⟨k, q, hk, -, rfl⟩ := exists_subsetPlace_eq hA hF hp hs
  obtain ⟨hq, hreached⟩ := of_kept hk
  obtain ⟨w, hw⟩ := hA.mem_reach.1 hreached
  obtain ⟨r, hr⟩ := hT q hq x hx
  -- the target is reached too, so there is a state for the set of it
  obtain ⟨m, hm⟩ := exists_kept (hA.target_lt hr) (hA.mem_reach.2 ⟨_, hw.trans (.edge_symbol hx hr)⟩)
  exact ⟨_, (mem_targets_subsetPlace hA hF hk hm).2 hr⟩

/-! ### Completing -/

theorem complete_eq (h : A.initial = some p) : A.complete = .ok (A.subsetAutomaton p).addSink := by
  rw [complete, determinize_eq h]
  rfl

theorem complete_of_no_initial (h : A.initial = none) : A.complete = .error .noInitialState := by
  rw [complete, determinize_of_no_initial h]
  rfl

theorem language_addSink (hA : A.WellFormed) : A.addSink.language = A.language := by
  cases hp : A.initial with
  | none => rw [language_eq_zero hp, language_eq_zero (initial_addSink.trans hp)]
  | some p => rw [language_eq hp, language_eq (initial_addSink.trans hp), languageFrom_addSink hA]

/-- Completing needs an initial state only. It gives the subset construction, if no edge is missing there,
and otherwise adds a sink to it. The result accepts the same words and is deterministic and complete, and
completing it again gives as many states. -/
theorem complete_addsSink (A : Automaton) :
    (A.initial = none → A.complete = .error .noInitialState) ∧
      ∀ p, A.initial = some p → ∃ D C, A.determinize = .ok D ∧ A.complete = .ok C ∧
        (∀ w, C.accepts w = A.accepts w) ∧ C.isDeterministic = true ∧ C.isComplete = true ∧
        (D.isComplete = true → C = D) ∧ (D.isComplete = false → C.ExtendsBySink D) ∧
        ∃ E, C.complete = .ok E ∧ E.size = C.size := by
  refine ⟨complete_of_no_initial, fun p hp => ?_⟩
  have hD := wellFormed_subsetAutomaton (A := A) (p := p)
  have hDF := functional_subsetAutomaton (A := A) (p := p)
  have hC := hD.addSink
  have hCF := hDF.addSink hD
  have hCT := total_addSink hD
  have hCi := initial_addSink.trans (initial_subsetAutomaton (A := A) (p := p))
  have hlt := hC.initial_lt hCi
  have hmissing := (isComplete_iff hD).trans (missing_eq_nil_iff hD).symm
  refine ⟨_, _, determinize_eq hp, complete_eq hp, ?_, hCF.isDeterministic, (isComplete_iff hC).2 hCT,
    fun h => addSink_of_missing_nil (hmissing.1 h), fun h => ?_, _, complete_eq hCi, ?_⟩
  · exact accepts_congr hCi hp ((language_addSink hD).trans (language_subsetAutomaton hp))
  · refine extendsBySink_addSink hD fun hnil => ?_
    rw [hmissing.2 hnil] at h
    cases h
  · have hagain := (missing_eq_nil_iff wellFormed_subsetAutomaton).2 (hCT.subsetAutomaton hC hCF hlt)
    rw [addSink_of_missing_nil hagain]
    exact size_subsetAutomaton hC hCF hlt (exists_path_addSink fun q => exists_path_subsetAutomaton)

/-- The only state of `stuck` has no edge on `a`. In `fork` edges are missing, but not from the sets of states
that are read. -/
theorem complete_addsSink_stuck :
    stuck.initial = some 0 ∧ (∃ D C, stuck.determinize = .ok D ∧ stuck.complete = .ok C ∧
      C.ExtendsBySink D ∧ C.accepts "" = .ok true ∧ C.accepts "a" = .ok false) ∧
    fork.initial = some 0 ∧ (∃ D, fork.determinize = .ok D ∧ fork.complete = .ok D) := by
  have hstuck : stuck.initial = some 0 := rfl
  have hfork : fork.initial = some 0 := rfl
  obtain ⟨D, C, hD, hC, haccepts, -, -, -, hsink, -⟩ := (complete_addsSink stuck).2 0 hstuck
  obtain ⟨D', C', hD', hC', -, -, -, heq, -, -⟩ := (complete_addsSink fork).2 0 hfork
  have hmissing : (stuck.subsetAutomaton 0).isComplete = false := by cbv
  have hnone : (fork.subsetAutomaton 0).isComplete = true := by cbv
  obtain rfl := Except.ok.inj ((determinize_eq hstuck).symm.trans hD)
  obtain rfl := Except.ok.inj ((determinize_eq hfork).symm.trans hD')
  rw [heq hnone] at hC'
  have hempty : stuck.accepts "" = .ok true := by cbv
  have hletter : stuck.accepts "a" = .ok false := by cbv
  exact ⟨hstuck, ⟨_, C, hD, hC, hsink hmissing, (haccepts _).trans hempty, (haccepts _).trans hletter⟩,
    hfork, _, hD', hC'⟩

end RegularLanguages.Automaton
