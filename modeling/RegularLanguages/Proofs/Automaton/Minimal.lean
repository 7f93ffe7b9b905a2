import RegularLanguages.Proofs.Automaton.Classes
import RegularLanguages.Proofs.Automaton.Deterministic
import RegularLanguages.Proofs.Automaton.Induced
import RegularLanguages.Proofs.Automaton.Subsets
/-!
# Minimal automata

In a trim functional automaton the languages of the states are the residual languages that are not
empty (`residuals_eq_of_trim`), and merging classes leaves one state for each of them. No
deterministic automaton for the language can do with fewer states.
-/

namespace RegularLanguages.Automaton

variable {A : Automaton} {p q : State}

theorem Functional.leftQuotient_eq (hF : A.Functional) (hp : A.initial = some p) {w : List Char}
    (hw : A.Path p w q) : A.language.leftQuotient w = A.languageFrom q := by
  ext v
  rw [mem_leftQuotient_iff hp]
  constructor
  · rintro ⟨r, hr, hv⟩
    rwa [hF.path_unique hw hr]
  · intro hv
    exact ⟨q, hw, hv⟩

/-- The states of a trim functional automaton stand for the residual languages. -/
theorem residuals_eq_of_trim (hA : A.WellFormed) (hF : A.Functional) (hT : A.Trim) :
    residuals A.language = A.languageFrom '' {q | q < A.size} := by
  refine Set.Subset.antisymm (residuals_subset hA hF.isDeterministic) ?_
  rintro _ ⟨q, hq, rfl⟩
  obtain ⟨p, w, hp, hw⟩ := hT.reached hq
  exact mem_residuals.2 ⟨⟨w, hF.leftQuotient_eq hp hw⟩, hT.live hq⟩

/-- Every class has a leader and no two leaders have one language. -/
theorem bijOn_languageFrom_quotient (hA : A.WellFormed) (hF : A.Functional) :
    Set.BijOn A.quotient.languageFrom {i | i < A.quotient.size}
      (A.languageFrom '' {q | q < A.size}) := by
  have hlt : ∀ {q}, q < A.size → q < A.size + 1 := fun h => Nat.lt_succ_of_lt h
  refine ⟨fun i hi => ?_, fun i hi j hj h => ?_, ?_⟩
  · obtain ⟨p, hp⟩ := lt_size_quotient.1 hi
    rw [languageFrom_quotient hA hF hp]
    exact ⟨p, (mem_leaders.1 (List.mem_of_getElem? hp)).1, rfl⟩
  · obtain ⟨p, hp⟩ := lt_size_quotient.1 hi
    obtain ⟨q, hq⟩ := lt_size_quotient.1 hj
    obtain ⟨hps, hpl⟩ := mem_leaders.1 (List.mem_of_getElem? hp)
    obtain ⟨hqs, hql⟩ := mem_leaders.1 (List.mem_of_getElem? hq)
    rw [languageFrom_quotient hA hF hp, languageFrom_quotient hA hF hq,
      ← leader_classes_eq_iff hA hF (hlt hps) (hlt hqs), hpl, hql] at h
    exact leaders_inj hp (h ▸ hq)
  · rintro _ ⟨q, hq, rfl⟩
    obtain ⟨hled, heq⟩ := A.led_classes q (hlt hq)
    obtain ⟨i, hi⟩ := List.getElem?_of_mem (leader_mem_leaders hq)
    refine ⟨i, lt_size_quotient.2 ⟨_, hi⟩, ?_⟩
    rw [languageFrom_quotient hA hF hi]
    exact (leader_classes_eq_iff hA hF hled (hlt hq)).1 heq

theorem encard_languages (hA : A.WellFormed) (hF : A.Functional) :
    (A.languageFrom '' {q | q < A.size}).encard = A.quotient.size := by
  have hbij := bijOn_languageFrom_quotient hA hF
  rw [← hbij.image_eq, hbij.injOn.encard_image, encard_states]

theorem minimize_eq (hp : A.initial = some p) :
    ∃ B : Automaton, B.WellFormed ∧ B.Functional ∧ B.Trim ∧ B.language = A.language ∧
      (B.initial = none ↔ A.language = 0) ∧ A.minimize = .ok B.quotient := by
  have hD := wellFormed_subsetAutomaton (A := A) (p := p)
  have hDi := initial_subsetAutomaton (A := A) (p := p)
  obtain ⟨i, -, hi⟩ := hD.exists_initial_reachable hDi
  set R := (A.subsetAutomaton p).induce ((A.subsetAutomaton p).reach 0)
  have hR : R.WellFormed := hD.induce _
  have hRF : R.Functional := functional_subsetAutomaton.induce _
  have hRL : R.language = A.language := (hD.language_reachable hDi).trans (language_subsetAutomaton hp)
  have hF : R.livePart.Functional := hRF.induce _
  refine ⟨R.livePart, hR.induce _, hF, ?_, (hR.language_livePart hi).trans hRL, ?_, ?_⟩
  · exact hR.trim_livePart fun q hq => hD.reached_reachable hDi hq
  · rw [hR.initial_livePart hi, hRL]
  · have hmerge : R.livePart.mergeEquivalent = .ok R.livePart.quotient := if_pos hF.isDeterministic
    exact bind_eq_ok.2 ⟨_, determinize_eq hp, bind_eq_ok.2 ⟨R, reachablePart_eq hDi, hmerge⟩⟩

/-- Minimizing gives a deterministic automaton for the same words with one state for each residual
language that is not empty, and so a smallest one. -/
theorem minimize_smallest (A : Automaton) :
    (A.initial = none → A.minimize = .error .noInitialState) ∧
      (A.initial ≠ none → ∃ M, A.minimize = .ok M ∧ M.isDeterministic = true ∧
        M.hasEpsilon = false ∧ M.language = A.language ∧ (M.initial = none ↔ A.language = 0) ∧
        (residuals A.language).encard = M.size ∧
        ∀ B : Automaton, B.WellFormed → B.isDeterministic = true → B.language = A.language →
          M.size ≤ B.size) := by
  refine ⟨fun h => ?_, fun h => ?_⟩
  · rw [minimize, determinize_of_no_initial h]
    rfl
  · obtain ⟨p, hp⟩ := Option.ne_none_iff_exists'.1 h
    obtain ⟨B, hB, hF, hT, hL, hinit, hmin⟩ := minimize_eq hp
    have hQ := functional_quotient hB hF
    have hcard : (residuals A.language).encard = B.quotient.size := by
      rw [← hL, residuals_eq_of_trim hB hF hT, encard_languages hB hF]
    refine ⟨B.quotient, hmin, hQ.isDeterministic, hQ.hasEpsilon (wellFormed_quotient B).populated,
      (language_quotient hB hF).trans hL, ?_, hcard, fun C hC hd hCL => ?_⟩
    · rw [← hinit, initial_quotient]
      cases hi : B.initial with
      | none => simp
      | some q =>
        obtain ⟨i, hi'⟩ := exists_classOf (hB.initial_lt hi)
        simp [hi']
    · have hle := encard_residuals_le hC hd
      rw [hCL, hcard] at hle
      exact_mod_cast hle

/-- Three states in a circle are merged: one state accepts the same words. -/
theorem minimize_smallest_circle :
    (circle 3 ⟨'a', rfl⟩).initial ≠ none ∧ (circle 3 ⟨'a', rfl⟩).size = 3 ∧
      (circle 1 ⟨'a', rfl⟩).WellFormed ∧ (circle 1 ⟨'a', rfl⟩).isDeterministic = true ∧
      (circle 1 ⟨'a', rfl⟩).language = (circle 3 ⟨'a', rfl⟩).language ∧
      ∃ M, (circle 3 ⟨'a', rfl⟩).minimize = .ok M ∧ M.size ≤ 1 := by
  have hi : (circle 3 ⟨'a', rfl⟩).initial ≠ none := Option.some_ne_none 0
  have hB : (circle 1 ⟨'a', rfl⟩).WellFormed := wellFormed_circle Nat.one_pos
  have hd : (circle 1 ⟨'a', rfl⟩).isDeterministic = true := functional_circle.isDeterministic
  have hL := language_circle (x := ⟨'a', rfl⟩) Nat.one_pos (Nat.succ_pos 2)
  obtain ⟨M, hM, -, -, -, -, -, hle⟩ := (minimize_smallest (circle 3 ⟨'a', rfl⟩)).2 hi
  exact ⟨hi, size_circle, hB, hd, hL, M, hM, hle _ hB hd hL⟩

end RegularLanguages.Automaton
