import Mathlib
import RegularLanguages.Proofs.Automaton.Classes
import RegularLanguages.Proofs.Automaton.Deterministic
import RegularLanguages.Proofs.Automaton.Draft
/-!
# Merging with edges on the empty word

A deterministic automaton may have edges on the empty word, from a state to one other at most and to
itself. Merging follows the least of them. What it then accepts was accepted before, and nothing is
lost unless a state goes to itself instead of to a later state (`mergeEquivalent_accepts`).
-/

namespace RegularLanguages.Automaton

/-- No state with an edge to itself on the empty word has one to a later state. -/
def LoopsLast (A : Automaton) : Prop :=
  ∀ p q, p ∈ A.targets p .epsilon → q ∈ A.targets p .epsilon → q ≤ p

variable {A : Automaton} {p q : State}

theorem successor_le {l : Label} (h : q ∈ A.targets p l) : A.successor p l ≤ q := by
  obtain ⟨r, hr⟩ := SortedSet.min?_isSome h
  rw [successor, hr, Option.getD_some]
  rcases SortedSet.eq_or_min?_lt hr h with rfl | hlt
  · exact Nat.le_refl _
  · exact Nat.le_of_lt (Nat.compare_eq_lt.1 hlt)

theorem successor_mem (hA : A.WellFormed) {l : Label} (h : q ∈ A.targets p l) :
    A.successor p l ∈ A.targets p l :=
  successor_mem_targets (Nat.ne_of_lt (Nat.lt_of_le_of_lt (successor_le h) (hA.target_lt h)))

/-- Where loops are last, the least edges of a deterministic automaton lead wherever edges lead. -/
theorem LoopsLast.guided (hA : A.WellFormed) (hd : A.isDeterministic = true) (hL : A.LoopsLast) :
    A.Guided where
  epsilon {p q} h := by
    have hs := successor_mem hA h
    -- the state, its target and its least target are all reached on the empty word
    rcases SortedSet.eq_of_size_le_two (size_closure_le hd (hA.source_lt h))
      (mem_closure_singleton.2 (.nil p)) (mem_closure_singleton.2 (.edge_epsilon h))
      (mem_closure_singleton.2 (.edge_epsilon hs)) with hpq | hps | hqs
    · exact .inl hpq.symm
    · have hle : q ≤ p := hL p q (by rwa [← hps] at hs) h
      exact .inl (Nat.le_antisymm hle (hps ▸ successor_le h))
    · exact .inr hqs.symm
  symbol {p q x} h := by
    have hsize := (size_exits hd (hA.source_lt h) (hA.symbol_mem h) h).1
    exact SortedSet.size_le_one_iff.1 hsize _ (successor_mem hA h) _ h

theorem size_quotient_le : A.quotient.size ≤ A.size := by
  rw [size_quotient]
  exact (List.length_filter_le _ _).trans (Nat.le_of_eq List.length_range)

theorem initial_quotient_eq_none (hA : A.WellFormed) :
    A.quotient.initial = none ↔ A.initial = none := by
  rw [initial_quotient]
  cases hp : A.initial with
  | none => simp
  | some p =>
    obtain ⟨i, hi⟩ := exists_classOf (hA.initial_lt hp)
    simp [hi]

/-- Merging succeeds on every deterministic automaton, adds no state and keeps the initial one. It
accepts no further word, and where loops are last it answers every word as before. -/
theorem mergeEquivalent_accepts (hA : A.WellFormed) (hd : A.isDeterministic = true) :
    ∃ B, A.mergeEquivalent = .ok B ∧ B.size ≤ A.size ∧ (B.initial = none ↔ A.initial = none) ∧
      (∀ w, B.accepts w = .ok true → A.accepts w = .ok true) ∧
      (A.LoopsLast → ∀ w, B.accepts w = A.accepts w) := by
  refine ⟨A.quotient, if_pos hd, size_quotient_le, initial_quotient_eq_none hA, fun w hw => ?_,
    fun hL w => ?_⟩
  · obtain ⟨p, hp, hw⟩ := (mem_language_quotient hA).1 (accepts_eq_ok_true.1 hw)
    rw [accepts_eq_ok_true, language_eq hp]
    exact hw.mem_languageFrom hA
  · cases hp : A.initial with
    | none =>
      rw [accepts_of_no_initial hp, accepts_of_no_initial ((initial_quotient_eq_none hA).2 hp)]
    | some p =>
      have hq : A.quotient.initial ≠ none := fun h => by
        rw [(initial_quotient_eq_none hA).1 h] at hp
        cases hp
      obtain ⟨i, hi⟩ := Option.ne_none_iff_exists'.1 hq
      exact accepts_congr hi hp ((hL.guided hA hd).language_quotient hA) w

/-- An initial state `p` and a final state `q` in some order, with edges on the empty word from `p`
to both. -/
def loopAndExit (states : List Draft.Request) : Automaton :=
  (Draft.empty.requests (states ++ [.edge "p" '&' "p", .edge "p" '&' "q"])).automaton

def exitFirst : Automaton := loopAndExit [.state "q" false true, .state "p" true false]

def loopFirst : Automaton := loopAndExit [.state "p" true false, .state "q" false true]

theorem mergeEquivalent_accepts_exitFirst :
    exitFirst.WellFormed ∧ exitFirst.isDeterministic = true ∧ exitFirst.LoopsLast ∧
      ∃ B, exitFirst.mergeEquivalent = .ok B ∧ B.size ≤ exitFirst.size ∧
        B.accepts "" = .ok true := by
  have hA : exitFirst.WellFormed := Draft.wellFormed_requests _
  have hd : exitFirst.isDeterministic = true := by cbv
  have hL : exitFirst.LoopsLast := by
    intro p q hp hq
    have hedges : exitFirst.transitions.edges = [(1, .epsilon, 0), (1, .epsilon, 1)] := by cbv
    have hp := Transitions.mem_edges.2 hp
    have hq := Transitions.mem_edges.2 hq
    rw [hedges] at hp hq
    grind
  have hacc : exitFirst.accepts "" = .ok true := by cbv
  obtain ⟨B, hB, hle, -, -, hsame⟩ := mergeEquivalent_accepts hA hd
  exact ⟨hA, hd, hL, B, hB, hle, (hsame hL "").trans hacc⟩

/-- A loop before the exit hides it: the only accepted word is lost. -/
theorem mergeEquivalent_loses_word :
    loopFirst.WellFormed ∧ loopFirst.isDeterministic = true ∧ loopFirst.accepts "" = .ok true ∧
      ∃ B, loopFirst.mergeEquivalent = .ok B ∧ B.accepts "" = .ok false := by
  have hd : loopFirst.isDeterministic = true := by cbv
  have hacc : loopFirst.accepts "" = .ok true := by cbv
  have hlost : loopFirst.quotient.accepts "" = .ok false := by cbv
  exact ⟨Draft.wellFormed_requests _, hd, hacc, loopFirst.quotient, if_pos hd, hlost⟩

end RegularLanguages.Automaton
