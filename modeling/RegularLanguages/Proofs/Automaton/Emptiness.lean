import RegularLanguages.Proofs.Automaton.Equivalence
import RegularLanguages.Proofs.Automaton.Listing
import RegularLanguages.Proofs.Automaton.Minimal
/-!
# Ways to find that no word is accepted

Whether an automaton accepts a word can be found by a search forwards from its initial state, by one backwards
from its final states, by listing its words, or by minimizing it. Each of these decides whether its language is
empty, so they agree.
-/

namespace RegularLanguages.Automaton

variable {A : Automaton} {p : State}

theorem language_eq_zero_iff_accepts :
    A.language = 0 ↔ ∀ w : String, A.accepts w ≠ .ok true := by
  rw [eq_zero_iff_forall_notMem]
  simp only [ne_eq, accepts_eq_ok_true]
  constructor
  · intro h w
    exact h w.toList
  · intro h w hw
    exact h (String.ofList w) (by rwa [String.toList_ofList])

/-! ### Listing -/

theorem call_zero_eq_none_iff (hA : A.WellFormed) : A.call 0 = none ↔ A.language = 0 := by
  rw [call_eq_none_iff hA, Nat.cast_zero, nonpos_iff_eq_zero, Set.encard_eq_zero,
    Set.eq_empty_iff_forall_notMem, language_eq_zero_iff_accepts]
  rfl

/-- The first call of the queue returns nothing if and only if the first call of the listing does. -/
theorem next_firstLevel_iff (hA : A.WellFormed) : A.Next A.firstLevel none ↔ A.call 0 = none := by
  obtain ⟨queue, r, hafter, hnext, hcall⟩ := exists_queueAfter hA 0
  obtain rfl := QueueAfter.start.unique hafter
  rw [hcall, Option.map_eq_none_iff]
  constructor
  · intro hnone
    exact hnext.unique hnone
  · rintro rfl
    exact hnext

/-! ### The live part -/

theorem WellFormed.initial_livePart_eq_none_iff (hA : A.WellFormed) :
    A.livePart.initial = none ↔ A.language = 0 := by
  cases hp : A.initial with
  | some p => exact hA.initial_livePart hp
  | none => exact iff_of_true (congrArg (Option.bind · _) hp) (language_eq_zero hp)

/-! ### The minimized automaton -/

theorem Trim.size_eq_zero_iff (hT : A.Trim) (hA : A.WellFormed) : A.size = 0 ↔ A.initial = none := by
  constructor
  · intro hsize
    rw [Option.eq_none_iff_forall_ne_some]
    intro p hp
    exact Nat.not_lt_zero p (hsize ▸ hA.initial_lt hp)
  · intro hno
    by_contra hsize
    obtain ⟨p, w, hp, -⟩ := hT.reached (Nat.pos_of_ne_zero hsize)
    rw [hno] at hp
    cases hp

theorem size_quotient_eq_zero_iff (hA : A.WellFormed) (hF : A.Functional) :
    A.quotient.size = 0 ↔ A.size = 0 := by
  rw [← Nat.cast_eq_zero (R := ℕ∞), ← encard_languages hA hF, Set.encard_eq_zero, Set.image_eq_empty,
    Set.eq_empty_iff_forall_notMem]
  simp only [Set.mem_ofPred_eq, not_lt]
  exact ⟨fun h => Nat.le_zero.1 (h 0), fun h q => h ▸ Nat.zero_le q⟩

theorem exists_minimize_size_eq_zero_iff (hp : A.initial = some p) :
    ∃ M, A.minimize = .ok M ∧ (M.size = 0 ↔ A.language = 0) := by
  obtain ⟨B, hB, hF, hT, -, hinitial, hmin⟩ := minimize_eq hp
  exact ⟨_, hmin, ((size_quotient_eq_zero_iff hB hF).trans (hT.size_eq_zero_iff hB)).trans hinitial⟩

/-- All ways to find that no word is accepted agree: no final state is reached, no word is answered with yes,
the listing ends at its first call, no live state is initial, and nothing is left after minimizing. -/
theorem emptiness_agrees (hA : A.WellFormed) :
    (A.isEmpty = true ↔ ∀ w : String, A.accepts w ≠ .ok true) ∧
      (A.isEmpty = true ↔ A.call 0 = none) ∧
      (A.isEmpty = true ↔ A.Next A.firstLevel none) ∧
      (A.isEmpty = true ↔ A.livePart.initial = none) ∧
      (A.initial ≠ none → ∃ M, A.minimize = .ok M ∧ (A.isEmpty = true ↔ M.size = 0)) := by
  have hempty := isEmpty_iff hA
  have hcall := hempty.trans (call_zero_eq_none_iff hA).symm
  refine ⟨hempty.trans language_eq_zero_iff_accepts, hcall, hcall.trans (next_firstLevel_iff hA).symm,
    hempty.trans hA.initial_livePart_eq_none_iff.symm, fun h => ?_⟩
  obtain ⟨p, hp⟩ := Option.ne_none_iff_exists'.1 h
  obtain ⟨M, hM, hsize⟩ := exists_minimize_size_eq_zero_iff hp
  exact ⟨M, hM, hempty.trans hsize.symm⟩

/-- No final state can be reached: the one edge between the states leads from the final one to the other. -/
def cutOff : Automaton :=
  (Draft.empty.requests [.symbol 'a', .state "p" true false, .state "q" false true, .edge "p" '&' "p",
    .edge "q" 'a' "p"]).automaton

theorem emptiness_agrees_cutOff :
    cutOff.WellFormed ∧ cutOff.isEmpty = true ∧ (∀ w : String, cutOff.accepts w ≠ .ok true) ∧
      cutOff.call 0 = none ∧ cutOff.Next cutOff.firstLevel none ∧ cutOff.livePart.initial = none ∧
      cutOff.initial ≠ none ∧ ∃ M, cutOff.minimize = .ok M ∧ M.size = 0 := by
  have hA : cutOff.WellFormed := Draft.wellFormed_requests _
  have hempty : cutOff.isEmpty = true := by cbv
  have hi : cutOff.initial ≠ none := by decide
  obtain ⟨haccepts, hcall, hnext, hlive, hmin⟩ := emptiness_agrees hA
  obtain ⟨M, hM, hsize⟩ := hmin hi
  exact ⟨hA, hempty, haccepts.1 hempty, hcall.1 hempty, hnext.1 hempty, hlive.1 hempty, hi, M, hM,
    hsize.1 hempty⟩

end RegularLanguages.Automaton
