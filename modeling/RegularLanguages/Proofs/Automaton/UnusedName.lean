import Mathlib
import RegularLanguages.Proofs.Automaton.DistinctNames
/-!
# The name of a new state

The texts of numbered names are tried one after another, with no bound on how many (`Tries`). No two of
them are equal, so one of the first ones is shown by no state (`exists_isLeast_unshown`). There the trying
ends, at the least of them (`unusedName_least`).
-/

namespace RegularLanguages.Automaton

/-- The texts that states show. -/
def shown (A : Automaton) : Std.HashSet String := .ofList (A.names.toList.map StateName.text)

/-- The numbers whose texts no state shows. -/
def unshown (A : Automaton) : Set Nat := {k | ∀ n ∈ A.names, n.text ≠ "q" ++ toString k}

/-- From `i` on numbers are tried until the text of one is not taken. After so many candidates this gives
the plain name with that text. -/
inductive Tries (taken : Std.HashSet String) : Nat → Nat → StateName → Prop
  | found {i : Nat} (h : taken.contains ("q" ++ toString i) = false) :
      Tries taken i 1 (.atom ("q" ++ toString i))
  | next {i tried : Nat} {n : StateName} (h : taken.contains ("q" ++ toString i) = true)
      (hrest : Tries taken (i + 1) tried n) : Tries taken i (tried + 1) n

variable {A : Automaton} {taken : Std.HashSet String} {i k tried tried' : Nat} {m n : StateName}

/-! ### Texts that no state shows -/

theorem contains_shown (text : String) : A.shown.contains text = A.isState text := by
  rw [Bool.eq_iff_iff, shown, Std.HashSet.contains_ofList, List.contains_iff_mem, List.mem_map, isState_iff]
  simp only [Array.mem_toList_iff]

theorem contains_shown_eq_false_iff : A.shown.contains ("q" ++ toString k) = false ↔ k ∈ A.unshown := by
  rw [contains_shown, ← Bool.not_eq_true, isState_iff, unshown, Set.mem_ofPred_eq]
  simp only [not_exists, not_and]

theorem contains_shown_of_lt (hk : IsLeast A.unshown k) (hi : i < k) :
    A.shown.contains ("q" ++ toString i) = true := by
  rw [← Bool.not_eq_false, contains_shown_eq_false_iff]
  exact fun h => (hk.2 h).not_gt hi

theorem exists_isLeast_unshown (A : Automaton) : ∃ k ≤ A.size, IsLeast A.unshown k := by
  obtain ⟨j, hj, hfree⟩ := A.exists_numbered_not_shown
  rw [StateName.text_numbered, ← contains_shown, contains_shown_eq_false_iff] at hfree
  classical
  refine ⟨Nat.find ⟨j, hfree⟩, ?_, Nat.find_spec ⟨j, hfree⟩, fun i hi => Nat.find_min' _ hi⟩
  exact (Nat.find_min' _ hfree).trans (Nat.le_of_lt_succ (List.mem_range.1 hj))

theorem unusedName_eq (hk : IsLeast A.unshown k) (hle : k ≤ A.size) :
    A.unusedName = .atom ("q" ++ toString k) := by
  have hfind :
      (List.range (A.size + 1)).find? (fun j => !A.isState (StateName.numbered j).text) = some k := by
    simp only [StateName.text_numbered, ← contains_shown]
    refine List.find?_range_eq_some.2 ⟨?_, List.mem_range.2 (Nat.lt_succ_of_le hle), fun j hj => ?_⟩
    · rw [contains_shown_eq_false_iff.2 hk.1, Bool.not_false]
    · rw [contains_shown_of_lt hk hj, Bool.not_true, Bool.not_false]
  rw [unusedName, hfind, Option.getD_some, StateName.numbered]

/-! ### Trying one after another -/

theorem Tries.unique (h : Tries taken i tried n) (h' : Tries taken i tried' m) :
    tried = tried' ∧ n = m := by
  induction h generalizing tried' with
  | found hfree =>
    cases h' with
    | found => exact ⟨rfl, rfl⟩
    | next htaken => cases hfree.symm.trans htaken
  | next htaken _ ih =>
    cases h' with
    | found hfree => cases hfree.symm.trans htaken
    | next _ hrest =>
      obtain ⟨rfl, rfl⟩ := ih hrest
      exact ⟨rfl, rfl⟩

/-- The numbers whose texts are taken are passed, one at a time. -/
theorem tries_add {d : Nat} (hid : i + d = k)
    (htaken : ∀ j, i ≤ j → j < k → taken.contains ("q" ++ toString j) = true)
    (hfree : taken.contains ("q" ++ toString k) = false) :
    Tries taken i (d + 1) (.atom ("q" ++ toString k)) := by
  induction d generalizing i with
  | zero =>
    obtain rfl : i = k := hid
    exact .found hfree
  | succ d ih =>
    have hrest : ∀ j, i + 1 ≤ j → j < k → taken.contains ("q" ++ toString j) = true :=
      fun j hj => htaken j (Nat.le_of_succ_le hj)
    exact .next (htaken i le_rfl (by omega)) (ih (by omega) hrest)

theorem tries_shown (hk : IsLeast A.unshown k) :
    Tries A.shown 0 (k + 1) (.atom ("q" ++ toString k)) :=
  tries_add (Nat.zero_add k) (fun _ _ => contains_shown_of_lt hk) (contains_shown_eq_false_iff.2 hk.1)

/-- For every automaton the trying ends, after one more candidate than there are states at most. It gives
the plain name of the least number whose text no state shows. -/
theorem unusedName_least (A : Automaton) :
    ∃ k, IsLeast {j : Nat | ∀ n ∈ A.names, n.text ≠ "q" ++ toString j} k ∧
      A.unusedName = .atom ("q" ++ toString k) ∧ k + 1 ≤ A.size + 1 ∧
      ∀ tried n, Tries A.shown 0 tried n ↔ tried = k + 1 ∧ n = A.unusedName := by
  obtain ⟨k, hle, hk⟩ := A.exists_isLeast_unshown
  have hname := unusedName_eq hk hle
  have htries : Tries A.shown 0 (k + 1) A.unusedName := hname ▸ tries_shown hk
  refine ⟨k, hk, hname, Nat.succ_le_succ hle, fun tried n => ⟨fun h => h.unique htries, ?_⟩⟩
  rintro ⟨rfl, rfl⟩
  exact htries

end RegularLanguages.Automaton
