import RegularLanguages.MoveSystem
/-!
# The subset construction

Reading a word, an automaton moves between sets of states; those that it can be in are the states
of an equivalent deterministic automaton.
-/

namespace RegularLanguages.Automaton

variable (A : Automaton)

theorem closure_subset {s : SortedSet State} {q : State} (h : q ∈ A.closure s) :
    q ∈ s ∨ q ∈ A.edges.map (·.2.2) := by
  obtain ⟨p, hp, hr⟩ := mem_explore.1 (SortedSet.mem_ofList.1 h)
  cases hr with
  | refl => exact .inl hp
  | step _ hq => exact .inr (List.mem_map.2 ⟨_, Transitions.mem_edges.2 hq, rfl⟩)

theorem step_subset {s : SortedSet State} {x : Symbol} {q : State} (h : q ∈ A.step s x) :
    q ∈ A.edges.map (·.2.2) := by
  rcases A.closure_subset h with h | h
  · obtain ⟨p, _, hq⟩ := SortedSet.mem_flatMap.1 h
    exact List.mem_map.2 ⟨_, Transitions.mem_edges.2 hq, rfl⟩
  · exact h

/-- The sets of states that reading moves between, the empty one left out. -/
def subsets (start : SortedSet State) : MoveSystem (SortedSet State) where
  alphabet := A.alphabet
  start := start
  move s x := let t := A.step s x; if t.isEmpty then none else some t
  isFinal := A.meetsFinal
  finite := ⟨SortedSet.subsets (A.edges.map (·.2.2)), fun s x t h => by
    simp only at h
    split at h
    · simp at h
    · rw [← Option.some.inj h]
      exact SortedSet.mem_subsets fun q hq => A.step_subset hq⟩

/-- An equivalent deterministic automaton. Each state is named for the set that it stands for. -/
def determinize : Except Error Automaton :=
  match A.initial with
  | some q => .ok ((A.subsets (A.closure (.singleton q))).toAutomaton fun _ s => A.nameOfSet s)
  | none => .error .noInitialState

end RegularLanguages.Automaton
