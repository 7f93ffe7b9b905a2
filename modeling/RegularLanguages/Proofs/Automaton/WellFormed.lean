import RegularLanguages.Proofs.Automaton.Path
/-!
# Well-formed automata

What every way of building an automaton keeps: the states that it mentions are among its states, the
symbols on its edges are in its alphabet, and where it stores targets there is one.
-/

namespace RegularLanguages.Automaton

/-- The automaton mentions no state and no symbol that it does not have. -/
structure WellFormed (A : Automaton) : Prop where
  initial_lt {q : State} : A.initial = some q → q < A.size
  final_lt {q : State} : q ∈ A.finals → q < A.size
  source_lt {p q : State} {l : Label} : q ∈ A.targets p l → p < A.size
  target_lt {p q : State} {l : Label} : q ∈ A.targets p l → q < A.size
  symbol_mem {p q : State} {x : Symbol} : q ∈ A.targets p (.symbol x) → x ∈ A.alphabet
  populated : A.transitions.Populated

variable {A : Automaton} {p q : State} {l : Label} {w : List Char}

theorem mem_states : q ∈ A.states ↔ q < A.size := List.mem_range

theorem size_addState (A : Automaton) (n : StateName) (isFinal : Bool) :
    (A.addState n isFinal).size = A.size + 1 := Array.size_push n

theorem mem_targets_addEdges {es : List Edge} :
    q ∈ (A.addEdges es).targets p l ↔ (p, l, q) ∈ es ∨ q ∈ A.targets p l :=
  Transitions.mem_targets_addEdges

namespace WellFormed

theorem empty (alphabet : SortedSet Symbol) : (Automaton.empty alphabet).WellFormed where
  initial_lt h := by cases h
  final_lt h := absurd h (SortedSet.not_mem_empty _)
  source_lt h := absurd h (SortedSet.not_mem_empty _)
  target_lt h := absurd h (SortedSet.not_mem_empty _)
  symbol_mem h := absurd h (SortedSet.not_mem_empty _)
  populated := Transitions.populated_empty

/-- An automaton whose transitions are a list of edges is well formed if every edge of the list fits. -/
theorem of_edges {es : List Edge} (ht : A.transitions = .ofEdges es)
    (hi : ∀ q, A.initial = some q → q < A.size) (hf : ∀ q ∈ A.finals, q < A.size)
    (he : ∀ p l q, (p, l, q) ∈ es → p < A.size ∧ q < A.size)
    (hs : ∀ p x q, (p, .symbol x, q) ∈ es → x ∈ A.alphabet) : A.WellFormed := by
  have hmem : ∀ {p l q}, q ∈ A.targets p l ↔ (p, l, q) ∈ es := by
    intro p l q
    rw [targets, ht, Transitions.mem_targets_ofEdges]
  refine ⟨fun h => hi _ h, fun h => hf _ h, fun h => ?_, fun h => ?_, fun h => ?_, ?_⟩
  · exact (he _ _ _ (hmem.1 h)).1
  · exact (he _ _ _ (hmem.1 h)).2
  · exact hs _ _ _ (hmem.1 h)
  · rw [ht]; exact Transitions.populated_ofEdges es

theorem addSymbols (h : A.WellFormed) (extra : SortedSet Symbol) : (A.addSymbols extra).WellFormed :=
  ⟨h.initial_lt, h.final_lt, h.source_lt, h.target_lt,
    fun hq => SortedSet.mem_union.2 (.inr (h.symbol_mem hq)), h.populated⟩

theorem addState (h : A.WellFormed) (n : StateName) (isFinal : Bool) :
    (A.addState n isFinal).WellFormed := by
  have hlt : ∀ {q}, q < A.size → q < (A.addState n isFinal).size := by
    intro q hq
    rw [size_addState]
    exact Nat.lt_succ_of_lt hq
  refine ⟨fun hq => hlt (h.initial_lt hq), fun {q} hq => ?_, fun hq => hlt (h.source_lt hq),
    fun hq => hlt (h.target_lt hq), h.symbol_mem, h.populated⟩
  cases isFinal with
  | false => exact hlt (h.final_lt hq)
  | true =>
    rcases SortedSet.mem_insert.1 hq with rfl | hq
    · rw [size_addState]
      exact Nat.lt_succ_self _
    · exact hlt (h.final_lt hq)

theorem addEdges {es : List Edge} (h : A.WellFormed)
    (he : ∀ p l q, (p, l, q) ∈ es → p < A.size ∧ q < A.size)
    (hs : ∀ p x q, (p, .symbol x, q) ∈ es → x ∈ A.alphabet) : (A.addEdges es).WellFormed := by
  refine ⟨h.initial_lt, h.final_lt, fun hq => ?_, fun hq => ?_, fun hq => ?_, h.populated.addEdges es⟩
  · rcases mem_targets_addEdges.1 hq with hq | hq
    · exact (he _ _ _ hq).1
    · exact h.source_lt hq
  · rcases mem_targets_addEdges.1 hq with hq | hq
    · exact (he _ _ _ hq).2
    · exact h.target_lt hq
  · rcases mem_targets_addEdges.1 hq with hq | hq
    · exact hs _ _ _ hq
    · exact h.symbol_mem hq

theorem path_lt (hA : A.WellFormed) (h : A.Path p w q) (hp : p < A.size) : q < A.size := by
  induction h with
  | nil _ => exact hp
  | epsilon he _ ih => exact ih (hA.target_lt he)
  | symbol _ he _ ih => exact ih (hA.target_lt he)

/-- A character that some automaton reads on an edge of this one is read in this one as well. -/
theorem symbol?_of_mem (hA : A.WellFormed) {B : Automaton} {c : Char} {x : Symbol}
    (hc : B.symbol? c = some x) (h : q ∈ A.targets p (.symbol x)) : A.symbol? c = some x :=
  symbol?_eq_some.2 ⟨(symbol?_eq_some.1 hc).1, hA.symbol_mem h⟩

/-- One edge, whatever its label, is a path. -/
theorem exists_path_edge (hA : A.WellFormed) {l : Label} (h : q ∈ A.targets p l) :
    ∃ w, A.Path p w q := by
  cases l with
  | epsilon => exact ⟨[], .edge_epsilon h⟩
  | symbol x => exact ⟨[x.char], .edge_symbol (hA.symbol_mem h) h⟩

end WellFormed

end RegularLanguages.Automaton
