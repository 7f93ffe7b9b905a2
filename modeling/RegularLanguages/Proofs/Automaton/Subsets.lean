import RegularLanguages.Automaton.Subsets
import RegularLanguages.Proofs.Automaton.Draft
import RegularLanguages.Proofs.MoveSystem
/-!
# The subset construction

The moves between sets of states follow the sets that reading keeps (`run_subsets`), so the automaton
of the sets accepts what the given automaton accepts. Its states are those sets, one for each
(`standsFor_subsetAutomaton`), so it has at most as many as there are sets of states.
-/

namespace RegularLanguages.Automaton

/-- The automaton of the sets of states that reading from `p` moves between. -/
def subsetAutomaton (A : Automaton) (p : State) : Automaton :=
  (A.subsets (A.closure (.singleton p))).toAutomaton fun _ s => A.nameOfSet s

/-- Reading some word over the alphabet from `p` leads to the set of states `s`, which is not empty. -/
def LeadsTo (A : Automaton) (p : State) (s : SortedSet State) : Prop :=
  (∃ q, q ∈ s) ∧ ∃ w, (∀ c ∈ w, (A.symbol? c).isSome) ∧ A.after (A.closure (.singleton p)) w = s

/-- The states of `D` stand for the sets of states that reading from `p` leads to in `A`, state `i` for
the set at place `i`: it is named for the set, it is final if some state of the set is, and the words
that lead to it are those that lead to the set. -/
structure StandsFor (D A : Automaton) (p : State) (sets : List (SortedSet State)) : Prop where
  nodup : sets.Nodup
  size_eq : D.size = sets.length
  mem_iff {s : SortedSet State} : s ∈ sets ↔ A.LeadsTo p s
  closed {s : SortedSet State} : s ∈ sets → A.Closed s
  name_eq {i : State} {s : SortedSet State} : sets[i]? = some s → D.name i = A.nameOfSet s
  final_iff {i : State} {s : SortedSet State} :
    sets[i]? = some s → (i ∈ D.finals ↔ ∃ q ∈ s, q ∈ A.finals)
  path_iff {i : State} {s : SortedSet State} {w : List Char} :
    sets[i]? = some s → (D.Path 0 w i ↔ A.after (A.closure (.singleton p)) w = s)

variable {A D : Automaton} {p q : State} {s : SortedSet State} {w : List Char}

theorem determinize_eq (h : A.initial = some p) : A.determinize = .ok (A.subsetAutomaton p) := by
  rw [determinize, h]
  rfl

theorem determinize_of_no_initial (h : A.initial = none) :
    A.determinize = .error .noInitialState := by
  rw [determinize, h]

theorem not_mem_after_of_empty {s : SortedSet State} (hs : ∀ q, q ∉ s) (w : List Char) (q : State) :
    q ∉ A.after s w := by
  intro h
  obtain ⟨r, hr, -⟩ := (mem_after fun r hr => absurd hr (hs r)).1 h
  exact hs r hr

/-- Moving between sets of states is reading, as long as there is a state left. -/
theorem run_subsets (start : SortedSet State) {s t : SortedSet State} {w : List Char}
    (hs : ∃ q, q ∈ s) : (A.subsets start).run s w = some t ↔ A.after s w = t ∧ ∃ q, q ∈ t := by
  induction w generalizing s with
  | nil =>
    rw [MoveSystem.run, after, Option.some.injEq]
    constructor
    · rintro rfl
      exact ⟨rfl, hs⟩
    · intro h
      exact h.1
  | cons c w ih =>
    have hsym : (A.subsets start).symbol? c = A.symbol? c := rfl
    rw [MoveSystem.run, after, hsym]
    cases A.symbol? c with
    | none =>
      constructor
      · intro h; cases h
      · rintro ⟨rfl, q, hq⟩
        exact absurd hq (SortedSet.not_mem_empty q)
    | some x =>
      rw [Option.bind_some]
      have hmove : (A.subsets start).move s x =
          if (A.step s x).isEmpty then none else some (A.step s x) := rfl
      by_cases he : (A.step s x).isEmpty
      · rw [hmove, if_pos he]
        constructor
        · intro h; cases h
        rintro ⟨rfl, q, hq⟩
        exact absurd hq (not_mem_after_of_empty (SortedSet.isEmpty_iff.1 he) w q)
      · rw [hmove, if_neg he, Option.bind_some]
        have hne : ∃ q, q ∈ A.step s x := by
          by_contra hno
          exact he (SortedSet.isEmpty_iff.2 fun q hq => hno ⟨q, hq⟩)
        exact ih hne

theorem functional_subsetAutomaton : (A.subsetAutomaton p).Functional :=
  MoveSystem.functional_toAutomaton _ _

theorem wellFormed_subsetAutomaton : (A.subsetAutomaton p).WellFormed :=
  MoveSystem.wellFormed_toAutomaton _ _

theorem initial_subsetAutomaton : (A.subsetAutomaton p).initial = some 0 := rfl

theorem alphabet_subsetAutomaton : (A.subsetAutomaton p).alphabet = A.alphabet := rfl

theorem exists_path_subsetAutomaton {i : State} (h : i < (A.subsetAutomaton p).size) :
    ∃ w, (A.subsetAutomaton p).Path 0 w i :=
  MoveSystem.exists_path _ _ h

theorem exists_mem_closure_singleton (A : Automaton) (p : State) :
    ∃ q, q ∈ A.closure (.singleton p) :=
  ⟨p, subset_closure (SortedSet.mem_singleton.2 rfl)⟩

theorem language_subsetAutomaton (h : A.initial = some p) :
    (A.subsetAutomaton p).language = A.language := by
  ext w
  have hne := A.exists_mem_closure_singleton p
  rw [subsetAutomaton, MoveSystem.mem_language_toAutomaton, mem_language, accepts_of_initial h,
    String.toList_ofList, Except.ok.injEq, acceptsFrom_eq]
  constructor
  · rintro ⟨t, ht, hf⟩
    obtain ⟨rfl, -⟩ := (run_subsets _ hne).1 ht
    exact hf
  · intro hf
    obtain ⟨q, hq, -⟩ := meetsFinal_iff.1 hf
    exact ⟨_, (run_subsets _ hne).2 ⟨rfl, q, hq⟩, hf⟩

/-! ### States stand for sets of states -/

theorem symbol?_isSome_of_mem_after (hs : A.Closed s) (h : q ∈ A.after s w) :
    ∀ c ∈ w, (A.symbol? c).isSome := by
  obtain ⟨p, -, hp⟩ := (mem_after hs).1 h
  exact hp.symbol?_isSome

theorem mem_reachable_subsets :
    s ∈ (A.subsets (A.closure (.singleton p))).reachable ↔ A.LeadsTo p s := by
  rw [MoveSystem.mem_reachable]
  show (∃ w, (A.subsets _).run (A.closure (.singleton p)) w = some s) ↔ _
  simp only [run_subsets _ (A.exists_mem_closure_singleton p)]
  constructor
  · rintro ⟨w, rfl, q, hq⟩
    exact ⟨⟨q, hq⟩, w, symbol?_isSome_of_mem_after (closed_closure _) hq, rfl⟩
  · rintro ⟨hs, w, -, hw⟩
    exact ⟨w, hw, hs⟩

theorem standsFor_subsetAutomaton :
    (A.subsetAutomaton p).StandsFor A p (A.subsets (A.closure (.singleton p))).reachable where
  nodup := MoveSystem.nodup_reachable _
  size_eq := MoveSystem.size_toAutomaton _ _
  mem_iff := mem_reachable_subsets
  closed h := by
    obtain ⟨-, w, -, rfl⟩ := mem_reachable_subsets.1 h
    exact closed_after (closed_closure _) w
  name_eq h := MoveSystem.name_toAutomaton _ _ h
  final_iff h := by
    rw [subsetAutomaton, MoveSystem.mem_finals, h]
    simp only [Option.some.injEq, exists_eq_left']
    exact meetsFinal_iff
  path_iff {i s w} h := by
    obtain ⟨hne, -⟩ := mem_reachable_subsets.1 (List.mem_of_getElem? h)
    rw [subsetAutomaton, MoveSystem.path_iff _ _ (MoveSystem.getElem?_zero_reachable _), h]
    show (∃ t, (A.subsets _).run (A.closure (.singleton p)) w = some t ∧ some s = some t) ↔ _
    simp only [run_subsets _ (A.exists_mem_closure_singleton p), Option.some.injEq]
    constructor
    · rintro ⟨t, ⟨ht, -⟩, rfl⟩
      exact ht
    · intro hs
      exact ⟨s, ⟨hs, hne⟩, rfl⟩

theorem Functional.mem_after_singleton (hF : A.Functional) :
    q ∈ A.after (A.closure (.singleton p)) w ↔ A.Path p w q := by
  rw [mem_after (closed_closure _), hF.closure_singleton]
  simp only [SortedSet.mem_singleton, exists_eq_left]

/-- Reading leads to the sets of one state that a path leads to. -/
theorem Functional.leadsTo_iff (hF : A.Functional) :
    A.LeadsTo p s ↔ ∃ q w, A.Path p w q ∧ s = .singleton q := by
  constructor
  · rintro ⟨⟨q, hq⟩, w, -, rfl⟩
    have hw := hF.mem_after_singleton.1 hq
    refine ⟨q, w, hw, SortedSet.ext fun r => ?_⟩
    rw [hF.mem_after_singleton, SortedSet.mem_singleton]
    exact ⟨fun hr => hF.path_unique hr hw, fun hr => hr ▸ hw⟩
  · rintro ⟨q, w, hw, rfl⟩
    refine ⟨⟨q, SortedSet.mem_singleton.2 rfl⟩, w, hw.symbol?_isSome, SortedSet.ext fun r => ?_⟩
    rw [hF.mem_after_singleton, SortedSet.mem_singleton]
    exact ⟨fun hr => hF.path_unique hr hw, fun hr => hr ▸ hw⟩

theorem LeadsTo.lt_size (hA : A.WellFormed) (hp : p < A.size) (h : A.LeadsTo p s) :
    ∀ q ∈ s, q < A.size := by
  obtain ⟨-, w, -, rfl⟩ := h
  intro q hq
  obtain ⟨r, hr, hrq⟩ := (mem_after (closed_closure _)).1 hq
  obtain ⟨p', hp', hpr⟩ := mem_closure.1 hr
  obtain rfl := SortedSet.mem_singleton.1 hp'
  exact hA.path_lt (hpr.trans hrq) hp

theorem length_subsets {α : Type} [Ord α] [Std.TransOrd α] [Std.LawfulEqOrd α] (l : List α) :
    (SortedSet.subsets l).length = 2 ^ l.length := by
  induction l with
  | nil => rfl
  | cons x l ih =>
    rw [SortedSet.subsets, List.length_append, List.length_map, ih, List.length_cons, Nat.pow_succ]
    omega

theorem StandsFor.size_le {sets : List (SortedSet State)} (h : D.StandsFor A p sets)
    (hA : A.WellFormed) (hp : p < A.size) : D.size ≤ 2 ^ A.size := by
  have hsub : sets ⊆ SortedSet.subsets A.states := fun s hs =>
    SortedSet.mem_subsets fun q hq => mem_states.2 ((h.mem_iff.1 hs).lt_size hA hp q hq)
  calc D.size = sets.length := h.size_eq
    _ ≤ (SortedSet.subsets A.states).length := h.nodup.length_le_of_subset hsub
    _ = 2 ^ A.size := by rw [length_subsets, states, List.length_range]

/-- The subset construction needs an initial state only. It gives a deterministic automaton for the
same words, over the same alphabet and without edges on the empty word, whose states stand for the
sets of states that reading keeps. -/
theorem determinize_standsFor (A : Automaton) :
    (A.initial = none → A.determinize = .error .noInitialState) ∧
      ∀ p, A.initial = some p → ∃ D sets, A.determinize = .ok D ∧ D.StandsFor A p sets ∧
        D.initial = some 0 ∧ (∀ i < D.size, ∃ w, D.Path 0 w i) ∧ D.isDeterministic = true ∧
        D.hasEpsilon = false ∧ D.alphabet = A.alphabet ∧ (∀ w, D.accepts w = A.accepts w) ∧
        (A.WellFormed → D.size ≤ 2 ^ A.size) := by
  refine ⟨determinize_of_no_initial, fun p hp => ?_⟩
  have hstands := standsFor_subsetAutomaton (A := A) (p := p)
  have hF := functional_subsetAutomaton (A := A) (p := p)
  have hW := wellFormed_subsetAutomaton (A := A) (p := p)
  refine ⟨_, _, determinize_eq hp, hstands, initial_subsetAutomaton, fun i hi => ?_,
    hF.isDeterministic, hF.hasEpsilon hW.populated, alphabet_subsetAutomaton, ?_, fun hA => ?_⟩
  · exact exists_path_subsetAutomaton hi
  · exact accepts_congr initial_subsetAutomaton hp (language_subsetAutomaton hp)
  · exact hstands.size_le hA (hA.initial_lt hp)

/-- From its initial state it has two ways to read `a`, and an edge on the empty word. -/
def fork : Automaton :=
  (Draft.empty.requests [.symbol 'a', .state "q0" true false, .state "q1" false true,
    .state "q2" false false, .edge "q0" 'a' "q1", .edge "q0" 'a' "q2", .edge "q2" '&' "q0"]).automaton

theorem determinize_standsFor_fork :
    fork.initial = some 0 ∧ fork.WellFormed ∧ (∃ D sets, fork.determinize = .ok D ∧
      D.StandsFor fork 0 sets ∧ D.size ≤ 2 ^ 3 ∧ ∀ w, D.accepts w = fork.accepts w) ∧
    (empty ∅).initial = none ∧ (empty ∅).determinize = .error .noInitialState := by
  have hi : fork.initial = some 0 := by decide
  have hsize : fork.size = 3 := by decide
  have hW : fork.WellFormed := Draft.wellFormed_requests _
  obtain ⟨D, sets, hD, hstands, -, -, -, -, -, hacc, hle⟩ := (determinize_standsFor fork).2 0 hi
  refine ⟨hi, hW, ⟨D, sets, hD, hstands, hsize ▸ hle hW, hacc⟩, rfl, ?_⟩
  exact (determinize_standsFor (empty ∅)).1 rfl

end RegularLanguages.Automaton
