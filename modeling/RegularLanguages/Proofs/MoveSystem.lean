import RegularLanguages.MoveSystem
import RegularLanguages.Proofs.Automaton.Functional
import RegularLanguages.Proofs.Automaton.WellFormed
/-!
# Automata of move systems

The automaton of a move system reads a word as the system does: its state after a word is the
number of the configuration after it (`path_iff`). Every state is reached, since only reachable
configurations are numbered.
-/

namespace RegularLanguages.MoveSystem

variable {σ : Type} (M : MoveSystem σ)

def symbol? (c : Char) : Option Symbol := (Symbol.ofChar? c).filter (· ∈ M.alphabet)

/-- The configuration that reading a word leads to. -/
def run (x : σ) : List Char → Option σ
  | [] => some x
  | c :: cs => ((M.symbol? c).bind (M.move x)).bind (run · cs)

theorem run_append (x : σ) (v w : List Char) :
    M.run x (v ++ w) = (M.run x v).bind (M.run · w) := by
  induction v generalizing x with
  | nil => rfl
  | cons c v ih =>
    rw [List.cons_append, run, run]
    cases (M.symbol? c).bind (M.move x) with
    | none => rfl
    | some y => exact ih y

theorem mem_next {x y : σ} : y ∈ M.next x ↔ ∃ s ∈ M.alphabet, M.move x s = some y :=
  List.mem_filterMap

theorem symbol?_char {s : Symbol} (hs : s ∈ M.alphabet) : M.symbol? s.char = some s := by
  rw [symbol?, Symbol.ofChar?_char, Option.filter_some, if_pos (decide_eq_true hs)]

theorem reaches_iff {x y : σ} : Reaches M.next x y ↔ ∃ w, M.run x w = some y := by
  constructor
  · intro h
    induction h with
    | refl => exact ⟨[], rfl⟩
    | step _ hy ih =>
      obtain ⟨w, hw⟩ := ih
      obtain ⟨s, hs, hm⟩ := M.mem_next.1 hy
      refine ⟨w ++ [s.char], ?_⟩
      rw [run_append, hw, Option.bind_some, run, M.symbol?_char hs, Option.bind_some, hm]
      rfl
  · rintro ⟨w, hw⟩
    induction w generalizing x with
    | nil => obtain rfl := Option.some.inj hw; exact .refl
    | cons c w ih =>
      obtain ⟨z, hz, hw⟩ := Option.bind_eq_some_iff.1 hw
      obtain ⟨s, hs, hm⟩ := Option.bind_eq_some_iff.1 hz
      have hmem := (Automaton.symbol?_eq_some (A := .empty M.alphabet)).1 hs
      exact .head (M.mem_next.2 ⟨s, hmem.2, hm⟩) (ih hw)

variable [DecidableEq σ]

theorem nodup_reachable : M.reachable.Nodup := nodup_explore _ _ _

theorem mem_reachable {y : σ} : y ∈ M.reachable ↔ ∃ w, M.run M.start w = some y := by
  rw [reachable, mem_explore, ← reaches_iff]
  simp only [List.mem_singleton, exists_eq_left]

theorem getElem?_zero_reachable : M.reachable[0]? = some M.start := getElem?_zero_explore _ _ _

theorem idxOf?_reachable {x : σ} {i : Nat} :
    M.reachable.idxOf? x = some i ↔ M.reachable[i]? = some x :=
  idxOf?_eq_some_iff_of_nodup M.nodup_reachable

theorem mem_edges {i j : State} {l : Label} :
    (i, l, j) ∈ M.edges M.reachable ↔
      ∃ x s y, l = .symbol s ∧ M.reachable[i]? = some x ∧ s ∈ M.alphabet ∧ M.move x s = some y ∧
        M.reachable[j]? = some y := by
  simp only [edges, List.mem_flatMap, List.mem_filterMap, Prod.exists, Option.bind_eq_bind,
    Option.bind_eq_some_iff, Option.pure_def, Option.some.injEq, Prod.mk.injEq, idxOf?_reachable,
    List.mk_mem_zipIdx_iff_getElem?, SortedSet.mem_toList]
  constructor
  · rintro ⟨x, i, hx, s, hs, y, hy, j, hj, rfl, rfl, rfl⟩
    exact ⟨x, s, y, rfl, hx, hs, hy, hj⟩
  · rintro ⟨x, s, y, rfl, hx, hs, hy, hj⟩
    exact ⟨x, i, hx, s, hs, y, hy, j, hj, rfl, rfl, rfl⟩

/-! ### The automaton -/

variable (name : Nat → σ → StateName)

theorem size_toAutomaton : (M.toAutomaton name).size = M.reachable.length := by
  simp [toAutomaton, Automaton.size]

@[simp] theorem alphabet_toAutomaton : (M.toAutomaton name).alphabet = M.alphabet := rfl

@[simp] theorem initial_toAutomaton : (M.toAutomaton name).initial = some 0 := rfl

theorem symbol?_toAutomaton (c : Char) : (M.toAutomaton name).symbol? c = M.symbol? c := rfl

theorem lt_size_toAutomaton {i : State} :
    i < (M.toAutomaton name).size ↔ ∃ x, M.reachable[i]? = some x := by
  rw [size_toAutomaton, ← Option.isSome_iff_exists, isSome_getElem?]

theorem name_toAutomaton {i : State} {x : σ} (hx : M.reachable[i]? = some x) :
    (M.toAutomaton name).name i = name i x := by
  simp [Automaton.name, toAutomaton, hx]

theorem mem_targets {i j : State} {l : Label} :
    j ∈ (M.toAutomaton name).targets i l ↔
      ∃ x s y, l = .symbol s ∧ M.reachable[i]? = some x ∧ s ∈ M.alphabet ∧ M.move x s = some y ∧
        M.reachable[j]? = some y := by
  rw [← mem_edges]
  exact Transitions.mem_targets_ofEdges

theorem mem_finals {i : State} :
    i ∈ (M.toAutomaton name).finals ↔ ∃ x, M.reachable[i]? = some x ∧ M.isFinal x = true := by
  simp only [toAutomaton, SortedSet.mem_ofList, List.mem_filterMap, Prod.exists,
    List.mk_mem_zipIdx_iff_getElem?, Option.ite_none_right_eq_some, Option.some.injEq]
  constructor
  · rintro ⟨x, i, hx, hf, rfl⟩
    exact ⟨x, hx, hf⟩
  · rintro ⟨x, hx, hf⟩
    exact ⟨x, i, hx, hf, rfl⟩

theorem functional_toAutomaton : (M.toAutomaton name).Functional where
  no_epsilon h := by
    obtain ⟨_, _, _, hl, _⟩ := (M.mem_targets name).1 h
    cases hl
  unique h h' := by
    obtain ⟨x, s, y, hl, hx, -, hy, hj⟩ := (M.mem_targets name).1 h
    obtain ⟨x', s', y', hl', hx', -, hy', hj'⟩ := (M.mem_targets name).1 h'
    obtain rfl := Label.symbol.inj hl
    obtain rfl := Label.symbol.inj hl'
    obtain rfl : x = x' := Option.some.inj (hx.symm.trans hx')
    obtain rfl : y = y' := Option.some.inj (hy.symm.trans hy')
    have hq := M.idxOf?_reachable.2 hj
    exact Option.some.inj (hq.symm.trans (M.idxOf?_reachable.2 hj'))

theorem wellFormed_toAutomaton : (M.toAutomaton name).WellFormed := by
  refine .of_edges rfl ?_ ?_ ?_ ?_
  · intro q hq
    obtain rfl := Option.some.inj hq
    exact (M.lt_size_toAutomaton name).2 ⟨_, M.getElem?_zero_reachable⟩
  · intro q hq
    obtain ⟨x, hx, -⟩ := (M.mem_finals name).1 hq
    exact (M.lt_size_toAutomaton name).2 ⟨x, hx⟩
  · intro p l q h
    obtain ⟨x, s, y, -, hx, -, -, hy⟩ := M.mem_edges.1 h
    exact ⟨(M.lt_size_toAutomaton name).2 ⟨x, hx⟩, (M.lt_size_toAutomaton name).2 ⟨y, hy⟩⟩
  · intro p s q h
    obtain ⟨_, s', _, hl, -, hs, -, -⟩ := M.mem_edges.1 h
    obtain rfl := Label.symbol.inj hl
    exact hs

/-- The automaton reads a word as the system does. -/
theorem path_iff {i j : State} {x : σ} {w : List Char} (hx : M.reachable[i]? = some x) :
    (M.toAutomaton name).Path i w j ↔ ∃ y, M.run x w = some y ∧ M.reachable[j]? = some y := by
  induction w generalizing i x with
  | nil =>
    rw [(M.functional_toAutomaton name).path_nil]
    constructor
    · rintro rfl
      exact ⟨x, rfl, hx⟩
    · rintro ⟨y, hy, hj⟩
      obtain rfl := Option.some.inj hy
      have hi := M.idxOf?_reachable.2 hx
      exact Option.some.inj (hi.symm.trans (M.idxOf?_reachable.2 hj))
  | cons c w ih =>
    rw [(M.functional_toAutomaton name).path_cons, run]
    simp only [symbol?_toAutomaton, mem_targets]
    constructor
    · rintro ⟨s, k, hc, ⟨x', s', y, hl, hx', -, hm, hk⟩, hp⟩
      obtain rfl := Label.symbol.inj hl
      obtain rfl : x = x' := Option.some.inj (hx.symm.trans hx')
      rw [hc, Option.bind_some, hm, Option.bind_some]
      exact (ih hk).1 hp
    · rintro ⟨z, hz, hj⟩
      obtain ⟨y, hy, hz⟩ := Option.bind_eq_some_iff.1 hz
      obtain ⟨s, hc, hm⟩ := Option.bind_eq_some_iff.1 hy
      have hs : s ∈ M.alphabet := ((Automaton.symbol?_eq_some (A := .empty M.alphabet)).1 hc).2
      -- what a reachable configuration moves to is reachable, so it has a number
      obtain ⟨v, hv⟩ := M.mem_reachable.1 (List.mem_of_getElem? hx)
      have hyr : y ∈ M.reachable := M.mem_reachable.2 ⟨v ++ [c], by
        rw [run_append, hv, Option.bind_some, run, hy]; rfl⟩
      obtain ⟨k, hk⟩ := List.getElem?_of_mem hyr
      exact ⟨s, k, hc, ⟨x, s, y, rfl, hx, hs, hm, hk⟩, (ih hk).2 ⟨z, hz, hj⟩⟩

theorem mem_languageFrom_toAutomaton {i : State} {x : σ} {w : List Char}
    (hx : M.reachable[i]? = some x) :
    w ∈ (M.toAutomaton name).languageFrom i ↔ ∃ y, M.run x w = some y ∧ M.isFinal y = true := by
  rw [Automaton.mem_languageFrom]
  simp only [M.path_iff name hx, mem_finals]
  constructor
  · rintro ⟨j, ⟨y', hy', hf⟩, y, hy, hj⟩
    obtain rfl : y = y' := Option.some.inj (hj.symm.trans hy')
    exact ⟨y, hy, hf⟩
  · rintro ⟨y, hy, hf⟩
    obtain ⟨v, hv⟩ := M.mem_reachable.1 (List.mem_of_getElem? hx)
    have hyr : y ∈ M.reachable := M.mem_reachable.2 ⟨v ++ w, by
      rw [run_append, hv, Option.bind_some, hy]⟩
    obtain ⟨j, hj⟩ := List.getElem?_of_mem hyr
    exact ⟨j, ⟨y, hj, hf⟩, y, hy, hj⟩

/-- The automaton accepts the words that lead the system to a final configuration. -/
theorem mem_language_toAutomaton {w : List Char} :
    w ∈ (M.toAutomaton name).language ↔ ∃ y, M.run M.start w = some y ∧ M.isFinal y = true := by
  rw [Automaton.language_eq (M.initial_toAutomaton name)]
  exact M.mem_languageFrom_toAutomaton name M.getElem?_zero_reachable

theorem exists_path {i : State} (h : i < (M.toAutomaton name).size) :
    ∃ w, (M.toAutomaton name).Path 0 w i := by
  obtain ⟨x, hx⟩ := (M.lt_size_toAutomaton name).1 h
  obtain ⟨w, hw⟩ := M.mem_reachable.1 (List.mem_of_getElem? hx)
  exact ⟨w, (M.path_iff name M.getElem?_zero_reachable).2 ⟨x, hw, hx⟩⟩

end RegularLanguages.MoveSystem
