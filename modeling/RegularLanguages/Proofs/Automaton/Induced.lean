import RegularLanguages.Automaton.Reachable
import RegularLanguages.Proofs.Automaton.Functional
import RegularLanguages.Proofs.Automaton.WellFormed
/-!
# Reachable and live parts

A part of an automaton keeps the paths that stay within the kept states (`path_induce_iff`). The
reachable part loses no path from the initial state and the live part none to a final state, so
both accept what the whole accepts; one after the other they leave a trim automaton.
-/

namespace RegularLanguages.Automaton

/-- Every state is reached from the initial one, and some word leads from it to a final one. -/
structure Trim (A : Automaton) : Prop where
  reached {q : State} : q < A.size → ∃ p w, A.initial = some p ∧ A.Path p w q
  live {q : State} : q < A.size → ∃ w, w ∈ A.languageFrom q

/-- The states that a part keeps, in order; their places are the states of the part. -/
def kept (A : Automaton) (keep : SortedSet State) : List State := A.states.filter (· ∈ keep)

variable {A : Automaton} {p q r : State} {w : List Char} {keep : SortedSet State} {i j : Nat}

namespace WellFormed

theorem mem_reach (hA : A.WellFormed) : q ∈ A.reach p ↔ ∃ w, A.Path p w q := by
  rw [reach, SortedSet.mem_ofList, mem_explore]
  simp only [List.mem_singleton, exists_eq_left]
  constructor
  · intro h
    induction h with
    | refl => exact ⟨[], .nil p⟩
    | step _ he ih =>
      obtain ⟨v, hv⟩ := ih
      obtain ⟨l, hl⟩ := Transitions.mem_successors.1 he
      obtain ⟨w, hw⟩ := hA.exists_path_edge hl
      exact ⟨v ++ w, hv.trans hw⟩
  · rintro ⟨w, h⟩
    induction h with
    | nil _ => exact .refl
    | epsilon he _ ih => exact .head (Transitions.mem_successors.2 ⟨_, he⟩) ih
    | symbol _ he _ ih => exact .head (Transitions.mem_successors.2 ⟨_, he⟩) ih

theorem mem_sources {p q : State} : p ∈ sources A.edges q ↔ ∃ l, q ∈ A.targets p l := by
  simp only [sources, List.mem_filterMap, Option.ite_none_right_eq_some, Option.some.injEq, edges,
    Prod.exists]
  constructor
  · rintro ⟨p', l, q', he, rfl, rfl⟩
    exact ⟨l, Transitions.mem_edges.1 he⟩
  · rintro ⟨l, h⟩
    exact ⟨p, l, q, Transitions.mem_edges.2 h, rfl, rfl⟩

theorem mem_live (hA : A.WellFormed) : p ∈ A.live ↔ ∃ w, w ∈ A.languageFrom p := by
  rw [live, SortedSet.mem_ofList, mem_explore]
  simp only [mem_languageFrom]
  constructor
  · rintro ⟨f, hf, h⟩
    induction h with
    | refl => exact ⟨[], f, hf, .nil f⟩
    | step _ he ih =>
      obtain ⟨v, f', hf', hv⟩ := ih
      obtain ⟨l, hl⟩ := mem_sources.1 he
      obtain ⟨w, hw⟩ := hA.exists_path_edge hl
      exact ⟨w ++ v, f', hf', hw.trans hv⟩
  · rintro ⟨w, f, hf, h⟩
    refine ⟨f, hf, ?_⟩
    clear hf
    induction h with
    | nil _ => exact .refl
    | epsilon he _ ih => exact ih.step (mem_sources.2 ⟨_, he⟩)
    | symbol _ he _ ih => exact ih.step (mem_sources.2 ⟨_, he⟩)

end WellFormed

/-! ### Parts of an automaton -/

theorem mem_kept : q ∈ A.kept keep ↔ q < A.size ∧ q ∈ keep := by
  rw [kept, List.mem_filter, mem_states, decide_eq_true_iff]

theorem nodup_kept : (A.kept keep).Nodup := List.nodup_range.filter _

theorem idxOf?_kept : (A.kept keep).idxOf? q = some i ↔ (A.kept keep)[i]? = some q :=
  idxOf?_eq_some_iff_of_nodup nodup_kept

theorem kept_inj (hi : (A.kept keep)[i]? = some q) (hj : (A.kept keep)[j]? = some q) : i = j :=
  Option.some.inj ((idxOf?_kept.2 hi).symm.trans (idxOf?_kept.2 hj))

theorem exists_kept (hq : q < A.size) (hk : q ∈ keep) : ∃ i : Nat, (A.kept keep)[i]? = some q :=
  List.getElem?_of_mem (mem_kept.2 ⟨hq, hk⟩)

theorem of_kept (h : (A.kept keep)[i]? = some q) : q < A.size ∧ q ∈ keep :=
  mem_kept.1 (List.mem_of_getElem? h)

theorem size_induce : (A.induce keep).size = (A.kept keep).length := by
  simp [induce, size, kept]

theorem lt_size_induce : i < (A.induce keep).size ↔ ∃ q, (A.kept keep)[i]? = some q := by
  rw [size_induce, ← Option.isSome_iff_exists, isSome_getElem?]

theorem initial_induce :
    (A.induce keep).initial = some i ↔ ∃ q, A.initial = some q ∧ (A.kept keep)[i]? = some q := by
  change A.initial.bind (A.kept keep).idxOf? = some i ↔ _
  rw [Option.bind_eq_some_iff]
  simp only [idxOf?_kept]

theorem mem_edges_induce {l : Label} :
    (i, l, j) ∈ (A.edges.filterMap fun (s, l, d) => do
        return (← (A.kept keep).idxOf? s, l, ← (A.kept keep).idxOf? d) : List Edge) ↔
      ∃ p q, (A.kept keep)[i]? = some p ∧ (A.kept keep)[j]? = some q ∧ q ∈ A.targets p l := by
  simp only [List.mem_filterMap, Prod.exists, Option.bind_eq_bind, Option.bind_eq_some_iff,
    Option.pure_def, Option.some.injEq, Prod.mk.injEq, idxOf?_kept, edges]
  constructor
  · rintro ⟨p, l, q, he, i, hi, j, hj, rfl, rfl, rfl⟩
    exact ⟨p, q, hi, hj, Transitions.mem_edges.1 he⟩
  · rintro ⟨p, q, hi, hj, he⟩
    exact ⟨p, l, q, Transitions.mem_edges.2 he, i, hi, j, hj, rfl, rfl, rfl⟩

theorem mem_targets_induce {l : Label} :
    j ∈ (A.induce keep).targets i l ↔
      ∃ p q, (A.kept keep)[i]? = some p ∧ (A.kept keep)[j]? = some q ∧ q ∈ A.targets p l := by
  rw [← mem_edges_induce]
  exact Transitions.mem_targets_ofEdges

theorem mem_finals_induce :
    j ∈ (A.induce keep).finals ↔ ∃ q, (A.kept keep)[j]? = some q ∧ q ∈ A.finals := by
  change j ∈ SortedSet.ofList (A.finals.toList.filterMap (A.kept keep).idxOf?) ↔ _
  rw [SortedSet.mem_ofList, List.mem_filterMap]
  simp only [idxOf?_kept, SortedSet.mem_toList]
  exact exists_congr fun q => and_comm

theorem WellFormed.induce (hA : A.WellFormed) (keep : SortedSet State) :
    (A.induce keep).WellFormed := by
  refine .of_edges rfl ?_ ?_ ?_ ?_
  · intro i hi
    obtain ⟨q, -, hq⟩ := initial_induce.1 hi
    exact lt_size_induce.2 ⟨q, hq⟩
  · intro j hj
    obtain ⟨q, hq, -⟩ := mem_finals_induce.1 hj
    exact lt_size_induce.2 ⟨q, hq⟩
  · intro i l j h
    obtain ⟨p, q, hp, hq, -⟩ := mem_edges_induce.1 h
    exact ⟨lt_size_induce.2 ⟨p, hp⟩, lt_size_induce.2 ⟨q, hq⟩⟩
  · intro i x j h
    obtain ⟨p, q, -, -, he⟩ := mem_edges_induce.1 h
    exact hA.symbol_mem he

theorem Functional.induce (hA : A.Functional) (keep : SortedSet State) :
    (A.induce keep).Functional where
  no_epsilon h := by
    obtain ⟨p, q, -, -, he⟩ := mem_targets_induce.1 h
    exact hA.no_epsilon he
  unique h h' := by
    obtain ⟨p, q, hp, hq, he⟩ := mem_targets_induce.1 h
    obtain ⟨p', q', hp', hq', he'⟩ := mem_targets_induce.1 h'
    obtain rfl : p = p' := Option.some.inj (hp.symm.trans hp')
    obtain rfl := hA.unique he he'
    exact kept_inj hq hq'

theorem path_of_path_induce (h : (A.induce keep).Path i w j) (hp : (A.kept keep)[i]? = some p) :
    ∃ q, (A.kept keep)[j]? = some q ∧ A.Path p w q := by
  induction h generalizing p with
  | nil _ => exact ⟨p, hp, .nil p⟩
  | epsilon he _ ih =>
    obtain ⟨p', r, hp', hr, he⟩ := mem_targets_induce.1 he
    obtain rfl : p = p' := Option.some.inj (hp.symm.trans hp')
    obtain ⟨q, hq, hpath⟩ := ih hr
    exact ⟨q, hq, .epsilon he hpath⟩
  | symbol hc he _ ih =>
    obtain ⟨p', r, hp', hr, he⟩ := mem_targets_induce.1 he
    obtain rfl : p = p' := Option.some.inj (hp.symm.trans hp')
    obtain ⟨q, hq, hpath⟩ := ih hr
    exact ⟨q, hq, .symbol hc he hpath⟩

/-- A path of the whole is one of the part if all states on it are kept. -/
theorem path_induce (h : A.Path p w q)
    (hmid : ∀ u v r, A.Path p u r → A.Path r v q → r ∈ A.kept keep)
    (hi : (A.kept keep)[i]? = some p) (hj : (A.kept keep)[j]? = some q) :
    (A.induce keep).Path i w j := by
  induction h generalizing i with
  | nil _ => obtain rfl := kept_inj hi hj; exact .nil i
  | epsilon he hrest ih =>
    obtain ⟨k, hk⟩ := List.getElem?_of_mem (hmid [] _ _ (.edge_epsilon he) hrest)
    refine .epsilon (mem_targets_induce.2 ⟨_, _, hi, hk, he⟩) (ih ?_ hk hj)
    intro u v r hu hv
    exact hmid u v r (.epsilon he hu) hv
  | @symbol p r q c x w hc he hrest ih =>
    obtain ⟨k, hk⟩ := List.getElem?_of_mem (hmid [c] _ _ (.symbol hc he (.nil _)) hrest)
    refine .symbol hc (mem_targets_induce.2 ⟨_, _, hi, hk, he⟩) (ih ?_ hk hj)
    intro u v r hu hv
    exact hmid (c :: u) v r (.symbol hc he hu) hv

/-- A part that keeps the states on all paths from a state to final states keeps its language. -/
theorem languageFrom_induce (hi : (A.kept keep)[i]? = some p)
    (hmid : ∀ u r, A.Path p u r → (∃ v, v ∈ A.languageFrom r) → r ∈ A.kept keep) :
    (A.induce keep).languageFrom i = A.languageFrom p := by
  ext w
  rw [mem_languageFrom, mem_languageFrom]
  constructor
  · rintro ⟨j, hj, h⟩
    obtain ⟨q, hq, hpath⟩ := path_of_path_induce h hi
    obtain ⟨q', hq', hf⟩ := mem_finals_induce.1 hj
    obtain rfl : q = q' := Option.some.inj (hq.symm.trans hq')
    exact ⟨q, hf, hpath⟩
  · rintro ⟨q, hf, h⟩
    obtain ⟨j, hj⟩ := List.getElem?_of_mem (hmid w q h ⟨[], q, hf, .nil q⟩)
    refine ⟨j, mem_finals_induce.2 ⟨q, hj, hf⟩, path_induce h ?_ hi hj⟩
    intro u v r hu hv
    exact hmid u r hu ⟨v, q, hf, hv⟩

/-! ### The reachable part -/

theorem reachablePart_eq (h : A.initial = some p) :
    A.reachablePart = .ok (A.induce (A.reach p)) := by
  rw [reachablePart, h]

theorem reachablePart_of_no_initial (h : A.initial = none) :
    A.reachablePart = .error .noInitialState := by
  rw [reachablePart, h]

theorem WellFormed.exists_initial_reachable (hA : A.WellFormed) (h : A.initial = some p) :
    ∃ i, (A.kept (A.reach p))[i]? = some p ∧ (A.induce (A.reach p)).initial = some i := by
  obtain ⟨i, hi⟩ := exists_kept (hA.initial_lt h) (hA.mem_reach.2 ⟨[], .nil p⟩)
  exact ⟨i, hi, initial_induce.2 ⟨p, h, hi⟩⟩

theorem WellFormed.language_reachable (hA : A.WellFormed) (h : A.initial = some p) :
    (A.induce (A.reach p)).language = A.language := by
  obtain ⟨i, hi, hinit⟩ := hA.exists_initial_reachable h
  rw [language_eq hinit, language_eq h]
  refine languageFrom_induce hi fun u r hu _ => ?_
  exact mem_kept.2 ⟨hA.path_lt hu (hA.initial_lt h), hA.mem_reach.2 ⟨u, hu⟩⟩

theorem WellFormed.reached_reachable (hA : A.WellFormed) (h : A.initial = some p) {i : State}
    (hi : i < (A.induce (A.reach p)).size) :
    ∃ i₀ w, (A.induce (A.reach p)).initial = some i₀ ∧ (A.induce (A.reach p)).Path i₀ w i := by
  obtain ⟨i₀, hp, hinit⟩ := hA.exists_initial_reachable h
  obtain ⟨q, hq⟩ := lt_size_induce.1 hi
  obtain ⟨w, hw⟩ := hA.mem_reach.1 (of_kept hq).2
  refine ⟨i₀, w, hinit, path_induce hw ?_ hp hq⟩
  intro u v r hu _
  exact mem_kept.2 ⟨hA.path_lt hu (hA.initial_lt h), hA.mem_reach.2 ⟨u, hu⟩⟩

/-! ### The live part -/

theorem WellFormed.languageFrom_livePart (hA : A.WellFormed) {i : State}
    (hi : (A.kept A.live)[i]? = some p) : A.livePart.languageFrom i = A.languageFrom p := by
  refine languageFrom_induce hi fun u r hu hr => ?_
  exact mem_kept.2 ⟨hA.path_lt hu (of_kept hi).1, hA.mem_live.2 hr⟩

/-- The initial state is lost only if no word is accepted. -/
theorem WellFormed.initial_livePart (hA : A.WellFormed) (h : A.initial = some p) :
    A.livePart.initial = none ↔ A.language = 0 := by
  have hmem : (∃ w, w ∈ A.language) ↔ ∃ i : Nat, (A.kept A.live)[i]? = some p := by
    rw [language_eq h]
    constructor
    · intro hw
      exact exists_kept (hA.initial_lt h) (hA.mem_live.2 hw)
    · rintro ⟨i, hi⟩
      exact hA.mem_live.1 (of_kept hi).2
  rw [Option.eq_none_iff_forall_ne_some, eq_zero_iff_forall_notMem]
  constructor
  · intro hno w hw
    obtain ⟨i, hi⟩ := hmem.1 ⟨w, hw⟩
    exact hno i (initial_induce.2 ⟨p, h, hi⟩)
  · intro hz i hi
    obtain ⟨q, hq, hk⟩ := initial_induce.1 hi
    obtain rfl : p = q := Option.some.inj (h.symm.trans hq)
    obtain ⟨w, hw⟩ := hmem.2 ⟨i, hk⟩
    exact hz w hw

theorem WellFormed.language_livePart (hA : A.WellFormed) (h : A.initial = some p) :
    A.livePart.language = A.language := by
  cases hi : A.livePart.initial with
  | none => rw [language_eq_zero hi, (hA.initial_livePart h).1 hi]
  | some i =>
    obtain ⟨q, hq, hk⟩ := initial_induce.1 hi
    obtain rfl : p = q := Option.some.inj (h.symm.trans hq)
    rw [language_eq hi, language_eq h, hA.languageFrom_livePart hk]

theorem WellFormed.trim_livePart (hA : A.WellFormed)
    (hr : ∀ q < A.size, ∃ p w, A.initial = some p ∧ A.Path p w q) : A.livePart.Trim := by
  refine ⟨fun {i} hi => ?_, fun {i} hi => ?_⟩
  · obtain ⟨q, hq⟩ := lt_size_induce.1 hi
    obtain ⟨p, w, hp, hw⟩ := hr q (of_kept hq).1
    -- states on the way to a live state are live
    have hmid : ∀ u v r, A.Path p u r → A.Path r v q → r ∈ A.kept A.live := by
      intro u v r hu hv
      obtain ⟨x, f, hf, hx⟩ := hA.mem_live.1 (of_kept hq).2
      exact mem_kept.2 ⟨hA.path_lt hu (hA.initial_lt hp), hA.mem_live.2 ⟨v ++ x, f, hf, hv.trans hx⟩⟩
    obtain ⟨i₀, hi₀⟩ := List.getElem?_of_mem (hmid [] w p (.nil p) hw)
    exact ⟨i₀, w, initial_induce.2 ⟨p, hp, hi₀⟩, path_induce hw hmid hi₀ hq⟩
  · obtain ⟨q, hq⟩ := lt_size_induce.1 hi
    rw [hA.languageFrom_livePart hq]
    exact hA.mem_live.1 (of_kept hq).2

end RegularLanguages.Automaton
