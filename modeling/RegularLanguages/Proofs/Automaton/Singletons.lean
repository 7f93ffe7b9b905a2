import Mathlib
import RegularLanguages.Proofs.Automaton.Compact
import RegularLanguages.Proofs.Automaton.Deterministic
import RegularLanguages.Proofs.Automaton.Isomorphism
import RegularLanguages.Proofs.Automaton.Subsets
/-!
# Sets of one state

Reading in a functional automaton keeps track of one state at a time, so the sets that the subset construction
finds are those of one state that is reached, and a symbol moves the one set to the other where an edge leads from
the one state to the other (`Functional.move_singleton`). Hence the subset construction makes no difference to the
reachable part but for the names and the numbers of the states (`isomorphism_subsetAutomaton`).
-/

namespace RegularLanguages

/-- The merger of one name is the name in brackets. -/
theorem StateName.text_merge_singleton (n : StateName) : (merge [n]).text = "[" ++ n.text ++ "]" := by
  have hchars : (merge [n]).chars = '[' :: (n.chars ++ [']']) := rfl
  rw [text, hchars, text, ← String.toList_inj]
  simp

namespace Automaton

/-- The number that the subset construction from `p` has for the set of one state, state `i` of the reachable
part. -/
def subsetPlace (A : Automaton) (p i : State) : State :=
  (A.subsets (A.closure (.singleton p))).reachable.idxOf (.singleton ((A.kept (A.reach p))[i]?.getD 0))

variable {A B : Automaton} {f : State → State} {p q r : State} {s t : SortedSet State} {x : Symbol}
  {i j : Nat}

theorem singleton_injective (h : SortedSet.singleton p = .singleton q) : p = q :=
  SortedSet.mem_singleton.1 (h ▸ SortedSet.mem_singleton.2 rfl)

theorem size_eq_of_bijOn (h : Set.BijOn f {q | q < A.size} {q | q < B.size}) : B.size = A.size := by
  have hcard := h.injOn.encard_image
  rw [h.image_eq, encard_states, encard_states] at hcard
  exact_mod_cast hcard

namespace Functional

variable (hF : A.Functional)
include hF

theorem mem_step_singleton : r ∈ A.step (.singleton q) x ↔ r ∈ A.targets q (.symbol x) := by
  rw [mem_step]
  simp only [SortedSet.mem_singleton, exists_eq_left, hF.path_nil, exists_eq_right]

/-- A set of one state moves to the set of the one target of the state. -/
theorem move_singleton : (A.subsets s).move (.singleton q) x = some t ↔
    ∃ r ∈ A.targets q (.symbol x), t = .singleton r := by
  have hmove : (A.subsets s).move (.singleton q) x =
      if (A.step (.singleton q) x).isEmpty then none else some (A.step (.singleton q) x) := rfl
  rw [hmove, Option.ite_none_left_eq_some, Option.some.injEq, SortedSet.isEmpty_iff]
  simp only [hF.mem_step_singleton, not_forall_not]
  constructor
  · rintro ⟨⟨r, hr⟩, rfl⟩
    refine ⟨r, hr, SortedSet.ext fun r' => ?_⟩
    rw [hF.mem_step_singleton, SortedSet.mem_singleton]
    exact ⟨fun hr' => hF.unique hr' hr, fun h => h ▸ hr⟩
  · rintro ⟨r, hr, rfl⟩
    refine ⟨⟨r, hr⟩, SortedSet.ext fun r' => ?_⟩
    rw [hF.mem_step_singleton, SortedSet.mem_singleton]
    exact ⟨fun hr' => hF.unique hr' hr, fun h => h ▸ hr⟩

end Functional

/-! ### The subset construction of a functional automaton -/

section

variable (hA : A.WellFormed) (hF : A.Functional)
include hA hF

/-- The set at the place of a state of the reachable part is the set of that state alone. -/
theorem getElem?_subsetPlace (hq : (A.kept (A.reach p))[i]? = some q) :
    (A.subsets (A.closure (.singleton p))).reachable[A.subsetPlace p i]? = some (.singleton q) := by
  obtain ⟨w, hw⟩ := hA.mem_reach.1 (of_kept hq).2
  rw [subsetPlace, hq, Option.getD_some]
  exact List.getElem?_idxOf (mem_reachable_subsets.2 (hF.leadsTo_iff.2 ⟨q, w, hw, rfl⟩))

/-- Each set that is found is at the place of a state of the reachable part. -/
theorem exists_subsetPlace_eq (hp : p < A.size)
    (hs : (A.subsets (A.closure (.singleton p))).reachable[j]? = some s) :
    ∃ i q, (A.kept (A.reach p))[i]? = some q ∧ s = .singleton q ∧ A.subsetPlace p i = j := by
  obtain ⟨q, w, hw, rfl⟩ := hF.leadsTo_iff.1 (mem_reachable_subsets.1 (List.mem_of_getElem? hs))
  obtain ⟨i, hi⟩ := exists_kept (hA.path_lt hw hp) (hA.mem_reach.2 ⟨w, hw⟩)
  have hplace := (MoveSystem.idxOf?_reachable _).2 (getElem?_subsetPlace hA hF hi)
  exact ⟨i, q, hi, rfl, Option.some.inj (hplace.symm.trans ((MoveSystem.idxOf?_reachable _).2 hs))⟩

theorem bijOn_subsetPlace (hp : p < A.size) : Set.BijOn (A.subsetPlace p)
    {i | i < (A.induce (A.reach p)).size} {k | k < (A.subsetAutomaton p).size} := by
  refine ⟨fun i hi => ?_, fun i hi j hj hij => ?_, fun k hk => ?_⟩
  · obtain ⟨q, hq⟩ := lt_size_induce.1 hi
    exact (MoveSystem.lt_size_toAutomaton _ _).2 ⟨_, getElem?_subsetPlace hA hF hq⟩
  · obtain ⟨q, hq⟩ := lt_size_induce.1 hi
    obtain ⟨r, hr⟩ := lt_size_induce.1 hj
    have hsets := getElem?_subsetPlace hA hF hq
    rw [hij, getElem?_subsetPlace hA hF hr, Option.some.injEq] at hsets
    exact kept_inj hq (singleton_injective hsets ▸ hr)
  · obtain ⟨s, hs⟩ := (MoveSystem.lt_size_toAutomaton _ _).1 hk
    obtain ⟨i, q, hi, -, hplace⟩ := exists_subsetPlace_eq hA hF hp hs
    exact ⟨i, lt_size_induce.2 ⟨q, hi⟩, hplace⟩

theorem mem_targets_subsetPlace (hp : (A.kept (A.reach r))[i]? = some p)
    (hq : (A.kept (A.reach r))[j]? = some q) {l : Label} :
    A.subsetPlace r j ∈ (A.subsetAutomaton r).targets (A.subsetPlace r i) l ↔ q ∈ A.targets p l := by
  rw [subsetAutomaton, MoveSystem.mem_targets, getElem?_subsetPlace hA hF hp,
    getElem?_subsetPlace hA hF hq]
  constructor
  · rintro ⟨s, x, t, rfl, hs, -, hmove, ht⟩
    obtain rfl := Option.some.inj hs
    obtain rfl := Option.some.inj ht
    obtain ⟨r, hr, heq⟩ := hF.move_singleton.1 hmove
    rwa [singleton_injective heq]
  · intro he
    cases l with
    | epsilon => exact absurd he hF.no_epsilon
    | symbol x =>
      exact ⟨_, x, _, rfl, rfl, hA.symbol_mem he, hF.move_singleton.2 ⟨q, he, rfl⟩, rfl⟩

/-- The subset construction numbers the reachable part anew. -/
theorem isomorphism_subsetAutomaton (hp : A.initial = some p) :
    Isomorphism (A.induce (A.reach p)) (A.subsetAutomaton p) (A.subsetPlace p) where
  bijOn := bijOn_subsetPlace hA hF (hA.initial_lt hp)
  initial := by
    obtain ⟨i, hi, hinitial⟩ := hA.exists_initial_reachable hp
    -- the search for sets starts with the set of the initial state
    have hstart := (A.subsets (A.closure (.singleton p))).getElem?_zero_reachable
    have hsets : (A.subsets (A.closure (.singleton p))).start = .singleton p := hF.closure_singleton p
    have hzero := (MoveSystem.idxOf?_reachable _).2 (hsets ▸ hstart)
    have hplace := (MoveSystem.idxOf?_reachable _).2 (getElem?_subsetPlace hA hF hi)
    rw [hinitial, initial_subsetAutomaton, Option.map_some]
    exact hzero.symm.trans hplace
  final_iff {i} hi := by
    obtain ⟨q, hq⟩ := lt_size_induce.1 hi
    rw [standsFor_subsetAutomaton.final_iff (getElem?_subsetPlace hA hF hq), mem_finals_induce, hq]
    simp only [SortedSet.mem_singleton, exists_eq_left, Option.some.injEq, exists_eq_left']
  target_iff {i j l} hi hj := by
    obtain ⟨q, hq⟩ := lt_size_induce.1 hi
    obtain ⟨r, hr⟩ := lt_size_induce.1 hj
    rw [mem_targets_subsetPlace hA hF hq hr, mem_targets_induce, hq, hr]
    simp only [Option.some.injEq, exists_and_left, exists_eq_left']

theorem text_name_subsetPlace (hi : i < (A.induce (A.reach p)).size) :
    ((A.subsetAutomaton p).name (A.subsetPlace p i)).text =
      "[" ++ ((A.induce (A.reach p)).name i).text ++ "]" := by
  obtain ⟨q, hq⟩ := lt_size_induce.1 hi
  have hset : A.nameOfSet (.singleton q) = .merge [A.name q] := rfl
  rw [standsFor_subsetAutomaton.name_eq (getElem?_subsetPlace hA hF hq),
    (A.cutTo_induce _).name_eq hq, hset, StateName.text_merge_singleton]

/-- No state is lost if all are reached. -/
theorem size_subsetAutomaton (hp : p < A.size) (hreach : ∀ q < A.size, ∃ w, A.Path p w q) :
    (A.subsetAutomaton p).size = A.size := by
  rw [size_eq_of_bijOn (bijOn_subsetPlace hA hF hp), size_induce,
    kept_eq_states fun q hq => hA.mem_reach.2 (hreach q hq), states, List.length_range]

end

/-- The subset construction of a deterministic automaton without edges on the empty word is its reachable part
but for the names and the numbers of its states: state `q` of the part is state `f q` of the construction, where
its name stands in brackets. In particular the subset construction of a subset construction has as many states. -/
theorem determinize_isomorphic (hA : A.WellFormed) (hp : A.initial = some p) :
    (A.isDeterministic = true → A.hasEpsilon = false →
      ∃ R D f, A.reachablePart = .ok R ∧ A.determinize = .ok D ∧ Isomorphism R D f ∧
        D.alphabet = R.alphabet ∧ D.size = R.size ∧
        ∀ q < R.size, (D.name (f q)).text = "[" ++ (R.name q).text ++ "]") ∧
    ∃ D E, A.determinize = .ok D ∧ D.determinize = .ok E ∧ E.size = D.size := by
  constructor
  · intro hd he
    have hF := (isDeterministic_iff_functional hA he).1 hd
    have hiso := isomorphism_subsetAutomaton hA hF hp
    exact ⟨_, _, A.subsetPlace p, reachablePart_eq hp, determinize_eq hp, hiso, rfl,
      size_eq_of_bijOn hiso.bijOn, fun _ => text_name_subsetPlace hA hF⟩
  · exact ⟨_, _, determinize_eq hp, determinize_eq initial_subsetAutomaton,
      size_subsetAutomaton wellFormed_subsetAutomaton functional_subsetAutomaton
        (wellFormed_subsetAutomaton.initial_lt initial_subsetAutomaton) fun _ => exists_path_subsetAutomaton⟩

/-- Its states are found in another order than they were added in, one has no edge on `b`, and one is not
reached. -/
def detour : Automaton :=
  (Draft.empty.requests [.symbol 'a', .symbol 'b', .state "s" true false, .state "lost" false true,
    .state "y" false false, .state "x" false true, .edge "s" 'a' "x", .edge "s" 'b' "y",
    .edge "x" 'a' "y", .edge "y" 'a' "x", .edge "y" 'b' "s", .edge "lost" 'a' "s"]).automaton

theorem determinize_isomorphic_detour :
    detour.WellFormed ∧ detour.initial = some 0 ∧ detour.isDeterministic = true ∧
      detour.hasEpsilon = false ∧ detour.size = 4 ∧
      ∃ R D f, detour.reachablePart = .ok R ∧ detour.determinize = .ok D ∧ Isomorphism R D f ∧
        R.size = 3 ∧ D.size = 3 ∧ (D.name (f 1)).text = "[y]" := by
  have hA : detour.WellFormed := Draft.wellFormed_requests _
  have hi : detour.initial = some 0 := by decide
  have hd : detour.isDeterministic = true := by cbv
  have he : detour.hasEpsilon = false := by decide
  obtain ⟨R, D, f, hR, hD, hiso, -, hsize, hname⟩ := (determinize_isomorphic hA hi).1 hd he
  have hRsize : R.size = 3 := by
    have h : (detour.induce (detour.reach 0)).size = 3 := by cbv
    rwa [← Except.ok.inj ((reachablePart_eq hi).symm.trans hR)]
  have hRname : (R.name 1).text = "y" := by
    have h : ((detour.induce (detour.reach 0)).name 1).text = "y" := by cbv
    rwa [← Except.ok.inj ((reachablePart_eq hi).symm.trans hR)]
  refine ⟨hA, hi, hd, he, by decide, R, D, f, hR, hD, hiso, hRsize, hsize.trans hRsize, ?_⟩
  rw [hname 1 (by omega), hRname]
  rfl

end Automaton

end RegularLanguages
