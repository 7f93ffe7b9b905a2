import Mathlib
import RegularLanguages.Proofs.Automaton.Minimal
import RegularLanguages.Proofs.Automaton.Remerging
/-!
# Which states are merged

Merging starts from the final states and the others and splits classes round by round. After `k` rounds
two states are still together exactly if no word of at most `k` symbols leads from one of them only to a
final state (`leader_round_eq_iff`). The rounds come to an end, so that a state of the result stands for
all states from which the same words are accepted, and moves as each of them does
(`mergeEquivalent_separates`).
-/

namespace RegularLanguages.Automaton

/-- The classes after a number of rounds. -/
def round (A : Automaton) (k : Nat) : Partition (A.size + 1) :=
  (Partition.byKey _ fun q => decide (q ∈ A.finals)).rounds (fun q => A.labels.map (A.successor q)) k

/-- The states of `B` are classes of states of `A`, and `f` takes each state to its class. A class holds
the states from which the same words are accepted and is named for them. A missing edge counts as an edge
to a state from which nothing is accepted, if there is one. -/
structure Merges (A B : Automaton) (f : State → State) : Prop where
  alphabet_eq : B.alphabet = A.alphabet
  initial_eq : B.initial = A.initial.map f
  mapsTo : Set.MapsTo f {q | q < A.size} {i | i < B.size}
  surjOn : Set.SurjOn f {q | q < A.size} {i | i < B.size}
  name_eq {i : State} : i < B.size → B.name i = A.className (A.states.filter fun q => f q = i)
  final_iff {q : State} : q < A.size → (f q ∈ B.finals ↔ q ∈ A.finals)
  eq_iff {p q : State} : p < A.size → q < A.size →
    (f p = f q ↔ A.languageFrom p = A.languageFrom q)
  languageFrom_eq {q : State} : q < A.size → B.languageFrom (f q) = A.languageFrom q
  no_epsilon {i j : State} : j ∉ B.targets i .epsilon
  target_iff {q r j : State} {x : Symbol} : r ∈ A.targets q (.symbol x) →
    (j ∈ B.targets (f q) (.symbol x) ↔ j = f r)
  missing_iff {q j : State} {x : Symbol} : q < A.size → x ∈ A.alphabet →
    (∀ r, r ∉ A.targets q (.symbol x)) →
    (j ∈ B.targets (f q) (.symbol x) ↔ ∃ d < A.size, A.languageFrom d = 0 ∧ j = f d)

variable {A : Automaton} {p q r i j : State} {x : Symbol} {k : Nat}

/-- Without edges on the empty word a deterministic automaton has no choice. -/
theorem functional_of_isDeterministic (hA : A.WellFormed) (hd : A.isDeterministic = true)
    (he : A.hasEpsilon = false) : A.Functional :=
  (isDeterministic_iff_functional hA he).1 hd

/-! ### Rounds and words -/

theorem forall_labels {P : Label → Prop} :
    (∀ l ∈ A.labels, P l) ↔ P .epsilon ∧ ∀ x ∈ A.alphabet, P (.symbol x) := by
  simp [labels]

theorem leader_round_succ_eq_iff (hp : p < A.size + 1) (hq : q < A.size + 1) :
    (A.round (k + 1)).leader p = (A.round (k + 1)).leader q ↔
      (A.round k).leader p = (A.round k).leader q ∧
        ∀ l ∈ A.labels, (A.round k).leader (A.successor p l) = (A.round k).leader (A.successor q l) := by
  rw [round, Partition.rounds, Partition.leader_refine_eq_iff hp hq, List.map_map, List.map_map,
    List.map_inj_left]
  rfl

section Functional
variable (hA : A.WellFormed) (hF : A.Functional)
include hA hF

/-- One more round looks one symbol further. -/
theorem leader_round_eq_iff (hp : p < A.size + 1) (hq : q < A.size + 1) :
    (A.round k).leader p = (A.round k).leader q ↔
      ∀ w, w.length ≤ k → (w ∈ A.languageFrom p ↔ w ∈ A.languageFrom q) := by
  induction k generalizing p q with
  | zero =>
    rw [round, Partition.rounds, Partition.leader_byKey_eq_iff hp hq, decide_eq_decide,
      ← hF.nil_mem_languageFrom, ← hF.nil_mem_languageFrom]
    constructor
    · intro h w hw
      rwa [List.eq_nil_of_length_eq_zero (Nat.le_zero.1 hw)]
    · intro h
      exact h [] (Nat.le_refl 0)
  | succ k ih =>
    have hs {q : State} (l : Label) := successor_lt hA q l
    rw [leader_round_succ_eq_iff hp hq, ih hp hq, forall_labels, hF.successor_epsilon,
      hF.successor_epsilon]
    simp only [ih (hs _) (hs _), true_and]
    constructor
    · rintro ⟨hshort, hlong⟩ w hw
      cases w with
      | nil => exact hshort [] (Nat.zero_le k)
      | cons c w =>
        rw [cons_mem_languageFrom_iff hA hF, cons_mem_languageFrom_iff hA hF]
        refine exists_congr fun x => and_congr_right fun hc => ?_
        exact hlong x (symbol?_eq_some.1 hc).2 w (Nat.le_of_succ_le_succ hw)
    · intro h
      refine ⟨fun w hw => h w (Nat.le_succ_of_le hw), fun x hx w hw => ?_⟩
      have hcons := h (x.char :: w) (Nat.succ_le_succ hw)
      rw [cons_mem_languageFrom_iff hA hF, cons_mem_languageFrom_iff hA hF, symbol?_char hx] at hcons
      simpa using hcons

end Functional

/-! ### Classes as states -/

theorem classOf_eq_some_placeOf (hq : q < A.size) : A.classOf q = some (A.placeOf q) := by
  obtain ⟨i, hi⟩ := exists_classOf hq
  rw [placeOf_eq hi, hi]

theorem getElem?_placeOf (hq : q < A.size) :
    (A.leaders A.classes)[A.placeOf q]? = some (A.classes.leader q) :=
  classOf_eq_some.1 (classOf_eq_some_placeOf hq)

theorem placeOf_eq_iff (hp : p < A.size) (hq : q < A.size) :
    A.placeOf p = A.placeOf q ↔ A.classes.leader p = A.classes.leader q := by
  refine ⟨fun h => ?_, placeOf_congr⟩
  have hp := getElem?_placeOf hp
  rw [h, getElem?_placeOf hq] at hp
  exact (Option.some.inj hp).symm

theorem placeOf_lt_size (hq : q < A.size) : A.placeOf q < A.quotient.size :=
  lt_size_quotient.2 ⟨_, getElem?_placeOf hq⟩

theorem exists_placeOf_eq (hi : i < A.quotient.size) :
    ∃ h < A.size, A.classes.leader h = h ∧ A.placeOf h = i := by
  obtain ⟨h, hh⟩ := lt_size_quotient.1 hi
  obtain ⟨hlt, hled⟩ := mem_leaders.1 (List.mem_of_getElem? hh)
  exact ⟨h, hlt, hled, placeOf_eq (classOf_leader hh)⟩

theorem name_quotient (hi : i < A.quotient.size) :
    A.quotient.name i = A.className (A.states.filter fun q => A.placeOf q = i) := by
  obtain ⟨h, hlt, hled, rfl⟩ := exists_placeOf_eq hi
  have hplace : (A.leaders A.classes)[A.placeOf h]? = some h := by
    rw [getElem?_placeOf hlt, hled]
  have hmembers : A.states.filter (fun q => A.placeOf q = A.placeOf h) = A.members h := by
    refine List.filter_congr fun q hq => ?_
    rw [decide_eq_decide, placeOf_eq_iff (mem_states.1 hq) hlt, hled]
  rw [hmembers, name, quotient]
  simp only [List.getElem?_toArray, List.getElem?_map, hplace]
  rfl

/-- A class moves as any of its members does. -/
theorem mem_targets_placeOf (hq : q < A.size) (hx : x ∈ A.alphabet) :
    j ∈ A.quotient.targets (A.placeOf q) (.symbol x) ↔
      A.classOf (A.successor q (.symbol x)) = some j := by
  have hq' := Nat.lt_succ_of_lt hq
  have hl := symbol_mem_labels.2 hx
  have hplace := getElem?_placeOf hq
  obtain ⟨hlt, hled⟩ := A.led_classes q hq'
  have hsucc := classOf_congr (leader_classes_successor hlt hq' hled hl)
  rw [mem_targets_quotient, ← hsucc]
  constructor
  · rintro ⟨h, hh, -, -, hj⟩
    obtain rfl := Option.some.inj (hplace.symm.trans hh)
    exact hj
  · intro hj
    exact ⟨_, hplace, hl, nofun, hj⟩

theorem initial_quotient_eq_map (hA : A.WellFormed) : A.quotient.initial = A.initial.map A.placeOf := by
  rw [initial_quotient]
  cases hp : A.initial with
  | none => rfl
  | some p => exact classOf_eq_some_placeOf (hA.initial_lt hp)

section Functional
variable (hA : A.WellFormed) (hF : A.Functional)
include hA hF

theorem placeOf_eq_iff_languageFrom (hp : p < A.size) (hq : q < A.size) :
    A.placeOf p = A.placeOf q ↔ A.languageFrom p = A.languageFrom q := by
  rw [placeOf_eq_iff hp hq,
    leader_classes_eq_iff hA hF (Nat.lt_succ_of_lt hp) (Nat.lt_succ_of_lt hq)]

theorem languageFrom_placeOf (hq : q < A.size) :
    A.quotient.languageFrom (A.placeOf q) = A.languageFrom q := by
  have hq' := Nat.lt_succ_of_lt hq
  obtain ⟨hlt, hled⟩ := A.led_classes q hq'
  rw [languageFrom_quotient hA hF (getElem?_placeOf hq)]
  exact (leader_classes_eq_iff hA hF hlt hq').1 hled

/-- The class of the sink holds the states from which nothing is accepted. -/
theorem classOf_sink_eq_some :
    A.classOf A.sink = some j ↔ ∃ d < A.size, A.languageFrom d = 0 ∧ j = A.placeOf d := by
  have hsink : A.languageFrom A.sink = 0 := eq_zero_iff_forall_notMem.2 fun _ => languageFrom_sink hA
  have hdead {d : State} (hd : d < A.size) :
      A.classes.leader d = A.classes.leader A.sink ↔ A.languageFrom d = 0 := by
    rw [← hsink]
    exact leader_classes_eq_iff hA hF (Nat.lt_succ_of_lt hd) (Nat.lt_succ_self A.size)
  constructor
  · intro hj
    obtain ⟨d, hd, hled, hplace⟩ := exists_placeOf_eq (lt_size_quotient.2 ⟨_, classOf_eq_some.1 hj⟩)
    refine ⟨d, hd, (hdead hd).1 ?_, hplace.symm⟩
    have hd := getElem?_placeOf hd
    rw [hplace, classOf_eq_some.1 hj] at hd
    exact (Option.some.inj hd).symm
  · rintro ⟨d, hd, hzero, rfl⟩
    rw [← classOf_congr ((hdead hd).2 hzero)]
    exact classOf_eq_some_placeOf hd

theorem merges_quotient : A.Merges A.quotient A.placeOf where
  alphabet_eq := rfl
  initial_eq := initial_quotient_eq_map hA
  mapsTo _ hq := placeOf_lt_size hq
  surjOn i hi := by
    obtain ⟨h, hlt, -, hplace⟩ := exists_placeOf_eq hi
    exact ⟨h, hlt, hplace⟩
  name_eq := name_quotient
  final_iff hq := placeOf_mem_finals hA (Nat.lt_succ_of_lt hq)
  eq_iff := placeOf_eq_iff_languageFrom hA hF
  languageFrom_eq := languageFrom_placeOf hA hF
  no_epsilon := (functional_quotient hA hF).no_epsilon
  target_iff hr := by
    rw [mem_targets_placeOf (hA.source_lt hr) (hA.symbol_mem hr), hF.successor_eq hr,
      classOf_eq_some_placeOf (hA.target_lt hr), Option.some.injEq, eq_comm]
  missing_iff hq hx hno := by
    rw [mem_targets_placeOf hq hx, successor_of_empty hno, classOf_sink_eq_some hA hF]

end Functional

/-- In a deterministic automaton without edges on the empty word, splitting classes comes to an end, and
what it ends with merges two states exactly if the same words lead from them to final states. No two states
of the result have that in common any more. -/
theorem mergeEquivalent_separates (hA : A.WellFormed) (hd : A.isDeterministic = true)
    (he : A.hasEpsilon = false) :
    (∀ k p q, p < A.size → q < A.size → ((A.round k).leader p = (A.round k).leader q ↔
      ∀ w, w.length ≤ k → (w ∈ A.languageFrom p ↔ w ∈ A.languageFrom q))) ∧
    (∃ k ≤ A.size, A.classes = A.round k ∧
      IsLeast {k | (A.round (k + 1)).leaders = (A.round k).leaders} k) ∧
    ∃ B f, A.mergeEquivalent = .ok B ∧ A.Merges B f ∧
      ∀ i j, i < B.size → j < B.size → B.languageFrom i = B.languageFrom j → i = j := by
  have hF := functional_of_isDeterministic hA hd he
  have hlt {q : State} (hq : q < A.size) := Nat.lt_succ_of_lt hq
  refine ⟨fun k p q hp hq => leader_round_eq_iff hA hF (hlt hp) (hlt hq), ?_, A.quotient, A.placeOf,
    if_pos hd, merges_quotient hA hF, fun i j hi hj h => ?_⟩
  · obtain ⟨k, hk, hclasses, hleast⟩ := Partition.exists_settle_eq_rounds
      (.byKey (A.size + 1) fun q => decide (q ∈ A.finals)) fun q => A.labels.map (A.successor q)
    have hhead : 0 ∈ (Partition.byKey (A.size + 1) fun q => decide (q ∈ A.finals)).heads :=
      Partition.mem_heads.2 ⟨Nat.succ_pos _, Nat.le_zero.1 (Partition.leader_le_self _ (Nat.succ_pos _))⟩
    have hpos := Finset.card_pos.2 ⟨0, hhead⟩
    exact ⟨k, by omega, hclasses, hleast⟩
  · exact (bijOn_languageFrom_quotient hA hF).injOn hi hj h

/-- The states `q1` and `q2` end the same words, though only `q1` has an edge, to a state that ends none. -/
def twinEnds : Automaton :=
  (Draft.empty.requests [.symbol 'a', .symbol 'b', .state "q0" true false, .state "q1" false true,
    .state "q2" false true, .state "q3" false false, .edge "q0" 'a' "q1", .edge "q0" 'b' "q2",
    .edge "q1" 'a' "q3"]).automaton

theorem mergeEquivalent_separates_twinEnds :
    twinEnds.WellFormed ∧ twinEnds.isDeterministic = true ∧ twinEnds.hasEpsilon = false ∧
      (∃ k ≤ 4, twinEnds.classes = twinEnds.round k) ∧
      ∃ B f, twinEnds.mergeEquivalent = .ok B ∧ twinEnds.Merges B f ∧ f 0 ≠ f 1 ∧ f 1 = f 2 ∧
        f 3 ∈ B.targets (f 2) (.symbol ⟨'a', rfl⟩) := by
  have hA : twinEnds.WellFormed := Draft.wellFormed_requests _
  have hd : twinEnds.isDeterministic = true := by cbv
  have he : twinEnds.hasEpsilon = false := by cbv
  have hsize : twinEnds.size = 4 := by decide
  have hF := functional_of_isDeterministic hA hd he
  have h0 : 0 < twinEnds.size := hsize ▸ by decide
  have h1 : 1 < twinEnds.size := hsize ▸ by decide
  have h2 : 2 < twinEnds.size := hsize ▸ by decide
  have hplace : twinEnds.placeOf 1 = twinEnds.placeOf 2 := by cbv
  have hwords := (placeOf_eq_iff_languageFrom hA hF h1 h2).1 hplace
  obtain ⟨-, ⟨k, hk, hround, -⟩, B, f, hB, hf, -⟩ := mergeEquivalent_separates hA hd he
  have htwins : f 1 = f 2 := (hf.eq_iff h1 h2).2 hwords
  refine ⟨hA, hd, he, ⟨k, hsize ▸ hk, hround⟩, B, f, hB, hf, fun h => ?_, htwins, ?_⟩
  · have hfinal : 1 ∈ twinEnds.finals ↔ 0 ∈ twinEnds.finals := by
      rw [← hf.final_iff h1, ← hf.final_iff h0, h]
    exact absurd hfinal (by decide)
  · have hedge : 3 ∈ twinEnds.targets 1 (.symbol ⟨'a', rfl⟩) := by decide
    rw [← htwins]
    exact (hf.target_iff hedge).2 rfl

end RegularLanguages.Automaton
