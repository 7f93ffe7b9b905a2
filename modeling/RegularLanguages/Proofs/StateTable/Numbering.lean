import RegularLanguages.Proofs.Automaton.Requests
import RegularLanguages.Proofs.Relabelling
import RegularLanguages.Proofs.StateTable.Alike
/-!
# Results do not show how states are numbered

The sets of states that reading moves between are taken by a renumbering to those of the other automaton, in
the order in which they are found, so the subset construction makes alike automata of both
(`Renumbering.alike_subsetAutomaton`). The other operations begin with it, or with the union, which numbers
states by their names. So whatever is made of automata with distinct names, its table is the same for all
ways to number their states (`tables_of_renumbering`).
-/

namespace RegularLanguages.Automaton

/-- What `f` takes the states of a set to. -/
def image (f : State → State) (s : SortedSet State) : SortedSet State := .ofList (s.toList.map f)

variable {A B C D : Automaton} {f g : State → State} {p q r base : State} {l : Label}
  {s t : SortedSet State}

theorem mem_image : q ∈ image f s ↔ ∃ p ∈ s, f p = q := by
  rw [image, SortedSet.mem_ofList, List.mem_map]
  rfl

theorem isEmpty_image : (image f s).isEmpty = s.isEmpty := by
  rw [Bool.eq_iff_iff, SortedSet.isEmpty_iff, SortedSet.isEmpty_iff]
  simp only [mem_image]
  constructor
  · intro h q hq
    exact h (f q) ⟨q, hq, rfl⟩
  · rintro h r ⟨q, hq, -⟩
    exact h q hq

theorem idxOf_map {qs : List State} (hinj : ∀ p ∈ qs, f p = f q → p = q) :
    (qs.map f).idxOf (f q) = qs.idxOf q := by
  induction qs with
  | nil => rfl
  | cons p qs ih =>
    have hrest := ih fun r hr => hinj r (List.mem_cons_of_mem _ hr)
    have hbeq : (f p == f q) = (p == q) := by
      rw [Bool.eq_iff_iff, beq_iff_eq, beq_iff_eq]
      exact ⟨hinj p List.mem_cons_self, congrArg f⟩
    rw [List.map_cons, List.idxOf_cons, List.idxOf_cons, hrest, hbeq]

namespace Renumbering

variable (h : Renumbering A B f)
include h

theorem size_eq : B.size = A.size := by simpa [states] using h.states_perm.length_eq

theorem addSymbols (extra : SortedSet Symbol) :
    Renumbering (A.addSymbols extra) (B.addSymbols extra) f where
  bijOn := h.bijOn
  initial := h.initial
  final_iff := h.final_iff
  target_iff := h.target_iff
  text_eq := h.text_eq
  alphabet_eq := congrArg (extra ∪ ·) h.alphabet_eq

/-! ### The subset construction -/

theorem meetsFinal_image (hs : ∀ q ∈ s, q < A.size) : B.meetsFinal (image f s) = A.meetsFinal s := by
  rw [Bool.eq_iff_iff, meetsFinal_iff, meetsFinal_iff]
  simp only [mem_image]
  constructor
  · rintro ⟨_, ⟨q, hq, rfl⟩, hf⟩
    exact ⟨q, hq, (h.final_iff (hs q hq)).1 hf⟩
  · rintro ⟨q, hq, hf⟩
    exact ⟨f q, ⟨q, hq, rfl⟩, (h.final_iff (hs q hq)).2 hf⟩

theorem image_inj (hs : ∀ q ∈ s, q < A.size) (ht : ∀ q ∈ t, q < A.size) (heq : image f s = image f t) :
    s = t := by
  have hmem : ∀ {s : SortedSet State} {q}, (∀ q ∈ s, q < A.size) → q < A.size →
      (f q ∈ image f s ↔ q ∈ s) := by
    intro s q hs hq
    rw [mem_image]
    constructor
    · rintro ⟨p, hp, hpq⟩
      rwa [← h.bijOn.injOn (hs p hp) hq hpq]
    · intro hq
      exact ⟨q, hq, rfl⟩
  refine SortedSet.ext fun q => ⟨fun hq => ?_, fun hq => ?_⟩
  · rwa [← hmem ht (hs q hq), ← heq, hmem hs (hs q hq)]
  · rwa [← hmem hs (ht q hq), heq, hmem ht (ht q hq)]

theorem chars_nameOfSet_image (hs : ∀ q ∈ s, q < A.size) :
    (B.nameOfSet (image f s)).chars = (A.nameOfSet s).chars := by
  refine StateName.chars_merge_eq fun cs => ?_
  simp only [List.map_map, List.mem_map, SortedSet.mem_toList, mem_image]
  constructor
  · rintro ⟨_, ⟨q, hq, rfl⟩, rfl⟩
    exact ⟨q, hq, (h.chars_eq (hs q hq)).symm⟩
  · rintro ⟨q, hq, rfl⟩
    exact ⟨f q, ⟨q, hq, rfl⟩, h.chars_eq (hs q hq)⟩

section Subsets

variable (hA : A.WellFormed) (hB : B.WellFormed)
include hA hB

theorem path_iff (hp : p < A.size) {w : List Char} :
    B.Path (f p) w r ↔ ∃ q, A.Path p w q ∧ f q = r := by
  constructor
  · intro hw
    obtain ⟨q, -, hq, hw⟩ := h.exists_path hA hB hp hw
    exact ⟨q, hw, hq⟩
  · rintro ⟨q, hw, rfl⟩
    exact h.path hA hB hp hw

theorem mem_targets_iff (hp : p < A.size) : r ∈ B.targets (f p) l ↔ ∃ q ∈ A.targets p l, f q = r := by
  have hperm := (h.targets_perm hA hB hp l).mem_iff (a := r)
  rwa [List.mem_map] at hperm

theorem closure_image (hs : ∀ q ∈ s, q < A.size) : B.closure (image f s) = image f (A.closure s) := by
  refine SortedSet.ext fun r => ?_
  simp only [mem_closure, mem_image]
  constructor
  · rintro ⟨_, ⟨p, hp, rfl⟩, hw⟩
    obtain ⟨q, hq, rfl⟩ := (h.path_iff hA hB (hs p hp)).1 hw
    exact ⟨q, ⟨p, hp, hq⟩, rfl⟩
  · rintro ⟨q, ⟨p, hp, hw⟩, rfl⟩
    exact ⟨f p, ⟨p, hp, rfl⟩, (h.path_iff hA hB (hs p hp)).2 ⟨q, hw, rfl⟩⟩

theorem step_image (hs : ∀ q ∈ s, q < A.size) (x : Symbol) :
    B.step (image f s) x = image f (A.step s x) := by
  have hmoved : (image f s).flatMap (B.targets · (.symbol x)) =
      image f (s.flatMap (A.targets · (.symbol x))) := by
    refine SortedSet.ext fun r => ?_
    simp only [SortedSet.mem_flatMap, mem_image]
    constructor
    · rintro ⟨_, ⟨p, hp, rfl⟩, hr⟩
      obtain ⟨q, hq, rfl⟩ := (h.mem_targets_iff hA hB (hs p hp)).1 hr
      exact ⟨q, ⟨p, hp, hq⟩, rfl⟩
    · rintro ⟨q, ⟨p, hp, hq⟩, rfl⟩
      exact ⟨f p, ⟨p, hp, rfl⟩, (h.mem_targets_iff hA hB (hs p hp)).2 ⟨q, hq, rfl⟩⟩
  rw [step, step, hmoved, h.closure_image hA hB]
  intro q hq
  obtain ⟨p, -, hq⟩ := SortedSet.mem_flatMap.1 hq
  exact hA.target_lt hq

theorem relabels_subsets (hp : p < A.size) : (B.subsets (B.closure (.singleton (f p)))).Relabels
    (A.subsets (A.closure (.singleton p))) (image f) where
  alphabet_eq := h.alphabet_eq
  start_eq := by
    have hs : ∀ q ∈ SortedSet.singleton p, q < A.size := fun q hq =>
      SortedSet.mem_singleton.1 hq ▸ hp
    exact h.closure_image hA hB hs
  move_eq {s} hs x := by
    have hlt := (mem_reachable_subsets.1 hs).lt_size hA hp
    simp only [subsets, h.step_image hA hB hlt, isEmpty_image]
    split <;> rfl
  isFinal_eq hs := h.meetsFinal_image ((mem_reachable_subsets.1 hs).lt_size hA hp)
  inj hs ht := h.image_inj ((mem_reachable_subsets.1 hs).lt_size hA hp)
    ((mem_reachable_subsets.1 ht).lt_size hA hp)

theorem alike_subsetAutomaton (hp : p < A.size) :
    Alike (A.subsetAutomaton p) (B.subsetAutomaton (f p)) where
  map_chars_names := by
    rw [names_subsetAutomaton, names_subsetAutomaton, (h.relabels_subsets hA hB hp).reachable_eq]
    simp only [List.map_map]
    refine List.map_congr_left fun s hs => ?_
    exact h.chars_nameOfSet_image ((mem_reachable_subsets.1 hs).lt_size hA hp)
  alphabet_eq := h.alphabet_eq
  transitions_eq := (h.relabels_subsets hA hB hp).transitions_toAutomaton _ _
  initial_eq := rfl
  finals_eq := (h.relabels_subsets hA hB hp).finals_toAutomaton _ _

theorem alikeResults_determinize : AlikeResults A.determinize B.determinize := by
  rw [determinize, determinize, h.initial]
  cases hp : A.initial with
  | none => exact .error _
  | some p => exact .ok (h.alike_subsetAutomaton hA hB (hA.initial_lt hp))

theorem determinizeAlike : DeterminizeAlike A B :=
  ⟨h.alphabet_eq, fun extra =>
    (h.addSymbols extra).alikeResults_determinize (hA.addSymbols extra) (hB.addSymbols extra)⟩

end Subsets

/-! ### The union -/

section Union

variable (hA : A.WellFormed) (hB : B.WellFormed) (hd : A.NamesDistinct)
include hd

theorem placeFrom_eq (hq : q < A.size) : B.placeFrom base (f q) = A.placeFrom base q := by
  have hinj : ∀ p ∈ A.nameOrder, f p = f q → p = q := fun p hp =>
    h.bijOn.injOn (mem_nameOrder.1 hp) hq
  rw [placeFrom, placeFrom, h.nameOrder_eq hd, idxOf_map hinj]

include hA hB

theorem mem_placedEdges_iff {s l d} : (s, l, d) ∈ B.placedEdges (B.placeFrom base) ↔
    (s, l, d) ∈ A.placedEdges (A.placeFrom base) := by
  simp only [mem_placedEdges]
  constructor
  · rintro ⟨p, q, hq, rfl, rfl⟩
    obtain ⟨p, hp, rfl⟩ := h.bijOn.surjOn (hB.source_lt hq)
    obtain ⟨q, hpq, rfl⟩ := (h.mem_targets_iff hA hB hp).1 hq
    exact ⟨p, q, hpq, h.placeFrom_eq hd hp, h.placeFrom_eq hd (hA.target_lt hpq)⟩
  · rintro ⟨p, q, hq, rfl, rfl⟩
    have hp := hA.source_lt hq
    exact ⟨f p, f q, (h.mem_targets_iff hA hB hp).2 ⟨q, hq, rfl⟩, (h.placeFrom_eq hd hp).symm,
      (h.placeFrom_eq hd (hA.target_lt hq)).symm⟩

theorem exists_final_iff {s : State} : (∃ q ∈ B.finals, s = B.placeFrom base q) ↔
    ∃ q ∈ A.finals, s = A.placeFrom base q := by
  constructor
  · rintro ⟨q, hq, rfl⟩
    obtain ⟨q, hlt, rfl⟩ := h.bijOn.surjOn (hB.final_lt hq)
    exact ⟨q, (h.final_iff hlt).1 hq, h.placeFrom_eq hd hlt⟩
  · rintro ⟨q, hq, rfl⟩
    have hlt := hA.final_lt hq
    exact ⟨f q, (h.final_iff hlt).2 hq, (h.placeFrom_eq hd hlt).symm⟩

end Union

/-- The union numbers the states of its operands by their names. -/
theorem alike_unionAutomaton {C D : Automaton} (k : Renumbering C D g) (hA : A.WellFormed)
    (hB : B.WellFormed) (hC : C.WellFormed) (hD : D.WellFormed) (hdA : A.NamesDistinct)
    (hdC : C.NamesDistinct) (hp : p < A.size) (hq : q < C.size) :
    Alike (A.unionAutomaton C p q) (B.unionAutomaton D (f p) (g q)) where
  map_chars_names := by rw [names_unionAutomaton, names_unionAutomaton, h.size_eq, k.size_eq]
  alphabet_eq := congrArg₂ (· ∪ ·) h.alphabet_eq k.alphabet_eq
  transitions_eq := by
    refine Transitions.Compact.ext (.ofEdges _) (.ofEdges _) fun s l d => ?_
    show d ∈ (B.unionAutomaton D (f p) (g q)).targets s l ↔
      d ∈ (A.unionAutomaton C p q).targets s l
    simp only [mem_targets_union, h.mem_placedEdges_iff hA hB hdA, k.mem_placedEdges_iff hC hD hdC,
      h.exists_final_iff hA hB hdA, k.exists_final_iff hC hD hdC, h.size_eq, k.size_eq,
      h.placeFrom_eq hdA hp, k.placeFrom_eq hdC hq]
  initial_eq := rfl
  finals_eq := by rw [unionAutomaton, unionAutomaton, h.size_eq, k.size_eq]

theorem alikeResults_union {C D : Automaton} (k : Renumbering C D g) (hA : A.WellFormed)
    (hB : B.WellFormed) (hC : C.WellFormed) (hD : D.WellFormed) (hdA : A.NamesDistinct)
    (hdC : C.NamesDistinct) : AlikeResults (A.union C) (B.union D) := by
  rw [union, union, h.initial, k.initial]
  cases hp : A.initial with
  | none => exact .error _
  | some p =>
    cases hq : C.initial with
    | none => exact .error _
    | some q =>
      exact .ok (h.alike_unionAutomaton k hA hB hC hD hdA hdC (hA.initial_lt hp) (hC.initial_lt hq))

end Renumbering

/-- If states have distinct names, nothing of how they are numbered is seen in the table of an automaton or
in that of what an operation makes of it, and operations fail for the same reasons. -/
theorem tables_of_renumbering (h : Renumbering A B f) (k : Renumbering C D g) (hA : A.WellFormed)
    (hB : B.WellFormed) (hC : C.WellFormed) (hD : D.WellFormed) (hdA : A.NamesDistinct)
    (hdC : C.NamesDistinct) :
    B.toTable = A.toTable ∧
      toTable <$> B.determinize = toTable <$> A.determinize ∧
      toTable <$> B.complete = toTable <$> A.complete ∧
      toTable <$> B.complement = toTable <$> A.complement ∧
      toTable <$> B.minimize = toTable <$> A.minimize ∧
      toTable <$> B.union D = toTable <$> A.union C ∧
      toTable <$> B.intersection D = toTable <$> A.intersection C ∧
      toTable <$> B.difference D = toTable <$> A.difference C := by
  have hAB := h.determinizeAlike hA hB
  have hCD := k.determinizeAlike hC hD
  exact ⟨h.toTable_eq hA hB hdA, hAB.determinize.toTable_eq, hAB.complete.toTable_eq,
    hAB.complement.toTable_eq, hAB.minimize.toTable_eq,
    (h.alikeResults_union k hA hB hC hD hdA hdC).toTable_eq, (hAB.intersection hCD).toTable_eq,
    (hAB.difference hCD).toTable_eq⟩

def inOrder : List Draft.Request :=
  [.symbol 'a', .symbol 'b', .state "p" true false, .state "q" false true, .edge "p" 'a' "q",
    .edge "p" 'a' "p", .edge "q" '&' "p"]

def outOfOrder : List Draft.Request :=
  [.symbol 'b', .symbol 'a', .state "q" false true, .state "p" true false, .edge "q" '&' "p",
    .edge "p" 'a' "p", .edge "p" 'a' "q"]

def forward : Draft := Draft.empty.requests inOrder

def backward : Draft := Draft.empty.requests outOfOrder

theorem renumbering_backward :
    Renumbering forward.automaton backward.automaton (forward.counterpart backward) := by
  have hforward : Draft.empty.grant inOrder = .ok forward := by rfl
  have hbackward : Draft.empty.grant outOfOrder = .ok backward := by rfl
  have hperm : inOrder.Perm outOfOrder := by decide
  exact Draft.renumbering_of_grant hforward hbackward fun r => hperm.mem_iff

/-- Symbols, states and edges are requested in one order and in another. -/
theorem tables_of_renumbering_backward :
    Renumbering forward.automaton backward.automaton (forward.counterpart backward) ∧
      forward.automaton.WellFormed ∧ backward.automaton.WellFormed ∧
      forward.automaton.NamesDistinct ∧ backward.automaton.toTable = forward.automaton.toTable ∧
      toTable <$> backward.automaton.minimize = toTable <$> forward.automaton.minimize ∧
      toTable <$> backward.automaton.difference backward.automaton =
        toTable <$> forward.automaton.difference forward.automaton := by
  have h := renumbering_backward
  have hA : forward.automaton.WellFormed := Draft.wellFormed_requests _
  have hB : backward.automaton.WellFormed := Draft.wellFormed_requests _
  have hd : forward.automaton.NamesDistinct := (Draft.indexed_empty.requests _).namesDistinct
  obtain ⟨htable, -, -, -, hminimize, -, -, hdifference⟩ :=
    tables_of_renumbering h h hA hB hA hB hd hd
  exact ⟨h, hA, hB, hd, htable, hminimize, hdifference⟩

end RegularLanguages.Automaton
