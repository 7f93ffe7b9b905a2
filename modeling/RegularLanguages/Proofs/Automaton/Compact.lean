import RegularLanguages.Proofs.Automaton.Induced
import RegularLanguages.Proofs.Automaton.Names
/-!
# Transitions as a set of edges

Transitions in which no row and no set of targets is empty are determined by their edges
(`Transitions.Compact.ext`), and adding edges keeps them so. Hence what an automaton is cut down to is
determined by the states that are left (`CutTo.unique`): a part that keeps every state is the whole automaton
(`induce_eq_self`), and from a trim one nothing is dropped.
-/

namespace RegularLanguages

namespace Transitions

/-- Nothing is stored that does not lead to an edge. -/
structure Compact (t : Transitions) : Prop where
  populated : t.Populated
  row_ne_empty {s : State} {cols : SortedMap Label (SortedSet State)} :
    t.rows.get? s = some cols → ∃ l ds, cols.get? l = some ds

variable {t u : Transitions} {s d : State} {l : Label} {cols : SortedMap Label (SortedSet State)}

theorem get?_of_row (h : t.rows.get? s = some cols) : t.get? s l = cols.get? l := by
  simp [SortedTable.get?, h]

namespace Compact

theorem empty : (∅ : Transitions).Compact := ⟨populated_empty, fun h => by cases h⟩

theorem addEdge (h : t.Compact) (e : Edge) : (t.addEdge e).Compact := by
  refine ⟨h.populated.addEdge e, fun {s cols} hs => ?_⟩
  -- if anything stands in the row, then because it did before or because of the new edge
  suffices ∃ l ds, (t.addEdge e).get? s l = some ds by simpa only [get?_of_row hs] using this
  by_cases he : s = e.1
  · have hmem : e.2.2 ∈ (t.addEdge e).targets s e.2.1 := mem_targets_addEdge.2 (.inl (by rw [he]))
    exact ⟨_, Option.isSome_iff_exists.1 ((h.populated.addEdge e).isSome_get?.2 ⟨_, hmem⟩)⟩
  · have hrow : (t.addEdge e).rows.get? s = t.rows.get? s := by
      simp only [Transitions.addEdge, SortedTable.insertWith, SortedTable.modify, SortedTable.insert]
      split
      · simp [he]
      · split <;> simp [he]
    rw [hrow] at hs
    obtain ⟨l, ds, hl⟩ := h.row_ne_empty hs
    refine ⟨l, ds, ?_⟩
    rw [get?_of_row (hrow.trans hs), hl]

theorem addEdges (h : t.Compact) (es : List Edge) : (t.addEdges es).Compact := by
  unfold Transitions.addEdges
  induction es generalizing t with
  | nil => exact h
  | cons e es ih => exact ih (h.addEdge e)

theorem ofEdges (es : List Edge) : (ofEdges es).Compact := empty.addEdges es

theorem row_eq_none_iff (h : t.Compact) : t.rows.get? s = none ↔ ∀ l d, d ∉ t.targets s l := by
  constructor
  · intro hs l d hd
    simp [targets, SortedTable.get?, hs] at hd
  · intro hno
    cases hs : t.rows.get? s with
    | none => rfl
    | some cols =>
      obtain ⟨l, ds, hl⟩ := h.row_ne_empty hs
      have hget : t.get? s l = some ds := by rw [get?_of_row hs, hl]
      obtain ⟨d, hd⟩ := h.populated s l ds hget
      exact absurd (get?_eq_some_targets hget ▸ hd) (hno l d)

theorem get?_eq_none_iff (h : t.Compact) : t.get? s l = none ↔ ∀ d, d ∉ t.targets s l := by
  rw [← not_exists, ← h.populated.isSome_get?, Option.not_isSome_iff_eq_none]

/-- Compact transitions are determined by their edges. -/
theorem ext (ht : t.Compact) (hu : u.Compact)
    (h : ∀ s l d, d ∈ t.targets s l ↔ d ∈ u.targets s l) : t = u := by
  have hget : ∀ s l, t.get? s l = u.get? s l := by
    intro s l
    cases htl : t.get? s l with
    | none =>
      rw [ht.get?_eq_none_iff] at htl
      exact (hu.get?_eq_none_iff.2 fun d hd => htl d ((h s l d).2 hd)).symm
    | some ds =>
      cases hul : u.get? s l with
      | none =>
        obtain ⟨d, hd⟩ := ht.populated s l ds htl
        rw [hu.get?_eq_none_iff] at hul
        exact absurd ((h s l d).1 (get?_eq_some_targets htl ▸ hd)) (hul d)
      | some es =>
        rw [← get?_eq_some_targets htl, ← get?_eq_some_targets hul, SortedSet.ext (h s l)]
  have hrows : t.rows = u.rows := by
    refine SortedMap.ext fun s => ?_
    cases hts : t.rows.get? s with
    | none =>
      rw [ht.row_eq_none_iff] at hts
      exact (hu.row_eq_none_iff.2 fun l d hd => hts l d ((h s l d).2 hd)).symm
    | some cols =>
      cases hus : u.rows.get? s with
      | none =>
        rw [hu.row_eq_none_iff] at hus
        rw [ht.row_eq_none_iff.2 fun l d hd => hus l d ((h s l d).1 hd)] at hts
        cases hts
      | some cols' =>
        refine congrArg some (SortedMap.ext fun l => ?_)
        rw [← get?_of_row hts, ← get?_of_row hus, hget]
  cases t; cases u; cases hrows; rfl

end Compact

end Transitions

namespace Automaton

/-- `B` is `A` cut down to the states of `qs`, with all that is said of them in `A`: state `i` of `B` is the
state of `A` at place `i`. -/
structure CutTo (B A : Automaton) (qs : List State) : Prop where
  names_eq : B.names.toList = qs.map A.name
  alphabet_eq : B.alphabet = A.alphabet
  initial_iff {i : State} : B.initial = some i ↔ ∃ q, A.initial = some q ∧ qs[i]? = some q
  final_iff {i : State} : i ∈ B.finals ↔ ∃ q, qs[i]? = some q ∧ q ∈ A.finals
  target_iff {i j : State} {l : Label} : j ∈ B.targets i l ↔
    ∃ p q, qs[i]? = some p ∧ qs[j]? = some q ∧ q ∈ A.targets p l

variable {A B C : Automaton} {keep : SortedSet State} {ps qs is : List State} {p q : State}

theorem getElem?_states {i : Nat} : A.states[i]? = some q ↔ i < A.size ∧ i = q := by
  simp [states, List.getElem?_eq_some_iff]

theorem kept_eq_states (h : ∀ q < A.size, q ∈ keep) : A.kept keep = A.states := by
  refine List.filter_eq_self.2 fun q hq => ?_
  simpa using h q (mem_states.1 hq)

theorem cutTo_induce (A : Automaton) (keep : SortedSet State) :
    (A.induce keep).CutTo A (A.kept keep) where
  names_eq := rfl
  alphabet_eq := rfl
  initial_iff := initial_induce
  final_iff := mem_finals_induce
  target_iff := mem_targets_induce

theorem WellFormed.cutTo_self (hA : A.WellFormed) : A.CutTo A A.states where
  names_eq := A.map_name_states.symm
  alphabet_eq := rfl
  initial_iff {i} := by
    simp only [getElem?_states]
    constructor
    · intro hi
      exact ⟨i, hi, hA.initial_lt hi, rfl⟩
    · rintro ⟨q, hq, -, rfl⟩
      exact hq
  final_iff {i} := by
    simp only [getElem?_states]
    constructor
    · intro hi
      exact ⟨i, ⟨hA.final_lt hi, rfl⟩, hi⟩
    · rintro ⟨q, ⟨-, rfl⟩, hq⟩
      exact hq
  target_iff {i j l} := by
    simp only [getElem?_states]
    constructor
    · intro he
      exact ⟨i, j, ⟨hA.source_lt he, rfl⟩, ⟨hA.target_lt he, rfl⟩, he⟩
    · rintro ⟨p, q, ⟨-, rfl⟩, ⟨-, rfl⟩, he⟩
      exact he

namespace CutTo

theorem name_eq (h : B.CutTo A qs) {i : Nat} (hi : qs[i]? = some q) : B.name i = A.name q := by
  rw [name, ← Array.getElem?_toList, h.names_eq, List.getElem?_map, hi, Option.map_some, Option.getD_some]

/-- The states that are kept say what is left. -/
theorem unique (hB : B.CutTo A qs) (hC : C.CutTo A qs) (hb : B.transitions.Compact)
    (hc : C.transitions.Compact) : B = C := by
  have hnames : B.names = C.names := Array.toList_inj.1 (hB.names_eq.trans hC.names_eq.symm)
  have htransitions : B.transitions = C.transitions :=
    hb.ext hc fun i l j => hB.target_iff.trans hC.target_iff.symm
  have hinitial : B.initial = C.initial := Option.ext fun i => hB.initial_iff.trans hC.initial_iff.symm
  have hfinals : B.finals = C.finals := SortedSet.ext fun i => hB.final_iff.trans hC.final_iff.symm
  calc B = ⟨B.names, B.alphabet, B.transitions, B.initial, B.finals⟩ := rfl
    _ = C := by rw [hnames, hB.alphabet_eq.trans hC.alphabet_eq.symm, htransitions, hinitial, hfinals]

/-- What is cut down twice is cut down to the states that are left of those left. -/
theorem trans (hB : B.CutTo A ps) (hC : C.CutTo B is) {f : State → State}
    (hf : ∀ i ∈ is, ps[i]? = some (f i)) : C.CutTo A (is.map f) := by
  have hget : ∀ {k q : Nat}, (is.map f)[k]? = some q ↔ ∃ i, is[k]? = some i ∧ ps[i]? = some q := by
    intro k q
    rw [List.getElem?_map, Option.map_eq_some_iff]
    refine exists_congr fun i => and_congr_right fun hi => ?_
    rw [hf i (List.mem_of_getElem? hi), Option.some.injEq]
  refine ⟨?_, hC.alphabet_eq.trans hB.alphabet_eq, ?_, ?_, ?_⟩
  · rw [hC.names_eq, List.map_map]
    exact List.map_congr_left fun i hi => hB.name_eq (hf i hi)
  · intro k
    simp only [hC.initial_iff, hB.initial_iff, hget]
    constructor
    · rintro ⟨i, ⟨q, hq, hi⟩, hk⟩
      exact ⟨q, hq, i, hk, hi⟩
    · rintro ⟨q, hq, i, hk, hi⟩
      exact ⟨i, ⟨q, hq, hi⟩, hk⟩
  · intro k
    simp only [hC.final_iff, hB.final_iff, hget]
    constructor
    · rintro ⟨i, hk, q, hi, hq⟩
      exact ⟨q, ⟨i, hk, hi⟩, hq⟩
    · rintro ⟨q, ⟨i, hk, hi⟩, hq⟩
      exact ⟨i, hk, q, hi, hq⟩
  · intro k m l
    simp only [hC.target_iff, hB.target_iff, hget]
    constructor
    · rintro ⟨i, j, hk, hm, p, q, hi, hj, he⟩
      exact ⟨p, q, ⟨i, hk, hi⟩, ⟨j, hm, hj⟩, he⟩
    · rintro ⟨p, q, ⟨i, hk, hi⟩, ⟨j, hm, hj⟩, he⟩
      exact ⟨i, j, hk, hm, p, q, hi, hj, he⟩

end CutTo

/-- A part that keeps every state is the automaton itself. -/
theorem induce_eq_self (hA : A.WellFormed) (ht : A.transitions.Compact)
    (h : ∀ q < A.size, q ∈ keep) : A.induce keep = A := by
  have hcut := A.cutTo_induce keep
  rw [kept_eq_states h] at hcut
  exact hcut.unique hA.cutTo_self (.ofEdges _) ht

namespace Trim

variable (hT : A.Trim) (hA : A.WellFormed) (ht : A.transitions.Compact)
include hT hA ht

theorem livePart_eq : A.livePart = A :=
  induce_eq_self hA ht fun _ hq => hA.mem_live.2 (hT.live hq)

theorem reachablePart_eq (hp : A.initial = some p) : A.reachablePart = .ok A := by
  rw [Automaton.reachablePart_eq hp]
  refine congrArg Except.ok (induce_eq_self hA ht fun q hq => ?_)
  obtain ⟨p', w, hp', hw⟩ := hT.reached hq
  obtain rfl := Option.some.inj (hp.symm.trans hp')
  exact hA.mem_reach.2 ⟨w, hw⟩

end Trim

end Automaton

end RegularLanguages
