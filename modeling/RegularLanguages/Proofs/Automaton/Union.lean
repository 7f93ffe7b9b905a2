import RegularLanguages.Automaton.Boolean
import RegularLanguages.Proofs.Automaton.WellFormed
/-!
# Unions

The union holds a copy of each operand: the copy has the edges of the operand, and its final states
lead to the one final state of the union (`Hosts`). A path from the new initial state enters one of the
copies and runs there to the end.
-/

namespace RegularLanguages.Automaton

/-- The place of `q` among the states in the order of their names, counted from `base`. -/
def placeFrom (A : Automaton) (base : Nat) (q : State) : Nat := base + A.nameOrder.idxOf q

def unionAutomaton (A B : Automaton) (p q : State) : Automaton where
  names := ((List.range (1 + A.size + B.size + 1)).map .numbered).toArray
  alphabet := A.alphabet ∪ B.alphabet
  transitions := .ofEdges <|
    A.placedEdges (A.placeFrom 1) ++ B.placedEdges (B.placeFrom (1 + A.size)) ++
      [(0, .epsilon, A.placeFrom 1 p), (0, .epsilon, B.placeFrom (1 + A.size) q)] ++
      (A.finals.toList.map (A.placeFrom 1) ++
        B.finals.toList.map (B.placeFrom (1 + A.size))).map (·, .epsilon, 1 + A.size + B.size)
  initial := some 0
  finals := .singleton (1 + A.size + B.size)

/-- Within `U` the automaton `A` runs at other places, and its final states lead on to `last`. -/
structure Hosts (U A : Automaton) (place : State → Nat) (last : Nat) : Prop where
  mem_targets {q : State} {d : Nat} {l : Label} : q < A.size → (d ∈ U.targets (place q) l ↔
    (∃ r ∈ A.targets q l, d = place r) ∨ (d = last ∧ l = .epsilon ∧ q ∈ A.finals))
  not_last {q : State} : q < A.size → place q ≠ last
  no_exit {d : State} {l : Label} : d ∉ U.targets last l
  symbol_mem {x : Symbol} : x ∈ A.alphabet → x ∈ U.alphabet

variable {A B U : Automaton} {p q r d s last base : Nat} {l : Label} {w : List Char}
  {place : State → Nat}

theorem union_eq (hp : A.initial = some p) (hq : B.initial = some q) :
    A.union B = .ok (A.unionAutomaton B p q) := by
  rw [union, hp, hq]
  rfl

theorem union_of_no_initial (h : A.initial = none ∨ B.initial = none) :
    A.union B = .error .noInitialState := by
  unfold union
  split
  · rename_i hp hq
    rw [hp, hq] at h
    rcases h with h | h <;> cases h
  · rfl

/-! ### Copies -/

theorem Hosts.path_last (h : Hosts U A place last) (hp : U.Path last w q) : w = [] := by
  cases hp with
  | nil => rfl
  | epsilon he _ => exact absurd he h.no_exit
  | symbol _ he _ => exact absurd he h.no_exit

/-- From a state of the copy `last` is reached on the words that the operand accepts there. -/
theorem Hosts.path_iff (h : Hosts U A place last) (hA : A.WellFormed) (hq : q < A.size) :
    U.Path (place q) w last ↔ w ∈ A.languageFrom q := by
  rw [mem_languageFrom]
  constructor
  · intro hp
    generalize hs : place q = s at hp
    generalize hl : last = t at hp
    induction hp generalizing q with
    | nil _ => exact absurd (hs.trans hl.symm) (h.not_last hq)
    | epsilon he hrest ih =>
      subst hs hl
      rcases (h.mem_targets hq).1 he with ⟨r, hr, rfl⟩ | ⟨rfl, -, hf⟩
      · obtain ⟨f, hf, hp⟩ := ih (hA.target_lt hr) rfl rfl
        exact ⟨f, hf, .epsilon hr hp⟩
      · rw [h.path_last hrest]
        exact ⟨q, hf, .nil q⟩
    | symbol hc he hrest ih =>
      subst hs hl
      rcases (h.mem_targets hq).1 he with ⟨r, hr, rfl⟩ | ⟨-, hl, -⟩
      · obtain ⟨f, hf, hp⟩ := ih (hA.target_lt hr) rfl rfl
        exact ⟨f, hf, .symbol (hA.symbol?_of_mem hc hr) hr hp⟩
      · cases hl
  · rintro ⟨f, hf, hp⟩
    induction hp with
    | nil q => exact .edge_epsilon ((h.mem_targets hq).2 (.inr ⟨rfl, rfl, hf⟩))
    | epsilon he _ ih =>
      exact .epsilon ((h.mem_targets hq).2 (.inl ⟨_, he, rfl⟩)) (ih (hA.target_lt he) hf)
    | symbol hc he _ ih =>
      obtain ⟨hx, hmem⟩ := symbol?_eq_some.1 hc
      exact .symbol (symbol?_eq_some.2 ⟨hx, h.symbol_mem hmem⟩)
        ((h.mem_targets hq).2 (.inl ⟨_, he, rfl⟩)) (ih (hA.target_lt he) hf)

/-! ### Places -/

theorem mem_nameOrder : q ∈ A.nameOrder ↔ q < A.size := by
  rw [nameOrder, (List.mergeSort_perm _ _).mem_iff, mem_states]

theorem length_nameOrder : A.nameOrder.length = A.size := by
  rw [nameOrder, List.length_mergeSort, states, List.length_range]

theorem le_placeFrom (A : Automaton) (base : Nat) (q : State) : base ≤ A.placeFrom base q := Nat.le_add_right _ _

theorem placeFrom_lt (base : Nat) (hq : q < A.size) : A.placeFrom base q < base + A.size := by
  have h := List.idxOf_lt_length_iff.2 (mem_nameOrder.2 hq)
  rw [length_nameOrder] at h
  exact Nat.add_lt_add_left h base

theorem placeFrom_inj (hp : p < A.size) (h : A.placeFrom base p = A.placeFrom base q) : p = q :=
  (List.idxOf_inj (mem_nameOrder.2 hp)).1 (Nat.add_left_cancel h)

theorem mem_placedEdges : (s, l, d) ∈ A.placedEdges place ↔
    ∃ q, ∃ r ∈ A.targets q l, s = place q ∧ d = place r := by
  simp only [placedEdges, edges, List.mem_map, Prod.exists, Transitions.mem_edges, Prod.mk.injEq]
  constructor
  · rintro ⟨q, l, r, hr, rfl, rfl, rfl⟩
    exact ⟨q, r, hr, rfl, rfl⟩
  · rintro ⟨q, r, hr, rfl, rfl⟩
    exact ⟨q, l, r, hr, rfl, rfl, rfl⟩

theorem mem_placedEdges_placeFrom (hq : q < A.size) :
    (A.placeFrom base q, l, d) ∈ A.placedEdges (A.placeFrom base) ↔
      ∃ r ∈ A.targets q l, d = A.placeFrom base r := by
  rw [mem_placedEdges]
  constructor
  · rintro ⟨q', r, hr, hq', hd⟩
    rw [placeFrom_inj hq hq']
    exact ⟨r, hr, hd⟩
  · rintro ⟨r, hr, hd⟩
    exact ⟨q, r, hr, rfl, hd⟩

theorem placedEdges_source (hA : A.WellFormed) (h : (s, l, d) ∈ A.placedEdges (A.placeFrom base)) :
    base ≤ s ∧ s < base + A.size := by
  obtain ⟨q, r, hr, rfl, -⟩ := mem_placedEdges.1 h
  exact ⟨le_placeFrom _ _ _, placeFrom_lt _ (hA.source_lt hr)⟩

theorem placedEdges_target (hA : A.WellFormed) (h : (s, l, d) ∈ A.placedEdges (A.placeFrom base)) :
    base ≤ d ∧ d < base + A.size := by
  obtain ⟨q, r, hr, -, rfl⟩ := mem_placedEdges.1 h
  exact ⟨le_placeFrom _ _ _, placeFrom_lt _ (hA.target_lt hr)⟩

/-! ### The union -/

theorem mem_targets_union : d ∈ (A.unionAutomaton B p q).targets s l ↔
    (s, l, d) ∈ A.placedEdges (A.placeFrom 1) ∨
      (s, l, d) ∈ B.placedEdges (B.placeFrom (1 + A.size)) ∨
      (s = 0 ∧ l = .epsilon ∧ (d = A.placeFrom 1 p ∨ d = B.placeFrom (1 + A.size) q)) ∨
      (d = 1 + A.size + B.size ∧ l = .epsilon ∧
        ((∃ f ∈ A.finals, s = A.placeFrom 1 f) ∨ ∃ f ∈ B.finals, s = B.placeFrom (1 + A.size) f)) := by
  change d ∈ (Transitions.ofEdges _).targets s l ↔ _
  rw [Transitions.mem_targets_ofEdges]
  simp only [List.mem_append, List.mem_cons, List.not_mem_nil, or_false, List.mem_map, Prod.mk.injEq,
    SortedSet.mem_toList, or_assoc]
  refine or_congr_right (or_congr_right ?_)
  constructor
  · rintro (⟨hs, hl, hd⟩ | ⟨hs, hl, hd⟩ | ⟨_, ⟨f, hf, rfl⟩ | ⟨f, hf, rfl⟩, rfl, rfl, rfl⟩)
    · exact .inl ⟨hs, hl, .inl hd⟩
    · exact .inl ⟨hs, hl, .inr hd⟩
    · exact .inr ⟨rfl, rfl, .inl ⟨f, hf, rfl⟩⟩
    · exact .inr ⟨rfl, rfl, .inr ⟨f, hf, rfl⟩⟩
  · rintro (⟨hs, hl, hd | hd⟩ | ⟨rfl, rfl, ⟨f, hf, rfl⟩ | ⟨f, hf, rfl⟩⟩)
    · exact .inl ⟨hs, hl, hd⟩
    · exact .inr (.inl ⟨hs, hl, hd⟩)
    · exact .inr (.inr ⟨_, .inl ⟨f, hf, rfl⟩, rfl, rfl, rfl⟩)
    · exact .inr (.inr ⟨_, .inr ⟨f, hf, rfl⟩, rfl, rfl, rfl⟩)

theorem size_unionAutomaton : (A.unionAutomaton B p q).size = 1 + A.size + B.size + 1 := by
  simp [size, unionAutomaton]

/-- The states of the union show `q0`, `q1`, … in this order, whatever the operands show. -/
theorem texts_unionAutomaton : (A.unionAutomaton B p q).names.toList.map StateName.text =
    (List.range (A.size + B.size + 2)).map fun k => "q" ++ toString k := by
  have hlast : 1 + A.size + B.size + 1 = A.size + B.size + 2 := by omega
  simp only [unionAutomaton, hlast, List.map_map]
  exact List.map_congr_left fun k _ => StateName.text_numbered k

theorem nodup_texts_unionAutomaton :
    ((A.unionAutomaton B p q).names.toList.map StateName.text).Nodup := by
  simp only [unionAutomaton, List.map_map]
  exact List.nodup_range.map fun j k h => StateName.text_numbered_injective h

theorem not_mem_targets_union_last (hA : A.WellFormed) (hB : B.WellFormed) :
    d ∉ (A.unionAutomaton B p q).targets (1 + A.size + B.size) l := by
  intro h
  rcases mem_targets_union.1 h with h | h | ⟨h, -⟩ | ⟨-, -, ⟨f, hf, h⟩ | ⟨f, hf, h⟩⟩
  · have := placedEdges_source hA h
    omega
  · have := placedEdges_source hB h
    omega
  · omega
  · have := placeFrom_lt 1 (hA.final_lt hf)
    omega
  · have := placeFrom_lt (1 + A.size) (hB.final_lt hf)
    omega

theorem hosts_left (hA : A.WellFormed) (hB : B.WellFormed) :
    Hosts (A.unionAutomaton B p q) A (A.placeFrom 1) (1 + A.size + B.size) := by
  refine ⟨fun {r d l} hr => ?_, fun hr => ?_, not_mem_targets_union_last hA hB,
    fun hx => SortedSet.mem_union.2 (.inl hx)⟩
  · have hlo := le_placeFrom A 1 r
    have hhi := placeFrom_lt 1 hr
    rw [mem_targets_union, mem_placedEdges_placeFrom hr]
    refine or_congr_right ⟨?_, ?_⟩
    · rintro (h | ⟨h, -⟩ | ⟨hd, hl, ⟨f, hf, h⟩ | ⟨f, hf, h⟩⟩)
      · have := placedEdges_source hB h
        omega
      · omega
      · rw [placeFrom_inj hr h]
        exact ⟨hd, hl, hf⟩
      · have := le_placeFrom B (1 + A.size) f
        omega
    · rintro ⟨hd, hl, hf⟩
      exact .inr (.inr ⟨hd, hl, .inl ⟨r, hf, rfl⟩⟩)
  · have := placeFrom_lt 1 hr
    omega

theorem hosts_right (hA : A.WellFormed) (hB : B.WellFormed) :
    Hosts (A.unionAutomaton B p q) B (B.placeFrom (1 + A.size)) (1 + A.size + B.size) := by
  refine ⟨fun {r d l} hr => ?_, fun hr => ?_, not_mem_targets_union_last hA hB,
    fun hx => SortedSet.mem_union.2 (.inr hx)⟩
  · have hlo := le_placeFrom B (1 + A.size) r
    rw [mem_targets_union, mem_placedEdges_placeFrom hr]
    constructor
    · rintro (h | h | ⟨h, -⟩ | ⟨hd, hl, ⟨f, hf, h⟩ | ⟨f, hf, h⟩⟩)
      · have := placedEdges_source hA h
        omega
      · exact .inl h
      · omega
      · have := placeFrom_lt 1 (hA.final_lt hf)
        omega
      · rw [placeFrom_inj hr h]
        exact .inr ⟨hd, hl, hf⟩
    · rintro (h | ⟨hd, hl, hf⟩)
      · exact .inr (.inl h)
      · exact .inr (.inr (.inr ⟨hd, hl, .inr ⟨r, hf, rfl⟩⟩))
  · have := placeFrom_lt (1 + A.size) hr
    omega

/-- Every edge of the union joins two of its states and carries a symbol of an operand. -/
theorem edge_union (hA : A.WellFormed) (hB : B.WellFormed) (hp : p < A.size) (hq : q < B.size)
    (h : d ∈ (A.unionAutomaton B p q).targets s l) :
    s < 1 + A.size + B.size + 1 ∧ d < 1 + A.size + B.size + 1 ∧
      ∀ x, l = .symbol x → x ∈ A.alphabet ∪ B.alphabet := by
  rcases mem_targets_union.1 h with h | h | ⟨rfl, rfl, hd⟩ | ⟨rfl, rfl, hs⟩
  · have hs := placedEdges_source hA h
    have hd := placedEdges_target hA h
    refine ⟨by omega, by omega, ?_⟩
    rintro x rfl
    obtain ⟨r, t, ht, -, -⟩ := mem_placedEdges.1 h
    exact SortedSet.mem_union.2 (.inl (hA.symbol_mem ht))
  · have hs := placedEdges_source hB h
    have hd := placedEdges_target hB h
    refine ⟨by omega, by omega, ?_⟩
    rintro x rfl
    obtain ⟨r, t, ht, -, -⟩ := mem_placedEdges.1 h
    exact SortedSet.mem_union.2 (.inr (hB.symbol_mem ht))
  · have hpl := placeFrom_lt 1 hp
    have hql := placeFrom_lt (1 + A.size) hq
    refine ⟨by omega, ?_, fun x hx => by cases hx⟩
    rcases hd with rfl | rfl <;> omega
  · refine ⟨?_, by omega, fun x hx => by cases hx⟩
    rcases hs with ⟨f, hf, rfl⟩ | ⟨f, hf, rfl⟩
    · have := placeFrom_lt 1 (hA.final_lt hf)
      omega
    · have := placeFrom_lt (1 + A.size) (hB.final_lt hf)
      omega

theorem wellFormed_unionAutomaton (hA : A.WellFormed) (hB : B.WellFormed) (hp : A.initial = some p)
    (hq : B.initial = some q) : (A.unionAutomaton B p q).WellFormed := by
  have hpl := hA.initial_lt hp
  have hql := hB.initial_lt hq
  refine ⟨fun h => ?_, fun h => ?_, fun h => ?_, fun h => ?_, fun h => ?_, ?_⟩
  · rw [size_unionAutomaton, ← Option.some.inj h]
    exact Nat.zero_lt_succ _
  · rw [size_unionAutomaton, SortedSet.mem_singleton.1 h]
    exact Nat.lt_succ_self _
  · rw [size_unionAutomaton]
    exact (edge_union hA hB hpl hql h).1
  · rw [size_unionAutomaton]
    exact (edge_union hA hB hpl hql h).2.1
  · exact (edge_union hA hB hpl hql h).2.2 _ rfl
  · exact Transitions.populated_ofEdges _

/-- Nothing but the two entries leaves the initial state. -/
theorem mem_targets_union_zero (hA : A.WellFormed) (hB : B.WellFormed) :
    d ∈ (A.unionAutomaton B p q).targets 0 l ↔
      l = .epsilon ∧ (d = A.placeFrom 1 p ∨ d = B.placeFrom (1 + A.size) q) := by
  rw [mem_targets_union]
  constructor
  · rintro (h | h | ⟨-, hl, hd⟩ | ⟨-, -, ⟨f, -, h⟩ | ⟨f, -, h⟩⟩)
    · have := placedEdges_source hA h
      omega
    · have := placedEdges_source hB h
      omega
    · exact ⟨hl, hd⟩
    · have := le_placeFrom A 1 f
      omega
    · have := le_placeFrom B (1 + A.size) f
      omega
  · rintro ⟨hl, hd⟩
    exact .inr (.inr (.inl ⟨rfl, hl, hd⟩))

theorem language_unionAutomaton (hA : A.WellFormed) (hB : B.WellFormed) (hp : A.initial = some p)
    (hq : B.initial = some q) : (A.unionAutomaton B p q).language = A.language + B.language := by
  ext w
  rw [language_eq (A := A.unionAutomaton B p q) rfl, Language.mem_add, language_eq hp, language_eq hq,
    ← (hosts_left hA hB).path_iff hA (hA.initial_lt hp),
    ← (hosts_right hA hB).path_iff hB (hB.initial_lt hq), mem_languageFrom]
  constructor
  · rintro ⟨f, hf, hw⟩
    obtain rfl := SortedSet.mem_singleton.1 hf
    generalize hs : 0 = s at hw
    cases hw with
    | nil => omega
    | epsilon he hrest =>
      subst hs
      rcases ((mem_targets_union_zero hA hB).1 he).2 with rfl | rfl
      · exact .inl hrest
      · exact .inr hrest
    | symbol _ he _ =>
      subst hs
      cases ((mem_targets_union_zero hA hB).1 he).1
  · intro h
    refine ⟨_, SortedSet.mem_singleton.2 rfl, ?_⟩
    rcases h with hw | hw
    · exact .epsilon ((mem_targets_union_zero hA hB).2 ⟨rfl, .inl rfl⟩) hw
    · exact .epsilon ((mem_targets_union_zero hA hB).2 ⟨rfl, .inr rfl⟩) hw

end RegularLanguages.Automaton
