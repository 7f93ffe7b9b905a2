import RegularLanguages.Proofs.Automaton.Compact
import RegularLanguages.Proofs.Automaton.Deterministic
import RegularLanguages.Proofs.Automaton.DistinctNames
import RegularLanguages.Proofs.StateTable.Renumbering
/-!
# Automata that show the same

Two automata that are the same but for how their names are built, with names that show the same texts, are
alike, and they have one table (`Alike.toTable_eq`). No operation looks at more of a name than its text, so
of alike automata it makes alike ones. As most operations begin with the subset construction, they also do
so of automata of which this makes alike ones (`DeterminizeAlike`).
-/

namespace RegularLanguages.Automaton

/-- The automata differ in their names only, and there the same texts are shown place by place. -/
structure Alike (A B : Automaton) : Prop where
  map_chars_names : B.names.toList.map StateName.chars = A.names.toList.map StateName.chars
  alphabet_eq : B.alphabet = A.alphabet
  transitions_eq : B.transitions = A.transitions
  initial_eq : B.initial = A.initial
  finals_eq : B.finals = A.finals

/-- Both fail for the same reason, or both give automata that are alike. -/
inductive AlikeResults : Except Error Automaton → Except Error Automaton → Prop
  | ok {A B : Automaton} (h : Alike A B) : AlikeResults (.ok A) (.ok B)
  | error (e : Error) : AlikeResults (.error e) (.error e)

variable {A B C D : Automaton} {p q : State} {s : SortedSet State}

namespace Alike

variable (h : Alike A B)
include h

/-! ### What is read of an automaton -/

theorem eq_renamed : B = { A with names := B.names } := by
  obtain ⟨-, ha, ht, hi, hf⟩ := h
  cases A; cases B; cases ha; cases ht; cases hi; cases hf
  rfl

theorem size_eq : B.size = A.size := by
  simpa [size] using congrArg List.length h.map_chars_names

theorem states_eq : B.states = A.states := by rw [states, states, h.size_eq]

theorem chars_name (q : State) : (B.name q).chars = (A.name q).chars := by
  have hget := congrArg (·[q]?) h.map_chars_names
  simp only [List.getElem?_map, Array.getElem?_toList] at hget
  rw [name, name, ← Option.getD_map StateName.chars, ← Option.getD_map StateName.chars, hget]

theorem map_chars_map_name (qs : List State) :
    (qs.map B.name).map StateName.chars = (qs.map A.name).map StateName.chars := by
  rw [List.map_map, List.map_map]
  exact List.map_congr_left fun q _ => h.chars_name q

theorem closure_eq (s : SortedSet State) : B.closure s = A.closure s := by rw [h.eq_renamed]; rfl

theorem subsets_eq (s : SortedSet State) : B.subsets s = A.subsets s := by rw [h.eq_renamed]; rfl

theorem reach_eq (p : State) : B.reach p = A.reach p := by rw [h.eq_renamed]; rfl

theorem live_eq : B.live = A.live := by rw [h.eq_renamed]; rfl

theorem kept_eq (keep : SortedSet State) : B.kept keep = A.kept keep := by
  rw [kept, kept, h.states_eq]

theorem nameOrder_eq : B.nameOrder = A.nameOrder := by
  have hcompare : (fun p q => (compare (B.name p) (B.name q)).isLE) =
      fun p q => (compare (A.name p) (A.name q)).isLE := by
    funext p q
    rw [StateName.compare_def, StateName.compare_def, h.chars_name, h.chars_name]
  rw [nameOrder, nameOrder, h.states_eq, hcompare]

theorem isState_eq (s : String) : B.isState s = A.isState s := by
  have hshown : ∀ C : Automaton, C.isState s = true ↔ s.toList ∈ C.names.toList.map StateName.chars := by
    intro C
    rw [isState_iff, List.mem_map]
    simp only [Array.mem_toList_iff, StateName.text, ← String.toList_inj, String.toList_ofList]
  rw [Bool.eq_iff_iff, hshown, hshown, h.map_chars_names]

theorem missing_eq : B.missing = A.missing := by
  rw [missing, missing, h.states_eq, h.alphabet_eq, h.transitions_eq]

theorem unusedName_eq : B.unusedName = A.unusedName := by
  simp only [unusedName, h.isState_eq, h.size_eq]

theorem labels_eq : B.labels = A.labels := by rw [labels, labels, h.alphabet_eq]

theorem successor_eq : B.successor = A.successor := by
  funext q l
  simp only [successor, targets, sink, h.transitions_eq, h.size_eq]

theorem leader_eq : B.classes.leader = A.classes.leader := by
  have hsize : ∀ n, n = A.size → ((Partition.byKey (n + 1) fun q => decide (q ∈ A.finals)).settle
      fun q => A.labels.map (A.successor q)).leader = A.classes.leader := by
    rintro _ rfl
    rfl
  rw [classes, h.finals_eq, h.labels_eq, h.successor_eq]
  exact hsize _ h.size_eq

theorem leaders_eq : B.leaders B.classes = A.leaders A.classes := by
  rw [leaders, leaders, h.states_eq, h.leader_eq]

theorem members_eq (q : State) : B.members q = A.members q := by
  rw [members, members, h.states_eq, h.leader_eq]

theorem classOf_eq : B.classOf = A.classOf := by
  funext q
  rw [classOf, classOf, h.leaders_eq, h.leader_eq]

theorem chars_className (qs : List State) : (B.className qs).chars = (A.className qs).chars := by
  have hmerge : (StateName.merge (qs.map B.name)).chars = (StateName.merge (qs.map A.name)).chars :=
    StateName.chars_merge_eq fun cs => by rw [h.map_chars_map_name]
  match qs with
  | [] => exact hmerge
  | [q] => exact h.chars_name q
  | _ :: _ :: _ => exact hmerge

/-! ### The steps of the operations -/

theorem addSymbols (extra : SortedSet Symbol) : Alike (A.addSymbols extra) (B.addSymbols extra) where
  map_chars_names := h.map_chars_names
  alphabet_eq := congrArg (extra ∪ ·) h.alphabet_eq
  transitions_eq := h.transitions_eq
  initial_eq := h.initial_eq
  finals_eq := h.finals_eq

theorem subsetAutomaton (p : State) : Alike (A.subsetAutomaton p) (B.subsetAutomaton p) := by
  have hsubsets : B.subsets (B.closure (.singleton p)) = A.subsets (A.closure (.singleton p)) := by
    rw [h.subsets_eq, h.closure_eq]
  refine ⟨?_, h.alphabet_eq, ?_, rfl, ?_⟩
  · rw [names_subsetAutomaton, names_subsetAutomaton, hsubsets, List.map_map, List.map_map]
    refine List.map_congr_left fun s _ => StateName.chars_merge_eq fun cs => ?_
    rw [h.map_chars_map_name]
  · rw [Automaton.subsetAutomaton, hsubsets]
    rfl
  · rw [Automaton.subsetAutomaton, hsubsets]
    rfl

theorem induce (keep : SortedSet State) : Alike (A.induce keep) (B.induce keep) := by
  have hkept := h.kept_eq keep
  unfold kept at hkept
  refine ⟨?_, h.alphabet_eq, ?_, ?_, ?_⟩
  · rw [names_induce, names_induce, h.kept_eq, h.map_chars_map_name]
  · rw [Automaton.induce, Automaton.induce]
    simp only [hkept, edges, h.transitions_eq]
  · simp only [Automaton.induce, hkept, h.initial_eq]
  · simp only [Automaton.induce, hkept, h.finals_eq]

theorem flipFinals : Alike A.flipFinals B.flipFinals where
  map_chars_names := h.map_chars_names
  alphabet_eq := h.alphabet_eq
  transitions_eq := h.transitions_eq
  initial_eq := h.initial_eq
  finals_eq := by rw [Automaton.flipFinals, Automaton.flipFinals, h.states_eq, h.finals_eq]

theorem addSink : Alike A.addSink B.addSink := by
  rw [Automaton.addSink, Automaton.addSink, h.missing_eq]
  split
  · exact h
  · refine ⟨?_, h.alphabet_eq, ?_, h.initial_eq, h.finals_eq⟩
    · simp [addEdges, addState, h.unusedName_eq, h.map_chars_names]
    · simp only [addEdges, addState, h.transitions_eq, h.alphabet_eq, h.size_eq]

theorem quotient : Alike A.quotient B.quotient := by
  refine ⟨?_, h.alphabet_eq, ?_, ?_, ?_⟩
  · rw [names_quotient, names_quotient, h.leaders_eq, List.map_map, List.map_map]
    refine List.map_congr_left fun q _ => ?_
    rw [Function.comp_apply, Function.comp_apply, h.members_eq, h.chars_className]
  · refine Transitions.Compact.ext (.ofEdges _) (.ofEdges _) fun p l q => ?_
    show q ∈ B.quotient.targets p l ↔ q ∈ A.quotient.targets p l
    simp only [mem_targets_quotient, h.leaders_eq, h.labels_eq, h.transitions_eq, h.classOf_eq,
      h.successor_eq]
  · rw [initial_quotient, initial_quotient, h.initial_eq, h.classOf_eq]
  · refine SortedSet.ext fun q => ?_
    simp only [mem_finals_quotient, h.leaders_eq, h.members_eq, h.finals_eq]

/-! ### Tables -/

theorem markedName_eq (q : State) : B.markedName q = A.markedName q := by
  rw [markedName, markedName, h.finals_eq, h.initial_eq, h.chars_name]

theorem targetCell_eq (q : State) (l : Label) : B.targetCell q l = A.targetCell q l := by
  rw [targetCell, targetCell, map_chars_sortNames, map_chars_sortNames, targets, h.transitions_eq,
    h.map_chars_map_name]
  rfl

theorem tableLabels_eq : B.tableLabels = A.tableLabels := by
  rw [tableLabels, tableLabels, hasEpsilon, hasEpsilon, h.transitions_eq, h.alphabet_eq]

theorem tableOrder_eq : B.tableOrder = A.tableOrder := by
  rw [tableOrder, tableOrder, h.nameOrder_eq, h.initial_eq, h.finals_eq]

/-- Alike automata have one table, also if names in it are equal. -/
theorem toTable_eq : B.toTable = A.toTable := by
  simp only [toTable, h.tableLabels_eq, h.tableOrder_eq, h.markedName_eq, h.targetCell_eq]

end Alike

namespace AlikeResults

variable {x y : Except Error Automaton}

theorem bind {f g : Automaton → Except Error Automaton} (h : AlikeResults x y)
    (hfg : ∀ {A B}, Alike A B → AlikeResults (f A) (g B)) : AlikeResults (x >>= f) (y >>= g) := by
  cases h with
  | ok h => exact hfg h
  | error e => exact .error e

theorem of_eq (h : y = x) : AlikeResults x y := by
  subst h
  cases y with
  | ok A => exact .ok ⟨rfl, rfl, rfl, rfl, rfl⟩
  | error e => exact .error e

theorem toTable_eq (h : AlikeResults x y) : toTable <$> y = toTable <$> x := by
  cases h with
  | ok h => exact congrArg Except.ok h.toTable_eq
  | error e => rfl

end AlikeResults

/-! ### Operations -/

namespace Alike

variable (h : Alike A B)
include h

theorem determinize : AlikeResults A.determinize B.determinize := by
  rw [Automaton.determinize, Automaton.determinize, h.initial_eq]
  cases A.initial with
  | none => exact .error _
  | some p => exact .ok (h.subsetAutomaton p)

theorem reachablePart : AlikeResults A.reachablePart B.reachablePart := by
  rw [Automaton.reachablePart, Automaton.reachablePart, h.initial_eq]
  cases A.initial with
  | none => exact .error _
  | some p => exact .ok (h.reach_eq p ▸ h.induce _)

theorem livePart : Alike A.livePart B.livePart := by
  rw [Automaton.livePart, Automaton.livePart, h.live_eq]
  exact h.induce A.live

theorem mergeEquivalent : AlikeResults A.mergeEquivalent B.mergeEquivalent := by
  have hdet : B.isDeterministic = A.isDeterministic := by
    rw [Bool.eq_iff_iff, isDeterministic_iff, isDeterministic_iff]
    simp only [h.size_eq, h.closure_eq, h.alphabet_eq, targets, h.transitions_eq]
  rw [Automaton.mergeEquivalent, Automaton.mergeEquivalent, hdet]
  split
  · exact .ok h.quotient
  · exact .error _

theorem union_eq (hCD : Alike C D) : B.union D = A.union C := by
  simp only [union, h.initial_eq, hCD.initial_eq, h.nameOrder_eq, hCD.nameOrder_eq, h.size_eq,
    hCD.size_eq, h.alphabet_eq, hCD.alphabet_eq, placedEdges, edges, h.transitions_eq,
    hCD.transitions_eq, h.finals_eq, hCD.finals_eq]

end Alike

/-- Whatever symbols are added, the subset construction makes alike automata. -/
structure DeterminizeAlike (A B : Automaton) : Prop where
  alphabet_eq : B.alphabet = A.alphabet
  addSymbols (extra : SortedSet Symbol) :
    AlikeResults (A.addSymbols extra).determinize (B.addSymbols extra).determinize

theorem Alike.determinizeAlike (h : Alike A B) : DeterminizeAlike A B :=
  ⟨h.alphabet_eq, fun extra => (h.addSymbols extra).determinize⟩

namespace DeterminizeAlike

variable (h : DeterminizeAlike A B)
include h

theorem complete_addSymbols (extra : SortedSet Symbol) :
    AlikeResults (A.addSymbols extra).complete (B.addSymbols extra).complete :=
  (h.addSymbols extra).bind fun h => .ok h.addSink

theorem complement_addSymbols (extra : SortedSet Symbol) :
    AlikeResults (A.addSymbols extra).complement (B.addSymbols extra).complement :=
  (h.complete_addSymbols extra).bind fun h => .ok h.flipFinals

theorem determinize : AlikeResults A.determinize B.determinize := h.addSymbols ∅

theorem complete : AlikeResults A.complete B.complete := h.complete_addSymbols ∅

theorem complement : AlikeResults A.complement B.complement := h.complement_addSymbols ∅

theorem minimize : AlikeResults A.minimize B.minimize :=
  h.determinize.bind fun h => h.reachablePart.bind fun h => h.livePart.mergeEquivalent

theorem intersection (hCD : DeterminizeAlike C D) :
    AlikeResults (A.intersection C) (B.intersection D) := by
  rw [Automaton.intersection, Automaton.intersection, h.alphabet_eq, hCD.alphabet_eq]
  refine (h.complement_addSymbols _).bind fun hleft => ?_
  refine (hCD.complement_addSymbols _).bind fun hright => ?_
  exact (AlikeResults.of_eq (hleft.union_eq hright)).bind fun h => h.determinizeAlike.complement

theorem difference (hCD : DeterminizeAlike C D) :
    AlikeResults (A.difference C) (B.difference D) := by
  rw [Automaton.difference, Automaton.difference, h.alphabet_eq]
  exact (hCD.complement_addSymbols _).bind fun hC => h.intersection hC.determinizeAlike

end DeterminizeAlike

end RegularLanguages.Automaton
