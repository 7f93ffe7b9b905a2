import RegularLanguages.Proofs.Automaton.Isomorphism
import RegularLanguages.Proofs.Automaton.Names
import RegularLanguages.Proofs.Automaton.Union
import RegularLanguages.StateTable.Export
/-!
# Tables do not show how states are numbered

A table lists states and targets in the order of their names. So if a renumbering keeps all names, and
they are told apart by their texts, both automata have the same table (`Renumbering.toTable_eq`).
-/

namespace RegularLanguages

/-- A list is sorted to the same whatever its order was, if no two of its elements compare equal. -/
theorem mergeSort_eq_of_perm {α β : Type} [Ord β] [Std.TransOrd β] {k : α → β} {l l' : List α}
    (h : l.Perm l') (hk : ∀ a ∈ l, ∀ b ∈ l, compare (k a) (k b) = .eq → a = b) :
    (l.mergeSort fun a b => (compare (k a) (k b)).isLE) =
      l'.mergeSort fun a b => (compare (k a) (k b)).isLE := by
  have htrans : ∀ a b c, (compare (k a) (k b)).isLE = true → (compare (k b) (k c)).isLE = true →
      (compare (k a) (k c)).isLE = true := fun a b c => Std.TransCmp.isLE_trans
  have htotal : ∀ a b, ((compare (k a) (k b)).isLE || (compare (k b) (k a)).isLE) = true := by
    intro a b
    have hswap : compare (k b) (k a) = (compare (k a) (k b)).swap := Std.OrientedCmp.eq_swap
    rw [hswap]
    cases compare (k a) (k b) <;> rfl
  refine List.Perm.eq_of_pairwise (fun a b ha hb hab hba => ?_)
    (List.pairwise_mergeSort htrans htotal l) (List.pairwise_mergeSort htrans htotal l') ?_
  · have ha := (List.mergeSort_perm l _).mem_iff.1 ha
    have hb := h.mem_iff.2 ((List.mergeSort_perm l' _).mem_iff.1 hb)
    exact hk a ha b hb (Std.OrientedCmp.isLE_antisymm hab hba)
  · exact (List.mergeSort_perm l _).trans (h.trans (List.mergeSort_perm l' _).symm)

namespace Automaton

/-- `f` takes the states of `A` one to one to those of `B`, which has the same alphabet, and keeps what
is said of them, and their names. -/
structure Renumbering (A B : Automaton) (f : State → State) : Prop extends Isomorphism A B f where
  text_eq {q : State} : q < A.size → (B.name (f q)).text = (A.name q).text
  alphabet_eq : B.alphabet = A.alphabet

variable {A B : Automaton} {f : State → State} {p q : State} {l : Label}

theorem mem_tableOrder (hA : A.WellFormed) : q ∈ A.tableOrder ↔ q < A.size := by
  simp only [tableOrder, List.mem_append, Option.mem_toList, List.mem_filter, mem_nameOrder,
    decide_eq_true_iff]
  constructor
  · rintro ((hq | hq) | hq)
    · exact hA.initial_lt hq
    · exact hq.1.1
    · exact hq.1.1
  · intro hq
    by_cases hi : A.initial = some q
    · exact .inl (.inl hi)
    · by_cases hf : q ∈ A.finals
      · exact .inr ⟨⟨hq, hi⟩, hf⟩
      · exact .inl (.inr ⟨⟨hq, hi⟩, hf⟩)

theorem nodup_nameOrder (A : Automaton) : A.nameOrder.Nodup :=
  (List.mergeSort_perm _ _).nodup_iff.2 A.nodup_states

theorem nodup_tableOrder (A : Automaton) : A.tableOrder.Nodup := by
  have hothers := A.nodup_nameOrder.filter fun q => A.initial ≠ some q
  have hinitial : A.initial.toList.Nodup := by cases A.initial <;> simp
  unfold tableOrder
  simp only [List.nodup_append, hinitial, hothers.filter, true_and]
  simp only [List.mem_append, Option.mem_toList, List.mem_filter, decide_eq_true_iff]
  constructor
  · rintro p hp q ⟨⟨-, hq⟩, -⟩ rfl
    exact hq hp
  · rintro p (hp | ⟨-, hp⟩) q ⟨⟨-, hq⟩, hf⟩ rfl
    · exact hq hp
    · exact hp hf

theorem map_chars_sortNames (ns : List StateName) : (sortNames ns).map StateName.chars =
    (ns.map StateName.chars).mergeSort fun a b => (compare a b).isLE := by
  rw [sortNames, List.map_mergeSort]
  intro m _ n _
  rw [StateName.compare_def]

/-- What is shown of names in order does not depend on the order in which they are given. -/
theorem map_chars_sortNames_eq {ms ns : List StateName}
    (h : (ms.map StateName.chars).Perm (ns.map StateName.chars)) :
    (sortNames ms).map StateName.chars = (sortNames ns).map StateName.chars := by
  rw [map_chars_sortNames, map_chars_sortNames]
  exact mergeSort_eq_of_perm (k := id) h fun a _ b _ hab => Std.LawfulEqCmp.eq_of_compare hab

namespace Renumbering

theorem chars_eq (h : Renumbering A B f) (hq : q < A.size) :
    (B.name (f q)).chars = (A.name q).chars := StateName.text_inj.1 (h.text_eq hq)

theorem states_perm (h : Renumbering A B f) : B.states.Perm (A.states.map f) := by
  refine (List.perm_ext_iff_of_nodup B.nodup_states
    (A.nodup_states.map_on fun p hp q hq => ?_)).2 fun r => ?_
  · exact h.bijOn.injOn (mem_states.1 hp) (mem_states.1 hq)
  · rw [mem_states, List.mem_map]
    simp only [mem_states]
    constructor
    · intro hr
      exact h.bijOn.surjOn hr
    · rintro ⟨q, hq, rfl⟩
      exact h.bijOn.mapsTo hq

theorem distinct (h : Renumbering A B f) (hA : A.NamesDistinct) (hp : p < B.size) (hq : q < B.size)
    (htext : (B.name p).text = (B.name q).text) : p = q := by
  obtain ⟨p, hp', rfl⟩ := h.bijOn.surjOn hp
  obtain ⟨q, hq', rfl⟩ := h.bijOn.surjOn hq
  rw [h.text_eq hp', h.text_eq hq'] at htext
  rw [hA.eq_of_text hp' hq' htext]

theorem nameOrder_eq (h : Renumbering A B f) (hA : A.NamesDistinct) :
    B.nameOrder = A.nameOrder.map f := by
  have hsort : A.nameOrder.map f =
      (A.states.map f).mergeSort fun p q => (compare (B.name p) (B.name q)).isLE := by
    refine List.map_mergeSort fun p hp q hq => ?_
    rw [StateName.compare_def, StateName.compare_def, h.chars_eq (mem_states.1 hp),
      h.chars_eq (mem_states.1 hq)]
  rw [hsort, nameOrder]
  refine mergeSort_eq_of_perm h.states_perm fun p hp q hq heq => ?_
  rw [StateName.compare_def] at heq
  exact h.distinct hA (mem_states.1 hp) (mem_states.1 hq)
    (StateName.text_inj.2 (Std.LawfulEqCmp.eq_of_compare heq))

theorem initial_iff (h : Renumbering A B f) (hA : A.WellFormed) (hq : q < A.size) :
    B.initial = some (f q) ↔ A.initial = some q := by
  rw [h.initial, Option.map_eq_some_iff]
  constructor
  · rintro ⟨p, hp, hpq⟩
    rw [hp, h.bijOn.injOn (hA.initial_lt hp) hq hpq]
  · intro hq
    exact ⟨q, hq, rfl⟩

theorem markedName_eq (h : Renumbering A B f) (hA : A.WellFormed) (hq : q < A.size) :
    B.markedName (f q) = A.markedName q := by
  unfold markedName
  simp only [h.final_iff hq, h.initial_iff hA hq, h.chars_eq hq]

theorem targets_perm (h : Renumbering A B f) (hA : A.WellFormed) (hB : B.WellFormed)
    (hq : q < A.size) (l : Label) :
    (B.targets (f q) l).toList.Perm ((A.targets q l).toList.map f) := by
  refine (List.perm_ext_iff_of_nodup (SortedSet.nodup _)
    ((SortedSet.nodup _).map_on fun r hr s hs => ?_)).2 fun r => ?_
  · exact h.bijOn.injOn (hA.target_lt hr) (hA.target_lt hs)
  · rw [List.mem_map, SortedSet.mem_toList]
    simp only [SortedSet.mem_toList]
    constructor
    · intro hr
      obtain ⟨s, hs, rfl⟩ := h.bijOn.surjOn (hB.target_lt hr)
      exact ⟨s, (h.target_iff hq hs).1 hr, rfl⟩
    · rintro ⟨s, hs, rfl⟩
      exact (h.target_iff hq (hA.target_lt hs)).2 hs

theorem targetCell_eq (h : Renumbering A B f) (hA : A.WellFormed) (hB : B.WellFormed)
    (hq : q < A.size) (l : Label) : B.targetCell (f q) l = A.targetCell q l := by
  have hperm := (h.targets_perm hA hB hq l).map fun r => (B.name r).chars
  have hkeep : ((A.targets q l).toList.map f).map (fun r => (B.name r).chars) =
      (A.targets q l).toList.map fun r => (A.name r).chars := by
    rw [List.map_map]
    exact List.map_congr_left fun r hr => h.chars_eq (hA.target_lt hr)
  have hnames : (((B.targets (f q) l).toList.map B.name).map StateName.chars).Perm
      (((A.targets q l).toList.map A.name).map StateName.chars) := by
    rw [List.map_map, List.map_map]
    exact hkeep ▸ hperm
  rw [targetCell, targetCell, map_chars_sortNames_eq hnames]

theorem hasEpsilon_eq (h : Renumbering A B f) (hA : A.WellFormed) (hB : B.WellFormed) :
    B.hasEpsilon = A.hasEpsilon := by
  rw [Bool.eq_iff_iff, hasEpsilon, hasEpsilon, hA.populated.hasColumn_iff, hB.populated.hasColumn_iff]
  constructor
  · rintro ⟨p, q, hq⟩
    obtain ⟨p, hp, rfl⟩ := h.bijOn.surjOn (hB.source_lt hq)
    obtain ⟨q, hq', rfl⟩ := h.bijOn.surjOn (hB.target_lt hq)
    exact ⟨p, q, (h.target_iff hp hq').1 hq⟩
  · rintro ⟨p, q, hq⟩
    exact ⟨f p, f q, (h.target_iff (hA.source_lt hq) (hA.target_lt hq)).2 hq⟩

theorem tableLabels_eq (h : Renumbering A B f) (hA : A.WellFormed) (hB : B.WellFormed) :
    B.tableLabels = A.tableLabels := by
  rw [tableLabels, tableLabels, h.hasEpsilon_eq hA hB, h.alphabet_eq]

theorem tableOrder_eq (h : Renumbering A B f) (hA : A.WellFormed) (hd : A.NamesDistinct) :
    B.tableOrder = A.tableOrder.map f := by
  have hothers : (B.nameOrder.filter fun q => B.initial ≠ some q) =
      (A.nameOrder.filter fun q => A.initial ≠ some q).map f := by
    rw [h.nameOrder_eq hd, List.filter_map]
    refine congrArg (List.map f) (List.filter_congr fun q hq => ?_)
    simp [h.initial_iff hA (mem_nameOrder.1 hq)]
  have hlt : ∀ q ∈ A.nameOrder.filter fun q => A.initial ≠ some q, q < A.size := fun q hq =>
    mem_nameOrder.1 (List.mem_filter.1 hq).1
  have hinitial : B.initial.toList = A.initial.toList.map f := by
    rw [h.initial]
    cases A.initial <;> rfl
  simp only [tableOrder, hothers, hinitial, List.filter_map, List.map_append]
  refine congrArg₂ _ (congrArg₂ _ rfl (congrArg (List.map f) (List.filter_congr fun q hq => ?_)))
    (congrArg (List.map f) (List.filter_congr fun q hq => ?_))
  · simp [h.final_iff (hlt q hq)]
  · simp [h.final_iff (hlt q hq)]

/-- A renumbering that keeps names which are told apart keeps the table. -/
theorem toTable_eq (h : Renumbering A B f) (hA : A.WellFormed) (hB : B.WellFormed)
    (hd : A.NamesDistinct) : B.toTable = A.toTable := by
  have hlt : ∀ q ∈ A.tableOrder, q < A.size := fun q hq => (mem_tableOrder hA).1 hq
  unfold toTable
  rw [h.tableLabels_eq hA hB, h.tableOrder_eq hA hd, List.map_map]
  refine congrArg (fun rows => StateTable.mk (_ :: rows)) (List.map_congr_left fun q hq => ?_)
  simp only [Function.comp_apply, h.markedName_eq hA (hlt q hq), h.targetCell_eq hA hB (hlt q hq)]

end Renumbering

end Automaton

end RegularLanguages
