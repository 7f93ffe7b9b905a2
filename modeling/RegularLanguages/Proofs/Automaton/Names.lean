import RegularLanguages.Proofs.Automaton.WellFormed
/-!
# Names that tell states apart

What an automaton says of a state by its name is said of one state only if no two states show one name
(`NamesDistinct`).
-/

namespace RegularLanguages

namespace Automaton

/-- No two states show the same name. -/
def NamesDistinct (A : Automaton) : Prop := (A.names.toList.map StateName.text).Nodup

variable {A : Automaton} {p q : State} {n : StateName}

theorem nodup_states (A : Automaton) : A.states.Nodup := List.nodup_range

theorem map_name_states (A : Automaton) : A.states.map A.name = A.names.toList := by
  refine List.ext_getElem (by simp [states, size]) fun i hi _ => ?_
  simp only [states, size, List.length_map, List.length_range] at hi
  simp [states, name, hi]

theorem mem_names : n ∈ A.names ↔ ∃ q < A.size, A.name q = n := by
  rw [← Array.mem_toList_iff, ← map_name_states, List.mem_map]
  simp only [mem_states]

theorem name_mem_names (hq : q < A.size) : A.name q ∈ A.names := mem_names.2 ⟨q, hq, rfl⟩

theorem namesDistinct_iff : A.NamesDistinct ↔
    ∀ p q, p < A.size → q < A.size → (A.name p).text = (A.name q).text → p = q := by
  rw [NamesDistinct, ← map_name_states, List.map_map]
  constructor
  · intro h p q hp hq htext
    exact List.inj_on_of_nodup_map h (mem_states.2 hp) (mem_states.2 hq) htext
  · intro h
    refine A.nodup_states.map_on fun p hp q hq htext => ?_
    exact h p q (mem_states.1 hp) (mem_states.1 hq) htext

theorem NamesDistinct.eq_of_text (h : A.NamesDistinct) (hp : p < A.size) (hq : q < A.size)
    (htext : (A.name p).text = (A.name q).text) : p = q :=
  namesDistinct_iff.1 h p q hp hq htext

end Automaton

end RegularLanguages
