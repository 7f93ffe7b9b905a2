import RegularLanguages.Automaton.Minimal
import RegularLanguages.Proofs.Automaton.Functional
/-!
# Following least edges

Merging looks at one edge for each label, the one to the least target, and takes the sink where there
is none. What is accepted along such edges is accepted (`LeadsOn.mem_languageFrom`). The converse
takes that no edge that matters lies behind another (`Guided`), as in functional automata.
-/

namespace RegularLanguages.Automaton

variable {A : Automaton} {p q : State} {w : List Char}

/-! ### Successors -/

section Successor
variable (hA : A.WellFormed)
include hA

theorem not_mem_targets_sink {l : Label} : q ∉ A.targets A.sink l := fun h =>
  Nat.lt_irrefl _ (hA.source_lt h)

theorem languageFrom_sink : w ∉ A.languageFrom A.sink := by
  rintro ⟨f, hf, h⟩
  cases h with
  | nil => exact Nat.lt_irrefl _ (hA.final_lt hf)
  | epsilon he _ => exact not_mem_targets_sink hA he
  | symbol _ he _ => exact not_mem_targets_sink hA he

theorem successor_lt (q : State) (l : Label) : A.successor q l < A.size + 1 := by
  rw [successor]
  cases hm : (A.targets q l).min? with
  | none => exact Nat.lt_succ_self _
  | some r => exact Nat.lt_succ_of_lt (hA.target_lt (SortedSet.min?_mem hm))

end Successor

/-- The successor is a target unless it is the sink. -/
theorem successor_mem_targets {l : Label} (h : A.successor q l ≠ A.sink) :
    A.successor q l ∈ A.targets q l := by
  rw [successor] at h ⊢
  cases hm : (A.targets q l).min? with
  | none => rw [hm] at h; exact absurd rfl h
  | some r => exact SortedSet.min?_mem hm

theorem successor_of_empty {l : Label} (h : ∀ r, r ∉ A.targets q l) : A.successor q l = A.sink := by
  by_contra hne
  exact h _ (successor_mem_targets hne)

theorem successor_sink (hA : A.WellFormed) (l : Label) : A.successor A.sink l = A.sink :=
  successor_of_empty fun _ => not_mem_targets_sink hA

theorem Functional.successor_eq (hF : A.Functional) {x : Symbol} {r : State}
    (h : r ∈ A.targets q (.symbol x)) : A.successor q (.symbol x) = r := by
  obtain ⟨s, hs⟩ := SortedSet.min?_isSome h
  rw [successor, hs]
  exact hF.unique (SortedSet.min?_mem hs) h

theorem Functional.successor_epsilon (hF : A.Functional) : A.successor q .epsilon = A.sink :=
  successor_of_empty fun _ => hF.no_epsilon

/-- Reading a symbol goes on from the successor; from the sink nothing is accepted. -/
theorem cons_mem_languageFrom_iff (hA : A.WellFormed) (hF : A.Functional) {c : Char} :
    c :: w ∈ A.languageFrom q ↔
      ∃ x, A.symbol? c = some x ∧ w ∈ A.languageFrom (A.successor q (.symbol x)) := by
  rw [hF.cons_mem_languageFrom]
  constructor
  · rintro ⟨x, r, hx, hr, hw⟩
    exact ⟨x, hx, by rwa [hF.successor_eq hr]⟩
  · rintro ⟨x, hx, hw⟩
    have hne : A.successor q (.symbol x) ≠ A.sink := fun h => languageFrom_sink hA (h ▸ hw)
    exact ⟨x, _, hx, successor_mem_targets hne, hw⟩

/-! ### Words along least edges -/

/-- Edges to least targets lead from a state to a final one and spell a word. -/
inductive LeadsOn (A : Automaton) : State → List Char → Prop
  | final {q : State} (h : q ∈ A.finals) : LeadsOn A q []
  | epsilon {q : State} {w : List Char} (h : LeadsOn A (A.successor q .epsilon) w) : LeadsOn A q w
  | symbol {q : State} {c : Char} {x : Symbol} {w : List Char} (hc : A.symbol? c = some x)
      (h : LeadsOn A (A.successor q (.symbol x)) w) : LeadsOn A q (c :: w)

namespace LeadsOn

/-- Along least edges only accepted words are spelled. -/
theorem mem_languageFrom (hA : A.WellFormed) (h : A.LeadsOn q w) : w ∈ A.languageFrom q := by
  have htarget : ∀ {q l v}, v ∈ A.languageFrom (A.successor q l) →
      A.successor q l ∈ A.targets q l := fun hv =>
    successor_mem_targets fun hs => languageFrom_sink hA (hs ▸ hv)
  induction h with
  | final h => exact ⟨_, h, .nil _⟩
  | epsilon _ ih =>
    have he := htarget ih
    obtain ⟨f, hf, hp⟩ := ih
    exact ⟨f, hf, .epsilon he hp⟩
  | symbol hc _ ih =>
    have he := htarget ih
    obtain ⟨f, hf, hp⟩ := ih
    exact ⟨f, hf, .symbol hc he hp⟩

theorem ne_sink (hA : A.WellFormed) (h : A.LeadsOn q w) : q ≠ A.sink := by
  rintro rfl
  exact languageFrom_sink hA (h.mem_languageFrom hA)

end LeadsOn

/-- Least edges lead wherever edges lead, those from a state to itself on the empty word apart. -/
structure Guided (A : Automaton) : Prop where
  epsilon {p q : State} : q ∈ A.targets p .epsilon → q = p ∨ A.successor p .epsilon = q
  symbol {p q : State} {x : Symbol} : q ∈ A.targets p (.symbol x) → A.successor p (.symbol x) = q

theorem Functional.guided (hF : A.Functional) : A.Guided where
  epsilon h := absurd h hF.no_epsilon
  symbol h := hF.successor_eq h

theorem Guided.leadsOn_iff (hA : A.WellFormed) (hG : A.Guided) :
    A.LeadsOn p w ↔ w ∈ A.languageFrom p := by
  constructor
  · exact fun h => h.mem_languageFrom hA
  · rintro ⟨f, hf, h⟩
    induction h with
    | nil _ => exact .final hf
    | epsilon he _ ih =>
      rcases hG.epsilon he with rfl | hs
      · exact ih hf
      · exact .epsilon (hs ▸ ih hf)
    | symbol hc he _ ih => exact .symbol hc (hG.symbol he ▸ ih hf)

end RegularLanguages.Automaton
