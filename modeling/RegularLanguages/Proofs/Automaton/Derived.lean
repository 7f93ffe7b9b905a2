import RegularLanguages.Proofs.Automaton.Classes
import RegularLanguages.Proofs.Automaton.Complement
import RegularLanguages.Proofs.Automaton.Induced
import RegularLanguages.Proofs.Automaton.Union
import RegularLanguages.Proofs.Compiled
import RegularLanguages.Proofs.StateTable.Reading
/-!
# What operations make of automata

An automaton is derived from others by any number of operations, in any order (`Derived`). The operations
come down to a few steps, so what these steps keep holds of all that is derived (`Derived.of_invariant`).
Being well formed is kept, and automata that are drafted, read from a table or compiled are well formed.
-/

namespace RegularLanguages

namespace Automaton

/-- What operations make, one after the other, of the automata of `S`. -/
inductive Derived (S : Automaton → Prop) : Automaton → Prop
  | base {A : Automaton} (h : S A) : Derived S A
  | addSymbols {A : Automaton} (hA : Derived S A) (extra : SortedSet Symbol) :
      Derived S (A.addSymbols extra)
  | determinize {A B : Automaton} (hA : Derived S A) (h : A.determinize = .ok B) : Derived S B
  | reachablePart {A B : Automaton} (hA : Derived S A) (h : A.reachablePart = .ok B) : Derived S B
  | livePart {A : Automaton} (hA : Derived S A) : Derived S A.livePart
  | mergeEquivalent {A B : Automaton} (hA : Derived S A) (h : A.mergeEquivalent = .ok B) : Derived S B
  | minimize {A B : Automaton} (hA : Derived S A) (h : A.minimize = .ok B) : Derived S B
  | complete {A B : Automaton} (hA : Derived S A) (h : A.complete = .ok B) : Derived S B
  | complement {A B : Automaton} (hA : Derived S A) (h : A.complement = .ok B) : Derived S B
  | union {A B C : Automaton} (hA : Derived S A) (hB : Derived S B) (h : A.union B = .ok C) :
      Derived S C
  | intersection {A B C : Automaton} (hA : Derived S A) (hB : Derived S B)
      (h : A.intersection B = .ok C) : Derived S C
  | difference {A B C : Automaton} (hA : Derived S A) (hB : Derived S B)
      (h : A.difference B = .ok C) : Derived S C

/-- The steps that all operations are made of keep `P`. -/
structure Invariant (P : Automaton → Prop) : Prop where
  addSymbols {A : Automaton} (extra : SortedSet Symbol) : P A → P (A.addSymbols extra)
  subsets {A : Automaton} {p : State} : A.initial = some p → P A → P (A.subsetAutomaton p)
  induce {A : Automaton} (keep : SortedSet State) : P A → P (A.induce keep)
  quotient {A : Automaton} : P A → P A.quotient
  addSink {A : Automaton} {p : State} : A.initial = some p → P A → P (A.subsetAutomaton p).addSink
  flipFinals {A : Automaton} : P A → P A.flipFinals
  union {A B : Automaton} {p q : State} : A.initial = some p → B.initial = some q → P A → P B →
    P (A.unionAutomaton B p q)

variable {A B C : Automaton} {S P : Automaton → Prop}

theorem determinize_cases (h : A.determinize = .ok B) :
    ∃ p, A.initial = some p ∧ B = A.subsetAutomaton p := by
  cases hp : A.initial with
  | none =>
    rw [determinize_of_no_initial hp] at h
    cases h
  | some p =>
    rw [determinize_eq hp] at h
    exact ⟨p, rfl, (Except.ok.inj h).symm⟩

theorem reachablePart_cases (h : A.reachablePart = .ok B) : ∃ keep, B = A.induce keep := by
  cases hp : A.initial with
  | none =>
    rw [reachablePart_of_no_initial hp] at h
    cases h
  | some p =>
    rw [reachablePart_eq hp] at h
    exact ⟨_, (Except.ok.inj h).symm⟩

theorem mergeEquivalent_cases (h : A.mergeEquivalent = .ok B) : B = A.quotient := by
  unfold mergeEquivalent at h
  split at h
  · exact (Except.ok.inj h).symm
  · cases h

theorem union_cases (h : A.union B = .ok C) :
    ∃ p q, A.initial = some p ∧ B.initial = some q ∧ C = A.unionAutomaton B p q := by
  cases hp : A.initial with
  | none =>
    rw [union_of_no_initial (.inl hp)] at h
    cases h
  | some p =>
    cases hq : B.initial with
    | none =>
      rw [union_of_no_initial (.inr hq)] at h
      cases h
    | some q =>
      rw [union_eq hp hq] at h
      exact ⟨p, q, rfl, rfl, (Except.ok.inj h).symm⟩

namespace Invariant

variable (hP : Invariant P)
include hP

theorem determinize (hA : P A) (h : A.determinize = .ok B) : P B := by
  obtain ⟨p, hp, rfl⟩ := determinize_cases h
  exact hP.subsets hp hA

theorem mergeEquivalent (hA : P A) (h : A.mergeEquivalent = .ok B) : P B :=
  mergeEquivalent_cases h ▸ hP.quotient hA

theorem minimize (hA : P A) (h : A.minimize = .ok B) : P B := by
  obtain ⟨D, hD, h⟩ := bind_eq_ok.1 h
  obtain ⟨R, hR, h⟩ := bind_eq_ok.1 h
  obtain ⟨keep, rfl⟩ := reachablePart_cases hR
  exact hP.mergeEquivalent (hP.induce _ (hP.induce keep (hP.determinize hA hD))) h

theorem complete (hA : P A) (h : A.complete = .ok B) : P B := by
  obtain ⟨D, hD, h⟩ := bind_eq_ok.1 h
  obtain ⟨p, hp, rfl⟩ := determinize_cases hD
  exact Except.ok.inj h ▸ hP.addSink hp hA

theorem complement (hA : P A) (h : A.complement = .ok B) : P B := by
  obtain ⟨D, hD, h⟩ := bind_eq_ok.1 h
  exact Except.ok.inj h ▸ hP.flipFinals (hP.complete hA hD)

theorem unite (hA : P A) (hB : P B) (h : A.union B = .ok C) : P C := by
  obtain ⟨p, q, hp, hq, rfl⟩ := union_cases h
  exact hP.union hp hq hA hB

theorem intersection (hA : P A) (hB : P B) (h : A.intersection B = .ok C) : P C := by
  obtain ⟨L, hL, h⟩ := bind_eq_ok.1 h
  obtain ⟨R, hR, h⟩ := bind_eq_ok.1 h
  obtain ⟨U, hU, h⟩ := bind_eq_ok.1 h
  have hL := hP.complement (hP.addSymbols _ hA) hL
  have hR := hP.complement (hP.addSymbols _ hB) hR
  exact hP.complement (hP.unite hL hR hU) h

theorem difference (hA : P A) (hB : P B) (h : A.difference B = .ok C) : P C := by
  obtain ⟨D, hD, h⟩ := bind_eq_ok.1 h
  exact hP.intersection hA (hP.complement (hP.addSymbols _ hB) hD) h

end Invariant

/-- What holds of the automata of `S` and is kept by all steps holds of all that is derived. -/
theorem Derived.of_invariant (hP : Invariant P) (hS : ∀ A, S A → P A) (h : Derived S A) : P A := by
  induction h with
  | base h => exact hS _ h
  | addSymbols _ extra ih => exact hP.addSymbols extra ih
  | determinize _ h ih => exact hP.determinize ih h
  | reachablePart _ h ih =>
    obtain ⟨keep, rfl⟩ := reachablePart_cases h
    exact hP.induce keep ih
  | livePart _ ih => exact hP.induce _ ih
  | mergeEquivalent _ h ih => exact hP.mergeEquivalent ih h
  | minimize _ h ih => exact hP.minimize ih h
  | complete _ h ih => exact hP.complete ih h
  | complement _ h ih => exact hP.complement ih h
  | union _ _ h ihA ihB => exact hP.unite ihA ihB h
  | intersection _ _ h ihA ihB => exact hP.intersection ihA ihB h
  | difference _ _ h ihA ihB => exact hP.difference ihA ihB h

/-! ### Being well formed -/

theorem invariant_wellFormed : Invariant WellFormed where
  addSymbols extra h := h.addSymbols extra
  subsets _ _ := wellFormed_subsetAutomaton
  induce keep h := h.induce keep
  quotient _ := wellFormed_quotient _
  addSink _ _ := wellFormed_subsetAutomaton.addSink
  flipFinals h := h.flipFinals
  union hp hq hA hB := wellFormed_unionAutomaton hA hB hp hq

end Automaton

/-! ### What is read from a table -/

namespace StateTable

variable {t : StateTable} {A : Automaton}

/-- What a table is read as is the automaton of a draft that was asked for one thing after the other. -/
theorem exists_requested_of_toAutomaton (h : t.toAutomaton = .ok A) :
    ∃ D : Draft, D.Requested ∧ A = D.automaton := by
  obtain ⟨-, -, -, -, -, D, hD, -, rfl⟩ := toAutomaton_eq_ok.1 h
  exact ⟨D, ⟨t.requests, (Draft.requests_of_grant hD).symm⟩, rfl⟩

end StateTable

/-! ### All that is derived -/

namespace Automaton

variable {A : Automaton}

/-- What there is to begin with: automata that are drafted, read from a table or compiled. -/
inductive Built : Automaton → Prop
  | drafted (rs : List Draft.Request) : Built (Draft.empty.requests rs).automaton
  | read {t : StateTable} {A : Automaton} (h : t.toAutomaton = .ok A) : Built A
  | compiled {source : String} {r : Recognizer} (h : Recognizer.compile source = .ok r) :
      Built r.automaton

theorem Built.wellFormed (h : Built A) : A.WellFormed := by
  cases h with
  | drafted rs => exact Draft.wellFormed_requests rs
  | read h =>
    obtain ⟨D, ⟨rs, rfl⟩, rfl⟩ := StateTable.exists_requested_of_toAutomaton h
    exact Draft.wellFormed_requests rs
  | compiled h =>
    obtain ⟨e, -, haut, -⟩ := Recognizer.exists_ofRegex_of_compile h
    rw [haut]
    exact SyntaxTree.wellFormed_toAutomaton _

/-- The initial state, the final ones and both ends of each edge. -/
def Mentions (A : Automaton) (q : State) : Prop :=
  A.initial = some q ∨ q ∈ A.finals ∨ ∃ p l, q ∈ A.targets p l ∨ p ∈ A.targets q l

theorem WellFormed.lt_of_mentions (hA : A.WellFormed) {q : State} (h : A.Mentions q) : q < A.size := by
  rcases h with h | h | ⟨p, l, h | h⟩
  · exact hA.initial_lt h
  · exact hA.final_lt h
  · exact hA.target_lt h
  · exact hA.source_lt h

theorem WellFormed.mem_missing_iff (hA : A.WellFormed) {q : State} {x : Symbol} :
    (q, .symbol x) ∈ A.missing ↔
      q < A.size ∧ x ∈ A.alphabet ∧ ∀ r, r ∉ A.targets q (.symbol x) := by
  have hno : (A.transitions.get? q (.symbol x)).isSome = false ↔ ∀ r, r ∉ A.targets q (.symbol x) := by
    rw [← Bool.not_eq_true, hA.populated.isSome_get?, not_exists]
    rfl
  rw [mem_missing, ← hno]
  constructor
  · rintro ⟨y, hy, hq, hn, hl⟩
    obtain rfl := Label.symbol.inj hl
    exact ⟨hq, hy, hn⟩
  · rintro ⟨hq, hx, hn⟩
    exact ⟨x, hx, hq, hn, rfl⟩

/-- Whatever operations make of automata that are drafted, read or compiled is well formed. So each
state that it mentions has a name, and where it stores an entry there is a target: what
`isComplete` and `missing` see are edges. -/
theorem derived_wellFormed (h : Derived Built A) :
    A.WellFormed ∧ (∀ q, A.Mentions q → ∃ n, A.names[q]? = some n) ∧
    (∀ q l, (A.transitions.get? q l).isSome = true ↔ ∃ r, r ∈ A.targets q l) ∧
    (A.isComplete = true ↔ A.Total) ∧
    ∀ q x, (q, .symbol x) ∈ A.missing ↔
      q < A.size ∧ x ∈ A.alphabet ∧ ∀ r, r ∉ A.targets q (.symbol x) := by
  have hA : A.WellFormed := h.of_invariant invariant_wellFormed fun _ => Built.wellFormed
  refine ⟨hA, fun q hq => ?_, fun q l => hA.populated.isSome_get?, isComplete_iff hA,
    fun q x => hA.mem_missing_iff⟩
  exact ⟨_, Array.getElem?_eq_getElem (hA.lt_of_mentions hq)⟩

/-- A state with no edge on `a`, so that its complement has a sink. -/
def stuck : Automaton := (Draft.empty.requests [.symbol 'a', .state "p" true true]).automaton

theorem derived_wellFormed_stuck : stuck.complement = .ok (stuck.complementAutomaton 0) ∧
    (stuck.complementAutomaton 0).WellFormed ∧ (stuck.complementAutomaton 0).isComplete = true := by
  have hinitial : stuck.initial = some 0 := rfl
  have hcomplement := complement_eq hinitial
  obtain ⟨hwf, -, -, hcomplete, -⟩ :=
    derived_wellFormed (.complement (.base (.drafted [.symbol 'a', .state "p" true true])) hcomplement)
  exact ⟨hcomplement, hwf, hcomplete.2 total_complementAutomaton⟩

end Automaton

end RegularLanguages
