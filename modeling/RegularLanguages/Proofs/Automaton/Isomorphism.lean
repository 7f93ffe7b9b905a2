import Mathlib.Data.Set.Function
import RegularLanguages.Proofs.Automaton.WellFormed
/-!
# Isomorphic automata

An isomorphism numbers the states of one automaton as those of another and takes the initial state,
the final states and the edges of the one to those of the other; names and alphabets are free. It
takes paths to paths, and every path of the other from where it takes a state comes from a path
(`Isomorphism.path`, `Isomorphism.exists_path`), so both accept the same words.
-/

namespace RegularLanguages.Automaton

/-- `f` takes the states of `A` one to one to those of `B`, and with them all that is said of them. -/
structure Isomorphism (A B : Automaton) (f : State → State) : Prop where
  bijOn : Set.BijOn f {q | q < A.size} {q | q < B.size}
  initial : B.initial = A.initial.map f
  final_iff {q : State} : q < A.size → (f q ∈ B.finals ↔ q ∈ A.finals)
  target_iff {p q : State} {l : Label} :
    p < A.size → q < A.size → (f q ∈ B.targets (f p) l ↔ q ∈ A.targets p l)

namespace Isomorphism

variable {A B : Automaton} {f : State → State} {p q r : State} {w : List Char}

theorem path (h : Isomorphism A B f) (hA : A.WellFormed) (hB : B.WellFormed) (hp : p < A.size)
    (hw : A.Path p w q) : B.Path (f p) w (f q) := by
  induction hw with
  | nil _ => exact .nil _
  | epsilon he _ ih =>
    have hq := hA.target_lt he
    exact .epsilon ((h.target_iff hp hq).2 he) (ih hq)
  | symbol hc he _ ih =>
    have hq := hA.target_lt he
    have he' := (h.target_iff hp hq).2 he
    exact .symbol (hB.symbol?_of_mem hc he') he' (ih hq)

theorem exists_path (h : Isomorphism A B f) (hA : A.WellFormed) (hB : B.WellFormed)
    (hp : p < A.size) (hw : B.Path (f p) w r) : ∃ q < A.size, f q = r ∧ A.Path p w q := by
  -- an edge from where `f` takes a state leads to where it takes another one
  have hedge : ∀ {p l s}, p < A.size → s ∈ B.targets (f p) l →
      ∃ q < A.size, f q = s ∧ q ∈ A.targets p l := by
    intro p l s hp he
    obtain ⟨q, hq, rfl⟩ := h.bijOn.surjOn (hB.target_lt he)
    exact ⟨q, hq, rfl, (h.target_iff hp hq).1 he⟩
  generalize hs : f p = s at hw
  induction hw generalizing p with
  | nil _ => exact ⟨p, hp, hs, .nil p⟩
  | epsilon he _ ih =>
    subst hs
    obtain ⟨q, hq, hqs, he'⟩ := hedge hp he
    obtain ⟨t, ht, htr, hw⟩ := ih hq hqs
    exact ⟨t, ht, htr, .epsilon he' hw⟩
  | symbol hc he _ ih =>
    subst hs
    obtain ⟨q, hq, hqs, he'⟩ := hedge hp he
    obtain ⟨t, ht, htr, hw⟩ := ih hq hqs
    exact ⟨t, ht, htr, .symbol (hA.symbol?_of_mem hc he') he' hw⟩

theorem languageFrom_eq (h : Isomorphism A B f) (hA : A.WellFormed) (hB : B.WellFormed)
    (hp : p < A.size) : B.languageFrom (f p) = A.languageFrom p := by
  ext w
  rw [mem_languageFrom, mem_languageFrom]
  constructor
  · rintro ⟨r, hr, hw⟩
    obtain ⟨q, hq, rfl, hpath⟩ := h.exists_path hA hB hp hw
    exact ⟨q, (h.final_iff hq).1 hr, hpath⟩
  · rintro ⟨q, hq, hw⟩
    exact ⟨f q, (h.final_iff (hA.final_lt hq)).2 hq, h.path hA hB hp hw⟩

theorem language_eq (h : Isomorphism A B f) (hA : A.WellFormed) (hB : B.WellFormed) :
    B.language = A.language := by
  cases hp : A.initial with
  | none =>
    have hB' : B.initial = none := by rw [h.initial, hp]; rfl
    rw [language_eq_zero hp, language_eq_zero hB']
  | some p =>
    have hB' : B.initial = some (f p) := by rw [h.initial, hp]; rfl
    rw [Automaton.language_eq hp, Automaton.language_eq hB', h.languageFrom_eq hA hB (hA.initial_lt hp)]

end Isomorphism

end RegularLanguages.Automaton
