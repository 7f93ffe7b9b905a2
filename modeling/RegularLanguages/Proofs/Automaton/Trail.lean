import Mathlib
import RegularLanguages.Proofs.Automaton.Draft
import RegularLanguages.Proofs.Automaton.Levels
/-!
# Trails

A trail is what a path is made of: edges one after the other, and the labels on them, those of the
empty word too. Labels spell a word once the empty word is erased, and a word is accepted exactly if a
trail from the initial state to a final one spells it (`accepts_iff_trail`).
-/

namespace RegularLanguages.Automaton

/-- Edges with these labels, one after the other, lead from one state to another. -/
inductive Trail (A : Automaton) : State → List Label → State → Prop
  | nil (q : State) : Trail A q [] q
  | cons {p q r : State} {l : Label} {ls : List Label} (h : q ∈ A.targets p l) :
      Trail A q ls r → Trail A p (l :: ls) r

/-- The symbols among some labels. -/
def erased (ls : List Label) : List Symbol := ls.filterMap Label.symbol?

/-- A trail that spells the word leads from `p` to a final state. -/
def HasTrail (A : Automaton) (p : State) (w : List Char) : Prop :=
  ∃ q ∈ A.finals, ∃ ls, A.Trail p ls q ∧ spell (erased ls) = w

variable {A : Automaton} {p q : State} {w : List Char} {ls : List Label}

theorem spell_erased_epsilon (ls : List Label) :
    spell (erased (.epsilon :: ls)) = spell (erased ls) := rfl

theorem spell_erased_symbol (x : Symbol) (ls : List Label) :
    spell (erased (.symbol x :: ls)) = x.char :: spell (erased ls) := rfl

/-- A trail is a path on the word that it spells. -/
theorem Trail.path (hA : A.WellFormed) (h : A.Trail p ls q) : A.Path p (spell (erased ls)) q := by
  induction h with
  | nil q => exact .nil q
  | @cons p q r l ls he _ ih =>
    cases l with
    | epsilon => exact .epsilon he ih
    | symbol x => exact .symbol (symbol?_char (hA.symbol_mem he)) he ih

/-- The labels along a path spell its word. -/
theorem Path.exists_trail (h : A.Path p w q) : ∃ ls, A.Trail p ls q ∧ spell (erased ls) = w := by
  induction h with
  | nil q => exact ⟨[], .nil q, rfl⟩
  | epsilon he _ ih =>
    obtain ⟨ls, hls, rfl⟩ := ih
    exact ⟨.epsilon :: ls, .cons he hls, spell_erased_epsilon ls⟩
  | @symbol p q r c x w hc he _ ih =>
    obtain ⟨ls, hls, rfl⟩ := ih
    obtain ⟨rfl, -⟩ := symbol?_eq_some.1 hc
    exact ⟨.symbol x :: ls, .cons he hls, spell_erased_symbol x ls⟩

theorem hasTrail_iff (hA : A.WellFormed) : A.HasTrail p w ↔ w ∈ A.languageFrom p := by
  rw [mem_languageFrom]
  refine exists_congr fun q => and_congr_right fun _ => ?_
  constructor
  · rintro ⟨ls, hls, rfl⟩
    exact hls.path hA
  · exact Path.exists_trail

/-- Without an initial state every word fails, with one every word is answered: accepted if a trail
from the initial state to a final one spells it, rejected if none does, as always if one of its
characters is not in the alphabet. -/
theorem accepts_iff_trail (hA : A.WellFormed) (w : String) :
    (A.accepts w = .error .noInitialState ↔ A.initial = none) ∧
      ∀ p, A.initial = some p →
        (A.accepts w = .ok true ↔ A.HasTrail p w.toList) ∧
        (A.accepts w = .ok false ↔ ¬ A.HasTrail p w.toList) ∧
        ((∃ c ∈ w.toList, ∀ x ∈ A.alphabet, x.char ≠ c) → A.accepts w = .ok false) := by
  refine ⟨⟨fun herr => ?_, fun hi => accepts_of_no_initial hi w⟩, fun p hp => ?_⟩
  · by_contra hi
    obtain ⟨p, hp⟩ := Option.ne_none_iff_exists'.1 hi
    rw [accepts_of_initial hp] at herr
    cases herr
  have htrail : A.HasTrail p w.toList ↔ w.toList ∈ A.language := by
    rw [hasTrail_iff hA, language_eq hp]
  rw [htrail]
  refine ⟨accepts_eq_ok_true, accepts_eq_ok_false hp, ?_⟩
  rintro ⟨c, hc, hno⟩
  refine (accepts_eq_ok_false hp).2 fun hw => ?_
  obtain ⟨x, hx⟩ := Option.isSome_iff_exists.1 (symbol?_isSome_of_mem_language hw c hc)
  obtain ⟨hxc, hmem⟩ := symbol?_eq_some.1 hx
  exact hno x hmem hxc

/-- A circle of edges on the empty word, through a final state, with one way out of it. -/
def roundabout : Automaton :=
  (Draft.empty.requests [.symbol 'a', .state "q0" true false, .state "q1" false false,
    .state "q2" false true, .state "q3" false false, .edge "q0" '&' "q1", .edge "q1" '&' "q2",
    .edge "q2" '&' "q0", .edge "q0" 'a' "q3"]).automaton

theorem accepts_iff_trail_roundabout :
    roundabout.WellFormed ∧ roundabout.initial = some 0 ∧ roundabout.accepts "" = .ok true ∧
      (∃ c ∈ "b".toList, ∀ x ∈ roundabout.alphabet, x.char ≠ c) ∧
      roundabout.accepts "b" = .ok false ∧ ¬ roundabout.HasTrail 0 ['a'] := by
  have hA : roundabout.WellFormed := Draft.wellFormed_requests _
  have hi : roundabout.initial = some 0 := by decide
  have hedges : roundabout.transitions.edges =
      [(0, .epsilon, 1), (0, .symbol ⟨'a', rfl⟩, 3), (1, .epsilon, 2), (2, .epsilon, 0)] := by cbv
  have h01 : 1 ∈ roundabout.targets 0 .epsilon := Transitions.mem_edges.1 (by simp [hedges])
  have h12 : 2 ∈ roundabout.targets 1 .epsilon := Transitions.mem_edges.1 (by simp [hedges])
  have h20 : 0 ∈ roundabout.targets 2 .epsilon := Transitions.mem_edges.1 (by simp [hedges])
  -- once round the circle and on to the final state
  have htrail : roundabout.HasTrail 0 [] :=
    ⟨2, by decide, [.epsilon, .epsilon, .epsilon, .epsilon, .epsilon],
      .cons h01 (.cons h12 (.cons h20 (.cons h01 (.cons h12 (.nil 2))))), rfl⟩
  have halien : ∃ c ∈ "b".toList, ∀ x ∈ roundabout.alphabet, x.char ≠ c := by
    refine ⟨'b', by decide, fun x hx => ?_⟩
    have halphabet : roundabout.alphabet.toList = [⟨'a', rfl⟩] := by cbv
    rw [← SortedSet.mem_toList, halphabet, List.mem_singleton] at hx
    subst hx
    decide
  have hrejected : roundabout.accepts "a" = .ok false := by cbv
  obtain ⟨-, hempty⟩ := accepts_iff_trail hA ""
  obtain ⟨-, hb⟩ := accepts_iff_trail hA "b"
  obtain ⟨-, ha⟩ := accepts_iff_trail hA "a"
  exact ⟨hA, hi, (hempty 0 hi).1.2 htrail, halien, (hb 0 hi).2.2 halien, (ha 0 hi).2.1.1 hrejected⟩

end RegularLanguages.Automaton
