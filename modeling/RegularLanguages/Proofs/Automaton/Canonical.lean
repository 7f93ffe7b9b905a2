import Mathlib
import RegularLanguages.Proofs.Automaton.Equivalence
import RegularLanguages.Proofs.Automaton.Isomorphism
import RegularLanguages.Proofs.Automaton.Minimal
/-!
# Canonical automata

A canonical automaton has one state for each residual language that is not empty. Which state is
initial, which are final and where the edges lead can then be told from the languages of the states
(`mem_targets_iff`), so two canonical automata for one language are isomorphic
(`Canonical.exists_isomorphism`). Minimizing gives a canonical automaton: automata with initial states
are equivalent exactly if minimizing makes them isomorphic, whatever their names and alphabets.
-/

namespace RegularLanguages.Automaton

/-- The states stand one to one for the residual languages that are not empty. -/
structure Canonical (A : Automaton) : Prop where
  wellFormed : A.WellFormed
  functional : A.Functional
  bijOn : Set.BijOn A.languageFrom {q | q < A.size} (residuals A.language)

variable {A B : Automaton} {p q : State} {x : Symbol}

theorem Functional.languageFrom_target (hF : A.Functional) (hA : A.WellFormed)
    (h : q ∈ A.targets p (.symbol x)) :
    A.languageFrom q = (A.languageFrom p).leftQuotient [x.char] := by
  have hx := symbol?_char (hA.symbol_mem h)
  ext v
  rw [Language.mem_leftQuotient, List.singleton_append, hF.cons_mem_languageFrom]
  constructor
  · intro hv
    exact ⟨x, q, hx, h, hv⟩
  · rintro ⟨y, r, hy, hr, hv⟩
    obtain rfl := Option.some.inj (hx.symm.trans hy)
    rwa [hF.unique h hr]

namespace Canonical

theorem exists_mem (hA : A.Canonical) (hq : q < A.size) : ∃ v, v ∈ A.languageFrom q :=
  (mem_residuals.1 (hA.bijOn.mapsTo hq)).2

theorem initial_eq_none_iff (hA : A.Canonical) : A.initial = none ↔ A.language = 0 := by
  refine ⟨language_eq_zero, fun hz => ?_⟩
  by_contra hi
  obtain ⟨p, hp⟩ := Option.ne_none_iff_exists'.1 hi
  obtain ⟨v, hv⟩ := hA.exists_mem (hA.wellFormed.initial_lt hp)
  rw [language_eq hp] at hz
  exact eq_zero_iff_forall_notMem.1 hz v hv

/-- The initial state is the one with the whole language. -/
theorem initial_eq_some_iff (hA : A.Canonical) (hq : q < A.size) :
    A.initial = some q ↔ A.languageFrom q = A.language := by
  refine ⟨fun h => (language_eq h).symm, fun h => ?_⟩
  obtain ⟨v, hv⟩ := hA.exists_mem hq
  have hi : A.initial ≠ none := fun hi =>
    eq_zero_iff_forall_notMem.1 (h.trans (language_eq_zero hi)) v hv
  obtain ⟨p, hp⟩ := Option.ne_none_iff_exists'.1 hi
  rw [language_eq hp] at h
  rw [hp, hA.bijOn.injOn hq (hA.wellFormed.initial_lt hp) h]

/-- An edge leads to the state with what remains of the language after its symbol. -/
theorem mem_targets_iff (hA : A.Canonical) (hq : q < A.size) :
    q ∈ A.targets p (.symbol x) ↔
      A.languageFrom q = (A.languageFrom p).leftQuotient [x.char] := by
  refine ⟨hA.functional.languageFrom_target hA.wellFormed, fun h => ?_⟩
  obtain ⟨v, hv⟩ := hA.exists_mem hq
  rw [h, Language.mem_leftQuotient, List.singleton_append,
    hA.functional.cons_mem_languageFrom] at hv
  obtain ⟨y, r, hy, hr, -⟩ := hv
  obtain rfl := Symbol.char_injective (symbol?_eq_some.1 hy).1
  have hlang := hA.functional.languageFrom_target hA.wellFormed hr
  rwa [hA.bijOn.injOn hq (hA.wellFormed.target_lt hr) (h.trans hlang.symm)]

/-- States of one language in two canonical automata are joined alike. -/
theorem target_iff (hA : A.Canonical) (hB : B.Canonical) {p' q' : State} {l : Label}
    (hq : q < A.size) (hq' : q' < B.size)
    (hpp : B.languageFrom p' = A.languageFrom p) (hqq : B.languageFrom q' = A.languageFrom q) :
    q' ∈ B.targets p' l ↔ q ∈ A.targets p l := by
  cases l with
  | epsilon => exact iff_of_false hB.functional.no_epsilon hA.functional.no_epsilon
  | symbol x => rw [hA.mem_targets_iff hq, hB.mem_targets_iff hq', hpp, hqq]

/-- The states of canonical automata for one language stand one to one for each other. -/
theorem exists_bijOn (hA : A.Canonical) (hB : B.Canonical) (h : A.language = B.language) :
    ∃ f, Set.BijOn f {q | q < A.size} {q | q < B.size} ∧
      ∀ q, q < A.size → B.languageFrom (f q) = A.languageFrom q := by
  have hinv := hB.bijOn.invOn_invFunOn
  have hA' : Set.BijOn A.languageFrom {q | q < A.size} (residuals B.language) := h ▸ hA.bijOn
  refine ⟨_, (hB.bijOn.symm hinv.symm).comp hA', fun q hq => ?_⟩
  exact hinv.2 (hA'.mapsTo hq)

/-- Canonical automata for one language differ only in the numbers of their states. -/
theorem exists_isomorphism (hA : A.Canonical) (hB : B.Canonical) (h : A.language = B.language) :
    ∃ f, Isomorphism A B f := by
  obtain ⟨f, hf, hlang⟩ := hA.exists_bijOn hB h
  refine ⟨f, hf, ?_, fun hq => ?_, fun hp hq => ?_⟩
  · cases hi : A.initial with
    | none =>
      rw [Option.map_none, hB.initial_eq_none_iff, ← h]
      exact language_eq_zero hi
    | some p =>
      have hp := hA.wellFormed.initial_lt hi
      rw [Option.map_some, hB.initial_eq_some_iff (hf.mapsTo hp), hlang _ hp, ← h, language_eq hi]
  · rw [← hA.functional.nil_mem_languageFrom, ← hB.functional.nil_mem_languageFrom, hlang _ hq]
  · exact hA.target_iff hB hq (hf.mapsTo hq) (hlang _ hp) (hlang _ hq)

end Canonical

/-! ### Minimal automata are canonical -/

theorem canonical_quotient (hA : A.WellFormed) (hF : A.Functional) (hT : A.Trim) :
    A.quotient.Canonical where
  wellFormed := wellFormed_quotient A
  functional := functional_quotient hA hF
  bijOn := by
    rw [language_quotient hA hF, residuals_eq_of_trim hA hF hT]
    exact bijOn_languageFrom_quotient hA hF

theorem minimize_canonical (hp : A.initial = some p) :
    ∃ M, A.minimize = .ok M ∧ M.Canonical ∧ M.language = A.language := by
  obtain ⟨B, hB, hF, hT, hL, -, hM⟩ := minimize_eq hp
  exact ⟨B.quotient, hM, canonical_quotient hB hF hT, (language_quotient hB hF).trans hL⟩

theorem language_eq_zero_iff (hp : A.initial = some p) :
    A.language = 0 ↔ ∀ w, A.accepts w = .ok false := by
  simp only [eq_zero_iff_forall_notMem, accepts_eq_ok_false hp]
  refine ⟨fun h w => h w.toList, fun h w => ?_⟩
  rw [← String.toList_ofList (l := w)]
  exact h _

/-- Equivalent are exactly those automata that minimizing makes isomorphic. An automaton that accepts no
word loses its initial state. -/
theorem isEquivalent_iff_isomorphic (hA : A.WellFormed) (hB : B.WellFormed)
    (hp : A.initial ≠ none) (hq : B.initial ≠ none) :
    ∃ M N, A.minimize = .ok M ∧ B.minimize = .ok N ∧
      (A.isEquivalent B = .ok true ↔ ∃ f, Isomorphism M N f) ∧
      (M.initial = none ↔ ∀ w, A.accepts w = .ok false) ∧
      (N.initial = none ↔ ∀ w, B.accepts w = .ok false) := by
  obtain ⟨p, hp⟩ := Option.ne_none_iff_exists'.1 hp
  obtain ⟨q, hq⟩ := Option.ne_none_iff_exists'.1 hq
  obtain ⟨M, hM, hMc, hML⟩ := minimize_canonical hp
  obtain ⟨N, hN, hNc, hNL⟩ := minimize_canonical hq
  obtain ⟨b, hb, heq⟩ := isEquivalent_eq hA hB hp hq
  refine ⟨M, N, hM, hN, ?_, ?_, ?_⟩
  · rw [hb, Except.ok.injEq, heq]
    constructor
    · intro h
      exact hMc.exists_isomorphism hNc (hML.trans (h.trans hNL.symm))
    · rintro ⟨f, hf⟩
      rw [← hML, ← hNL, hf.language_eq hMc.wellFormed hNc.wellFormed]
  · rw [hMc.initial_eq_none_iff, hML, language_eq_zero_iff hp]
  · rw [hNc.initial_eq_none_iff, hNL, language_eq_zero_iff hq]

/-- Accepts what `fork` accepts. It knows one more symbol, which leads to a state that no word leads on
from. -/
def deadEnd : Automaton :=
  (Draft.empty.requests [.symbol 'a', .symbol 'b', .state "p" true false, .state "f" false true,
    .state "d" false false, .edge "p" 'a' "f", .edge "f" 'a' "f", .edge "f" 'b' "d"]).automaton

theorem isEquivalent_iff_isomorphic_fork :
    fork.WellFormed ∧ deadEnd.WellFormed ∧ fork.initial ≠ none ∧ deadEnd.initial ≠ none ∧
      fork.isEquivalent deadEnd = .ok true ∧
      ∃ M N, fork.minimize = .ok M ∧ deadEnd.minimize = .ok N ∧ (∃ f, Isomorphism M N f) ∧
        N.initial ≠ none := by
  have hA : fork.WellFormed := Draft.wellFormed_requests _
  have hB : deadEnd.WellFormed := Draft.wellFormed_requests _
  have hi : fork.initial ≠ none := by decide
  have hi' : deadEnd.initial ≠ none := by decide
  have heq : fork.isEquivalent deadEnd = .ok true := by cbv
  have hacc : deadEnd.accepts "a" = .ok true := by cbv
  obtain ⟨M, N, hM, hN, hiff, -, hnone⟩ := isEquivalent_iff_isomorphic hA hB hi hi'
  refine ⟨hA, hB, hi, hi', heq, M, N, hM, hN, hiff.1 heq, fun hn => ?_⟩
  have hrej := hnone.1 hn "a"
  rw [hacc] at hrej
  cases hrej

end RegularLanguages.Automaton
