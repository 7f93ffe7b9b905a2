import Mathlib.Computability.MyhillNerode
import Mathlib.Data.Set.Card
import RegularLanguages.Proofs.Automaton.Functional
import RegularLanguages.Proofs.Automaton.Path
import RegularLanguages.Proofs.Automaton.WellFormed
/-!
# Reading deterministically

A deterministic automaton may have edges on the empty word, but what it can be in after a word is at
most one state and what that state reaches on the empty word (`paths_eq_of_isDeterministic`). So
each residual language that is not empty is the language of a state. Without edges on the empty word being
deterministic is being functional (`isDeterministic_iff_functional`).
-/

namespace RegularLanguages.Automaton

variable {A : Automaton} {p q r s t : State} {x : Symbol}

theorem mem_closure_singleton : q ∈ A.closure (.singleton p) ↔ A.Path p [] q := by
  rw [mem_closure]
  simp only [SortedSet.mem_singleton, exists_eq_left]

theorem isDeterministic_iff : A.isDeterministic = true ↔ ∀ q < A.size,
    (A.closure (.singleton q)).size ≤ 2 ∧ ∀ x ∈ A.alphabet, (A.targets q (.symbol x)).size = 0 ∨
      (A.targets q (.symbol x)).size + (A.closure (.singleton q)).size ≤ 2 := by
  have hpos : ∀ q, 0 < (A.closure (.singleton q)).size := fun q =>
    List.length_pos_of_mem (mem_closure_singleton.2 (.nil q))
  simp only [isDeterministic, List.all_eq_true, mem_states, Bool.and_eq_true, Bool.or_eq_true,
    decide_eq_true_iff, SortedSet.mem_toList]
  refine forall₂_congr fun q _ => and_congr ?_ (forall₂_congr fun x _ => ?_)
  · have := hpos q
    omega
  · have := hpos q
    omega

theorem size_closure_le (hd : A.isDeterministic = true) (hp : p < A.size) :
    (A.closure (.singleton p)).size ≤ 2 := (isDeterministic_iff.1 hd p hp).1

theorem size_exits (hd : A.isDeterministic = true) (hp : p < A.size) (hx : x ∈ A.alphabet)
    (ht : t ∈ A.targets p (.symbol x)) :
    (A.targets p (.symbol x)).size ≤ 1 ∧ (A.closure (.singleton p)).size ≤ 1 := by
  have hexits := (isDeterministic_iff.1 hd p hp).2 x hx
  have hreach : 0 < (A.closure (.singleton p)).size :=
    List.length_pos_of_mem (mem_closure_singleton.2 (.nil p))
  have hpos : 0 < (A.targets p (.symbol x)).size := List.length_pos_of_mem ht
  omega

/-- After any edges on the empty word there is at most one way to read a symbol. -/
theorem exit_unique (hA : A.WellFormed) (hd : A.isDeterministic = true) (hp : p < A.size)
    (hx : x ∈ A.alphabet) (hs : A.Path p [] s) (ht : t ∈ A.targets s (.symbol x))
    {s' t' : State} (hs' : A.Path p [] s') (ht' : t' ∈ A.targets s' (.symbol x)) : t = t' := by
  -- a state with an exit reaches no other on the empty word
  have hstay : ∀ {s t}, A.Path p [] s → t ∈ A.targets s (.symbol x) → ∀ r, A.Path s [] r → s = r := by
    intro s t hs ht r hr
    have hc := (size_exits hd (hA.path_lt hs hp) hx ht).2
    exact SortedSet.size_le_one_iff.1 hc s (mem_closure_singleton.2 (.nil s)) r
      (mem_closure_singleton.2 hr)
  have hss : s = s' := by
    rcases SortedSet.eq_of_size_le_two (size_closure_le hd hp) (mem_closure_singleton.2 (.nil p))
      (mem_closure_singleton.2 hs) (mem_closure_singleton.2 hs') with h | h | h
    · subst h; exact hstay hs ht s' hs'
    · subst h; exact (hstay hs' ht' s hs).symm
    · exact h
  subst hss
  exact SortedSet.size_le_one_iff.1 (size_exits hd (hA.path_lt hs hp) hx ht).1 t ht t' ht'

/-- A word leads nowhere, or to what one state reaches on the empty word. -/
theorem paths_eq_of_isDeterministic (hA : A.WellFormed) (hd : A.isDeterministic = true)
    (hp : p < A.size) (w : List Char) :
    (∀ r, ¬ A.Path p w r) ∨ ∃ q < A.size, ∀ r, A.Path p w r ↔ A.Path q [] r := by
  induction w generalizing p with
  | nil => exact .inr ⟨p, hp, fun r => Iff.rfl⟩
  | cons c w ih =>
    by_cases hex : ∃ x s t, A.symbol? c = some x ∧ A.Path p [] s ∧ t ∈ A.targets s (.symbol x)
    · obtain ⟨x, s, t, hc, hs, ht⟩ := hex
      have hpt : ∀ r, A.Path p (c :: w) r ↔ A.Path t w r := by
        intro r
        constructor
        · intro h
          obtain ⟨x', s', t', hc', hs', ht', h⟩ := h.cons_inv
          obtain rfl : x = x' := by rw [hc] at hc'; exact Option.some.inj hc'
          rwa [exit_unique hA hd hp (symbol?_eq_some.1 hc).2 hs ht hs' ht']
        · intro h
          exact hs.trans (.symbol hc ht h)
      simp only [hpt]
      exact ih (hA.target_lt ht)
    · refine .inl fun r h => ?_
      obtain ⟨x, s, t, hc, hs, ht, -⟩ := h.cons_inv
      exact hex ⟨x, s, t, hc, hs, ht⟩

/-! ### No edges on the empty word -/

theorem hasEpsilon_eq_false_iff (hA : A.WellFormed) :
    A.hasEpsilon = false ↔ ∀ p q, q ∉ A.targets p .epsilon := by
  rw [hasEpsilon, ← Bool.not_eq_true, hA.populated.hasColumn_iff]
  simp only [not_exists]
  exact Iff.rfl

theorem isDeterministic_iff_functional (hA : A.WellFormed) (he : A.hasEpsilon = false) :
    A.isDeterministic = true ↔ A.Functional := by
  refine ⟨fun hd => ⟨(hasEpsilon_eq_false_iff hA).1 he _ _, fun {p q r x} hq hr => ?_⟩,
    Functional.isDeterministic⟩
  have hexits := (size_exits hd (hA.source_lt hq) (hA.symbol_mem hq) hq).1
  exact SortedSet.size_le_one_iff.1 hexits q hq r hr

/-! ### Residual languages -/

/-- The residual languages that are not empty. -/
def residuals (L : Language Char) : Set (Language Char) := Set.range L.leftQuotient \ {0}

theorem mem_residuals {K L : Language Char} :
    K ∈ residuals L ↔ (∃ w, L.leftQuotient w = K) ∧ ∃ v, v ∈ K := by
  rw [residuals, Set.mem_sdiff, Set.mem_range, Set.mem_singleton_iff, eq_zero_iff_forall_notMem,
    not_forall_not]

/-- What remains of the language after a word, by the states that the word leads to. -/
theorem mem_leftQuotient_iff (h : A.initial = some p) {u v : List Char} :
    v ∈ A.language.leftQuotient u ↔ ∃ r, A.Path p u r ∧ v ∈ A.languageFrom r := by
  rw [Language.mem_leftQuotient, language_eq h, mem_languageFrom]
  constructor
  · rintro ⟨f, hf, hpath⟩
    obtain ⟨r, hr, hv⟩ := hpath.append_inv
    exact ⟨r, hr, f, hf, hv⟩
  · rintro ⟨r, hr, f, hf, hv⟩
    exact ⟨f, hf, hr.trans hv⟩

/-- Each residual language of a deterministic automaton is empty or the language of a state. -/
theorem residuals_subset (hA : A.WellFormed) (hd : A.isDeterministic = true) :
    residuals A.language ⊆ A.languageFrom '' {q | q < A.size} := by
  intro K hK
  obtain ⟨⟨u, rfl⟩, hv⟩ := mem_residuals.1 hK
  cases hi : A.initial with
  | none =>
    obtain ⟨v, hv⟩ := hv
    rw [Language.mem_leftQuotient, language_eq_zero hi] at hv
    exact absurd hv (Language.notMem_zero _)
  | some p =>
    rcases paths_eq_of_isDeterministic hA hd (hA.initial_lt hi) u with hno | ⟨q, hq, hpq⟩
    · obtain ⟨v, hv⟩ := hv
      obtain ⟨r, hr, -⟩ := (mem_leftQuotient_iff hi).1 hv
      exact absurd hr (hno r)
    · refine ⟨q, hq, ?_⟩
      ext v
      rw [mem_leftQuotient_iff hi]
      simp only [hpq]
      constructor
      · intro h
        exact ⟨q, .nil q, h⟩
      · rintro ⟨r, hr, f, hf, h⟩
        exact ⟨f, hf, hr.trans h⟩

theorem encard_states (A : Automaton) : {q : State | q < A.size}.encard = A.size := by
  have hr : {q : State | q < A.size} = (Finset.range A.size : Set State) := by ext q; simp
  rw [hr, Set.encard_coe_eq_coe_finsetCard, Finset.card_range]

/-- A deterministic automaton has at least as many states as its language has residuals. -/
theorem encard_residuals_le (hA : A.WellFormed) (hd : A.isDeterministic = true) :
    (residuals A.language).encard ≤ A.size := by
  calc (residuals A.language).encard
      ≤ (A.languageFrom '' {q | q < A.size}).encard := Set.encard_mono (residuals_subset hA hd)
    _ ≤ {q : State | q < A.size}.encard := Set.encard_image_le _ _
    _ = A.size := A.encard_states

end RegularLanguages.Automaton
