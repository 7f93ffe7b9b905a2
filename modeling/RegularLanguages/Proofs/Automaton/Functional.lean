import RegularLanguages.Proofs.Automaton.WellFormed
/-!
# Functional automata

An automaton is functional if it has no edge on the empty word and never a choice between two edges:
a word leads from a state to at most one other. Functional automata are deterministic, and reading
one symbol in them is following one edge.
-/

namespace RegularLanguages.Automaton

/-- No edge on the empty word, and on a symbol at most one from each state. -/
structure Functional (A : Automaton) : Prop where
  no_epsilon {p q : State} : q ∉ A.targets p .epsilon
  unique {p q r : State} {x : Symbol} :
    q ∈ A.targets p (.symbol x) → r ∈ A.targets p (.symbol x) → q = r

variable {A : Automaton} {p q r : State} {w : List Char} {c : Char}

namespace Functional

theorem path_nil (h : A.Functional) : A.Path p [] q ↔ p = q := by
  constructor
  · intro hp
    cases hp with
    | nil => rfl
    | epsilon he _ => exact absurd he h.no_epsilon
  · rintro rfl
    exact .nil p

theorem path_cons (h : A.Functional) :
    A.Path p (c :: w) r ↔
      ∃ x q, A.symbol? c = some x ∧ q ∈ A.targets p (.symbol x) ∧ A.Path q w r := by
  constructor
  · intro hp
    obtain ⟨x, q, q', hc, hq, hq', hr⟩ := hp.cons_inv
    obtain rfl := h.path_nil.1 hq
    exact ⟨x, q', hc, hq', hr⟩
  · rintro ⟨x, q, hc, hq, hr⟩
    exact .symbol hc hq hr

/-- A word leads to one state only. -/
theorem path_unique (h : A.Functional) (hq : A.Path p w q) (hr : A.Path p w r) : q = r := by
  induction w generalizing p with
  | nil => exact (h.path_nil.1 hq).symm.trans (h.path_nil.1 hr)
  | cons c w ih =>
    obtain ⟨x, s, hx, hs, hq⟩ := h.path_cons.1 hq
    obtain ⟨y, t, hy, ht, hr⟩ := h.path_cons.1 hr
    obtain rfl : x = y := by rw [hx] at hy; exact Option.some.inj hy
    obtain rfl := h.unique hs ht
    exact ih hq hr

theorem nil_mem_languageFrom (h : A.Functional) : [] ∈ A.languageFrom p ↔ p ∈ A.finals := by
  rw [mem_languageFrom]
  simp only [h.path_nil]
  exact ⟨fun ⟨q, hq, hpq⟩ => hpq ▸ hq, fun hp => ⟨p, hp, rfl⟩⟩

theorem cons_mem_languageFrom (h : A.Functional) :
    c :: w ∈ A.languageFrom p ↔
      ∃ x q, A.symbol? c = some x ∧ q ∈ A.targets p (.symbol x) ∧ w ∈ A.languageFrom q := by
  simp only [mem_languageFrom, h.path_cons]
  constructor
  · rintro ⟨f, hf, x, q, hx, hq, hp⟩
    exact ⟨x, q, hx, hq, f, hf, hp⟩
  · rintro ⟨x, q, hx, hq, f, hf, hp⟩
    exact ⟨f, hf, x, q, hx, hq, hp⟩

theorem closure_singleton (h : A.Functional) (q : State) :
    A.closure (.singleton q) = .singleton q := by
  refine SortedSet.ext fun p => ?_
  rw [mem_closure]
  simp only [SortedSet.mem_singleton, h.path_nil]
  constructor
  · rintro ⟨r, rfl, rfl⟩
    rfl
  · rintro rfl
    exact ⟨p, rfl, rfl⟩

theorem isDeterministic (h : A.Functional) : A.isDeterministic = true := by
  unfold Automaton.isDeterministic
  rw [List.all_eq_true]
  intro q _
  have hspread : (A.closure (.singleton q)).size = 1 := by rw [h.closure_singleton]; rfl
  have hexits : ∀ x, (A.targets q (.symbol x)).size ≤ 1 := fun x =>
    SortedSet.size_le_one_iff.2 fun _ h₁ _ h₂ => h.unique h₁ h₂
  simp only [hspread, Bool.and_eq_true, List.all_eq_true, decide_eq_true_eq, Bool.or_eq_true]
  exact ⟨by omega, fun x _ => .inr (hexits x)⟩

theorem hasEpsilon (h : A.Functional) (hp : A.transitions.Populated) : A.hasEpsilon = false := by
  rw [Automaton.hasEpsilon, Bool.eq_false_iff, ne_eq, hp.hasColumn_iff]
  rintro ⟨p, q, hq⟩
  exact h.no_epsilon hq

end Functional

/-! ### The automaton of a letter -/

def letter (x : Symbol) : Automaton where
  names := #[.numbered 0, .numbered 1]
  alphabet := .singleton x
  transitions := .ofEdges [(0, .symbol x, 1)]
  initial := some 0
  finals := .singleton 1

theorem mem_targets_letter {x : Symbol} {l : Label} :
    q ∈ (letter x).targets p l ↔ p = 0 ∧ l = .symbol x ∧ q = 1 := by
  rw [targets, letter, Transitions.mem_targets_ofEdges]
  simp

theorem wellFormed_letter (x : Symbol) : (letter x).WellFormed := by
  refine .of_edges rfl ?_ ?_ ?_ ?_
  · intro q hq
    obtain rfl := Option.some.inj hq
    exact Nat.zero_lt_two
  · intro q hq
    obtain rfl := SortedSet.mem_singleton.1 hq
    exact Nat.one_lt_two
  · intro p l q h
    obtain ⟨rfl, -, rfl⟩ : p = 0 ∧ l = .symbol x ∧ q = 1 := by simpa using h
    exact ⟨Nat.zero_lt_two, Nat.one_lt_two⟩
  · intro p y q h
    obtain ⟨-, rfl, -⟩ : p = 0 ∧ y = x ∧ q = 1 := by simpa using h
    exact SortedSet.mem_singleton.2 rfl

theorem functional_letter (x : Symbol) : (letter x).Functional where
  no_epsilon h := by cases (mem_targets_letter.1 h).2.1
  unique h h' := (mem_targets_letter.1 h).2.2.trans (mem_targets_letter.1 h').2.2.symm

theorem path_letter {x : Symbol} (h : (letter x).Path 0 w 1) : w = [x.char] := by
  have hF := functional_letter x
  cases w with
  | nil => exact absurd (hF.path_nil.1 h) Nat.zero_ne_one
  | cons c w =>
    obtain ⟨y, q, hc, hq, hw⟩ := hF.path_cons.1 h
    obtain ⟨-, hy, rfl⟩ := mem_targets_letter.1 hq
    obtain rfl := Label.symbol.inj hy
    cases w with
    | nil => rw [(symbol?_eq_some.1 hc).1]
    | cons d w =>
      obtain ⟨z, r, -, hr, -⟩ := hF.path_cons.1 hw
      exact absurd (mem_targets_letter.1 hr).1 Nat.one_ne_zero

theorem language_letter (x : Symbol) : (letter x).language = {[x.char]} := by
  have hsym : (letter x).symbol? x.char = some x := symbol?_char (SortedSet.mem_singleton.2 rfl)
  rw [language_eq (A := letter x) (p := 0) rfl]
  ext w
  show (∃ f ∈ (letter x).finals, (letter x).Path 0 w f) ↔ w = [x.char]
  constructor
  · rintro ⟨f, hf, hw⟩
    obtain rfl := SortedSet.mem_singleton.1 hf
    exact path_letter hw
  · rintro rfl
    exact ⟨1, SortedSet.mem_singleton.2 rfl,
      .symbol hsym (mem_targets_letter.2 ⟨rfl, rfl, rfl⟩) (.nil 1)⟩

theorem accepts_letter (x : Symbol) (w : String) :
    (letter x).accepts w = .ok (decide (w.toList = [x.char])) := by
  rw [accepts_eq_ok (A := letter x) (p := 0) rfl, language_letter, decide_eq_true_iff]
  exact Iff.rfl

/-! ### Circles of states -/

/-- A circle of `n` final states with an edge on `x` from each to the next. -/
def circle (n : Nat) (x : Symbol) : Automaton where
  names := ((List.range n).map StateName.numbered).toArray
  alphabet := .singleton x
  transitions := .ofEdges ((List.range n).map fun q => (q, .symbol x, (q + 1) % n))
  initial := some 0
  finals := .ofList (List.range n)

variable {n m : Nat} {x : Symbol} {l : Label}

theorem size_circle : (circle n x).size = n := by
  rw [size, circle, List.size_toArray, List.length_map, List.length_range]

theorem mem_targets_circle :
    q ∈ (circle n x).targets p l ↔ p < n ∧ l = .symbol x ∧ q = (p + 1) % n := by
  rw [targets, circle, Transitions.mem_targets_ofEdges, List.mem_map]
  simp only [List.mem_range, Prod.mk.injEq]
  constructor
  · rintro ⟨_, hp, rfl, rfl, rfl⟩
    exact ⟨hp, rfl, rfl⟩
  · rintro ⟨hp, rfl, rfl⟩
    exact ⟨p, hp, rfl, rfl, rfl⟩

theorem mem_finals_circle : q ∈ (circle n x).finals ↔ q < n := by
  rw [circle, SortedSet.mem_ofList, List.mem_range]

theorem wellFormed_circle (hn : 0 < n) : (circle n x).WellFormed where
  initial_lt hq := by
    obtain rfl := Option.some.inj hq
    rwa [size_circle]
  final_lt hq := by rwa [size_circle, ← mem_finals_circle]
  source_lt hq := by
    rw [size_circle]
    exact (mem_targets_circle.1 hq).1
  target_lt hq := by
    rw [size_circle, (mem_targets_circle.1 hq).2.2]
    exact Nat.mod_lt _ hn
  symbol_mem hq := by
    rw [Label.symbol.inj (mem_targets_circle.1 hq).2.1]
    exact SortedSet.mem_singleton.2 rfl
  populated := Transitions.populated_ofEdges _

theorem functional_circle : (circle n x).Functional where
  no_epsilon h := by cases (mem_targets_circle.1 h).2.1
  unique h h' := (mem_targets_circle.1 h).2.2.trans (mem_targets_circle.1 h').2.2.symm

/-- What is read in one circle can be read in another. -/
theorem path_circle (hm : 0 < m) {r : State} (h : (circle n x).Path p w q) (hr : r < m) :
    ∃ r' < m, (circle m x).Path r w r' := by
  induction h generalizing r with
  | nil => exact ⟨r, hr, .nil r⟩
  | epsilon he => cases (mem_targets_circle.1 he).2.1
  | symbol hc he _ ih =>
    obtain ⟨-, hl, -⟩ := mem_targets_circle.1 he
    obtain ⟨r', hr', hpath⟩ := ih (Nat.mod_lt (r + 1) hm)
    exact ⟨r', hr', .symbol hc (mem_targets_circle.2 ⟨hr, hl, rfl⟩) hpath⟩

theorem language_circle (hn : 0 < n) (hm : 0 < m) : (circle n x).language = (circle m x).language := by
  have hle : ∀ {n m : Nat}, 0 < m →
      ∀ w ∈ (circle n x).languageFrom 0, w ∈ (circle m x).languageFrom 0 := by
    rintro n m hm w ⟨q, -, hw⟩
    obtain ⟨r, hr, hpath⟩ := path_circle hm hw hm
    exact ⟨r, mem_finals_circle.2 hr, hpath⟩
  rw [language_eq rfl, language_eq rfl]
  ext w
  exact ⟨hle hm w, hle hn w⟩

end RegularLanguages.Automaton
