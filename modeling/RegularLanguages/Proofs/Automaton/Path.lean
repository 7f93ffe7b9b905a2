import Mathlib.Computability.Language
import RegularLanguages.Automaton.Run
/-!
# Paths and accepted languages

A path follows edges and spells a word, to which edges on the empty word add nothing. Reading keeps
the set of the states that paths on what has been read lead to (`mem_after`), so the accepted
language is the language of the paths from the initial state to a final one (`language_eq`).
-/

namespace RegularLanguages.Automaton

/-- Edges lead from one state to another and spell a word over the alphabet. -/
inductive Path (A : Automaton) : State → List Char → State → Prop
  | nil (q : State) : Path A q [] q
  | epsilon {p q r : State} {w : List Char} (h : q ∈ A.targets p .epsilon) :
      Path A q w r → Path A p w r
  | symbol {p q r : State} {c : Char} {x : Symbol} {w : List Char} (hc : A.symbol? c = some x)
      (h : q ∈ A.targets p (.symbol x)) : Path A q w r → Path A p (c :: w) r

/-- The words that lead from a state to a final one. -/
def languageFrom (A : Automaton) (p : State) : Language Char := {w | ∃ q ∈ A.finals, A.Path p w q}

/-- The accepted words; without an initial state no word is accepted. -/
def language (A : Automaton) : Language Char := {w | A.accepts (String.ofList w) = .ok true}

/-- The states that reading a word leads to from those of `s`. -/
def after (A : Automaton) (s : SortedSet State) : List Char → SortedSet State
  | [] => s
  | c :: cs =>
    match A.symbol? c with
    | some x => after A (A.step s x) cs
    | none => ∅

/-- A set of states that edges on the empty word do not leave. -/
def Closed (A : Automaton) (s : SortedSet State) : Prop := ∀ p ∈ s, ∀ q, A.Path p [] q → q ∈ s

variable {A : Automaton} {p q r : State} {s : SortedSet State} {v w : List Char}

theorem symbol?_eq_some {c : Char} {x : Symbol} :
    A.symbol? c = some x ↔ x.char = c ∧ x ∈ A.alphabet := by
  unfold symbol?
  rw [Option.filter_eq_some_iff, decide_eq_true_iff]
  constructor
  · rintro ⟨h, hx⟩
    exact ⟨Symbol.char_of_ofChar? h, hx⟩
  · rintro ⟨rfl, hx⟩
    exact ⟨Symbol.ofChar?_char x, hx⟩

theorem symbol?_char {x : Symbol} (hx : x ∈ A.alphabet) : A.symbol? x.char = some x :=
  symbol?_eq_some.2 ⟨rfl, hx⟩

namespace Path

theorem trans (h : A.Path p v q) (h' : A.Path q w r) : A.Path p (v ++ w) r := by
  induction h with
  | nil _ => exact h'
  | epsilon he _ ih => exact .epsilon he (ih h')
  | symbol hc he _ ih => exact .symbol hc he (ih h')

/-- More edges give more paths, if the symbols on the old ones can be read. -/
theorem mono {B : Automaton}
    (hsym : ∀ {p q c x}, q ∈ A.targets p (.symbol x) → A.symbol? c = some x → B.symbol? c = some x)
    (hedge : ∀ {p q l}, q ∈ A.targets p l → q ∈ B.targets p l) (h : A.Path p w q) : B.Path p w q := by
  induction h with
  | nil q => exact .nil q
  | epsilon he _ ih => exact .epsilon (hedge he) ih
  | symbol hc he _ ih => exact .symbol (hsym he hc) (hedge he) ih

theorem edge_epsilon (h : q ∈ A.targets p .epsilon) : A.Path p [] q := .epsilon h (.nil q)

theorem edge_symbol {x : Symbol} (hx : x ∈ A.alphabet) (h : q ∈ A.targets p (.symbol x)) :
    A.Path p [x.char] q := .symbol (symbol?_char hx) h (.nil q)

/-- A path on a longer word passes its first symbol at some edge. -/
theorem cons_inv {c : Char} (h : A.Path p (c :: w) r) :
    ∃ x q q', A.symbol? c = some x ∧ A.Path p [] q ∧ q' ∈ A.targets q (.symbol x) ∧
      A.Path q' w r := by
  generalize hv : c :: w = v at h
  induction h with
  | nil _ => cases hv
  | epsilon he _ ih =>
    obtain ⟨x, q, q', hc, hq, hq', hr⟩ := ih hv
    exact ⟨x, q, q', hc, .epsilon he hq, hq', hr⟩
  | symbol hc he hr _ =>
    cases hv
    exact ⟨_, _, _, hc, .nil _, he, hr⟩

theorem append_inv (h : A.Path p (v ++ w) r) : ∃ q, A.Path p v q ∧ A.Path q w r := by
  induction v generalizing p with
  | nil => exact ⟨p, .nil p, h⟩
  | cons c v ih =>
    obtain ⟨x, s, t, hc, hs, ht, h⟩ := h.cons_inv
    obtain ⟨q, hq, hr⟩ := ih h
    exact ⟨q, hs.trans (.symbol hc ht hq), hr⟩

theorem symbol?_isSome (h : A.Path p w q) : ∀ c ∈ w, (A.symbol? c).isSome := by
  induction h with
  | nil _ => simp
  | epsilon _ _ ih => exact ih
  | symbol hc _ _ ih =>
    intro d hd
    rcases List.mem_cons.1 hd with rfl | hd
    · rw [hc]; rfl
    · exact ih d hd

end Path

/-! ### The sets kept while reading -/

theorem mem_closure : q ∈ A.closure s ↔ ∃ p ∈ s, A.Path p [] q := by
  have hpath : ∀ {p}, Reaches (fun q => (A.targets q .epsilon).toList) p q ↔ A.Path p [] q := by
    intro p
    constructor
    · intro h
      induction h with
      | refl => exact .nil p
      | step _ he ih => exact ih.trans (.edge_epsilon he)
    · intro h
      generalize hw : [] = w at h
      induction h with
      | nil _ => exact .refl
      | epsilon he _ ih => exact .head he (ih hw)
      | symbol _ _ _ _ => cases hw
  unfold closure
  simp only [SortedSet.mem_ofList, mem_explore, hpath]
  exact Iff.rfl

theorem mem_step {x : Symbol} :
    q ∈ A.step s x ↔ ∃ p ∈ s, ∃ r ∈ A.targets p (.symbol x), A.Path r [] q := by
  unfold step
  simp only [mem_closure, SortedSet.mem_flatMap]
  constructor
  · rintro ⟨r, ⟨p, hp, hr⟩, hq⟩
    exact ⟨p, hp, r, hr, hq⟩
  · rintro ⟨p, hp, r, hr, hq⟩
    exact ⟨r, ⟨p, hp, hr⟩, hq⟩

theorem subset_closure (h : p ∈ s) : p ∈ A.closure s := mem_closure.2 ⟨p, h, .nil p⟩

theorem closed_closure (s : SortedSet State) : A.Closed (A.closure s) := by
  intro p hp q hq
  obtain ⟨r, hr, hrp⟩ := mem_closure.1 hp
  exact mem_closure.2 ⟨r, hr, hrp.trans hq⟩

theorem closed_step (s : SortedSet State) (x : Symbol) : A.Closed (A.step s x) := closed_closure _

/-- Reading leads exactly where paths lead. -/
theorem mem_after (hs : A.Closed s) : q ∈ A.after s w ↔ ∃ p ∈ s, A.Path p w q := by
  induction w generalizing s with
  | nil => exact ⟨fun h => ⟨q, h, .nil q⟩, fun ⟨p, hp, h⟩ => hs p hp q h⟩
  | cons c w ih =>
    rw [after]
    cases hc : A.symbol? c with
    | none =>
      simp only [SortedSet.not_mem_empty, false_iff]
      rintro ⟨p, -, h⟩
      have := h.symbol?_isSome c (by simp)
      simp [hc] at this
    | some x =>
      simp only [ih (closed_step s x), mem_step]
      constructor
      · rintro ⟨r, ⟨p, hp, t, ht, htr⟩, hr⟩
        exact ⟨p, hp, .symbol hc ht (htr.trans hr)⟩
      · rintro ⟨p, hp, h⟩
        obtain ⟨x', r, t, hx', hr, ht, hq⟩ := h.cons_inv
        obtain rfl : x = x' := by rw [hc] at hx'; exact Option.some.inj hx'
        exact ⟨t, ⟨r, hs p hp r hr, t, ht, .nil t⟩, hq⟩

theorem closed_after (hs : A.Closed s) (w : List Char) : A.Closed (A.after s w) := by
  intro p hp q hq
  obtain ⟨r, hr, hrp⟩ := (mem_after hs).1 hp
  exact (mem_after hs).2 ⟨r, hr, List.append_nil w ▸ hrp.trans hq⟩

theorem acceptsFrom_eq (s : SortedSet State) (w : List Char) :
    A.acceptsFrom s w = A.meetsFinal (A.after s w) := by
  induction w generalizing s with
  | nil => rfl
  | cons c w ih =>
    rw [acceptsFrom, after]
    cases A.symbol? c with
    | none => rfl
    | some x => exact ih _

theorem meetsFinal_iff : A.meetsFinal s = true ↔ ∃ q ∈ s, q ∈ A.finals := by
  unfold meetsFinal
  rw [List.any_eq_true]
  simp only [decide_eq_true_iff]
  exact Iff.rfl

/-! ### The accepted language -/

theorem accepts_of_initial (h : A.initial = some p) (w : String) :
    A.accepts w = .ok (A.acceptsFrom (A.closure (.singleton p)) w.toList) := by
  rw [accepts, h]

theorem accepts_of_no_initial (h : A.initial = none) (w : String) :
    A.accepts w = .error .noInitialState := by
  rw [accepts, h]

theorem mem_languageFrom : w ∈ A.languageFrom p ↔ ∃ q ∈ A.finals, A.Path p w q := Iff.rfl

theorem mem_language : w ∈ A.language ↔ A.accepts (String.ofList w) = .ok true := Iff.rfl

theorem accepts_eq_ok_true {w : String} : A.accepts w = .ok true ↔ w.toList ∈ A.language := by
  rw [mem_language, String.ofList_toList]

theorem language_eq (h : A.initial = some p) : A.language = A.languageFrom p := by
  ext w
  rw [mem_language, accepts_of_initial h, String.toList_ofList, Except.ok.injEq, acceptsFrom_eq,
    meetsFinal_iff, mem_languageFrom]
  simp only [mem_after (closed_closure _), mem_closure, SortedSet.mem_singleton]
  constructor
  · rintro ⟨q, ⟨r, ⟨p, rfl, hr⟩, hrq⟩, hq⟩
    exact ⟨q, hq, hr.trans hrq⟩
  · rintro ⟨q, hq, h⟩
    exact ⟨q, ⟨p, ⟨p, rfl, .nil p⟩, h⟩, hq⟩

theorem eq_zero_iff_forall_notMem {L : Language Char} : L = 0 ↔ ∀ w, w ∉ L :=
  Set.eq_empty_iff_forall_notMem

theorem language_eq_zero (h : A.initial = none) : A.language = 0 := by
  refine eq_zero_iff_forall_notMem.2 fun w hw => ?_
  rw [mem_language, accepts_of_no_initial h] at hw
  cases hw

/-- With an initial state every word is accepted or rejected. -/
theorem accepts_eq_ok_false (h : A.initial = some p) {w : String} :
    A.accepts w = .ok false ↔ w.toList ∉ A.language := by
  rw [← accepts_eq_ok_true, accepts_of_initial h]
  simp

/-- With an initial state the answer to a word is whether it is in the language. -/
theorem accepts_eq_ok (h : A.initial = some p) {w : String} {b : Bool} :
    A.accepts w = .ok b ↔ (b = true ↔ w.toList ∈ A.language) := by
  cases b with
  | false => simp [accepts_eq_ok_false h]
  | true => simp [accepts_eq_ok_true]

theorem exists_answer (h : A.initial = some p) (w : String) :
    ∃ b, A.accepts w = .ok b ∧ (b = true ↔ w.toList ∈ A.language) :=
  ⟨_, accepts_of_initial h w, (accepts_eq_ok h).1 (accepts_of_initial h w)⟩

/-- With initial states, automata that accept the same words answer alike. -/
theorem accepts_congr {B : Automaton} (hA : A.initial = some p) (hB : B.initial = some q)
    (h : A.language = B.language) (w : String) : A.accepts w = B.accepts w := by
  obtain ⟨b, hb, hw⟩ := exists_answer hA w
  rw [h] at hw
  exact hb.trans ((accepts_eq_ok hB).2 hw).symm

theorem symbol?_isSome_of_mem_language (h : w ∈ A.language) : ∀ c ∈ w, (A.symbol? c).isSome := by
  cases hi : A.initial with
  | none => rw [language_eq_zero hi] at h; exact absurd h (Language.notMem_zero w)
  | some p =>
    rw [language_eq hi] at h
    obtain ⟨q, -, hq⟩ := h
    exact hq.symbol?_isSome

end RegularLanguages.Automaton
