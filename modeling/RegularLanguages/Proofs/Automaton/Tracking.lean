import Mathlib
import RegularLanguages.Proofs.Automaton.Deterministic
import RegularLanguages.Proofs.Automaton.Draft
/-!
# What deterministic reading keeps track of

A deterministic automaton may have states that lead to another one on the empty word, and even circles of two
such states, but then neither of the two can read a symbol. So from what one state reaches on the empty word a
symbol leads nowhere, or to what one state reaches on the empty word again (`FromOne.step`), and this is all that
reading ever keeps track of (`FromOne.after`).
-/

namespace RegularLanguages.Automaton

/-- The set is empty, or it is what one state reaches on the empty word. -/
def FromOne (A : Automaton) (s : SortedSet State) : Prop :=
  s = ∅ ∨ ∃ q < A.size, s = A.closure (.singleton q)

/-- The states that reading a word from `p` keeps track of. -/
def tracked (A : Automaton) (p : State) (w : List Char) : SortedSet State :=
  A.after (A.closure (.singleton p)) w

variable {A : Automaton} {p q : State} {s : SortedSet State} {x : Symbol} {u v : List Char}

/-- To accept a word is to accept its rest from where its first part leads. -/
theorem acceptsFrom_append (s : SortedSet State) (hu : ∀ c ∈ u, (A.symbol? c).isSome) (v : List Char) :
    A.acceptsFrom s (u ++ v) = A.acceptsFrom (A.after s u) v := by
  induction u generalizing s with
  | nil => rfl
  | cons c u ih =>
    obtain ⟨x, hx⟩ := Option.isSome_iff_exists.1 (hu c List.mem_cons_self)
    have hu' : ∀ d ∈ u, (A.symbol? d).isSome := fun d hd => hu d (List.mem_cons_of_mem c hd)
    rw [List.cons_append, acceptsFrom, after, hx]
    exact ih _ hu'

/-! ### One state at a time -/

namespace FromOne

theorem closure (hq : q < A.size) : A.FromOne (A.closure (.singleton q)) := .inr ⟨q, hq, rfl⟩

theorem step (hA : A.WellFormed) (hd : A.isDeterministic = true) (hx : x ∈ A.alphabet)
    (hs : A.FromOne s) : A.FromOne (A.step s x) := by
  by_cases hstep : ∃ r, r ∈ A.step s x
  · obtain ⟨r, hr⟩ := hstep
    obtain ⟨p, hp, t, ht, -⟩ := mem_step.1 hr
    rcases hs with rfl | ⟨q, hq, rfl⟩
    · exact absurd hp (SortedSet.not_mem_empty p)
    refine .inr ⟨t, hA.target_lt ht, SortedSet.ext fun r => ?_⟩
    rw [mem_step, mem_closure_singleton]
    constructor
    · rintro ⟨p', hp', t', ht', hr⟩
      -- no other edge on the symbol leaves the set
      rwa [exit_unique hA hd hq hx (mem_closure_singleton.1 hp) ht (mem_closure_singleton.1 hp') ht']
    · intro hr
      exact ⟨p, hp, t, ht, hr⟩
  · refine .inl (SortedSet.ext fun r => ?_)
    exact iff_of_false (fun hr => hstep ⟨r, hr⟩) (SortedSet.not_mem_empty r)

theorem after (hA : A.WellFormed) (hd : A.isDeterministic = true) (hs : A.FromOne s) (w : List Char) :
    A.FromOne (A.after s w) := by
  induction w generalizing s with
  | nil => exact hs
  | cons c w ih =>
    rw [Automaton.after]
    cases hc : A.symbol? c with
    | none => exact .inl rfl
    | some x => exact ih (hs.step hA hd (symbol?_eq_some.1 hc).2)

theorem size_le (hd : A.isDeterministic = true) (hs : A.FromOne s) : s.size ≤ 2 := by
  rcases hs with rfl | ⟨q, hq, rfl⟩
  · exact Nat.zero_le 2
  · exact size_closure_le hd hq

end FromOne

/-- Reading a word over the alphabet, a deterministic automaton keeps track of nothing, or of one state and what
it reaches on the empty word, which is one more state at most; whether the word is accepted is decided from
there. An automaton without edges on the empty word is deterministic if and only if no state has two targets on
one symbol. -/
theorem reading_keeps_one (hA : A.WellFormed) :
    (∀ p, A.initial = some p → A.isDeterministic = true → ∀ u, (∀ c ∈ u, (A.symbol? c).isSome) →
      (∀ v, A.accepts (String.ofList (u ++ v)) = .ok (A.acceptsFrom (A.tracked p u) v)) ∧
        (A.tracked p u = ∅ ∨ ∃ q < A.size, A.tracked p u = A.closure (.singleton q)) ∧
        (A.tracked p u).size ≤ 2) ∧
      (A.hasEpsilon = false → (A.isDeterministic = true ↔ ∀ q x r t,
        r ∈ A.targets q (.symbol x) → t ∈ A.targets q (.symbol x) → r = t)) := by
  constructor
  · intro p hp hd u hu
    have hone : A.FromOne (A.tracked p u) := (FromOne.closure (hA.initial_lt hp)).after hA hd u
    refine ⟨fun v => ?_, hone, hone.size_le hd⟩
    rw [accepts_of_initial hp, String.toList_ofList, acceptsFrom_append _ hu, tracked]
  · intro he
    rw [isDeterministic_iff_functional hA he]
    refine ⟨fun hF q x r t => hF.unique, fun h => ?_⟩
    exact ⟨(hasEpsilon_eq_false_iff hA).1 he _ _, h _ _ _ _⟩

/-- Reading `a` leads to two states that reach each other, and themselves, on the empty word. -/
def shuttle : Automaton :=
  (Draft.empty.requests [.symbol 'a', .state "q0" true false, .state "q1" false false,
    .state "q2" false true, .edge "q0" 'a' "q1", .edge "q1" '&' "q2", .edge "q2" '&' "q1",
    .edge "q1" '&' "q1"]).automaton

theorem reading_keeps_one_shuttle :
    shuttle.WellFormed ∧ shuttle.initial = some 0 ∧ shuttle.isDeterministic = true ∧
      (∀ c ∈ ['a'], (shuttle.symbol? c).isSome) ∧ (shuttle.tracked 0 ['a']).toList = [1, 2] ∧
      (∃ q < shuttle.size, shuttle.tracked 0 ['a'] = shuttle.closure (.singleton q)) ∧
      (∀ v, shuttle.accepts (String.ofList ('a' :: v)) =
        .ok (shuttle.acceptsFrom (shuttle.tracked 0 ['a']) v)) ∧
      (letter ⟨'a', rfl⟩).hasEpsilon = false ∧ (letter ⟨'a', rfl⟩).isDeterministic = true := by
  have hA : shuttle.WellFormed := Draft.wellFormed_requests _
  have hi : shuttle.initial = some 0 := by decide
  have hd : shuttle.isDeterministic = true := by cbv
  have hsymbols : ∀ c ∈ ['a'], (shuttle.symbol? c).isSome := by simp; cbv
  have hboth : (shuttle.tracked 0 ['a']).toList = [1, 2] := by cbv
  obtain ⟨hreading, -⟩ := reading_keeps_one hA
  obtain ⟨haccepts, hone, -⟩ := hreading 0 hi hd ['a'] hsymbols
  have hsome : ∃ q < shuttle.size, shuttle.tracked 0 ['a'] = shuttle.closure (.singleton q) := by
    refine hone.resolve_left fun hno => ?_
    rw [hno] at hboth
    cases hboth
  -- no edge on the empty word, and one edge only
  have hletter := wellFormed_letter ⟨'a', rfl⟩
  have hF := functional_letter ⟨'a', rfl⟩
  have he := hF.hasEpsilon hletter.populated
  obtain ⟨-, hunique⟩ := reading_keeps_one hletter
  exact ⟨hA, hi, hd, hsymbols, hboth, hsome, haccepts, he,
    (hunique he).2 fun q x r t hr ht => hF.unique hr ht⟩

end RegularLanguages.Automaton
