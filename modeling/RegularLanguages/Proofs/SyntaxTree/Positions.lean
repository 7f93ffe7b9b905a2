import Mathlib
import RegularLanguages.Proofs.SyntaxTree.Compositions
import RegularLanguages.SyntaxTree.Automaton
/-!
# Compositions are position sets

The leaves of a syntax tree are the positions of its expression. Which of them can begin a word, end
one, and come after one another is told by recursion on the expression (`Regex.first`, `Regex.last`,
`Regex.follow`). Compositions are found by following steps up and down the tree, around its cycles, and
are these sets, with the root where the expression may end: entering a block leads to its first leaves,
and through it if it is nullable (`Block.arrivals_down`); going on from a leaf leads to those that follow
it, and out of the block if it is one of the last (`Block.arrivals_up`).
-/

namespace RegularLanguages

/-- The set itself if the condition holds, and otherwise nothing. -/
def SortedSet.onlyIf {α : Type} [Ord α] (s : SortedSet α) (c : Prop) [Decidable c] : SortedSet α :=
  if c then s else ∅

@[simp] theorem SortedSet.mem_onlyIf {α : Type} [Ord α] {s : SortedSet α} {c : Prop} [Decidable c]
    {x : α} : x ∈ s.onlyIf c ↔ c ∧ x ∈ s := by
  unfold onlyIf
  split <;> simp [*]

namespace Regex

/-- The empty word is one of the expression. -/
def nullable : Regex → Bool
  | symbol _ => false
  | unary .plus e => e.nullable
  | unary .star _ | unary .optional _ => true
  | binary .union l r => l.nullable || r.nullable
  | binary .concat l r => l.nullable && r.nullable

/-- The leaves that begin a word, when the nodes of the expression stand from `id` on. -/
def first (id : NodeId) : Regex → Composition
  | symbol _ => .singleton id
  | unary _ e => e.first (id + 1)
  | binary .union l r => l.first (id + 1) ∪ r.first (id + 1 + l.size)
  | binary .concat l r =>
    l.first (id + 1) ∪ (r.first (id + 1 + l.size)).onlyIf (l.nullable = true)

/-- The leaves that end a word. -/
def last (id : NodeId) : Regex → Composition
  | symbol _ => .singleton id
  | unary _ e => e.last (id + 1)
  | binary .union l r => l.last (id + 1) ∪ r.last (id + 1 + l.size)
  | binary .concat l r =>
    r.last (id + 1 + l.size) ∪ (l.last (id + 1)).onlyIf (r.nullable = true)

/-- The leaves that come right after the leaf `p` in a word. -/
def follow (id p : NodeId) : Regex → Composition
  | symbol _ => ∅
  | unary .optional e => e.follow (id + 1) p
  | unary .star e | unary .plus e =>
    e.follow (id + 1) p ∪ (e.first (id + 1)).onlyIf (p ∈ e.last (id + 1))
  | binary .union l r => l.follow (id + 1) p ∪ r.follow (id + 1 + l.size) p
  | binary .concat l r =>
    l.follow (id + 1) p ∪ r.follow (id + 1 + l.size) p ∪
      (r.first (id + 1 + l.size)).onlyIf (p ∈ l.last (id + 1))

variable {e : Regex} {id p : Nat}

theorem range_of_mem_last (h : p ∈ e.last id) : id ≤ p ∧ p < id + e.size := by
  induction e generalizing id with
  | symbol x =>
    obtain rfl := SortedSet.mem_singleton.1 h
    simp [size]
  | unary m e ih =>
    have := ih h
    simp only [size]
    omega
  | binary c l r ihl ihr =>
    have hlr : p ∈ l.last (id + 1) ∨ p ∈ r.last (id + 1 + l.size) := by
      cases c <;> simp only [last, SortedSet.mem_union, SortedSet.mem_onlyIf] at h <;> tauto
    simp only [size]
    rcases hlr with h | h
    · have := ihl h
      omega
    · have := ihr h
      omega

/-- What is no leaf of the expression has nothing after it. -/
theorem not_mem_follow (h : p < id ∨ id + e.size ≤ p) (q : NodeId) : q ∉ e.follow id p := by
  have hlast : ∀ {e : Regex} {id : Nat}, p < id ∨ id + e.size ≤ p → p ∉ e.last id := by
    intro e id h hp
    have := range_of_mem_last hp
    omega
  induction e generalizing id with
  | symbol x => exact SortedSet.not_mem_empty q
  | unary m e ih =>
    simp only [size] at h
    have he : p < id + 1 ∨ id + 1 + e.size ≤ p := by omega
    cases m <;> simp [follow, ih he, hlast he]
  | binary c l r ihl ihr =>
    simp only [size] at h
    have hl : p < id + 1 ∨ id + 1 + l.size ≤ p := by omega
    have hr : p < id + 1 + l.size ∨ id + 1 + l.size + r.size ≤ p := by omega
    cases c <;> simp [follow, ihl hl, ihr hr, hlast hl]

end Regex

namespace SyntaxTree

/-- Moves lead from a step to rest at a node; they are counted. -/
inductive Rests (t : SyntaxTree) : Nat → Step → NodeId → Prop
  | here {p : NodeId} {d : Direction} (h : t.isTerminal (p, d) = true) : Rests t 0 (p, d) p
  | move {a b : Step} {n : Nat} {p : NodeId} (h : b ∈ t.next a) : Rests t n b p →
      Rests t (n + 1) a p

/-- The nodes that moves from a step come to rest at. -/
def arrivals (t : SyntaxTree) (a : Step) : Set NodeId := {p | ∃ n, t.Rests n a p}

variable {t : SyntaxTree} {e l r : Regex} {x : Symbol} {id climb p q : NodeId} {a b c : Step}
  {n m : Nat} {starts : List Step}

theorem moving_rests (p : NodeId) : t.Moving fun n a => t.Rests n a p := by
  intro n a h hn
  cases h with
  | here ht => exact absurd (next_of_isTerminal ht) hn
  | move hb h => exact ⟨_, _, Nat.lt_succ_self _, hb, h⟩

theorem Rests.exists_only_move (h : t.Rests n a p) (hn : t.next a = [b]) : ∃ m < n, t.Rests m b p :=
  (moving_rests p).exists_only_move h hn

theorem Rests.exists_either_move (h : t.Rests n a p) (hn : t.next a = [b, c]) :
    ∃ m < n, t.Rests m b p ∨ t.Rests m c p :=
  (moving_rests p).exists_either_move h hn

theorem Rests.eq_of_isTerminal {d : Direction} (h : t.Rests n (id, d) p)
    (ht : t.isTerminal (id, d) = true) : p = id := by
  cases h with
  | here _ => rfl
  | move hb _ =>
    rw [next_of_isTerminal ht] at hb
    cases hb

theorem mem_arrivals_of_next (hb : b ∈ t.next a) (h : p ∈ t.arrivals b) : p ∈ t.arrivals a := by
  obtain ⟨n, hn⟩ := h
  exact ⟨n + 1, .move hb hn⟩

/-- Where moves do not rest, they go on. -/
theorem mem_arrivals_iff (ht : t.isTerminal a = false) :
    p ∈ t.arrivals a ↔ ∃ b ∈ t.next a, p ∈ t.arrivals b := by
  constructor
  · rintro ⟨n, h⟩
    cases h with
    | here ht' => rw [ht'] at ht; cases ht
    | move hb h => exact ⟨_, hb, _, h⟩
  · rintro ⟨b, hb, h⟩
    exact mem_arrivals_of_next hb h

theorem arrivals_of_next (hn : t.next a = [b]) : p ∈ t.arrivals a ↔ p ∈ t.arrivals b := by
  have ht : t.isTerminal a = false := by
    rw [Bool.eq_false_iff]
    intro ht
    rw [next_of_isTerminal ht] at hn
    cases hn
  simp [mem_arrivals_iff ht, hn]

theorem arrivals_of_isTerminal {d : Direction} (h : t.isTerminal (id, d) = true) :
    p ∈ t.arrivals (id, d) ↔ p = id := by
  constructor
  · rintro ⟨n, hn⟩
    exact hn.eq_of_isTerminal h
  · rintro rfl
    exact ⟨0, .here h⟩

theorem mem_composition_iff : p ∈ t.composition starts ↔ ∃ a ∈ starts, p ∈ t.arrivals a := by
  rw [mem_composition]
  refine exists_congr fun a => and_congr_right fun _ => ?_
  constructor
  · rintro ⟨d, hr, ht⟩
    suffices ∀ {b}, Reaches t.next a b → p ∈ t.arrivals b → p ∈ t.arrivals a from
      this hr ⟨0, .here ht⟩
    intro b hr hb
    induction hr with
    | refl => exact hb
    | step _ hm ih => exact ih (mem_arrivals_of_next hm hb)
  · rintro ⟨n, hn⟩
    clear * - hn
    induction hn with
    | here ht => exact ⟨_, .refl, ht⟩
    | move hb _ ih =>
      obtain ⟨d, hr, ht⟩ := ih
      exact ⟨d, .head hb hr, ht⟩


/-! ### Entering a block -/

/-- Moves rest at a node of `s`, or, if `c` holds, come by fewer than `n` moves from `a` on. -/
def RestsIn (t : SyntaxTree) (n : Nat) (p : NodeId) (s : Composition) (c : Bool) (a : Step) : Prop :=
  p ∈ s ∨ (c = true ∧ ∃ m < n, t.Rests m a p)

/-- Around a repetition moves rest in the operand or climb on. -/
theorem rests_loop {s : Composition} {k : Bool}
    (hin : ∀ n, t.Rests n (id + 1, .down) p → t.RestsIn n p s k (id, .up))
    (hup : t.next (id, .up) = [(id + 1, .down), (climb, .up)])
    (ha : t.next a = [(id + 1, .down), (climb, .up)]) (h : t.Rests n a p) :
    t.RestsIn n p s true (climb, .up) := by
  induction n using Nat.strong_induction_on generalizing a with
  | _ n ih =>
    obtain ⟨m, hm, h | h⟩ := h.exists_either_move ha
    · rcases hin m h with hp | ⟨-, k, hk, h⟩
      · exact .inl hp
      · rcases ih k (Nat.lt_trans hk hm) hup h with hp | ⟨-, j, hj, h⟩
        · exact .inl hp
        · exact .inr ⟨rfl, j, by omega, h⟩
    · exact .inr ⟨rfl, m, hm, h⟩

/-- Entering a block, moves rest at one of the first leaves or pass through. -/
theorem Block.rests_down (h : Block t e id climb) (hr : t.Rests n (id, .down) p) :
    t.RestsIn n p (e.first id) e.nullable (climb, .up) := by
  induction e generalizing id climb n with
  | symbol x =>
    have ht := isTerminal_symbol h.next_symbol.1
    exact .inl (SortedSet.mem_singleton.2 (hr.eq_of_isTerminal ht))
  | unary m e ih =>
    cases m with
    | optional =>
      obtain ⟨he, hdown, hup⟩ := h.next_optional
      obtain ⟨m, hm, hr | hr⟩ := hr.exists_either_move hdown
      · rcases ih he hr with hp | ⟨-, k, hk, hr⟩
        · exact .inl hp
        · obtain ⟨j, hj, hr⟩ := hr.exists_only_move hup
          exact .inr ⟨rfl, j, by omega, hr⟩
      · exact .inr ⟨rfl, m, hm, hr⟩
    | star =>
      obtain ⟨he, hdown, hup⟩ := h.next_star
      exact rests_loop (fun n hr => ih he hr) hup hdown hr
    | plus =>
      obtain ⟨he, hdown, hup⟩ := h.next_plus
      obtain ⟨m, hm, hr⟩ := hr.exists_only_move hdown
      rcases ih he hr with hp | ⟨hnull, k, hk, hr⟩
      · exact .inl hp
      · rcases rests_loop (fun n hr => ih he hr) hup hup hr with hp | ⟨-, j, hj, hr⟩
        · exact .inl hp
        · exact .inr ⟨hnull, j, by omega, hr⟩
  | binary c l r ihl ihr =>
    cases c with
    | union =>
      obtain ⟨hl, hr', hdown, hup⟩ := h.next_union
      obtain ⟨m, hm, hr | hr⟩ := hr.exists_either_move hdown
      · rcases ihl hl hr with hp | ⟨hnull, k, hk, hr⟩
        · exact .inl (SortedSet.mem_union.2 (.inl hp))
        · obtain ⟨j, hj, hr⟩ := hr.exists_only_move hup
          exact .inr ⟨by simp [Regex.nullable, hnull], j, by omega, hr⟩
      · rcases ihr hr' hr with hp | ⟨hnull, k, hk, hr⟩
        · exact .inl (SortedSet.mem_union.2 (.inr hp))
        · exact .inr ⟨by simp [Regex.nullable, hnull], k, by omega, hr⟩
    | concat =>
      obtain ⟨hl, hr', hdown, hup⟩ := h.next_concat
      obtain ⟨m, hm, hr⟩ := hr.exists_only_move hdown
      rcases ihl hl hr with hp | ⟨hnull, k, hk, hr⟩
      · exact .inl (SortedSet.mem_union.2 (.inl hp))
      · obtain ⟨j, hj, hr⟩ := hr.exists_only_move hup
        rcases ihr hr' hr with hp | ⟨hnull', i, hi, hr⟩
        · exact .inl (SortedSet.mem_union.2 (.inr (SortedSet.mem_onlyIf.2 ⟨hnull, hp⟩)))
        · exact .inr ⟨by simp [Regex.nullable, hnull, hnull'], i, by omega, hr⟩

/-- Each first leaf of a block is come to from its entry, and a nullable block is passed through. -/
theorem Block.mem_arrivals_down (h : Block t e id climb)
    (hp : p ∈ e.first id ∨ (e.nullable = true ∧ p ∈ t.arrivals (climb, .up))) :
    p ∈ t.arrivals (id, .down) := by
  induction e generalizing id climb with
  | symbol x =>
    have ht := isTerminal_symbol h.next_symbol.1
    rcases hp with hp | ⟨hnull, -⟩
    · exact (arrivals_of_isTerminal ht).2 (SortedSet.mem_singleton.1 hp)
    · cases hnull
  | unary m e ih =>
    cases m with
    | optional =>
      obtain ⟨he, hdown, hup⟩ := h.next_optional
      rcases hp with hp | ⟨-, hp⟩
      · exact mem_arrivals_of_next (by simp [hdown]) (ih he (.inl hp))
      · exact mem_arrivals_of_next (by simp [hdown]) hp
    | star =>
      obtain ⟨he, hdown, hup⟩ := h.next_star
      rcases hp with hp | ⟨-, hp⟩
      · exact mem_arrivals_of_next (by simp [hdown]) (ih he (.inl hp))
      · exact mem_arrivals_of_next (by simp [hdown]) hp
    | plus =>
      obtain ⟨he, hdown, hup⟩ := h.next_plus
      refine mem_arrivals_of_next (b := (id + 1, .down)) (by simp [hdown]) (ih he ?_)
      exact hp.imp_right fun ⟨hnull, hp⟩ => ⟨hnull, mem_arrivals_of_next (by simp [hup]) hp⟩
  | binary c l r ihl ihr =>
    cases c with
    | union =>
      obtain ⟨hl, hr, hdown, hup⟩ := h.next_union
      have hleft : p ∈ t.arrivals (id + 1, .down) → p ∈ t.arrivals (id, .down) :=
        mem_arrivals_of_next (by simp [hdown])
      have hright : p ∈ t.arrivals (id + 1 + l.size, .down) → p ∈ t.arrivals (id, .down) :=
        mem_arrivals_of_next (by simp [hdown])
      have hback : p ∈ t.arrivals (climb, .up) → p ∈ t.arrivals (id, .up) :=
        mem_arrivals_of_next (by simp [hup])
      simp only [Regex.first, Regex.nullable, SortedSet.mem_union, Bool.or_eq_true] at hp
      rcases hp with (hp | hp) | ⟨hnull | hnull, hp⟩
      · exact hleft (ihl hl (.inl hp))
      · exact hright (ihr hr (.inl hp))
      · exact hleft (ihl hl (.inr ⟨hnull, hback hp⟩))
      · exact hright (ihr hr (.inr ⟨hnull, hp⟩))
    | concat =>
      obtain ⟨hl, hr, hdown, hup⟩ := h.next_concat
      have hleft : p ∈ t.arrivals (id + 1, .down) → p ∈ t.arrivals (id, .down) :=
        mem_arrivals_of_next (by simp [hdown])
      have hright : p ∈ t.arrivals (id + 1 + l.size, .down) → p ∈ t.arrivals (id, .up) :=
        mem_arrivals_of_next (by simp [hup])
      simp only [Regex.first, Regex.nullable, SortedSet.mem_union, SortedSet.mem_onlyIf,
        Bool.and_eq_true] at hp
      rcases hp with (hp | ⟨hnull, hp⟩) | ⟨⟨hnull, hnull'⟩, hp⟩
      · exact hleft (ihl hl (.inl hp))
      · exact hleft (ihl hl (.inr ⟨hnull, hright (ihr hr (.inl hp))⟩))
      · exact hleft (ihl hl (.inr ⟨hnull, hright (ihr hr (.inr ⟨hnull', hp⟩))⟩))

/-- Entering a block leads to its first leaves, and through it if it is nullable. -/
theorem Block.arrivals_down (h : Block t e id climb) : p ∈ t.arrivals (id, .down) ↔
    p ∈ e.first id ∨ (e.nullable = true ∧ p ∈ t.arrivals (climb, .up)) := by
  refine ⟨fun ⟨n, hn⟩ => ?_, h.mem_arrivals_down⟩
  exact (h.rests_down hn).imp_right fun ⟨hnull, m, _, hm⟩ => ⟨hnull, m, hm⟩

/-! ### Going on from a leaf -/

/-- After the operand of a repetition comes the operand again, or what comes after the repetition. -/
theorem Block.arrivals_loop (he : Block t e (id + 1) id)
    (hup : t.next (id, .up) = [(id + 1, .down), (climb, .up)]) :
    q ∈ t.arrivals (id, .up) ↔ q ∈ e.first (id + 1) ∨ q ∈ t.arrivals (climb, .up) := by
  constructor
  · rintro ⟨n, hn⟩
    exact (rests_loop (fun n hr => he.rests_down hr) hup hup hn).imp_right
      fun ⟨_, m, _, hm⟩ => ⟨m, hm⟩
  · rintro (hq | hq)
    · exact mem_arrivals_of_next (by simp [hup]) (he.mem_arrivals_down (.inl hq))
    · exact mem_arrivals_of_next (by simp [hup]) hq

/-- A node that moves go down from is no leaf. -/
theorem ne_of_next_down {id p : Nat} {bs : List Step} (hx : t.symbol? p = some x)
    (hdown : t.next (id, .down) = b :: bs) : id ≠ p := by
  rintro rfl
  rw [next_of_isTerminal (isTerminal_symbol hx)] at hdown
  cases hdown

/-- Going on from a leaf leads to the leaves that follow it, and out of its block if it is one of the
last. -/
theorem Block.arrivals_up {id p : Nat} (h : Block t e id climb) (hx : t.symbol? p = some x)
    (hle : id ≤ p) (hlt : p < id + e.size) : q ∈ t.arrivals (p, .up) ↔
      q ∈ e.follow id p ∨ (p ∈ e.last id ∧ q ∈ t.arrivals (climb, .up)) := by
  induction e generalizing id climb with
  | symbol y =>
    obtain rfl : id = p := by simp only [Regex.size] at hlt; omega
    simp [Regex.follow, Regex.last, arrivals_of_next h.next_symbol.2]
  | unary m e ih =>
    simp only [Regex.size] at hlt
    cases m with
    | optional =>
      obtain ⟨he, hdown, hup⟩ := h.next_optional
      have := ne_of_next_down hx hdown
      rw [ih he (by omega) (by omega), arrivals_of_next hup]
      rfl
    | star =>
      obtain ⟨he, hdown, hup⟩ := h.next_star
      have := ne_of_next_down hx hdown
      rw [ih he (by omega) (by omega), he.arrivals_loop hup]
      simp only [Regex.follow, Regex.last, SortedSet.mem_union, SortedSet.mem_onlyIf]
      tauto
    | plus =>
      obtain ⟨he, hdown, hup⟩ := h.next_plus
      have := ne_of_next_down hx hdown
      rw [ih he (by omega) (by omega), he.arrivals_loop hup]
      simp only [Regex.follow, Regex.last, SortedSet.mem_union, SortedSet.mem_onlyIf]
      tauto
  | binary c l r ihl ihr =>
    simp only [Regex.size] at hlt
    cases c with
    | union =>
      obtain ⟨hl, hr, hdown, hup⟩ := h.next_union
      have := ne_of_next_down hx hdown
      simp only [Regex.follow, Regex.last, SortedSet.mem_union]
      by_cases hside : p < id + 1 + l.size
      · have hout : p ∉ r.last (id + 1 + l.size) := fun hp => by
          have := Regex.range_of_mem_last hp
          omega
        rw [ihl hl (by omega) hside, arrivals_of_next hup]
        simp [hout, Regex.not_mem_follow (.inl hside)]
      · have hout : p ∉ l.last (id + 1) := fun hp => by
          have := Regex.range_of_mem_last hp
          omega
        rw [ihr hr (by omega) (by omega)]
        simp [hout, Regex.not_mem_follow (.inr (Nat.le_of_not_lt hside))]
    | concat =>
      obtain ⟨hl, hr, hdown, hup⟩ := h.next_concat
      have := ne_of_next_down hx hdown
      simp only [Regex.follow, Regex.last, SortedSet.mem_union, SortedSet.mem_onlyIf]
      by_cases hside : p < id + 1 + l.size
      · have hout : p ∉ r.last (id + 1 + l.size) := fun hp => by
          have := Regex.range_of_mem_last hp
          omega
        rw [ihl hl (by omega) hside, arrivals_of_next hup, hr.arrivals_down]
        simp only [hout, Regex.not_mem_follow (.inl hside)]
        tauto
      · have hout : p ∉ l.last (id + 1) := fun hp => by
          have := Regex.range_of_mem_last hp
          omega
        rw [ihr hr (by omega) (by omega)]
        simp [hout, Regex.not_mem_follow (.inr (Nat.le_of_not_lt hside))]

/-! ### Whole trees -/

theorem arrivals_root_up (e : Regex) : q ∈ (ofRegex (some e)).arrivals (root, .up) ↔ q = root :=
  arrivals_of_isTerminal (isTerminal_eq (root_ofRegex e))

theorem initialComposition_ofRegex (e : Regex) : (ofRegex (some e)).initialComposition =
    e.first 1 ∪ (SortedSet.singleton root).onlyIf (e.nullable = true) := by
  have hdown : (ofRegex (some e)).next (root, .down) = [(1, .down)] := next_eq (root_ofRegex e)
  refine SortedSet.ext fun q => ?_
  rw [initialComposition, mem_composition_iff]
  simp only [List.mem_singleton, exists_eq_left, arrivals_of_next hdown,
    (block_ofRegex e).arrivals_down, SortedSet.mem_union, SortedSet.mem_onlyIf,
    SortedSet.mem_singleton]
  rw [← arrivals_root_up e]
  rfl

theorem initialComposition_ofRegex_none : (ofRegex none).initialComposition = .singleton root := by
  refine SortedSet.ext fun q => ?_
  rw [initialComposition, mem_composition_iff]
  simp only [List.mem_singleton, exists_eq_left, SortedSet.mem_singleton]
  exact arrivals_of_isTerminal rfl

/-- The leaves of a whole tree are inside the block of its expression. -/
theorem range_of_symbol? {e : Regex} {p : Nat} (hx : (ofRegex (some e)).symbol? p = some x) :
    1 ≤ p ∧ p < 1 + e.size := by
  obtain ⟨left, right, parent, climb, hn⟩ := exists_leaf hx
  obtain ⟨hlt, -⟩ := Array.getElem?_eq_some_iff.1 hn
  have hsize : (ofRegex (some e)).nodes.size = e.size + 1 := by simp [ofRegex, length_layout]
  have hne : p ≠ 0 := by
    rintro rfl
    cases (symbol?_root (some e)).symm.trans hx
  omega

/-- Where moves do not rest, a composition gathers what they lead to. -/
theorem mem_composition_next (ht : t.isTerminal a = false) :
    p ∈ t.composition (t.next a) ↔ p ∈ t.arrivals a := by
  rw [mem_composition_iff, mem_arrivals_iff ht]

theorem isTerminal_up (hx : t.symbol? p = some x) : t.isTerminal (p, .up) = false := by
  obtain ⟨left, right, parent, climb, hn⟩ := exists_leaf hx
  exact isTerminal_eq hn

theorem get?_followSets_ofRegex (hx : (ofRegex (some e)).symbol? p = some x) :
    (ofRegex (some e)).followSets.get? p =
      some (e.follow 1 p ∪ (SortedSet.singleton root).onlyIf (p ∈ e.last 1)) := by
  obtain ⟨hle, hlt⟩ := range_of_symbol? hx
  rw [get?_followSets hx, Option.some.injEq, ← next_up hx]
  refine SortedSet.ext fun q => ?_
  rw [mem_composition_next (isTerminal_up hx), (block_ofRegex e).arrivals_up hx hle hlt]
  simp only [SortedSet.mem_union, SortedSet.mem_onlyIf, SortedSet.mem_singleton]
  rw [← arrivals_root_up e]
  rfl

theorem get?_followSets_eq_none (hx : t.symbol? p = none) : t.followSets.get? p = none := by
  have hleaf : p ∉ t.leaves := fun h => by
    obtain ⟨x, hx'⟩ := mem_leaves.1 h
    rw [hx] at hx'
    cases hx'
  rw [followSets, SortedMap.get?_ofList_map, if_neg hleaf]

theorem exists_ofRegex_of_parse {source : List Char} (h : parse source = .ok t) :
    ∃ e, t = ofRegex e := by
  obtain ⟨out, -, h⟩ := bind_eq_ok.1 h
  rw [ofNormalized] at h
  cases hp : Regex.parseNormalized out with
  | error err => rw [hp] at h; cases h
  | ok e => rw [hp] at h; exact ⟨e, (Except.ok.inj h).symm⟩

/-- A parsed tree is the empty one or that of an expression, which stands from the child of the root, node
1, on. Its compositions are the position sets of the expression, with the root where reading may end. -/
theorem compositions_of_parse {source : List Char} (h : parse source = .ok t) :
    (∃ e, t = ofRegex e) ∧
      (t = ofRegex none →
        t.initialComposition = .singleton root ∧ ∀ p, t.followSets.get? p = none) ∧
      ∀ e, t = ofRegex (some e) →
        t.initialComposition = e.first 1 ∪ (SortedSet.singleton root).onlyIf (e.nullable = true) ∧
        (∀ p, t.symbol? p = none → t.followSets.get? p = none) ∧
        ∀ p x, t.symbol? p = some x → t.followSets.get? p =
          some (e.follow 1 p ∪ (SortedSet.singleton root).onlyIf (p ∈ e.last 1)) := by
  refine ⟨exists_ofRegex_of_parse h, ?_, ?_⟩
  · rintro rfl
    refine ⟨initialComposition_ofRegex_none, fun p => get?_followSets_eq_none ?_⟩
    rcases p with _ | p <;> rfl
  · rintro e rfl
    refine ⟨initialComposition_ofRegex e, fun p => get?_followSets_eq_none, fun p x hx => ?_⟩
    exact get?_followSets_ofRegex hx

/-- What `(a*b?)+|c` parses to: nullable operands under a repetition, beside a letter. -/
def loopOrLetter : Regex :=
  .binary .union
    (.unary .plus (.binary .concat (.unary .star (.symbol ⟨'a', rfl⟩))
      (.unary .optional (.symbol ⟨'b', rfl⟩))))
    (.symbol ⟨'c', rfl⟩)

theorem compositions_of_parse_loopOrLetter :
    parse "(a*b?)+|c".toList = .ok (ofRegex (some loopOrLetter)) ∧
      (ofRegex (some loopOrLetter)).initialComposition = .ofList [0, 5, 7, 8] ∧
      (ofRegex (some loopOrLetter)).followSets.get? 7 = some (.ofList [0, 5, 7]) ∧
      (ofRegex (some loopOrLetter)).followSets.get? 8 = some (.ofList [0]) := by
  have h : parse "(a*b?)+|c".toList = .ok (ofRegex (some loopOrLetter)) := by cbv
  obtain ⟨-, -, hpos⟩ := compositions_of_parse h
  obtain ⟨hinit, -, hfollow⟩ := hpos loopOrLetter rfl
  exact ⟨h, hinit.trans (by decide), (hfollow 7 ⟨'b', rfl⟩ rfl).trans (by decide),
    (hfollow 8 ⟨'c', rfl⟩ rfl).trans (by decide)⟩

end SyntaxTree
end RegularLanguages
