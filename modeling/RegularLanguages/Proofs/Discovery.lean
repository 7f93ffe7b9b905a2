import RegularLanguages.Proofs.Automaton.Levels
import RegularLanguages.Proofs.MoveSystem
/-!
# The order of discovery

A breadth-first search lists its start, and then what the moves of each value that it lists lead to, in
order and each value once (`explore_eq_fresh`). For a system of moves this is the order of words, shorter
ones first and those of one length by their characters: whatever word leads to a configuration, a word
before it leads to each configuration that is numbered before (`exists_shortlex_run`). In this order the
configurations are the states of the automaton of the system (`unfolds_toAutomaton`).
-/

namespace RegularLanguages

section Search

variable {σ : Type} [DecidableEq σ] {next : σ → List σ} {h : FiniteMoves next} {x y z : σ}
  {xs ys found processed queue : List σ} {i j k : Nat}

theorem fresh_append (found xs ys : List σ) :
    fresh found (xs ++ ys) = fresh found xs ++ fresh (found ++ fresh found xs) ys := by
  induction xs generalizing found with
  | nil => simp [fresh]
  | cons x xs ih =>
    rw [List.cons_append, fresh_cons found x (xs ++ ys), fresh_cons found x xs, ih]
    simp

/-- What a search has found is new among its start and what the moves of those it has followed lead to. -/
theorem discover_eq_fresh (hfound : found = processed ++ queue)
    (hfresh : found = fresh [] (x :: processed.flatMap next)) :
    discover next h found queue = fresh [] (x :: (discover next h found queue).flatMap next) := by
  fun_induction discover next h found queue generalizing processed with
  | case1 found =>
    rw [List.append_nil] at hfound
    rwa [← hfound] at hfresh
  | case2 found y queue new =>
    rename_i ih
    have hnext : found ++ new = (processed ++ [y]) ++ (queue ++ new) := by
      rw [hfound]
      simp
    refine ih hnext ?_
    rw [List.flatMap_append, List.flatMap_singleton, ← List.cons_append, fresh_append, ← hfresh]
    simp [new]

theorem explore_eq_fresh (h : FiniteMoves next) (x : σ) :
    explore next h [x] = fresh [] (x :: (explore next h [x]).flatMap next) := by
  have hx : fresh [] [x] = [x] := by simp [fresh]
  unfold explore
  rw [hx]
  exact discover_eq_fresh (List.nil_append [x]).symm (by simp [hx])

/-- What comes before a new value has occurred before it. -/
theorem mem_of_lt_of_getElem?_fresh (hy : (fresh [] (xs ++ z :: ys))[j]? = some y)
    (hz : (fresh [] (xs ++ z :: ys))[k]? = some z) (hjk : j < k) : y ∈ xs := by
  have hn := nodup_fresh [] (xs ++ z :: ys)
  -- the places before that of `z` hold what is new in `xs`
  suffices k ≤ (fresh [] xs).length by
    rw [fresh_append, List.getElem?_append_left (by omega)] at hy
    exact (mem_fresh.1 (List.mem_of_getElem? hy)).1
  by_contra hlt
  by_cases hmem : z ∈ fresh [] xs
  · obtain ⟨i, hi⟩ := List.getElem?_of_mem hmem
    obtain ⟨hil, -⟩ := List.getElem?_eq_some_iff.1 hi
    have hi' : (fresh [] (xs ++ z :: ys))[i]? = some z := by
      rw [fresh_append, List.getElem?_append_left hil, hi]
    have := (idxOf?_eq_some_iff_of_nodup hn).2 hi'
    rw [(idxOf?_eq_some_iff_of_nodup hn).2 hz] at this
    have := Option.some.inj this
    omega
  · have hi' : (fresh [] (xs ++ z :: ys))[(fresh [] xs).length]? = some z := by
      rw [fresh_append, List.getElem?_append_right (Nat.le_refl _)]
      simp [fresh, hmem]
    have := (idxOf?_eq_some_iff_of_nodup hn).2 hi'
    rw [(idxOf?_eq_some_iff_of_nodup hn).2 hz] at this
    have := Option.some.inj this
    omega

end Search

namespace MoveSystem

variable {σ : Type} {M : MoveSystem σ} {x y z : σ} {s : Symbol} {i j k : Nat} {v w : List Char}

theorem shortlex_concat_of_shortlex (h : List.Shortlex (· < ·) v w) (a b : Char) :
    List.Shortlex (· < ·) (v ++ [a]) (w ++ [b]) := by
  rcases List.shortlex_def.1 h with h | ⟨hlen, h⟩
  · exact .of_length_lt (by simpa using h)
  · exact .of_lex (by simpa using hlen) (lex_append h hlen [a] [b])

theorem shortlex_concat {a b : Char} (h : a < b) (v : List Char) :
    List.Shortlex (· < ·) (v ++ [a]) (v ++ [b]) :=
  .of_lex (by simp) (List.Lex.append_left _ (.rel h) v)

theorem run_concat (hv : M.run x v = some y) (hs : s ∈ M.alphabet) (hm : M.move y s = some z) :
    M.run x (v ++ [s.char]) = some z := by
  rw [run_append, hv, Option.bind_some, run, M.symbol?_char hs, Option.bind_some, hm]
  rfl

/-- The last move of a run. -/
theorem exists_move_of_run_concat {c : Char} (h : M.run x (w ++ [c]) = some z) :
    ∃ y, ∃ s ∈ M.alphabet, M.run x w = some y ∧ s.char = c ∧ M.move y s = some z := by
  rw [run_append] at h
  obtain ⟨y, hy, hlast⟩ := Option.bind_eq_some_iff.1 h
  obtain ⟨z', hz', hz⟩ := Option.bind_eq_some_iff.1 hlast
  obtain rfl := Option.some.inj hz
  obtain ⟨s, hs, hm⟩ := Option.bind_eq_some_iff.1 hz'
  obtain ⟨hc, hmem⟩ := (Automaton.symbol?_eq_some (A := .empty M.alphabet)).1 hs
  exact ⟨y, s, hmem, hy, hc, hm⟩

variable [DecidableEq σ]

/-- What is found before a move leads to `z` is the start, or an earlier move leads to it: one from an
earlier configuration, or one on an earlier symbol. -/
theorem exists_earlier_move (hy : M.reachable[j]? = some y) (hz : M.reachable[k]? = some z)
    (hjk : j < k) (hx : M.reachable[i]? = some x) (hs : s ∈ M.alphabet)
    (hm : M.move x s = some z) : j = 0 ∨
      (∃ i' x', ∃ r ∈ M.alphabet, i' < i ∧ M.reachable[i']? = some x' ∧ M.move x' r = some y) ∨
      ∃ r ∈ M.alphabet, r.char < s.char ∧ M.move x r = some y := by
  obtain ⟨before, after, hsplit⟩ := List.append_of_mem (SortedSet.mem_toList.2 hs)
  obtain ⟨hi, hxi⟩ := List.getElem?_eq_some_iff.1 hx
  have hconfigs : M.reachable.take i ++ x :: M.reachable.drop (i + 1) = M.reachable := by
    rw [← hxi, List.cons_getElem_drop_succ, List.take_append_drop]
  have hnext : M.next x = before.filterMap (M.move x) ++ z :: after.filterMap (M.move x) := by
    rw [next, hsplit, List.filterMap_append, List.filterMap_cons, hm]
  -- the search comes upon `z` after the start, the moves of what is before `x`, and those of `x` before `s`
  have hfresh : M.reachable = fresh [] (M.start ::
      ((M.reachable.take i).flatMap M.next ++ before.filterMap (M.move x)) ++
        z :: (after.filterMap (M.move x) ++ (M.reachable.drop (i + 1)).flatMap M.next)) := by
    have h : M.reachable = fresh [] (M.start :: M.reachable.flatMap M.next) :=
      explore_eq_fresh M.finiteMoves_next M.start
    have hflat : M.reachable.flatMap M.next = (M.reachable.take i).flatMap M.next ++
        (M.next x ++ (M.reachable.drop (i + 1)).flatMap M.next) := by
      rw [← List.flatMap_cons, ← List.flatMap_append, hconfigs]
    rw [hflat, hnext] at h
    simpa using h
  have hmem := mem_of_lt_of_getElem?_fresh (hfresh ▸ hy) (hfresh ▸ hz) hjk
  rw [List.mem_cons, List.mem_append] at hmem
  rcases hmem with rfl | hmem | hmem
  · left
    have hj := M.idxOf?_reachable.2 hy
    exact (Option.some.inj (hj.symm.trans (M.idxOf?_reachable.2 M.getElem?_zero_reachable)))
  · right; left
    obtain ⟨x', hx', hy'⟩ := List.mem_flatMap.1 hmem
    obtain ⟨r, hr, hm'⟩ := M.mem_next.1 hy'
    obtain ⟨i', hi'⟩ := List.getElem?_of_mem hx'
    obtain ⟨hlt, -⟩ := List.getElem?_eq_some_iff.1 hi'
    rw [List.length_take] at hlt
    rw [List.getElem?_take_of_lt (by omega)] at hi'
    exact ⟨i', x', r, hr, by omega, hi', hm'⟩
  · right; right
    obtain ⟨r, hr, hm'⟩ := List.mem_filterMap.1 hmem
    have hsorted := M.alphabet.sorted
    rw [hsplit, List.pairwise_append] at hsorted
    have hlt : r.char < s.char :=
      compareOfLessAndEq_eq_lt.1 (hsorted.2.2 r hr s List.mem_cons_self)
    refine ⟨r, SortedSet.mem_toList.1 ?_, hlt, hm'⟩
    rw [hsplit]
    exact List.mem_append_left _ hr

/-- To each configuration that is found before another leads a word before those that lead to the
other. -/
theorem exists_shortlex_run (hy : M.reachable[j]? = some y) (hz : M.reachable[k]? = some z)
    (hjk : j < k) (hw : M.run M.start w = some z) :
    ∃ v, M.run M.start v = some y ∧ List.Shortlex (· < ·) v w := by
  induction w using List.reverseRecOn generalizing j k y z with
  | nil =>
    obtain rfl := Option.some.inj hw
    have hk := M.idxOf?_reachable.2 hz
    have := Option.some.inj (hk.symm.trans (M.idxOf?_reachable.2 M.getElem?_zero_reachable))
    omega
  | append_singleton w c ih =>
    obtain ⟨x, s, hs, hx, rfl, hm⟩ := exists_move_of_run_concat hw
    obtain ⟨i, hi⟩ := List.getElem?_of_mem (M.mem_reachable.2 ⟨w, hx⟩)
    rcases exists_earlier_move hy hz hjk hi hs hm with
      rfl | ⟨i', x', r, hr, hlt, hi', hm'⟩ | ⟨r, hr, hlt, hm'⟩
    · rw [M.getElem?_zero_reachable] at hy
      exact ⟨[], hy, .of_length_lt (by simp)⟩
    · obtain ⟨v, hv, hvw⟩ := ih hi' hi hlt hx
      exact ⟨v ++ [r.char], run_concat hv hr hm', shortlex_concat_of_shortlex hvw _ _⟩
    · exact ⟨w ++ [r.char], run_concat hx hr hm', shortlex_concat hlt w⟩

/-! ### The order of the states -/

omit [DecidableEq σ] in
/-- The states of an automaton are the configurations that moves reach from the start, listed as a
breadth-first search finds them: for each word that leads to one of them an earlier word leads to each of
those before it. -/
structure Unfolds (M : MoveSystem σ) (configs : List σ) (A : Automaton) : Prop where
  nodup : configs.Nodup
  mem_iff {x : σ} : x ∈ configs ↔ Reaches M.next M.start x
  size_eq : A.size = configs.length
  first : configs[0]? = some M.start
  initial_eq : A.initial = some 0
  final_iff {i : State} {x : σ} : configs[i]? = some x → (i ∈ A.finals ↔ M.isFinal x = true)
  target_iff {i j : State} {l : Label} {x : σ} : configs[i]? = some x →
    (j ∈ A.targets i l ↔
      ∃ s y, l = .symbol s ∧ s ∈ M.alphabet ∧ M.move x s = some y ∧ configs[j]? = some y)
  exists_earlier {i j : State} {x y : σ} {w : List Char} : configs[i]? = some x →
    configs[j]? = some y → i < j → M.run M.start w = some y →
    ∃ v, M.run M.start v = some x ∧ List.Shortlex (· < ·) v w

theorem unfolds_toAutomaton (M : MoveSystem σ) (name : Nat → σ → StateName) :
    M.Unfolds M.reachable (M.toAutomaton name) where
  nodup := M.nodup_reachable
  mem_iff := M.mem_reachable.trans M.reaches_iff.symm
  size_eq := M.size_toAutomaton name
  first := M.getElem?_zero_reachable
  initial_eq := rfl
  final_iff {i x} hx := by
    rw [mem_finals]
    refine ⟨fun ⟨y, hy, hf⟩ => ?_, fun hf => ⟨x, hx, hf⟩⟩
    obtain rfl := Option.some.inj (hx.symm.trans hy)
    exact hf
  target_iff {i j l x} hx := by
    rw [mem_targets]
    constructor
    · rintro ⟨x', s, y, hl, hx', hs, hm, hy⟩
      obtain rfl := Option.some.inj (hx.symm.trans hx')
      exact ⟨s, y, hl, hs, hm, hy⟩
    · rintro ⟨s, y, hl, hs, hm, hy⟩
      exact ⟨x, s, y, hl, hx, hs, hm, hy⟩
  exists_earlier hx hy hij hw := exists_shortlex_run hx hy hij hw

end MoveSystem

end RegularLanguages
