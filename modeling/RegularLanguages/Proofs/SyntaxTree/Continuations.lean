import RegularLanguages.Proofs.Automaton.Induced
import RegularLanguages.Proofs.SyntaxTree.Positions
/-!
# Every composition can be read on

No expression has the empty language, so from wherever reading has come to in a tree some word leads to
the end of the expression: after a block something can be read, and then something can be read after each
of its nodes (`Block.exists_mem_rest_up`). Hence the automaton of a tree is trim (`trim_toAutomaton`). Its
alphabet is that of the expression (`mem_alphabet_ofRegex`).
-/

namespace RegularLanguages

namespace Regex

/-- The symbols of the expression, from left to right. -/
def symbols : Regex → List Symbol
  | symbol x => [x]
  | unary _ e => e.symbols
  | binary _ l r => l.symbols ++ r.symbols

theorem exists_mem_language (e : Regex) : ∃ w, w ∈ e.language := by
  induction e with
  | symbol x => exact ⟨[x.char], Set.mem_singleton _⟩
  | unary m e ih =>
    obtain ⟨w, hw⟩ := ih
    exact ⟨w, m.le_apply hw⟩
  | binary c l r ihl ihr =>
    obtain ⟨v, hv⟩ := ihl
    obtain ⟨w, hw⟩ := ihr
    cases c with
    | union => exact ⟨v, .inl hv⟩
    | concat => exact ⟨v ++ w, Language.append_mem_mul hv hw⟩

theorem mem_symbols_iff_layout {e : Regex} {x : Symbol} (id parent climb : NodeId) :
    x ∈ e.symbols ↔ ∃ n ∈ e.layout id parent climb, n.kind = .symbol x := by
  induction e generalizing id parent climb with
  | symbol y => simp [symbols, layout, eq_comm]
  | unary m e ih => simp [symbols, layout, ← ih]
  | binary c l r ihl ihr => simp [symbols, layout, or_and_right, exists_or, ← ihl, ← ihr]

end Regex

namespace SyntaxTree

variable {t : SyntaxTree} {e : Regex} {x : Symbol} {id climb : NodeId} {c d : Composition}
  {p : Nat}

/-! ### The alphabet -/

theorem mem_alphabet_iff : x ∈ t.alphabet ↔ ∃ p, t.symbol? p = some x := by
  refine ⟨fun h => ?_, fun ⟨p, hx⟩ => mem_alphabet hx⟩
  obtain ⟨p, -, hx⟩ := List.mem_filterMap.1 (SortedSet.mem_ofList.1 h)
  exact ⟨p, hx⟩

theorem exists_symbol?_iff : (∃ p, t.symbol? p = some x) ↔ ∃ n ∈ t.nodes.toList, n.kind = .symbol x := by
  constructor
  · rintro ⟨p, hx⟩
    obtain ⟨left, right, parent, climb, hn⟩ := exists_leaf hx
    exact ⟨_, Array.mem_toList_iff.2 (Array.mem_of_getElem? hn), rfl⟩
  · rintro ⟨n, hn, hk⟩
    obtain ⟨p, hp⟩ := Array.getElem?_of_mem (Array.mem_toList_iff.1 hn)
    obtain ⟨kind, left, right, parent, climb⟩ := n
    obtain rfl : kind = .symbol x := hk
    exact ⟨p, by rw [symbol?, hp]⟩

theorem mem_alphabet_ofRegex : x ∈ (ofRegex (some e)).alphabet ↔ x ∈ e.symbols := by
  rw [mem_alphabet_iff, exists_symbol?_iff, Regex.mem_symbols_iff_layout 1 0 0]
  simp [ofRegex]

theorem symbol?_ofRegex_none (p : NodeId) : (ofRegex none).symbol? p = none := by
  rcases p with _ | p <;> rfl

theorem not_mem_alphabet_none : x ∉ (ofRegex none).alphabet := by
  rw [mem_alphabet_iff]
  rintro ⟨p, hx⟩
  rw [symbol?_ofRegex_none] at hx
  cases hx

/-! ### Reading on -/

theorem Block.exists_mem_rest_down (h : Block t e id climb) (hc : ∃ w, w ∈ t.rest (climb, .up)) :
    ∃ w, w ∈ t.rest (id, .down) := by
  obtain ⟨v, hv⟩ := hc
  obtain ⟨u, hu⟩ := e.exists_mem_language
  exact ⟨u ++ v, h.append_mem_rest hu hv⟩

/-- Once a block has been read, reading goes on after it or in it. -/
theorem Block.exists_mem_rest_top (h : Block t e id climb) (hc : ∃ w, w ∈ t.rest (climb, .up)) :
    ∃ w, w ∈ t.rest (id, .up) := by
  have hclimb {bs : List Step} (hup : t.next (id, .up) = bs) (hb : (climb, .up) ∈ bs) :
      ∃ w, w ∈ t.rest (id, .up) :=
    hc.imp fun w hw => mem_rest_of_next (by rwa [hup]) hw
  cases e with
  | symbol x => exact hclimb h.next_symbol.2 (by simp)
  | unary m e =>
    cases m with
    | optional => exact hclimb h.next_optional.2.2 (by simp)
    | star => exact hclimb h.next_star.2.2 (by simp)
    | plus => exact hclimb h.next_plus.2.2 (by simp)
  | binary c l r =>
    cases c with
    | union => exact hclimb h.next_union.2.2.2 (by simp)
    | concat =>
      obtain ⟨-, hr, -, hup⟩ := h.next_concat
      exact (hr.exists_mem_rest_down hc).imp fun w hw => mem_rest_of_next (by simp [hup]) hw

/-- If something can be read after a block, then also after each of its nodes. -/
theorem Block.exists_mem_rest_up {id p : Nat} (h : Block t e id climb)
    (hc : ∃ w, w ∈ t.rest (climb, .up)) (hle : id ≤ p) (hlt : p < id + e.size) :
    ∃ w, w ∈ t.rest (p, .up) := by
  induction e generalizing id climb with
  | symbol x =>
    obtain rfl : id = p := by simp only [Regex.size] at hlt; omega
    exact h.exists_mem_rest_top hc
  | unary m e ih =>
    have htop := h.exists_mem_rest_top hc
    rcases Nat.eq_or_lt_of_le hle with rfl | hle
    · exact htop
    · cases h with
      | unary _ he => exact ih he htop hle (by simp only [Regex.size] at hlt; omega)
  | binary c l r ihl ihr =>
    have htop := h.exists_mem_rest_top hc
    simp only [Regex.size] at hlt
    rcases Nat.eq_or_lt_of_le hle with rfl | hle
    · exact htop
    · cases h with
      | binary _ hl hr =>
        by_cases hside : p < id + 1 + l.size
        · exact ihl hl htop hle hside
        · exact ihr hr hc (by omega) (by omega)

theorem exists_mem_rest_leaf {e : Option Regex} (hx : (ofRegex e).symbol? p = some x) :
    ∃ w, w ∈ (ofRegex e).rest (p, .up) := by
  cases e with
  | none =>
    rw [symbol?_ofRegex_none] at hx
    cases hx
  | some e =>
    obtain ⟨hle, hlt⟩ := range_of_symbol? hx
    refine (block_ofRegex e).exists_mem_rest_up ⟨[], ?_⟩ hle hlt
    exact ⟨0, .done (isTerminal_eq (root_ofRegex e)) (symbol?_root _)⟩

theorem exists_mem_restOf_initial (e : Option Regex) :
    ∃ w, w ∈ (ofRegex e).restOf (ofRegex e).initialComposition := by
  rw [initialComposition]
  simp only [mem_restOf_composition (symbol?_root e), List.mem_singleton, exists_eq_left]
  cases e with
  | none => exact ⟨[], by rw [rest_ofRegex_none]; rfl⟩
  | some e => rw [rest_ofRegex]; exact e.exists_mem_language

theorem exists_mem_restOf_of_move {e : Option Regex}
    (h : (ofRegex e).compositions.move c x = some d) : ∃ w, w ∈ (ofRegex e).restOf d := by
  obtain ⟨hne, rfl⟩ := move_eq_some.1 h
  obtain ⟨f, hf⟩ := List.exists_mem_of_ne_nil _ hne
  obtain ⟨p, -, hx, rfl⟩ := mem_followers.1 hf
  obtain ⟨w, hw⟩ := exists_mem_rest_leaf hx
  refine ⟨w, mem_restOf_ofList.2 ⟨_, hf, ?_⟩⟩
  exact (mem_restOf_composition (symbol?_root e)).2 ((mem_rest_up hx).1 hw)

/-- From every composition that moves reach the end of the expression can be read. -/
theorem exists_mem_restOf {e : Option Regex}
    (h : Reaches (ofRegex e).compositions.next (ofRegex e).initialComposition c) :
    ∃ w, w ∈ (ofRegex e).restOf c := by
  cases h with
  | refl => exact exists_mem_restOf_initial e
  | step _ hd =>
    obtain ⟨x, -, hm⟩ := (MoveSystem.mem_next _).1 hd
    exact exists_mem_restOf_of_move hm

theorem trim_toAutomaton (e : Option Regex) : (ofRegex e).toAutomaton.Trim where
  reached hq := by
    obtain ⟨w, hw⟩ := MoveSystem.exists_path _ _ hq
    exact ⟨0, w, rfl, hw⟩
  live hq := by
    obtain ⟨c, hc⟩ := (MoveSystem.lt_size_toAutomaton _ _).1 hq
    obtain ⟨v, hv⟩ := (MoveSystem.mem_reachable _).1 (List.mem_of_getElem? hc)
    obtain ⟨w, hw⟩ := exists_mem_restOf ((MoveSystem.reaches_iff _).2 ⟨v, hv⟩)
    obtain ⟨d, hrun, hroot⟩ := (mem_restOf_iff_run (symbol?_root e)).1 hw
    exact ⟨w, (MoveSystem.mem_languageFrom_toAutomaton _ _ hc).2 ⟨d, hrun, decide_eq_true hroot⟩⟩

end SyntaxTree

end RegularLanguages
