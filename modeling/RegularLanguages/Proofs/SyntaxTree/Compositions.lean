import RegularLanguages.Proofs.MoveSystem
import RegularLanguages.Proofs.SyntaxTree.Reading
import RegularLanguages.SyntaxTree.Automaton
/-!
# The automaton of a syntax tree accepts what is read along it

A composition holds where reading can go on, so it has words of its own (`restOf`): those that begin
with the symbol of one of its leaves, and the empty word if the root is in it. Moving on a symbol takes
that symbol off, and so the automaton accepts the words of the first composition.
-/

namespace RegularLanguages.SyntaxTree

/-- The words that can be read when reading has come to a composition. -/
def restOf (t : SyntaxTree) (c : Composition) : Language Char :=
  {w | (w = [] ∧ root ∈ c) ∨
    ∃ p ∈ c, ∃ x v, t.symbol? p = some x ∧ w = x.char :: v ∧ v ∈ t.rest (p, .up)}

variable {t : SyntaxTree} {p : NodeId} {x : Symbol} {a b : Step} {c : Composition} {d : Direction}
  {starts : List Step} {w : List Char}

theorem mem_composition : p ∈ t.composition starts ↔
    ∃ a ∈ starts, ∃ d, Reaches t.next a (p, d) ∧ t.isTerminal (p, d) = true := by
  rw [composition, SortedSet.mem_ofList, List.mem_map]
  simp only [List.mem_filter, mem_explore]
  constructor
  · rintro ⟨⟨p, d⟩, ⟨⟨a, ha, hr⟩, ht⟩, rfl⟩
    exact ⟨a, ha, d, hr, ht⟩
  · rintro ⟨a, ha, d, hr, ht⟩
    exact ⟨(p, d), ⟨⟨a, ha, hr⟩, ht⟩, rfl⟩

theorem eq_down_of_isTerminal (hx : t.symbol? p = some x) (h : t.isTerminal (p, d) = true) :
    d = .down := by
  obtain ⟨left, right, parent, climb, hn⟩ := exists_leaf hx
  rw [isTerminal_eq hn] at h
  cases d with
  | up => cases h
  | down => rfl

theorem mem_rest_of_reaches (h : Reaches t.next a b) (hw : w ∈ t.rest b) : w ∈ t.rest a := by
  induction h with
  | refl => exact hw
  | step _ hb ih => exact ih (mem_rest_of_next hb hw)

/-- A composition holds what can be read from the steps that lead to it. -/
theorem mem_restOf_composition (hroot : t.symbol? root = none) :
    w ∈ t.restOf (t.composition starts) ↔ ∃ a ∈ starts, w ∈ t.rest a := by
  constructor
  · rintro (⟨rfl, hp⟩ | ⟨p, hp, x, v, hx, rfl, hv⟩)
    · obtain ⟨a, ha, d, hr, ht⟩ := mem_composition.1 hp
      exact ⟨a, ha, mem_rest_of_reaches hr ⟨0, .done ht hroot⟩⟩
    · obtain ⟨a, ha, d, hr, ht⟩ := mem_composition.1 hp
      obtain rfl := eq_down_of_isTerminal hx ht
      obtain ⟨n, hn⟩ := hv
      exact ⟨a, ha, mem_rest_of_reaches hr ⟨n + 1, .symbol hx hn⟩⟩
  · rintro ⟨a, ha, n, hn⟩
    have hfrom : ∀ {n b w}, t.Reads n b w → Reaches t.next a b →
        w ∈ t.restOf (t.composition starts) := by
      intro n b w h
      induction h with
      | done ht _ => exact fun hr => .inl ⟨rfl, mem_composition.2 ⟨a, ha, _, hr, ht⟩⟩
      | move hb _ ih => exact fun hr => ih (hr.step hb)
      | symbol hx hv _ =>
        intro hr
        exact .inr ⟨_, mem_composition.2 ⟨a, ha, _, hr, isTerminal_symbol hx⟩, _, _, hx, rfl, _, hv⟩
    exact hfrom hn .refl

/-! ### Follow sets -/

theorem mem_leaves : p ∈ t.leaves ↔ ∃ x, t.symbol? p = some x := by
  rw [leaves, List.mem_filter, ids, List.mem_range, Option.isSome_iff_exists]
  refine ⟨fun h => h.2, fun ⟨x, hx⟩ => ⟨?_, x, hx⟩⟩
  obtain ⟨left, right, parent, climb, hn⟩ := exists_leaf hx
  obtain ⟨hlt, -⟩ := Array.getElem?_eq_some_iff.1 hn
  exact hlt

theorem get?_followSets (hx : t.symbol? p = some x) :
    t.followSets.get? p = some (t.composition (t.steps (p, .up))) := by
  rw [followSets, SortedMap.get?_ofList_map, if_pos (mem_leaves.2 ⟨x, hx⟩)]

theorem mem_alphabet (hx : t.symbol? p = some x) : x ∈ t.alphabet :=
  SortedSet.mem_ofList.2 (List.mem_filterMap.2 ⟨p, mem_leaves.2 ⟨x, hx⟩, hx⟩)

theorem next_up (hx : t.symbol? p = some x) : t.next (p, .up) = t.steps (p, .up) := by
  obtain ⟨left, right, parent, climb, hn⟩ := exists_leaf hx
  rw [next_eq hn, steps, hn]
  rfl

theorem mem_rest_up (hx : t.symbol? p = some x) :
    w ∈ t.rest (p, .up) ↔ ∃ a ∈ t.steps (p, .up), w ∈ t.rest a := by
  rw [← next_up hx]
  constructor
  · rintro ⟨n, hn⟩
    cases hn with
    | done _ hroot =>
      rw [hroot] at hx
      cases hx
    | move hb h => exact ⟨_, hb, _, h⟩
  · rintro ⟨a, ha, hw⟩
    exact mem_rest_of_next ha hw

/-! ### Moves between compositions -/

theorem mem_followers {f : Composition} : f ∈ t.followers t.followSets c x ↔
    ∃ p ∈ c, t.symbol? p = some x ∧ f = t.composition (t.steps (p, .up)) := by
  rw [followers, List.mem_filterMap]
  refine exists_congr fun p => and_congr_right fun _ => ?_
  constructor
  · intro h
    split at h
    · rename_i hx
      rw [get?_followSets hx] at h
      exact ⟨hx, (Option.some.inj h).symm⟩
    · cases h
  · rintro ⟨hx, rfl⟩
    rw [if_pos hx, get?_followSets hx]

theorem move_eq_some {f : Composition} : t.compositions.move c x = some f ↔
    t.followers t.followSets c x ≠ [] ∧
      f = .ofList ((t.followers t.followSets c x).flatMap SortedSet.toList) := by
  simp only [compositions]
  cases t.followers t.followSets c x with
  | nil => simp
  | cons g gs =>
    simp only [ne_eq, List.cons_ne_nil, not_false_eq_true, true_and]
    exact ⟨fun h => (Option.some.inj h).symm, fun h => congrArg some h.symm⟩

theorem mem_restOf_ofList {fs : List Composition} :
    w ∈ t.restOf (.ofList (fs.flatMap SortedSet.toList)) ↔ ∃ f ∈ fs, w ∈ t.restOf f := by
  have hmem : ∀ p, p ∈ SortedSet.ofList (fs.flatMap SortedSet.toList) ↔ ∃ f ∈ fs, p ∈ f := by
    intro p
    rw [SortedSet.mem_ofList, List.mem_flatMap]
    exact Iff.rfl
  constructor
  · rintro (⟨hw, hp⟩ | ⟨p, hp, hv⟩)
    · obtain ⟨f, hf, hp⟩ := (hmem _).1 hp
      exact ⟨f, hf, .inl ⟨hw, hp⟩⟩
    · obtain ⟨f, hf, hp⟩ := (hmem _).1 hp
      exact ⟨f, hf, .inr ⟨p, hp, hv⟩⟩
  · rintro ⟨f, hf, ⟨hw, hp⟩ | ⟨p, hp, hv⟩⟩
    · exact .inl ⟨hw, (hmem _).2 ⟨f, hf, hp⟩⟩
    · exact .inr ⟨p, (hmem _).2 ⟨f, hf, hp⟩, hv⟩

/-- Moving on a symbol takes it off the words of a composition. -/
theorem cons_mem_restOf (hroot : t.symbol? root = none) : x.char :: w ∈ t.restOf c ↔
    ∃ f, t.compositions.move c x = some f ∧ w ∈ t.restOf f := by
  simp only [move_eq_some]
  constructor
  · rintro (⟨hw, -⟩ | ⟨p, hp, y, v, hy, hw, hv⟩)
    · cases hw
    · obtain ⟨hxy, rfl⟩ := List.cons.inj hw
      obtain rfl := Symbol.char_injective hxy
      have hf := mem_followers.2 ⟨p, hp, hy, rfl⟩
      refine ⟨_, ⟨List.ne_nil_of_mem hf, rfl⟩, mem_restOf_ofList.2 ⟨_, hf, ?_⟩⟩
      exact (mem_restOf_composition hroot).2 ((mem_rest_up hy).1 hv)
  · rintro ⟨f, ⟨-, rfl⟩, hw⟩
    obtain ⟨g, hg, hw⟩ := mem_restOf_ofList.1 hw
    obtain ⟨p, hp, hx, rfl⟩ := mem_followers.1 hg
    exact .inr ⟨p, hp, x, w, hx, rfl, (mem_rest_up hx).2 ((mem_restOf_composition hroot).1 hw)⟩

/-- A word is one of a composition if moving along it leads to a composition with the root. -/
theorem mem_restOf_iff_run (hroot : t.symbol? root = none) :
    w ∈ t.restOf c ↔ ∃ f, t.compositions.run c w = some f ∧ root ∈ f := by
  induction w generalizing c with
  | nil =>
    constructor
    · rintro (⟨-, hr⟩ | ⟨p, -, x, v, -, hw, -⟩)
      · exact ⟨c, rfl, hr⟩
      · cases hw
    · rintro ⟨f, hf, hr⟩
      obtain rfl := Option.some.inj hf
      exact .inl ⟨rfl, hr⟩
  | cons ch w ih =>
    constructor
    · intro h
      obtain ⟨p, hp, x, v, hx, hw, hv⟩ := h.resolve_left fun hn => by cases hn.1
      obtain ⟨rfl, rfl⟩ := List.cons.inj hw
      obtain ⟨f, hf, hw⟩ := (cons_mem_restOf hroot).1 h
      obtain ⟨g, hg, hr⟩ := ih.1 hw
      refine ⟨g, ?_, hr⟩
      rw [MoveSystem.run, MoveSystem.symbol?_char _ (mem_alphabet hx), Option.bind_some, hf]
      exact hg
    · rintro ⟨g, hrun, hr⟩
      obtain ⟨f, hmove, hg⟩ := Option.bind_eq_some_iff.1 hrun
      obtain ⟨x, hx, hf⟩ := Option.bind_eq_some_iff.1 hmove
      obtain ⟨rfl, -⟩ := (Automaton.symbol?_eq_some (A := .empty t.alphabet)).1 hx
      exact (cons_mem_restOf hroot).2 ⟨f, hf, ih.2 ⟨g, hg, hr⟩⟩

theorem language_toAutomaton (hroot : t.symbol? root = none) :
    t.toAutomaton.language = t.rest (root, .down) := by
  ext w
  rw [toAutomaton, MoveSystem.mem_language_toAutomaton]
  show (∃ f, t.compositions.run t.initialComposition w = some f ∧ decide (root ∈ f) = true) ↔ _
  simp only [decide_eq_true_iff]
  rw [← mem_restOf_iff_run hroot, initialComposition, mem_restOf_composition hroot]
  simp only [List.mem_singleton, exists_eq_left]

theorem language_toAutomaton_ofRegex (e : Regex) :
    (ofRegex (some e)).toAutomaton.language = e.language := by
  rw [language_toAutomaton (symbol?_root _), rest_ofRegex]

theorem language_toAutomaton_none : (ofRegex none).toAutomaton.language = 1 := by
  rw [language_toAutomaton (symbol?_root _), rest_ofRegex_none]

end RegularLanguages.SyntaxTree
