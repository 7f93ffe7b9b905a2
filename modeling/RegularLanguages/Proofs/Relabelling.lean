import RegularLanguages.Proofs.Automaton.Compact
import RegularLanguages.Proofs.MoveSystem
/-!
# Systems with other configurations

The configurations of a system can be replaced by others, as long as different ones stay different
(`MoveSystem.Relabels`). A search then finds the new configurations in the order of those that they
replace, and the automaton of the system has the same numbers in it.
-/

namespace RegularLanguages

section Search

variable {σ τ : Type} [DecidableEq σ] [DecidableEq τ] {g : σ → τ} {P : σ → Prop}
  {next : σ → List σ} {next' : τ → List τ} {found ys queue : List σ} {x : σ}

theorem map_fresh (hinj : ∀ x y, P x → P y → g x = g y → x = y) (hfound : ∀ x ∈ found, P x)
    (hys : ∀ y ∈ ys, P y) : fresh (found.map g) (ys.map g) = (fresh found ys).map g := by
  induction ys generalizing found with
  | nil => rfl
  | cons y ys ih =>
    have hy := hys y List.mem_cons_self
    have hys' : ∀ y ∈ ys, P y := fun y hy => hys y (List.mem_cons_of_mem _ hy)
    have hmem : g y ∈ found.map g ↔ y ∈ found := by
      rw [List.mem_map]
      constructor
      · rintro ⟨x, hx, hxy⟩
        rwa [← hinj x y (hfound x hx) hy hxy]
      · intro h
        exact ⟨y, h, rfl⟩
    rw [List.map_cons, fresh, fresh]
    by_cases h : y ∈ found
    · rw [if_pos h, if_pos (hmem.2 h), ih hfound hys']
    · rw [if_neg h, if_neg (mt hmem.1 h), List.map_cons, ← List.map_cons (f := g) (l := found),
        ih (List.forall_mem_cons.2 ⟨hy, hfound⟩) hys']

/-- A search among other values finds what stands for what it would have found. -/
theorem map_discover {h : FiniteMoves next} {h' : FiniteMoves next'}
    (hinj : ∀ x y, P x → P y → g x = g y → x = y) (hclosed : ∀ x, P x → ∀ y ∈ next x, P y)
    (hnext : ∀ x, P x → next' (g x) = (next x).map g) (hfound : ∀ x ∈ found, P x)
    (hqueue : ∀ x ∈ queue, P x) :
    discover next' h' (found.map g) (queue.map g) = (discover next h found queue).map g := by
  fun_induction discover next h found queue with
  | case1 found => rw [List.map_nil, discover]
  | case2 found x queue new ih =>
    have hx := hqueue x List.mem_cons_self
    have hnew : ∀ y ∈ new, P y := fun y hy => hclosed x hx y (mem_fresh.1 hy).1
    have hmap : fresh (found.map g) (next' (g x)) = new.map g := by
      rw [hnext x hx, map_fresh hinj hfound (hclosed x hx)]
    rw [List.map_cons, discover]
    simp only [hmap]
    rw [← List.map_append, ← List.map_append]
    refine ih (fun y hy => ?_) fun y hy => ?_
    · exact (List.mem_append.1 hy).elim (hfound y) (hnew y)
    · exact (List.mem_append.1 hy).elim (fun hy => hqueue y (List.mem_cons_of_mem _ hy)) (hnew y)

theorem map_explore {h : FiniteMoves next} {h' : FiniteMoves next'}
    (hinj : ∀ x y, P x → P y → g x = g y → x = y) (hclosed : ∀ x, P x → ∀ y ∈ next x, P y)
    (hnext : ∀ x, P x → next' (g x) = (next x).map g) (hx : P x) :
    explore next' h' [g x] = (explore next h [x]).map g := by
  have hstart : ∀ y ∈ [x], P y := fun y hy => List.mem_singleton.1 hy ▸ hx
  have hone : ∀ {ρ : Type} [DecidableEq ρ] (z : ρ), fresh [] [z] = [z] := fun z => by simp [fresh]
  rw [explore, explore, hone, hone]
  exact map_discover hinj hclosed hnext hstart hstart

end Search

namespace MoveSystem

variable {σ τ : Type} [DecidableEq σ] [DecidableEq τ] {M : MoveSystem σ} {N : MoveSystem τ}
  {g : σ → τ} {x y : σ} {i : Nat}

/-- `N` moves as `M` does, with `g x` in place of each configuration `x` that `M` reaches. -/
structure Relabels (N : MoveSystem τ) (M : MoveSystem σ) (g : σ → τ) : Prop where
  alphabet_eq : N.alphabet = M.alphabet
  start_eq : N.start = g M.start
  move_eq {x : σ} (hx : x ∈ M.reachable) (s : Symbol) : N.move (g x) s = (M.move x s).map g
  isFinal_eq {x : σ} : x ∈ M.reachable → N.isFinal (g x) = M.isFinal x
  inj {x y : σ} : x ∈ M.reachable → y ∈ M.reachable → g x = g y → x = y

theorem mem_reachable_of_mem_next (hx : x ∈ M.reachable) (hy : y ∈ M.next x) : y ∈ M.reachable := by
  obtain ⟨z, hz, hreach⟩ := mem_explore.1 hx
  exact mem_explore.2 ⟨z, hz, hreach.step hy⟩

namespace Relabels

variable (h : N.Relabels M g)
include h

omit [DecidableEq τ] in
theorem next_eq (hx : x ∈ M.reachable) : N.next (g x) = (M.next x).map g := by
  rw [next, next, h.alphabet_eq, List.map_filterMap]
  exact List.filterMap_congr fun s _ => h.move_eq hx s

theorem reachable_eq : N.reachable = M.reachable.map g := by
  have hstart : M.start ∈ M.reachable := List.mem_of_getElem? M.getElem?_zero_reachable
  rw [reachable, h.start_eq]
  exact map_explore (P := (· ∈ M.reachable)) (fun x y => h.inj)
    (fun x hx y => mem_reachable_of_mem_next hx) (fun x => h.next_eq) hstart

theorem getElem?_reachable {y : τ} :
    N.reachable[i]? = some y ↔ ∃ x, M.reachable[i]? = some x ∧ g x = y := by
  rw [h.reachable_eq, List.getElem?_map, Option.map_eq_some_iff]

variable (name : Nat → σ → StateName) (name' : Nat → τ → StateName)

theorem transitions_toAutomaton :
    (N.toAutomaton name').transitions = (M.toAutomaton name).transitions := by
  refine Transitions.Compact.ext (.ofEdges _) (.ofEdges _) fun i l j => ?_
  show j ∈ (N.toAutomaton name').targets i l ↔ j ∈ (M.toAutomaton name).targets i l
  simp only [mem_targets, h.getElem?_reachable, h.alphabet_eq]
  constructor
  · rintro ⟨_, s, _, rfl, ⟨x, hx, rfl⟩, hs, hm, y, hy, rfl⟩
    rw [h.move_eq (List.mem_of_getElem? hx), Option.map_eq_some_iff] at hm
    obtain ⟨z, hz, hzy⟩ := hm
    have hreach := mem_reachable_of_mem_next (List.mem_of_getElem? hx) (M.mem_next.2 ⟨s, hs, hz⟩)
    obtain rfl := h.inj hreach (List.mem_of_getElem? hy) hzy
    exact ⟨x, s, z, rfl, hx, hs, hz, hy⟩
  · rintro ⟨x, s, y, rfl, hx, hs, hm, hy⟩
    refine ⟨g x, s, g y, rfl, ⟨x, hx, rfl⟩, hs, ?_, y, hy, rfl⟩
    rw [h.move_eq (List.mem_of_getElem? hx), hm]
    rfl

theorem finals_toAutomaton : (N.toAutomaton name').finals = (M.toAutomaton name).finals := by
  refine SortedSet.ext fun i => ?_
  simp only [mem_finals, h.getElem?_reachable]
  constructor
  · rintro ⟨_, ⟨x, hx, rfl⟩, hf⟩
    exact ⟨x, hx, h.isFinal_eq (List.mem_of_getElem? hx) ▸ hf⟩
  · rintro ⟨x, hx, hf⟩
    exact ⟨g x, ⟨x, hx, rfl⟩, (h.isFinal_eq (List.mem_of_getElem? hx)).trans hf⟩

end Relabels

end MoveSystem

end RegularLanguages
