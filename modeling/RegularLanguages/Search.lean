/-!
# Breadth-first search

`explore next h starts` lists what can be reached from `starts` by any number of moves, each value
once, in the order in which a breadth-first search finds it. The search ends because only finitely
many values are ever moved to (`FiniteMoves`); that they lie in some list is all it needs to know,
and the list itself is never computed.
-/

namespace RegularLanguages

variable {σ : Type}

/-- Only finitely many values are ever moved to. -/
def FiniteMoves (next : σ → List σ) : Prop := ∃ all : List σ, ∀ x, ∀ y ∈ next x, y ∈ all

/-- A value is reached by a chain of moves. -/
inductive Reaches (next : σ → List σ) (x : σ) : σ → Prop
  | refl : Reaches next x x
  | step {y z : σ} : Reaches next x y → z ∈ next y → Reaches next x z

theorem Reaches.trans {next : σ → List σ} {x y z : σ} (h : Reaches next x y)
    (h' : Reaches next y z) : Reaches next x z := by
  induction h' with
  | refl => exact h
  | step _ hm ih => exact ih.step hm

theorem Reaches.head {next : σ → List σ} {x y z : σ} (h : y ∈ next x) (h' : Reaches next y z) :
    Reaches next x z :=
  (Reaches.refl.step h).trans h'

variable [DecidableEq σ]

/-- The elements of a list that are not in `found`, each once, in order. -/
def fresh (found : List σ) : List σ → List σ
  | [] => []
  | y :: ys => if y ∈ found then fresh found ys else y :: fresh (y :: found) ys

theorem mem_fresh {found ys : List σ} {x : σ} : x ∈ fresh found ys ↔ x ∈ ys ∧ x ∉ found := by
  induction ys generalizing found with
  | nil => simp [fresh]
  | cons y ys ih =>
    rw [fresh]
    split <;> grind

theorem fresh_congr {found found' : List σ} (h : ∀ x, x ∈ found ↔ x ∈ found') (ys : List σ) :
    fresh found ys = fresh found' ys := by
  induction ys generalizing found found' with
  | nil => rfl
  | cons y ys ih =>
    have hcons : ∀ x, x ∈ y :: found ↔ x ∈ y :: found' := fun x => by
      rw [List.mem_cons, List.mem_cons, h]
    simp only [fresh, h, ih h, ih hcons]

theorem fresh_cons (found : List σ) (y : σ) (ys : List σ) :
    fresh found (y :: ys) = fresh found [y] ++ fresh (found ++ fresh found [y]) ys := by
  by_cases hy : y ∈ found
  · simp [fresh, hy]
  · have hcongr : ∀ x, x ∈ y :: found ↔ x ∈ found ++ [y] := fun x => by
      rw [List.mem_cons, List.mem_append, List.mem_singleton, or_comm]
    simp [fresh, hy, fresh_congr hcongr]

theorem nodup_fresh (found ys : List σ) : (fresh found ys).Nodup := by
  induction ys generalizing found with
  | nil => simp [fresh]
  | cons y ys ih =>
    rw [fresh]
    split
    · exact ih found
    · exact List.nodup_cons.2 ⟨by simp [mem_fresh], ih _⟩

theorem length_filter_notMem_append_le (all found new : List σ) :
    (all.filter (· ∉ found ++ new)).length ≤ (all.filter (· ∉ found)).length := by
  induction all with
  | nil => simp
  | cons a all ih => grind

theorem length_filter_notMem_append_lt {all found new : List σ} {x : σ} (hx : x ∈ new)
    (hall : x ∈ all) (hf : x ∉ found) :
    (all.filter (· ∉ found ++ new)).length < (all.filter (· ∉ found)).length := by
  induction all with
  | nil => simp at hall
  | cons a all ih =>
    have := length_filter_notMem_append_le all found new
    grind

/-- Continues a search: `found` is everything met so far, and `queue` those of it whose moves are
still to be followed. -/
def discover (next : σ → List σ) (h : FiniteMoves next) (found queue : List σ) : List σ :=
  match queue with
  | [] => found
  | x :: queue =>
    let new := fresh found (next x)
    discover next h (found ++ new) (queue ++ new)
termination_by ((h.choose.filter (· ∉ found)).length, queue.length)
decreasing_by
  by_cases hn : fresh found (next x) = []
  · rw [hn, List.append_nil, List.append_nil]
    exact Prod.Lex.right _ (Nat.lt_succ_self _)
  · obtain ⟨y, hy⟩ := List.exists_mem_of_ne_nil _ hn
    have hm := mem_fresh.1 hy
    exact Prod.Lex.left _ _
      (length_filter_notMem_append_lt hy (h.choose_spec x y hm.1) hm.2)

/-- Everything that moves lead to from `starts`, in breadth-first order, each value once. -/
def explore (next : σ → List σ) (h : FiniteMoves next) (starts : List σ) : List σ :=
  discover next h (fresh [] starts) (fresh [] starts)

theorem subset_discover {next : σ → List σ} {h : FiniteMoves next} {found queue : List σ} {x : σ}
    (hx : x ∈ found) : x ∈ discover next h found queue := by
  fun_induction discover next h found queue with
  | case1 => exact hx
  | case2 found y queue new ih => exact ih (List.mem_append_left _ hx)

theorem nodup_discover {next : σ → List σ} {h : FiniteMoves next} {found queue : List σ}
    (hf : found.Nodup) : (discover next h found queue).Nodup := by
  fun_induction discover next h found queue with
  | case1 => exact hf
  | case2 found y queue new ih =>
    refine ih (List.nodup_append.2 ⟨hf, nodup_fresh _ _, fun a ha b hb hab => ?_⟩)
    subst hab
    exact (mem_fresh.1 hb).2 ha

/-- What is found was found already, or is reached from the queue. -/
theorem discover_sound {next : σ → List σ} {h : FiniteMoves next} {found queue : List σ} {y : σ}
    (hy : y ∈ discover next h found queue) : y ∈ found ∨ ∃ x ∈ queue, Reaches next x y := by
  fun_induction discover next h found queue with
  | case1 => exact .inl hy
  | case2 found x queue new ih =>
    rcases ih hy with hf | ⟨z, hz, hr⟩
    · rcases List.mem_append.1 hf with hf | hn
      · exact .inl hf
      · exact .inr ⟨x, by simp, .step .refl (mem_fresh.1 hn).1⟩
    · rcases List.mem_append.1 hz with hq | hn
      · exact .inr ⟨z, by simp [hq], hr⟩
      · refine .inr ⟨x, by simp, ?_⟩
        clear ih hy
        induction hr with
        | refl => exact .step .refl (mem_fresh.1 hn).1
        | step _ hm ih => exact .step ih hm

/-- A search that has followed all of `found` outside the queue ends closed under moves. -/
theorem discover_closed {next : σ → List σ} {h : FiniteMoves next} {found queue : List σ}
    (hq : ∀ x ∈ found, x ∈ queue ∨ ∀ y ∈ next x, y ∈ found) :
    ∀ x ∈ discover next h found queue, ∀ y ∈ next x, y ∈ discover next h found queue := by
  fun_induction discover next h found queue with
  | case1 => exact fun x hx y hy => (hq x hx).elim (by simp) (· y hy)
  | case2 found a queue new ih =>
    refine ih fun x hx => ?_
    have hnew : ∀ y, y ∈ new ↔ y ∈ next a ∧ y ∉ found := fun y => mem_fresh
    rcases List.mem_append.1 hx with hf | hn
    · rcases hq x hf with hxq | hcl
      · rcases List.mem_cons.1 hxq with rfl | hxq
        · refine .inr fun y hy => ?_
          by_cases hyf : y ∈ found
          · exact List.mem_append_left _ hyf
          · exact List.mem_append_right _ ((hnew y).2 ⟨hy, hyf⟩)
        · exact .inl (List.mem_append_left _ hxq)
      · exact .inr fun y hy => List.mem_append_left _ (hcl y hy)
    · exact .inl (List.mem_append_right _ hn)

theorem prefix_discover {next : σ → List σ} {h : FiniteMoves next} {found queue : List σ} :
    found <+: discover next h found queue := by
  fun_induction discover next h found queue with
  | case1 => exact List.prefix_refl _
  | case2 found y queue new ih => exact (List.prefix_append _ _).trans ih

/-- A search finds its start first. -/
theorem getElem?_zero_explore (next : σ → List σ) (h : FiniteMoves next) (x : σ) :
    (explore next h [x])[0]? = some x := by
  obtain ⟨rest, hrest⟩ := @prefix_discover σ _ next h [x] [x]
  have he : explore next h [x] = x :: rest := by
    rw [explore, show fresh [] [x] = [x] by simp [fresh]]
    exact hrest.symm
  rw [he]
  rfl

/-- The place of a value in a list without repetition. -/
theorem idxOf?_eq_some_iff_of_nodup {l : List σ} (h : l.Nodup) {x : σ} {i : Nat} :
    l.idxOf? x = some i ↔ l[i]? = some x := by
  rw [List.idxOf?_eq_some_iff]
  constructor
  · rintro ⟨hi, rfl, -⟩
    exact List.getElem?_eq_getElem hi
  · intro hx
    obtain ⟨hi, rfl⟩ := List.getElem?_eq_some_iff.1 hx
    refine ⟨hi, rfl, fun j hj he => ?_⟩
    exact Nat.ne_of_lt hj ((List.getElem_inj h).1 he)

theorem nodup_explore (next : σ → List σ) (h : FiniteMoves next) (starts : List σ) :
    (explore next h starts).Nodup :=
  nodup_discover (nodup_fresh _ _)

/-- A search finds exactly what moves lead to. -/
theorem mem_explore {next : σ → List σ} {h : FiniteMoves next} {starts : List σ} {y : σ} :
    y ∈ explore next h starts ↔ ∃ x ∈ starts, Reaches next x y := by
  constructor
  · intro hy
    rcases discover_sound hy with hs | ⟨x, hx, hr⟩
    · exact ⟨y, (mem_fresh.1 hs).1, .refl⟩
    · exact ⟨x, (mem_fresh.1 hx).1, hr⟩
  · rintro ⟨x, hx, hr⟩
    induction hr with
    | refl => exact subset_discover (mem_fresh.2 ⟨hx, by simp⟩)
    | step _ hm ih => exact discover_closed (fun x hx => .inl hx) _ ih _ hm

end RegularLanguages
