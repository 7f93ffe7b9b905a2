import RegularLanguages.Proofs.SyntaxTree.Preorder
/-!
# Walks

A walk keeps a stack of pending steps and takes each step once (`Walks`). The steps of a tree go round in
cycles, and a walk comes to an end only because they are finitely many: no step leaves the tree
(`lt_size_of_mem_steps`), and each one that is taken is new (`exists_walks`). The steps taken are closed under
what follows them, but for what is pending (`Tracks`). So in the end they are all that the starts lead to, and
the walk has collected their composition (`Walks.eq_composition`).
-/

namespace RegularLanguages

/-- How many of all values are still to be seen. -/
def unseen {σ : Type} [DecidableEq σ] (all seen : List σ) : Nat := (all.filter (· ∉ seen)).length

theorem unseen_concat_lt {σ : Type} [DecidableEq σ] {all seen : List σ} {x : σ} (hall : x ∈ all)
    (hseen : x ∉ seen) : unseen all (seen ++ [x]) < unseen all seen :=
  length_filter_notMem_append_lt List.mem_cons_self hall hseen

/-! ### The steps at a node -/

theorem Node.eq_some_of_mem {o : Option NodeId} {d : Direction} {b : Step}
    (h : b ∈ o.toList.map (·, d)) : o = some b.1 := by
  obtain ⟨q, hq, rfl⟩ := List.mem_map.1 h
  exact Option.mem_toList.1 hq

/-- Steps follow the links of a node, or its climb. -/
theorem Node.link_of_mem_steps {n : Node} {d : Direction} {b : Step} (h : b ∈ n.steps d) :
    n.left = some b.1 ∨ n.right = some b.1 ∨ n.climb = some b.1 := by
  have hleft : b ∈ n.enterLeft → n.left = some b.1 := eq_some_of_mem
  have hright : b ∈ n.enterRight → n.right = some b.1 := eq_some_of_mem
  have hclimb : b ∈ n.climbUp → n.climb = some b.1 := eq_some_of_mem
  unfold steps at h
  split at h <;> split at h <;> grind

/-- Where reading comes to rest no step follows. -/
theorem Node.next_eq_steps (n : Node) (d : Direction) : n.next d = n.steps d := by
  unfold next
  split
  · rename_i ht
    cases d with
    | up =>
      have hk : n.kind = .root := of_decide_eq_true ht
      rw [steps, hk]
    | down =>
      simp only [isTerminal] at ht
      split at ht
      · rename_i hk
        rw [steps, hk]
      · rename_i hk
        rw [steps, hk, enterLeft, Option.isNone_iff_eq_none.1 ht]
        rfl
      · cases ht
  · rfl

/-- No link and no climb from a block leads past its end, unless its own climb does. -/
theorem Regex.link_lt {e : Regex} {id parent climb bound q : Nat} {n : Node}
    (hn : n ∈ e.layout id parent climb) (hid : id + e.size ≤ bound) (hclimb : climb < bound)
    (hq : n.left = some q ∨ n.right = some q ∨ n.climb = some q) : q < bound := by
  induction e generalizing id parent climb with
  | symbol x =>
    obtain rfl := List.mem_singleton.1 hn
    obtain h | h | h := hq
    · cases h
    · cases h
    · exact Option.some.inj h ▸ hclimb
  | unary m e ih =>
    have hpos := e.size_pos
    rw [size] at hid
    rcases List.mem_cons.1 hn with rfl | hn
    · obtain h | h | h := hq
      · have hleft : id + 1 = q := Option.some.inj h
        omega
      · cases h
      · exact Option.some.inj h ▸ hclimb
    · exact ih hn (by omega) (by omega)
  | binary c l r ihl ihr =>
    have hpos := r.size_pos
    rw [size] at hid
    rcases List.mem_cons.1 hn with rfl | hn
    · obtain h | h | h := hq
      · have hleft : id + 1 = q := Option.some.inj h
        omega
      · have hright : id + 1 + l.size = q := Option.some.inj h
        omega
      · exact Option.some.inj h ▸ hclimb
    · rcases List.mem_append.1 hn with hn | hn
      · exact ihl hn (by omega) (by omega)
      · exact ihr hn (by omega) hclimb

namespace SyntaxTree

variable {t : SyntaxTree} {a b : Step} {p : NodeId} {d : Direction} {starts pending seen more : List Step}
  {c r : Composition}

theorem next_eq_steps (t : SyntaxTree) : t.next = t.steps := by
  funext a
  unfold next steps
  split
  · exact Node.next_eq_steps _ _
  · rfl

/-- No step leaves the tree. -/
theorem lt_size_of_mem_steps {e : Option Regex} (h : b ∈ (ofRegex e).steps a) :
    b.1 < (ofRegex e).size := by
  unfold steps at h
  split at h
  · rename_i n hn
    have hlink := Node.link_of_mem_steps h
    have hmem := Array.mem_toList_iff.2 (Array.mem_of_getElem? hn)
    cases e with
    | none =>
      obtain rfl := List.mem_singleton.1 hmem
      simp at hlink
    | some e =>
      rw [size_ofRegex]
      rcases List.mem_cons.1 hmem with rfl | hmem
      · obtain h | h | h := hlink
        · obtain hleft : 1 = b.1 := Option.some.inj h
          exact hleft ▸ Nat.succ_lt_succ e.size_pos
        · cases h
        · cases h
      · exact Regex.link_lt hmem (by omega) (Nat.succ_pos _) hlink
  · cases h

theorem preordered (e : Option Regex) : (ofRegex e).Preordered := by
  cases e with
  | none => exact preordered_empty
  | some e => exact preordered_ofRegex e

/-- Reading comes to rest at a leaf that is entered, and at the root, climbed into or without a child. -/
theorem isTerminal_iff {e : Option Regex} : (ofRegex e).isTerminal (p, d) = true ↔
    (∃ x, (ofRegex e).symbol? p = some x) ∧ d = .down ∨
      p = root ∧ (d = .up ∨ (ofRegex e).left? p = none) := by
  have hroot : (ofRegex e).kind? p = some .root ↔ p = root := (preordered e).kind_eq_root_iff
  cases hn : (ofRegex e).nodes[p]? with
  | none =>
    have hp : p ≠ root := by
      rw [← hroot.ne, kind?, hn]
      exact Option.some_ne_none _ ∘ Eq.symm
    simp [isTerminal, symbol?, hn, hp]
  | some n =>
    rw [kind?_eq hn, Option.some.injEq] at hroot
    rw [isTerminal_eq hn, left?_eq hn, ← hroot]
    obtain ⟨kind, left, right, parent, climb⟩ := n
    cases d with
    | up => simp [Node.isTerminal]
    | down => cases kind <;> simp [Node.isTerminal, symbol?, hn]

/-! ### Walks -/

/-- A walk from a stack of pending steps, top first. The top is passed over if it has been taken before.
Otherwise its node is collected if reading comes to rest there, and what follows it is pushed if not. -/
inductive Walks (t : SyntaxTree) : List Step → List Step → Composition → Composition → Prop
  | done {seen : List Step} {c : Composition} : Walks t [] seen c c
  | again {a : Step} {pending seen : List Step} {c r : Composition} (h : a ∈ seen)
      (hr : Walks t pending seen c r) : Walks t (a :: pending) seen c r
  | rest {id : NodeId} {d : Direction} {n : Node} {pending seen : List Step} {c r : Composition}
      (h : (id, d) ∉ seen) (hn : t.nodes[id]? = some n) (ht : n.isTerminal d = true)
      (hr : Walks t pending (seen ++ [(id, d)]) (c.insert id) r) : Walks t ((id, d) :: pending) seen c r
  | follow {id : NodeId} {d : Direction} {n : Node} {pending seen : List Step} {c r : Composition}
      (h : (id, d) ∉ seen) (hn : t.nodes[id]? = some n) (ht : n.isTerminal d = false)
      (hr : Walks t ((n.steps d).reverse ++ pending) (seen ++ [(id, d)]) c r) :
      Walks t ((id, d) :: pending) seen c r

/-- The steps at the nodes of the tree. -/
def allSteps (t : SyntaxTree) : List Step := t.ids.flatMap fun id => [(id, .up), (id, .down)]

theorem mem_allSteps : a ∈ t.allSteps ↔ a.1 < t.size := by
  obtain ⟨id, d⟩ := a
  cases d <;> simp [allSteps, ids]

/-- A walk comes to an end if the tree has the nodes of all pending steps, and steps do not leave it. -/
theorem exists_walks (ht : ∀ a b, b ∈ t.steps a → b.1 < t.size) (hp : ∀ a ∈ pending, a.1 < t.size)
    (seen : List Step) (c : Composition) : ∃ r, t.Walks pending seen c r := by
  -- fewer steps are left to take, or as many and fewer are pending
  induction hm : unseen t.allSteps seen using Nat.strong_induction_on
    generalizing pending seen c with
  | _ m ih =>
    induction pending with
    | nil => exact ⟨c, .done⟩
    | cons a pending ihp =>
      obtain ⟨id, d⟩ := a
      have hid : id < t.size := hp (id, d) List.mem_cons_self
      have hrest : ∀ b ∈ pending, b.1 < t.size := fun b hb => hp b (List.mem_cons_of_mem _ hb)
      by_cases hseen : (id, d) ∈ seen
      · exact (ihp hrest).imp fun r hr => .again hseen hr
      · have hn : t.nodes[id]? = some t.nodes[id] := Array.getElem?_eq_getElem hid
        have hless : unseen t.allSteps (seen ++ [(id, d)]) < m :=
          hm ▸ unseen_concat_lt (mem_allSteps.2 hid) hseen
        cases hrests : t.nodes[id].isTerminal d with
        | true => exact (ih _ hless hrest _ _ rfl).imp fun r hr => .rest hseen hn hrests hr
        | false =>
          have hnext : ∀ b ∈ (t.nodes[id].steps d).reverse ++ pending, b.1 < t.size := by
            intro b hb
            rcases List.mem_append.1 hb with hb | hb
            · refine ht (id, d) b ?_
              rw [steps, hn]
              exact List.mem_reverse.1 hb
            · exact hrest b hb
          exact (ih _ hless hnext _ _ rfl).imp fun r hr => .follow hseen hn hrests hr

/-- The steps taken are closed under what follows them, but for what is pending, and what is collected is
where they came to rest. -/
structure Tracks (t : SyntaxTree) (pending seen : List Step) (c : Composition) : Prop where
  closed {a b : Step} : a ∈ seen → b ∈ t.steps a → b ∈ seen ∨ b ∈ pending
  collected {p : NodeId} : p ∈ c ↔ ∃ d, (p, d) ∈ seen ∧ t.isTerminal (p, d) = true

/-- Moves from a step lead to rest at the node. -/
def RestsAt (t : SyntaxTree) (a : Step) (p : NodeId) : Prop :=
  ∃ d, Reaches t.steps a (p, d) ∧ t.isTerminal (p, d) = true

theorem tracks_start (t : SyntaxTree) (starts : List Step) : t.Tracks starts [] ∅ where
  closed h := by cases h
  collected := by simp

theorem Tracks.again (h : t.Tracks (a :: pending) seen c) (ha : a ∈ seen) : t.Tracks pending seen c where
  closed hb hn := by
    rcases h.closed hb hn with hs | hp
    · exact .inl hs
    · rcases List.mem_cons.1 hp with rfl | hp
      · exact .inl ha
      · exact .inr hp
  collected := h.collected

theorem Tracks.take (h : t.Tracks (a :: pending) seen c) (hc : ∀ p, p ∈ r ↔ p ∈ c ∨ p = a.1 ∧ t.isTerminal a = true)
    (hnext : ∀ b ∈ t.steps a, b ∈ more) : t.Tracks (more ++ pending) (seen ++ [a]) r where
  closed {a' b} ha' hb := by
    rw [List.mem_append, List.mem_singleton] at ha'
    rw [List.mem_append, List.mem_singleton, List.mem_append]
    rcases ha' with ha' | rfl
    · rcases h.closed ha' hb with hs | hp
      · exact .inl (.inl hs)
      · rcases List.mem_cons.1 hp with rfl | hp
        · exact .inl (.inr rfl)
        · exact .inr (.inr hp)
    · exact .inr (.inl (hnext b hb))
  collected {p} := by
    obtain ⟨id, d⟩ := a
    rw [hc, h.collected]
    simp only [List.mem_append, List.mem_singleton, Prod.mk.injEq]
    constructor
    · rintro (⟨d', hs, ht⟩ | ⟨rfl, ht⟩)
      · exact ⟨d', .inl hs, ht⟩
      · exact ⟨d, .inr ⟨rfl, rfl⟩, ht⟩
    · rintro ⟨d', hs | ⟨rfl, rfl⟩, ht⟩
      · exact .inl ⟨d', hs, ht⟩
      · exact .inr ⟨rfl, ht⟩

theorem Tracks.mem_of_reaches (h : t.Tracks [] seen c) (ha : a ∈ seen) (hr : Reaches t.steps a b) :
    b ∈ seen := by
  induction hr with
  | refl => exact ha
  | step _ hm ih => exact (h.closed ih hm).resolve_right List.not_mem_nil

theorem RestsAt.head (hb : b ∈ t.steps a) (h : t.RestsAt b p) : t.RestsAt a p := by
  obtain ⟨d, hr, ht⟩ := h
  exact ⟨d, .head hb hr, ht⟩

/-- Taking a step and pushing what follows it loses nothing and adds nothing. -/
theorem exists_restsAt_take (hmore : ∀ b ∈ more, b ∈ t.steps a) :
    (∃ b, (b ∈ seen ++ [a] ∨ b ∈ more ++ pending) ∧ t.RestsAt b p) ↔
      ∃ b, (b ∈ seen ∨ b ∈ a :: pending) ∧ t.RestsAt b p := by
  simp only [List.mem_append, List.mem_cons, List.not_mem_nil, or_false]
  constructor
  · rintro ⟨b, (hs | rfl) | hm | hp, hb⟩
    · exact ⟨b, .inl hs, hb⟩
    · exact ⟨b, .inr (.inl rfl), hb⟩
    · exact ⟨a, .inr (.inl rfl), hb.head (hmore b hm)⟩
    · exact ⟨b, .inr (.inr hp), hb⟩
  · rintro ⟨b, hs | rfl | hp, hb⟩
    · exact ⟨b, .inl (.inl hs), hb⟩
    · exact ⟨b, .inl (.inr rfl), hb⟩
    · exact ⟨b, .inr (.inr hp), hb⟩

/-- A walk collects the nodes at which its steps, and those that they lead to, come to rest. -/
theorem Walks.mem_iff (hw : t.Walks pending seen c r) (h : t.Tracks pending seen c) (p : NodeId) :
    p ∈ r ↔ ∃ a, (a ∈ seen ∨ a ∈ pending) ∧ t.RestsAt a p := by
  induction hw with
  | done =>
    rw [h.collected]
    constructor
    · rintro ⟨d, hs, ht⟩
      exact ⟨(p, d), .inl hs, d, .refl, ht⟩
    · rintro ⟨a, ha, d, hr, ht⟩
      exact ⟨d, h.mem_of_reaches (ha.resolve_right List.not_mem_nil) hr, ht⟩
  | @again a pending seen c r ha _ ih =>
    rw [ih (h.again ha)]
    refine exists_congr fun b => and_congr_left fun _ => ?_
    have hseen : b = a → b ∈ seen := fun hb => hb ▸ ha
    rw [List.mem_cons, ← or_assoc, or_iff_left_of_imp hseen]
  | @rest id d n pending seen c r _ hn ht _ ih =>
    have hrests : t.isTerminal (id, d) = true := (isTerminal_eq hn).trans ht
    have hno : t.steps (id, d) = [] := t.next_eq_steps ▸ next_of_isTerminal hrests
    have htake : t.Tracks ([] ++ pending) (seen ++ [(id, d)]) (c.insert id) :=
      h.take (by simp [hrests, or_comm]) (by simp [hno])
    rw [ih htake]
    exact exists_restsAt_take fun b (hb : b ∈ []) => absurd hb List.not_mem_nil
  | @follow id d n pending seen c r _ hn ht _ ih =>
    have hgoes : t.isTerminal (id, d) = false := (isTerminal_eq hn).trans ht
    have hsteps : t.steps (id, d) = n.steps d := by rw [steps, hn]
    rw [ih (h.take (by simp [hgoes]) (by simp [hsteps]))]
    exact exists_restsAt_take (by simp [hsteps])

theorem mem_composition_iff_restsAt : p ∈ t.composition starts ↔ ∃ a ∈ starts, t.RestsAt a p := by
  rw [mem_composition, next_eq_steps]
  rfl

theorem Walks.eq_composition (hw : t.Walks starts.reverse [] ∅ r) : r = t.composition starts := by
  refine SortedSet.ext fun p => ?_
  rw [hw.mem_iff (t.tracks_start _), mem_composition_iff_restsAt]
  simp

theorem composition_congr {starts' : List Step} (h : ∀ a, a ∈ starts' ↔ a ∈ starts) :
    t.composition starts' = t.composition starts := by
  refine SortedSet.ext fun p => ?_
  simp only [mem_composition_iff_restsAt, h]

theorem composition_append (more : List Step) :
    t.composition (starts ++ more) = t.composition starts ∪ t.composition more := by
  refine SortedSet.ext fun p => ?_
  simp only [SortedSet.mem_union, mem_composition_iff_restsAt, List.mem_append, or_and_right, exists_or]

/-- In a parsed tree every walk from steps at its nodes comes to an end, and it collects the nodes at which
reading comes to rest when steps are followed from its starts. These do not depend on the order of the
starts or on how often one is given, and of two lists of starts they are those of either. -/
theorem walks_from_starts {source : List Char} (h : parse source = .ok t)
    (hs : ∀ a ∈ starts, a.1 < t.size) :
    (∀ c, t.Walks starts.reverse [] ∅ c ↔ c = t.composition starts) ∧
      (∀ p, p ∈ t.composition starts ↔
        ∃ a ∈ starts, ∃ d, Reaches t.steps a (p, d) ∧ t.isTerminal (p, d) = true) ∧
      (∀ p d, t.isTerminal (p, d) = true ↔ (∃ x, t.symbol? p = some x) ∧ d = .down ∨
        p = root ∧ (d = .up ∨ t.left? p = none)) ∧
      (∀ starts', (∀ a, a ∈ starts' ↔ a ∈ starts) → t.composition starts' = t.composition starts) ∧
      ∀ more, t.composition (starts ++ more) = t.composition starts ∪ t.composition more := by
  obtain ⟨e, rfl⟩ := exists_ofRegex_of_parse h
  refine ⟨fun c => ⟨Walks.eq_composition, ?_⟩, fun p => mem_composition_iff_restsAt,
    fun p d => isTerminal_iff, fun _ => composition_congr, composition_append⟩
  rintro rfl
  obtain ⟨r, hr⟩ := exists_walks (fun a b => lt_size_of_mem_steps)
    (fun a ha => hs a (List.mem_reverse.1 ha)) [] ∅
  exact hr.eq_composition ▸ hr

/-- A walk round the cycle of a star, from a step that is given twice. -/
theorem walks_from_starts_choices :
    ∃ t, parse "(a|b)*".toList = .ok t ∧
      (∀ a ∈ ([(3, .up), (1, .down), (3, .up)] : List Step), a.1 < t.size) ∧
      t.Walks [(3, .up), (1, .down), (3, .up)] [] ∅ (.ofList [0, 3, 4]) ∧
      t.composition [(3, .up), (1, .down), (3, .up)] = t.composition [(1, .down), (3, .up)] := by
  obtain ⟨t, h, hs, hc⟩ : ∃ t, parse "(a|b)*".toList = .ok t ∧
      (∀ a ∈ ([(3, .up), (1, .down), (3, .up)] : List Step), a.1 < t.size) ∧
      t.composition [(3, .up), (1, .down), (3, .up)] = .ofList [0, 3, 4] :=
    ⟨_, by cbv, by decide, by cbv⟩
  obtain ⟨hwalk, -, -, hcongr, -⟩ := walks_from_starts h hs
  exact ⟨t, h, hs, (hwalk _).2 hc.symm, (hcongr _ (by simp [or_comm])).symm⟩

end SyntaxTree

end RegularLanguages
