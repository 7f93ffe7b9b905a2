import RegularLanguages.Proofs.SyntaxTree.Walk
/-!
# Threads

A loop climbs from a node along the parents until it comes up from the left (`Climbs`). It finds the climb
that the layout has given to the node (`Stands.exists_climbs`), and that is the closest node with the whole
subtree on its left (`Climbs.closest`). In order the block of an expression is followed by its climb, and
ends where its right spine ends (`Stands.exists_slides`). So threads lead to the successor in order, and
from a union reading goes on behind the last node of its right spine (`threaded_of_parse`).
-/

namespace RegularLanguages

theorem Regex.inOrder_perm (e : Regex) (id : NodeId) : (e.inOrder id).Perm (List.range' id e.size) := by
  induction e generalizing id with
  | symbol x => exact .refl _
  | unary m e ih =>
    rw [inOrder, size, List.range'_succ]
    exact (List.perm_append_singleton id _).trans ((ih (id + 1)).cons id)
  | binary c l r ihl ihr =>
    rw [inOrder, size, List.range'_succ, ← List.range'_append_1]
    exact List.perm_middle.trans (((ihl _).append (ihr _)).cons id)

namespace SyntaxTree

variable (t : SyntaxTree)

def climb? (id : NodeId) : Option NodeId := t.nodes[id]?.bind Node.climb

def thread? (id : NodeId) : Option NodeId := t.nodes[id]?.bind Node.thread

/-- Climbing from a node along the parents leads to the first that is come to from the left. -/
inductive Climbs : NodeId → Option NodeId → Prop
  | top {c : NodeId} (h : t.parent? c = none) : Climbs c none
  | left {c p : NodeId} (h : t.parent? c = some p) (hl : t.left? p = some c) : Climbs c (some p)
  | right {c p : NodeId} {o : Option NodeId} (h : t.parent? c = some p) (hl : t.left? p ≠ some c)
      (hp : Climbs p o) : Climbs c o

/-- Sliding down from a node along the right children leads to the last of them. -/
inductive Slides : NodeId → NodeId → Prop
  | last {id : NodeId} (h : t.right? id = none) : Slides id id
  | right {id r last : NodeId} (h : t.right? id = some r) (hr : Slides r last) : Slides id last

/-- In order `q` comes right after `p`. -/
def Successor (p q : NodeId) : Prop := ∃ js, t.InOrder (some root) js ∧ [p, q] <:+: js

/-- The whole subtree of `q` is in the left subtree of `a`. -/
def OnLeft (a q : NodeId) : Prop := ∃ l, t.left? a = some l ∧ ∀ c, t.Below q c → t.Below l c

/-- All others that have the subtree of `q` on their left are above `a`. -/
structure ClosestOnLeft (a q : NodeId) : Prop where
  onLeft : t.OnLeft a q
  below {b : NodeId} : t.OnLeft b q → t.Below b a

/-- The thread of a node without a right child is what climbing from it leads to. But for the root it is
there, it is the successor of the node in order, and the closest node with the node on its left. Up into a
union reading goes on at the thread of the last node of its right spine. -/
structure Threaded : Prop where
  exists_inOrder : ∃ js, t.InOrder (some root) js ∧ js.Perm t.ids
  thread_root : t.thread? root = none
  thread_of_right {id r : NodeId} : t.right? id = some r → t.thread? id = none
  climbs_iff {id : NodeId} {o : Option NodeId} : id < t.size → t.right? id = none →
    (t.Climbs id o ↔ o = t.thread? id)
  exists_thread {id : NodeId} : id < t.size → id ≠ root → t.right? id = none → ∃ q,
    t.thread? id = some q ∧ (∀ k, t.Successor id k ↔ k = q) ∧ t.ClosestOnLeft q id
  steps_union {id : NodeId} : t.kind? id = some (.binary .union) → ∃ last q,
    (∀ k, t.Slides id k ↔ k = last) ∧ t.thread? last = some q ∧ (∀ k, t.Successor last k ↔ k = q) ∧
      t.ClosestOnLeft q id ∧ t.steps (id, .up) = [(q, .up)]

variable {t : SyntaxTree} {e : Regex} {node : Node} {id parent climb a c p q : Nat} {o o' : Option NodeId}
  {js : List NodeId}

theorem climb?_eq (h : t.nodes[id]? = some node) : t.climb? id = node.climb := by
  rw [climb?, h]
  rfl

theorem thread?_of_right (h : t.right? id = some q) : t.thread? id = none := by
  obtain ⟨node, hn, hr⟩ := Option.bind_eq_some_iff.1 h
  rw [thread?, hn, Option.bind_some, Node.thread, hr]
  rfl

theorem thread?_of_no_right (h : t.right? id = none) : t.thread? id = t.climb? id := by
  cases hn : t.nodes[id]? with
  | none => rw [thread?, climb?, hn]; rfl
  | some node =>
    rw [right?_eq hn] at h
    rw [thread?, climb?_eq hn, hn, Option.bind_some, Node.thread, h]
    rfl

/-! ### The loops -/

theorem Climbs.unique (h : t.Climbs c o) (h' : t.Climbs c o') : o = o' := by
  induction h with
  | top hp => cases h' <;> simp_all
  | left hp hl => cases h' <;> simp_all
  | right hp hl _ ih => cases h' <;> simp_all

theorem Slides.unique (h : t.Slides id p) (h' : t.Slides id q) : p = q := by
  induction h with
  | last hr => cases h' <;> simp_all
  | right hr _ ih => cases h' <;> simp_all

theorem Climbs.iff_eq (h : t.Climbs c o) : t.Climbs c o' ↔ o' = o :=
  ⟨fun h' => h'.unique h, fun heq => heq ▸ h⟩

theorem Slides.iff_eq (h : t.Slides id p) : t.Slides id q ↔ q = p :=
  ⟨fun h' => h'.unique h, fun heq => heq ▸ h⟩

theorem onLeft_iff : t.OnLeft a q ↔ ∃ l, t.left? a = some l ∧ t.Below l q :=
  exists_congr fun _ => and_congr_right fun _ => ⟨fun h => h q .refl, fun h _ => h.trans⟩

/-- What has a child in its subtree is the child or has the parent in its subtree. -/
theorem Preordered.below_cases (ht : t.Preordered) (hp : t.parent? c = some p) (h : t.Below a c) :
    c = a ∨ t.Below a p := by
  refine h.cases_tail.imp_right ?_
  rintro ⟨b, hb, hc⟩
  obtain rfl := Option.some.inj ((ht.parent_eq_iff.2 hc).symm.trans hp)
  exact hb

theorem Climbs.closest (ht : t.Preordered) (h : t.Climbs c o) (ho : o = some a) : t.ClosestOnLeft a c := by
  induction h with
  | top => cases ho
  | @left c p hp hl =>
    obtain rfl := Option.some.inj ho
    refine ⟨onLeft_iff.2 ⟨c, hl, .refl⟩, fun {b} hb => ?_⟩
    obtain ⟨l, hbl, hlc⟩ := onLeft_iff.1 hb
    have hchild : t.Child b l := .inl hbl
    rcases ht.below_cases hp hlc with rfl | hlp
    · obtain rfl := Option.some.inj ((ht.parent_eq_iff.2 hchild).symm.trans hp)
      exact .refl
    · exact .head hchild hlp
  | @right c p o hp hl _ ih =>
    obtain ⟨hon, hbelow⟩ := ih ho
    obtain ⟨l, hal, hlp⟩ := onLeft_iff.1 hon
    refine ⟨onLeft_iff.2 ⟨l, hal, hlp.tail (ht.parent_eq_iff.1 hp)⟩, fun {b} hb => ?_⟩
    obtain ⟨l', hbl, hlc⟩ := onLeft_iff.1 hb
    rcases ht.below_cases hp hlc with rfl | hlp'
    · -- the parent is come to from the right
      obtain rfl := Option.some.inj ((ht.parent_eq_iff.2 (.inl hbl)).symm.trans hp)
      exact absurd hbl hl
    · exact hbelow (onLeft_iff.2 ⟨l', hbl, hlp'⟩)

/-! ### Blocks and their climbs -/

namespace Stands

theorem climb?_eq_some (h : t.Stands e id parent climb) : t.climb? id = some climb := by
  cases e with
  | symbol x => rw [climb?_eq h.symbol]
  | unary m e => rw [climb?_eq h.unary.1]
  | binary c l r => rw [climb?_eq h.binary.1]

/-- The last node on the right spine of a block is the last in order, and its thread is the climb of the
block. -/
theorem exists_slides (h : t.Stands e id parent climb) :
    ∃ last, t.Slides id last ∧ [last] <:+ e.inOrder id ∧ t.right? last = none ∧
      t.climb? last = some climb := by
  induction e generalizing id parent climb with
  | symbol x =>
    have hr : t.right? id = none := right?_eq h.symbol
    exact ⟨id, .last hr, List.suffix_refl _, hr, h.climb?_eq_some⟩
  | unary m e =>
    have hr : t.right? id = none := right?_eq h.unary.1
    exact ⟨id, .last hr, List.suffix_append _ _, hr, h.climb?_eq_some⟩
  | binary c l r _ ihr =>
    obtain ⟨hn, -, hr⟩ := h.binary
    obtain ⟨last, hslides, hsuffix, hlast⟩ := ihr hr
    refine ⟨last, .right (right?_eq hn) hslides, hsuffix.trans ?_, hlast⟩
    exact (List.suffix_cons id _).trans (List.suffix_append _ _)

/-- At each node of a block stands an expression. Climbing from there leads to its climb, which follows it
in order. -/
theorem exists_climbs (h : t.Stands e id parent climb) (hc : t.Climbs id (some climb)) (hle : id ≤ q)
    (hlt : q < id + e.size) : ∃ e' p c, t.Stands e' q p c ∧ t.Climbs q (some c) ∧
      e'.inOrder q ++ [c] <:+: e.inOrder id ++ [climb] := by
  refine h.exists_stands
    (P := fun e' q _ c => t.Climbs q (some c) ∧ e'.inOrder q ++ [c] <:+: e.inOrder id ++ [climb])
    ⟨hc, List.infix_refl _⟩ ?_ ?_ ?_ hle hlt
  · rintro m e i p c h ⟨-, hin⟩
    obtain ⟨hn, he⟩ := h.unary
    exact ⟨.left he.parent?_eq_some (left?_eq hn), (List.prefix_append _ [c]).isInfix.trans hin⟩
  · rintro d l r i p c h ⟨-, hin⟩
    obtain ⟨hn, hl, -⟩ := h.binary
    refine ⟨.left hl.parent?_eq_some (left?_eq hn), List.IsInfix.trans ?_ hin⟩
    exact ⟨[], r.inOrder (i + 1 + l.size) ++ [c], by simp [Regex.inOrder]⟩
  · rintro d l r i p c h ⟨hc, hin⟩
    obtain ⟨hn, -, hr⟩ := h.binary
    have hnot : t.left? i ≠ some (i + 1 + l.size) := by
      rw [left?_eq hn]
      exact fun heq => absurd (Option.some.inj heq) (Nat.ne_of_lt (Nat.lt_add_of_pos_right l.size_pos))
    refine ⟨.right hr.parent?_eq_some hnot hc, List.IsInfix.trans ?_ hin⟩
    exact ⟨l.inOrder (i + 1) ++ [i], [], by simp [Regex.inOrder]⟩

end Stands

/-! ### The order of a whole tree -/

theorem Successor.unique (hjs : t.InOrder (some root) js) (hnd : js.Nodup) (hp : t.Successor c p)
    (hq : t.Successor c q) : p = q := by
  obtain ⟨_, hp, us, vs, rfl⟩ := hp
  obtain ⟨_, hq, us', vs', heq⟩ := hq
  obtain rfl := hjs.unique hp
  obtain rfl := hq.unique hp
  rw [List.append_assoc, List.append_assoc] at heq
  rw [List.append_assoc] at hnd
  obtain ⟨-, hc, hdisj⟩ := List.nodup_append.1 hnd
  have hus : c ∉ us := fun hmem => hdisj c hmem c List.mem_cons_self rfl
  obtain ⟨-, -, htail⟩ := (List.append_cons_inj_of_notMem hus (List.nodup_cons.1 hc).1).1 heq.symm
  exact (List.cons.inj htail).1

theorem perm_ids_ofRegex (e : Regex) : (e.inOrder 1 ++ [root]).Perm (ofRegex (some e)).ids := by
  rw [ids, size_ofRegex, List.range_eq_range', List.range'_succ]
  exact (List.perm_append_singleton root _).trans ((e.inOrder_perm 1).cons root)

theorem nodup_inOrder_ofRegex (e : Regex) : (e.inOrder 1 ++ [root]).Nodup :=
  (perm_ids_ofRegex e).nodup_iff.2 List.nodup_range

theorem climbs_ofRegex (e : Regex) : (ofRegex (some e)).Climbs 1 (some root) :=
  .left (stands_ofRegex e).parent?_eq_some rfl

/-- Below the root a block is followed by its climb, which is the thread of its last node in order. -/
theorem exists_climbs_ofRegex (hid : id < (ofRegex (some e)).size) (h0 : id ≠ root) :
    ∃ e' p c last, (ofRegex (some e)).Stands e' id p c ∧ (ofRegex (some e)).Climbs id (some c) ∧
      (∀ k, (ofRegex (some e)).Slides id k ↔ k = last) ∧ (ofRegex (some e)).thread? last = some c ∧
      ∀ k, (ofRegex (some e)).Successor last k ↔ k = c := by
  rw [size_ofRegex, Nat.add_comm] at hid
  obtain ⟨e', p, c, he, hc, hin⟩ :=
    (stands_ofRegex e).exists_climbs (climbs_ofRegex e) (Nat.one_le_iff_ne_zero.2 h0) hid
  obtain ⟨last, hslides, ⟨us, hus⟩, hright, hlast⟩ := he.exists_slides
  have hsucc : (ofRegex (some e)).Successor last c := by
    refine ⟨_, inOrder_ofRegex e, List.IsInfix.trans ⟨us, [], ?_⟩ hin⟩
    rw [← hus, List.append_nil, List.append_assoc]
    rfl
  refine ⟨e', p, c, last, he, hc, fun k => hslides.iff_eq, (thread?_of_no_right hright).trans hlast,
    fun k => ⟨fun hk => ?_, fun hk => hk ▸ hsucc⟩⟩
  exact hk.unique (inOrder_ofRegex e) (nodup_inOrder_ofRegex e) hsucc

theorem threaded_ofRegex (e : Regex) : (ofRegex (some e)).Threaded where
  exists_inOrder := ⟨_, inOrder_ofRegex e, perm_ids_ofRegex e⟩
  thread_root := rfl
  thread_of_right := thread?_of_right
  climbs_iff {id o} hid hright := by
    rw [thread?_of_no_right hright]
    by_cases h0 : id = root
    · subst h0
      exact Climbs.iff_eq (.top rfl)
    · obtain ⟨e', p, c, -, he, hc, -⟩ := exists_climbs_ofRegex hid h0
      rw [he.climb?_eq_some]
      exact hc.iff_eq
  exists_thread {id} hid h0 hright := by
    obtain ⟨e', p, c, last, -, hc, hslides, hthread, hsucc⟩ := exists_climbs_ofRegex hid h0
    obtain rfl := (hslides id).1 (.last hright)
    exact ⟨c, hthread, hsucc, hc.closest (preordered_ofRegex e) rfl⟩
  steps_union {id} hk := by
    have h0 : id ≠ root := by
      rintro rfl
      cases hk
    obtain ⟨e', p, c, last, he, hc, hslides, hthread, hsucc⟩ :=
      exists_climbs_ofRegex (lt_size_of_kind? hk) h0
    refine ⟨last, c, hslides, hthread, hsucc, hc.closest (preordered_ofRegex e) rfl, ?_⟩
    cases e' with
    | symbol x => rw [kind?_eq he.symbol] at hk; cases hk
    | unary m e' => rw [kind?_eq he.unary.1] at hk; cases hk
    | binary d l r =>
      obtain ⟨hn, -⟩ := he.binary
      rw [kind?_eq hn] at hk
      cases hk
      rw [steps, hn]
      rfl

theorem threaded_empty : (ofRegex none).Threaded where
  exists_inOrder := ⟨[] ++ [root], .some Nat.one_pos .none .none, .refl _⟩
  thread_root := rfl
  thread_of_right := thread?_of_right
  climbs_iff {id o} hid _ := by
    obtain rfl : id = root := Nat.lt_one_iff.1 hid
    exact Climbs.iff_eq (.top rfl)
  exists_thread hid h0 := absurd (Nat.lt_one_iff.1 hid) h0
  steps_union {id} hk := by
    obtain rfl : id = root := Nat.lt_one_iff.1 (lt_size_of_kind? hk)
    cases hk

/-- In a parsed tree every node without a right child, but for the root, has a thread, which leads to its
successor in order; the root and the nodes with a right child have none. From a union the one step up leads
to the successor of the last node of its right spine, the closest node that has the union on its left. -/
theorem threaded_of_parse {source : List Char} (h : parse source = .ok t) : t.Threaded := by
  obtain ⟨e, rfl⟩ := exists_ofRegex_of_parse h
  cases e with
  | none => exact threaded_empty
  | some e => exact threaded_ofRegex e

/-- The right spine of the union, node 2, leads over a concatenation to the star, node 6. -/
theorem threaded_of_parse_nested :
    ∃ t, parse "(a|bc*)d".toList = .ok t ∧ t.Climbs 6 (some 1) ∧ t.Successor 6 1 ∧ t.Slides 2 6 ∧
      t.steps (2, .up) = [(1, .up)] ∧ t.ClosestOnLeft 1 2 := by
  obtain ⟨t, h, hsize, hright, hright₂, hright₄, hthread, hunion⟩ : ∃ t, parse "(a|bc*)d".toList = .ok t ∧
      t.size = 9 ∧ t.right? 6 = none ∧ t.right? 2 = some 4 ∧ t.right? 4 = some 6 ∧
      t.thread? 6 = some 1 ∧ t.kind? 2 = some (.binary .union) :=
    ⟨_, by cbv, by decide, by decide, by decide, by decide, by decide, by decide⟩
  have ht := threaded_of_parse h
  have hslides : t.Slides 2 6 := .right hright₂ (.right hright₄ (.last hright))
  obtain ⟨last, q, hlast, hq, hsucc, hclosest, hsteps⟩ := ht.steps_union hunion
  obtain rfl := (hlast 6).1 hslides
  obtain rfl := Option.some.inj (hthread.symm.trans hq)
  have hclimbs : t.Climbs 6 (some 1) := (ht.climbs_iff (by rw [hsize]; decide) hright).2 hthread.symm
  exact ⟨t, h, hclimbs, (hsucc 1).2 rfl, hslides, hsteps, hclosest⟩

end SyntaxTree

end RegularLanguages
