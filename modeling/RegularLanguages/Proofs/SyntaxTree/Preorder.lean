import Mathlib
import RegularLanguages.Proofs.Recognizer
import RegularLanguages.Proofs.SyntaxTree.Continuations
/-!
# Trees in preorder

Every node of a tree other than the root is where some subexpression stands, and is linked from its parent
(`exists_stands_ofRegex`). So links and parents agree, and the nodes of a subtree are a block
(`Stands.below`): the tree is numbered in preorder (`preordered_ofRegex`). In order its nodes spell the
expression again, without its parentheses (`parse_preordered`).
-/

namespace RegularLanguages

/-- The children that a node of each kind has. -/
def NodeKind.Takes (left right : Option NodeId) : NodeKind → Prop
  | root => right = none
  | symbol _ => left = none ∧ right = none
  | unary _ => left.isSome ∧ right = none
  | binary _ => left.isSome ∧ right.isSome

namespace Regex

/-- An expression without its parentheses. -/
def bare (expr : List Char) : List Char := expr.filter fun c => c ≠ '(' ∧ c ≠ ')'

theorem bare_append (u v : List Char) : bare (u ++ v) = bare u ++ bare v := List.filter_append u v

theorem bare_cons {c : Char} (hopen : c ≠ '(') (hclose : c ≠ ')') (u : List Char) :
    bare (c :: u) = c :: bare u :=
  List.filter_cons_of_pos (by simp [hopen, hclose])

/-- The characters of the nodes in order. -/
def chars : Regex → List Char
  | symbol x => [x.char]
  | unary m e => e.chars ++ [m.char]
  | binary c l r => l.chars ++ c.char :: r.chars

/-- The nodes in order, when the first of them in preorder is `id`. -/
def inOrder (id : NodeId) : Regex → List NodeId
  | symbol _ => [id]
  | unary _ e => e.inOrder (id + 1) ++ [id]
  | binary _ l r => l.inOrder (id + 1) ++ id :: r.inOrder (id + 1 + l.size)

theorem size_pos (e : Regex) : 0 < e.size := by
  cases e <;> exact Nat.succ_pos _

theorem length_chars (e : Regex) : e.chars.length = e.size := by
  induction e with
  | symbol x => rfl
  | unary m e ih => rw [chars, List.length_append, ih, size, List.length_singleton]
  | binary c l r ihl ihr =>
    rw [chars, List.length_append, List.length_cons, ihl, ihr, size, Nat.add_assoc]

end Regex

namespace SyntaxTree

variable (t : SyntaxTree)

def kind? (id : NodeId) : Option NodeKind := t.nodes[id]?.map Node.kind

def left? (id : NodeId) : Option NodeId := t.nodes[id]?.bind Node.left

def right? (id : NodeId) : Option NodeId := t.nodes[id]?.bind Node.right

def parent? (id : NodeId) : Option NodeId := t.nodes[id]?.bind Node.parent

def char? (id : NodeId) : Option Char := (t.kind? id).map NodeKind.char

def isLeaf (id : NodeId) : Bool := (t.symbol? id).isSome

def Child (p c : NodeId) : Prop := t.left? p = some c ∨ t.right? p = some c

/-- `q` is in the subtree of `p`. -/
def Below (p q : NodeId) : Prop := Relation.ReflTransGen t.Child p q

/-- The nodes of a subtree in order: those on the left, the node itself, those on the right. -/
inductive InOrder : Option NodeId → List NodeId → Prop
  | none : InOrder none []
  | some {id : NodeId} {us vs : List NodeId} (h : id < t.size) (hl : InOrder (t.left? id) us)
      (hr : InOrder (t.right? id) vs) : InOrder (some id) (us ++ id :: vs)

/-- Each node but the root has one parent, and one link leads to it, from there. Nodes are numbered before
their children, and those on the left before those on the right. -/
structure Preordered (t : SyntaxTree) : Prop where
  kind_eq_root_iff {id : NodeId} : t.kind? id = some .root ↔ id = root
  parent_root : t.parent? root = none
  exists_parent {id : NodeId} : id < t.size → id ≠ root → ∃ p, t.parent? id = some p
  parent_eq_iff {p c : NodeId} : t.parent? c = some p ↔ t.Child p c
  left_ne_right {p c : NodeId} : t.left? p = some c → t.right? p ≠ some c
  takes {id : NodeId} {k : NodeKind} : t.kind? id = some k → k.Takes (t.left? id) (t.right? id)
  lt_left {id l q : NodeId} : t.left? id = some l → t.Below l q → id < q
  left_lt_right {id l r p q : NodeId} : t.left? id = some l → t.right? id = some r →
    t.Below l p → t.Below r q → p < q

variable {t : SyntaxTree} {e : Regex} {node : Node} {id parent climb p q c : Nat} {us vs : List NodeId}

theorem kind?_eq (h : t.nodes[id]? = some node) : t.kind? id = some node.kind := by
  rw [kind?, h]
  rfl

theorem left?_eq (h : t.nodes[id]? = some node) : t.left? id = node.left := by
  rw [left?, h]
  rfl

theorem right?_eq (h : t.nodes[id]? = some node) : t.right? id = node.right := by
  rw [right?, h]
  rfl

theorem parent?_eq (h : t.nodes[id]? = some node) : t.parent? id = node.parent := by
  rw [parent?, h]
  rfl

theorem char?_eq (h : t.nodes[id]? = some node) : t.char? id = some node.kind.char := by
  rw [char?, kind?_eq h]
  rfl

theorem lt_size_of_node (h : t.nodes[id]? = some node) : id < t.size :=
  (Array.getElem?_eq_some_iff.1 h).1

theorem lt_size_of_bind {f : Node → Option NodeId} (h : t.nodes[id]?.bind f = some c) : id < t.size := by
  obtain ⟨node, hn, -⟩ := Option.bind_eq_some_iff.1 h
  exact lt_size_of_node hn

theorem lt_size_of_kind? {k : NodeKind} (h : t.kind? id = some k) : id < t.size := by
  obtain ⟨node, hn, -⟩ := Option.map_eq_some_iff.1 h
  exact lt_size_of_node hn

/-! ### Where subexpressions stand -/

namespace Stands

theorem exists_node (h : t.Stands e id parent climb) : ∃ node, t.nodes[id]? = some node ∧
    node.parent = some parent ∧ node.kind ≠ .root ∧ node.kind.Takes node.left node.right := by
  cases e with
  | symbol x => exact ⟨_, h.symbol, rfl, nofun, rfl, rfl⟩
  | unary m e => exact ⟨_, h.unary.1, rfl, nofun, rfl, rfl⟩
  | binary c l r => exact ⟨_, h.binary.1, rfl, nofun, rfl, rfl⟩

theorem parent?_eq_some (h : t.Stands e id parent climb) : t.parent? id = some parent := by
  obtain ⟨node, hn, hp, -⟩ := h.exists_node
  rw [parent?_eq hn, hp]

theorem kind?_ne_root (h : t.Stands e id parent climb) : t.kind? id ≠ some .root := by
  obtain ⟨node, hn, -, hroot, -⟩ := h.exists_node
  rw [kind?_eq hn]
  exact fun hk => hroot (Option.some.inj hk)

theorem takes {k : NodeKind} (h : t.Stands e id parent climb) (hk : t.kind? id = some k) :
    k.Takes (t.left? id) (t.right? id) := by
  obtain ⟨node, hn, -, -, htakes⟩ := h.exists_node
  obtain rfl := Option.some.inj ((kind?_eq hn).symm.trans hk)
  rwa [left?_eq hn, right?_eq hn]

/-- On the left stands an operand, next to the node and before the operand on the right. -/
theorem left (h : t.Stands e id parent climb) (hl : t.left? id = some c) :
    ∃ e' climb', t.Stands e' c id climb' ∧ id < c ∧ c + e'.size ≤ id + e.size ∧
      ∀ r, t.right? id = some r → c + e'.size ≤ r := by
  cases e with
  | symbol x =>
    rw [left?_eq h.symbol] at hl
    cases hl
  | unary m e =>
    obtain ⟨hn, he⟩ := h.unary
    obtain rfl : id + 1 = c := Option.some.inj ((left?_eq hn).symm.trans hl)
    refine ⟨e, id, he, Nat.lt_succ_self id, ?_, fun r hr => ?_⟩
    · rw [Regex.size]
      omega
    · rw [right?_eq hn] at hr
      cases hr
  | binary d l r =>
    obtain ⟨hn, he, -⟩ := h.binary
    obtain rfl : id + 1 = c := Option.some.inj ((left?_eq hn).symm.trans hl)
    refine ⟨l, id, he, Nat.lt_succ_self id, ?_, fun s hs => ?_⟩
    · rw [Regex.size]
      omega
    · exact Nat.le_of_eq (Option.some.inj ((right?_eq hn).symm.trans hs))

theorem right (h : t.Stands e id parent climb) (hr : t.right? id = some c) :
    ∃ e' climb', t.Stands e' c id climb' ∧ id < c ∧ c + e'.size ≤ id + e.size := by
  cases e with
  | symbol x =>
    rw [right?_eq h.symbol] at hr
    cases hr
  | unary m e =>
    rw [right?_eq h.unary.1] at hr
    cases hr
  | binary d l r =>
    obtain ⟨hn, -, he⟩ := h.binary
    obtain rfl : id + 1 + l.size = c := Option.some.inj ((right?_eq hn).symm.trans hr)
    refine ⟨r, climb, he, by omega, ?_⟩
    rw [Regex.size]
    omega

theorem child (h : t.Stands e id parent climb) (hc : t.Child id c) :
    ∃ e' climb', t.Stands e' c id climb' ∧ id < c ∧ c + e'.size ≤ id + e.size := by
  rcases hc with hl | hr
  · obtain ⟨e', climb', he, hlt, hle, -⟩ := h.left hl
    exact ⟨e', climb', he, hlt, hle⟩
  · exact h.right hr

/-- The nodes of a subtree are in the block of its expression. -/
theorem below (h : t.Stands e id parent climb) (hb : t.Below id q) : id ≤ q ∧ q < id + e.size := by
  induction hb using Relation.ReflTransGen.head_induction_on generalizing e parent climb with
  | refl => exact ⟨Nat.le_refl q, Nat.lt_add_of_pos_right e.size_pos⟩
  | head hc _ ih =>
    obtain ⟨e', climb', he, hlt, hle⟩ := h.child hc
    have := ih he
    omega

/-- What the operands take over from an expression, with where they stand, is so at each node of its block,
for the expression that stands there. -/
theorem exists_stands {P : Regex → NodeId → NodeId → NodeId → Prop} (h : t.Stands e id parent climb)
    (hP : P e id parent climb)
    (hunary : ∀ {m e id parent climb}, t.Stands (.unary m e) id parent climb →
      P (.unary m e) id parent climb → P e (id + 1) id id)
    (hleft : ∀ {c l r id parent climb}, t.Stands (.binary c l r) id parent climb →
      P (.binary c l r) id parent climb → P l (id + 1) id id)
    (hright : ∀ {c l r id parent climb}, t.Stands (.binary c l r) id parent climb →
      P (.binary c l r) id parent climb → P r (id + 1 + l.size) id climb)
    (hle : id ≤ q) (hlt : q < id + e.size) :
    ∃ e' parent' climb', t.Stands e' q parent' climb' ∧ P e' q parent' climb' := by
  induction e generalizing id parent climb with
  | symbol x =>
    rw [Regex.size] at hlt
    obtain rfl : q = id := by omega
    exact ⟨_, _, _, h, hP⟩
  | unary m e ih =>
    rw [Regex.size] at hlt
    rcases Nat.eq_or_lt_of_le hle with rfl | hid
    · exact ⟨_, _, _, h, hP⟩
    · exact ih h.unary.2 (hunary h hP) hid (by omega)
  | binary c l r ihl ihr =>
    rw [Regex.size] at hlt
    rcases Nat.eq_or_lt_of_le hle with rfl | hid
    · exact ⟨_, _, _, h, hP⟩
    rcases Nat.lt_or_ge q (id + 1 + l.size) with hq | hq
    · exact ihl h.binary.2.1 (hleft h hP) hid hq
    · exact ihr h.binary.2.2 (hright h hP) hq (by omega)

end Stands

/-! ### The whole tree -/

theorem size_ofRegex (e : Regex) : (ofRegex (some e)).size = e.size + 1 := by
  simp [size, ofRegex, length_layout]

/-- At each node below the root stands an expression, linked from its parent. -/
theorem exists_stands_ofRegex (hq : q < (ofRegex (some e)).size) (h0 : q ≠ root) :
    ∃ e' p climb, (ofRegex (some e)).Stands e' q p climb ∧ (ofRegex (some e)).Child p q := by
  rw [size_ofRegex, Nat.add_comm] at hq
  refine (stands_ofRegex e).exists_stands (P := fun _ q p _ => (ofRegex (some e)).Child p q) (.inl rfl)
    ?_ ?_ ?_ (Nat.one_le_iff_ne_zero.2 h0) hq
  · exact fun h _ => .inl (left?_eq h.unary.1)
  · exact fun h _ => .inl (left?_eq h.binary.1)
  · exact fun h _ => .inr (right?_eq h.binary.1)

theorem left_ofRegex (h : (ofRegex (some e)).left? p = some c) :
    ∃ e' climb, (ofRegex (some e)).Stands e' c p climb ∧ p < c ∧
      ∀ r, (ofRegex (some e)).right? p = some r → c + e'.size ≤ r := by
  by_cases h0 : p = root
  · subst h0
    obtain rfl := Option.some.inj h
    exact ⟨e, 0, stands_ofRegex e, Nat.one_pos, nofun⟩
  · obtain ⟨e', q, climb, he, -⟩ := exists_stands_ofRegex (lt_size_of_bind h) h0
    obtain ⟨l, climb', hl, hlt, -, hright⟩ := he.left h
    exact ⟨l, climb', hl, hlt, hright⟩

theorem right_ofRegex (h : (ofRegex (some e)).right? p = some c) :
    ∃ e' climb, (ofRegex (some e)).Stands e' c p climb := by
  have h0 : p ≠ root := by
    rintro rfl
    cases h
  obtain ⟨e', q, climb, he, -⟩ := exists_stands_ofRegex (lt_size_of_bind h) h0
  obtain ⟨r, climb', hr, -⟩ := he.right h
  exact ⟨r, climb', hr⟩

theorem preordered_ofRegex (e : Regex) : (ofRegex (some e)).Preordered where
  kind_eq_root_iff {id} := by
    constructor
    · intro hk
      by_contra h0
      obtain ⟨e', p, climb, he, -⟩ := exists_stands_ofRegex (lt_size_of_kind? hk) h0
      exact he.kind?_ne_root hk
    · rintro rfl
      rfl
  parent_root := rfl
  exists_parent h h0 := by
    obtain ⟨e', p, climb, he, -⟩ := exists_stands_ofRegex h h0
    exact ⟨p, he.parent?_eq_some⟩
  parent_eq_iff {p c} := by
    constructor
    · intro hp
      have h0 : c ≠ root := by
        rintro rfl
        cases hp
      obtain ⟨e', p', climb, he, hc⟩ := exists_stands_ofRegex (lt_size_of_bind hp) h0
      rwa [Option.some.inj (hp.symm.trans he.parent?_eq_some)]
    · rintro (hl | hr)
      · obtain ⟨e', climb, he, -⟩ := left_ofRegex hl
        exact he.parent?_eq_some
      · obtain ⟨e', climb, he⟩ := right_ofRegex hr
        exact he.parent?_eq_some
  left_ne_right hl hr := by
    obtain ⟨e', -, -, -, hle⟩ := left_ofRegex hl
    exact absurd (hle _ hr) (Nat.not_le_of_lt (Nat.lt_add_of_pos_right e'.size_pos))
  takes {id k} hk := by
    by_cases h0 : id = root
    · subst h0
      obtain rfl := Option.some.inj hk
      rfl
    · obtain ⟨e', p, climb, he, -⟩ := exists_stands_ofRegex (lt_size_of_kind? hk) h0
      exact he.takes hk
  lt_left hl hq := by
    obtain ⟨e', climb, he, hlt, -⟩ := left_ofRegex hl
    exact Nat.lt_of_lt_of_le hlt (he.below hq).1
  left_lt_right hl hr hp hq := by
    obtain ⟨e₁, climb₁, he₁, -, hle⟩ := left_ofRegex hl
    obtain ⟨e₂, climb₂, he₂⟩ := right_ofRegex hr
    calc _ < _ + e₁.size := (he₁.below hp).2
      _ ≤ _ := hle _ hr
      _ ≤ _ := (he₂.below hq).1

theorem not_child_empty : ¬ (ofRegex none).Child p c := by
  rintro (h | h) <;> rcases p with _ | p <;> cases h

theorem preordered_empty : (ofRegex none).Preordered where
  kind_eq_root_iff {id} := by rcases id with _ | id <;> simp [kind?, ofRegex, root]
  parent_root := rfl
  exists_parent h h0 := absurd (Nat.lt_one_iff.1 h) h0
  parent_eq_iff {p c} := by
    refine ⟨fun h => ?_, fun h => absurd h not_child_empty⟩
    rcases c with _ | c <;> cases h
  left_ne_right h := absurd (.inl h) not_child_empty
  takes {id k} hk := by
    rcases id with _ | id
    · obtain rfl := Option.some.inj hk
      rfl
    · cases hk
  lt_left h := absurd (.inl h) not_child_empty
  left_lt_right h := absurd (.inl h) not_child_empty

/-! ### In order -/

theorem InOrder.unique {o : Option NodeId} (hu : t.InOrder o us) (hv : t.InOrder o vs) : us = vs := by
  induction hu generalizing vs with
  | none =>
    cases hv
    rfl
  | some _ _ _ ihl ihr =>
    cases hv with
    | some _ hl hr => rw [ihl hl, ihr hr]

namespace Stands

theorem inOrder (h : t.Stands e id parent climb) : t.InOrder (some id) (e.inOrder id) := by
  induction e generalizing id parent climb with
  | symbol x =>
    have hn := h.symbol
    show t.InOrder (some id) ([] ++ id :: [])
    refine .some (lt_size_of_node hn) ?_ ?_
    · rw [left?_eq hn]
      exact .none
    · rw [right?_eq hn]
      exact .none
  | unary m e ih =>
    obtain ⟨hn, he⟩ := h.unary
    show t.InOrder (some id) (e.inOrder (id + 1) ++ id :: [])
    refine .some (lt_size_of_node hn) ?_ ?_
    · rw [left?_eq hn]
      exact ih he
    · rw [right?_eq hn]
      exact .none
  | binary c l r ihl ihr =>
    obtain ⟨hn, hl, hr⟩ := h.binary
    refine .some (lt_size_of_node hn) ?_ ?_
    · rw [left?_eq hn]
      exact ihl hl
    · rw [right?_eq hn]
      exact ihr hr

theorem map_char?_inOrder (h : t.Stands e id parent climb) :
    (e.inOrder id).map t.char? = e.chars.map some := by
  induction e generalizing id parent climb with
  | symbol x => simp [Regex.inOrder, Regex.chars, char?_eq h.symbol, NodeKind.char]
  | unary m e ih =>
    obtain ⟨hn, he⟩ := h.unary
    simp [Regex.inOrder, Regex.chars, char?_eq hn, ih he, NodeKind.char]
  | binary c l r ihl ihr =>
    obtain ⟨hn, hl, hr⟩ := h.binary
    simp [Regex.inOrder, Regex.chars, char?_eq hn, ihl hl, ihr hr, NodeKind.char]

/-- A block and a traversal of it come to the leaves in the same order. -/
theorem filter_isLeaf_inOrder (h : t.Stands e id parent climb) :
    (List.range' id e.size).filter t.isLeaf = (e.inOrder id).filter t.isLeaf := by
  induction e generalizing id parent climb with
  | symbol x => rfl
  | unary m e ih =>
    obtain ⟨hn, he⟩ := h.unary
    have hno : ¬ t.isLeaf id = true := by simp [isLeaf, symbol?, hn]
    rw [Regex.size, List.range'_succ, List.filter_cons_of_neg hno, ih he, Regex.inOrder,
      List.filter_append, List.filter_cons_of_neg hno, List.filter_nil, List.append_nil]
  | binary c l r ihl ihr =>
    obtain ⟨hn, hl, hr⟩ := h.binary
    have hno : ¬ t.isLeaf id = true := by simp [isLeaf, symbol?, hn]
    rw [Regex.size, List.range'_succ, List.filter_cons_of_neg hno, ← List.range'_append_1,
      List.filter_append, ihl hl, ihr hr, Regex.inOrder, List.filter_append,
      List.filter_cons_of_neg hno]

theorem map_symbol?_inOrder (h : t.Stands e id parent climb) :
    ((e.inOrder id).filter t.isLeaf).map t.symbol? = e.symbols.map some := by
  induction e generalizing id parent climb with
  | symbol x =>
    have hx : t.symbol? id = some x := by rw [symbol?, h.symbol]
    simp [Regex.inOrder, Regex.symbols, isLeaf, hx]
  | unary m e ih =>
    obtain ⟨hn, he⟩ := h.unary
    have hno : t.isLeaf id = false := by simp [isLeaf, symbol?, hn]
    simp [Regex.inOrder, Regex.symbols, hno, ih he]
  | binary c l r ihl ihr =>
    obtain ⟨hn, hl, hr⟩ := h.binary
    have hno : t.isLeaf id = false := by simp [isLeaf, symbol?, hn]
    simp [Regex.inOrder, Regex.symbols, hno, ihl hl, ihr hr]

end Stands

/-- The root comes last. -/
theorem inOrder_ofRegex (e : Regex) : (ofRegex (some e)).InOrder (some root) (e.inOrder 1 ++ [root]) :=
  .some (Nat.succ_pos _) (stands_ofRegex e).inOrder .none

theorem leaves_ofRegex (e : Regex) :
    (ofRegex (some e)).leaves = (e.inOrder 1).filter (ofRegex (some e)).isLeaf := by
  rw [← (stands_ofRegex e).filter_isLeaf_inOrder, leaves, ids, size_ofRegex, List.range_eq_range',
    List.range'_succ]
  rfl

end SyntaxTree

/-! ### What is spelled -/

namespace Phrase

variable {c : Category}

/-- What is left of a normal text without its parentheses are the nodes of its expression in order. -/
theorem bare_normal (p : Phrase c) : Regex.bare p.normal = p.regex.chars := by
  induction p with
  | symbol x => exact Regex.bare_cons (x.char_ne rfl) (x.char_ne rfl) []
  | group e ih =>
    show Regex.bare (e.normal ++ [')']) = e.regex.chars
    rw [Regex.bare_append, ih]
    exact List.append_nil _
  | factor a ms ih =>
    rw [normal, regex, Regex.bare_append, ih]
    cases Quantifier.collapse ms with
    | none => exact List.append_nil _
    | some m => cases m <;> rfl
  | single f ih => exact ih
  | juxtapose f t ihf iht =>
    rw [normal, Regex.bare_append, ihf, Regex.bare_cons (by decide) (by decide), iht]
    rfl
  | lone t ih => exact ih
  | union t e iht ihe =>
    rw [normal, Regex.bare_append, iht, Regex.bare_cons (by decide) (by decide), ihe]
    rfl

/-- The symbols of a text are those of its expression. -/
theorem filterMap_ofChar?_text (p : Phrase c) : p.text.filterMap Symbol.ofChar? = p.regex.symbols := by
  induction p with
  | symbol x => simp [text, regex, Regex.symbols]
  | group e ih =>
    show (e.text ++ [')']).filterMap Symbol.ofChar? = e.regex.symbols
    rw [List.filterMap_append, ih]
    exact List.append_nil _
  | factor a ms ih =>
    have hno : (ms.map Quantifier.char).filterMap Symbol.ofChar? = [] := by
      simp only [List.filterMap_eq_nil_iff, List.mem_map]
      rintro _ ⟨m, -, rfl⟩
      cases m <;> rfl
    rw [text, List.filterMap_append, ih, hno, List.append_nil, regex]
    cases Quantifier.collapse ms <;> rfl
  | single f ih => exact ih
  | juxtapose f t ihf iht => rw [text, List.filterMap_append, ihf, iht, regex, Regex.symbols]
  | lone t ih => exact ih
  | union t e iht ihe =>
    show (t.text ++ '|' :: e.text).filterMap Symbol.ofChar? = _
    rw [List.filterMap_append, List.filterMap_cons_none rfl, iht, ihe]
    rfl

end Phrase

namespace SyntaxTree

/-- Every expression parses. Its tree is numbered in preorder, and traversed in order before the root it
spells what normalizing writes, without the parentheses, so that it has a node for each character of that.
The leaves are the symbols of the expression from left to right. -/
theorem parse_preordered {source : List Char} (h : IsExpression source) :
    ∃ out t js, Regex.normalize source = .ok out ∧ parse source = .ok t ∧ t.Preordered ∧
      (∀ ids, t.InOrder (some root) ids ↔ ids = js ++ [root]) ∧
      js.map t.char? = (Regex.bare out).map some ∧ t.size = 1 + (Regex.bare out).length ∧
      t.leaves = js.filter t.isLeaf ∧
      t.leaves.map t.symbol? = (source.filterMap Symbol.ofChar?).map some := by
  rcases h with rfl | ⟨p, rfl⟩
  · have horder : (ofRegex none).InOrder (some root) ([] ++ [root]) := .some Nat.one_pos .none .none
    exact ⟨[], _, [], rfl, rfl, preordered_empty, fun ids => ⟨fun h => h.unique horder, fun h => h ▸ horder⟩,
      rfl, rfl, rfl, rfl⟩
  · have hparse := parse_eq (Regex.Scan.normalize_text p) (ofNormalized_normal p)
    have horder := inOrder_ofRegex p.regex
    have hstands := stands_ofRegex p.regex
    refine ⟨p.normal, _, p.regex.inOrder 1, Regex.Scan.normalize_text p, hparse, preordered_ofRegex _,
      fun ids => ⟨fun h => h.unique horder, fun h => h ▸ horder⟩, ?_, ?_, leaves_ofRegex _, ?_⟩
    · rw [hstands.map_char?_inOrder, p.bare_normal]
    · rw [p.bare_normal, Regex.length_chars, size_ofRegex, Nat.add_comm]
    · rw [leaves_ofRegex, hstands.map_symbol?_inOrder, p.filterMap_ofChar?_text]

theorem parse_preordered_starred :
    IsExpression "(a|b)*c".toList ∧ ∃ t js, parse "(a|b)*c".toList = .ok t ∧ t.Preordered ∧
      t.InOrder (some root) (js ++ [root]) ∧ js.map t.char? = "a|b*.c".toList.map some ∧ t.size = 7 ∧
      t.leaves.map t.symbol? = [some ⟨'a', rfl⟩, some ⟨'b', rfl⟩, some ⟨'c', rfl⟩] := by
  have hnormal : Regex.normalize "(a|b)*c".toList = .ok "(a|b)*.c".toList := by rfl
  have hexpr := Regex.normalize_isOk_iff.1 ⟨_, hnormal⟩
  obtain ⟨out, t, js, hn, ht, hpre, horder, hchars, hsize, -, hsymbols⟩ := parse_preordered hexpr
  obtain rfl := Except.ok.inj (hnormal.symm.trans hn)
  exact ⟨hexpr, t, js, ht, hpre, (horder _).2 rfl, hchars, hsize, hsymbols⟩

end SyntaxTree

end RegularLanguages
