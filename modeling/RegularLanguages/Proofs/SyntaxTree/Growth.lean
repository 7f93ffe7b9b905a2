import RegularLanguages.Proofs.Recognizer
/-!
# Trees built node by node

While an expression is read its nodes can be added one by one to a list, each of them before the nodes
below it and linked to these when they stand (`grow`). What is added is the layout of the regular expression
that parsing gives, on every text, and building fails where parsing fails (`grow_eq`). So the tree of an
expression is what building it leaves (`growTree_eq`).
-/

namespace RegularLanguages

/-- A node of a tree that is being built: what stands below it is linked later. -/
structure Knot where
  kind : NodeKind
  left : Option NodeId
  right : Option NodeId
  parent : Option NodeId
deriving Repr, DecidableEq

namespace Knot

def unlinked (kind : NodeKind) (parent : Option NodeId) : Knot := ⟨kind, none, none, parent⟩

def linkLeft (id : NodeId) (k : Knot) : Knot := { k with left := some id }

def linkRight (id : NodeId) (k : Knot) : Knot := { k with right := some id }

end Knot

/-- What building stores of a node. -/
def Node.knot (n : Node) : Knot := ⟨n.kind, n.left, n.right, n.parent⟩

/-- What building stores of the nodes of an expression in preorder, when the first of them is `id`. -/
def Regex.knots (id parent : NodeId) : Regex → List Knot
  | symbol s => [⟨.symbol s, none, none, some parent⟩]
  | unary m e => ⟨.unary m, some (id + 1), none, some parent⟩ :: e.knots (id + 1) id
  | binary c l r =>
    ⟨.binary c, some (id + 1), some (id + 1 + l.size), some parent⟩ ::
      (l.knots (id + 1) id ++ r.knots (id + 1 + l.size) id)

namespace SyntaxTree

def growAtom (offset : Nat) (parent : NodeId) (ks : List Knot) :
    List Char → Except ParseError (NodeId × List Knot)
  | [c] =>
    match Symbol.ofChar? c with
    | some s => .ok (ks.length, ks ++ [.unlinked (.symbol s) parent])
    | none => .error (.invalidSymbol c offset)
  | _ => .error (.unbalancedOperators offset)

/-- Builds the tree of a normalized expression that starts at `offset`, below `parent`: gives the number of
its first node, and all nodes. -/
def grow (offset : Nat) (expr : List Char) (parent : NodeId) (ks : List Knot) :
    Except ParseError (NodeId × List Knot) :=
  match h : Regex.splitPoint? expr with
  | some (.connective c, place) =>
    if place = 0 ∨ place + 1 = expr.length then .error (.unbalancedOperators (offset + place))
    else do
      let id := ks.length
      let l ← grow offset (expr.take place) id (ks ++ [.unlinked (.binary c) parent])
      let r ← grow (offset + place + 1) (expr.drop (place + 1)) id (l.2.modify id (Knot.linkLeft l.1))
      return (id, r.2.modify id (Knot.linkRight r.1))
  | some (.quantifier m, place) =>
    if place = 0 ∨ place + 1 ≠ expr.length then .error (.unbalancedOperators (offset + place))
    else do
      let id := ks.length
      let l ← grow offset (expr.take place) id (ks ++ [.unlinked (.unary m) parent])
      return (id, l.2.modify id (Knot.linkLeft l.1))
  | none =>
    match h : Regex.inner? expr with
    | some inner => grow (offset + 1) inner parent ks
    | none => growAtom offset parent ks expr
termination_by expr.length
decreasing_by
  · have := Regex.place_lt_of_splitPoint? h
    simp only [List.length_take]
    omega
  · have := Regex.place_lt_of_splitPoint? h
    simp only [List.length_drop]
    omega
  · have := Regex.place_lt_of_splitPoint? h
    simp only [List.length_take]
    omega
  · exact Regex.length_lt_of_inner? h

/-- Builds the tree of a normalized expression below the root. -/
def growTree (expr : List Char) : Except ParseError (List Knot) :=
  if expr.isEmpty then .ok [.unlinked .root none]
  else do
    let r ← grow 0 expr root [.unlinked .root none]
    return r.2.modify root (Knot.linkLeft r.1)

theorem map_knot_layout (e : Regex) (id parent climb : NodeId) :
    (e.layout id parent climb).map Node.knot = e.knots id parent := by
  induction e generalizing id parent climb with
  | symbol s => rfl
  | unary m e ih =>
    rw [Regex.layout, List.map_cons, ih]
    rfl
  | binary c l r ihl ihr =>
    rw [Regex.layout, List.map_cons, List.map_append, ihl, ihr]
    rfl

theorem length_knots (e : Regex) (id parent : NodeId) : (e.knots id parent).length = e.size := by
  rw [← map_knot_layout e id parent 0, List.length_map, length_layout]

theorem modify_append_length (ks rest : List Knot) (k : Knot) (f : Knot → Knot) :
    (ks ++ k :: rest).modify ks.length f = ks ++ f k :: rest := by
  induction ks with
  | nil => rfl
  | cons j ks ih => rw [List.cons_append, List.length_cons, List.modify_succ_cons, ih, List.cons_append]

/-! ### Building as parsing -/

/-- One step of building. -/
theorem grow_def (offset : Nat) (expr : List Char) (parent : NodeId) (ks : List Knot) :
    grow offset expr parent ks =
      match Regex.splitPoint? expr with
      | some (.connective c, place) =>
        if place = 0 ∨ place + 1 = expr.length then .error (.unbalancedOperators (offset + place))
        else do
          let l ← grow offset (expr.take place) ks.length (ks ++ [.unlinked (.binary c) parent])
          let r ← grow (offset + place + 1) (expr.drop (place + 1)) ks.length
            (l.2.modify ks.length (Knot.linkLeft l.1))
          return (ks.length, r.2.modify ks.length (Knot.linkRight r.1))
      | some (.quantifier m, place) =>
        if place = 0 ∨ place + 1 ≠ expr.length then .error (.unbalancedOperators (offset + place))
        else do
          let l ← grow offset (expr.take place) ks.length (ks ++ [.unlinked (.unary m) parent])
          return (ks.length, l.2.modify ks.length (Knot.linkLeft l.1))
      | none =>
        match Regex.inner? expr with
        | some inner => grow (offset + 1) inner parent ks
        | none => growAtom offset parent ks expr := by
  rw [grow]
  split
  · rename_i h
    rw [h]
  · rename_i h
    rw [h]
  · rename_i h
    rw [h]
    split <;> rename_i hi <;> rw [hi]

theorem growAtom_eq (offset : Nat) (parent : NodeId) (ks : List Knot) (expr : List Char) :
    growAtom offset parent ks expr =
      (fun e => (ks.length, ks ++ e.knots ks.length parent)) <$> Regex.atom offset expr := by
  match expr with
  | [] => rfl
  | [c] =>
    rw [growAtom, Regex.atom]
    cases Symbol.ofChar? c <;> rfl
  | _ :: _ :: _ => rfl

/-- Building adds the layout of what parsing gives, and fails where parsing fails. -/
theorem grow_eq (offset : Nat) (expr : List Char) (parent : NodeId) (ks : List Knot) :
    grow offset expr parent ks =
      (fun e => (ks.length, ks ++ e.knots ks.length parent)) <$> Regex.parse offset expr := by
  fun_induction Regex.parse offset expr generalizing parent ks with
  | case1 offset expr c place h hends =>
    rw [grow_def, h]
    simp only [if_pos hends]
    rfl
  | case2 offset expr c place h hends ihl ihr =>
    rw [grow_def, h]
    simp only [if_neg hends]
    rw [ihl]
    cases Regex.parse offset (expr.take place) with
    | error e => rfl
    | ok l =>
      -- the node of the operator stands between what was there and its operands
      let node : Knot := ⟨.binary c, some (ks.length + 1), none, some parent⟩
      have hleft : ((ks ++ [Knot.unlinked (.binary c) (some parent)]) ++
          l.knots (ks.length + 1) ks.length).modify ks.length (Knot.linkLeft (ks.length + 1)) =
          ks ++ node :: l.knots (ks.length + 1) ks.length := by
        rw [List.append_assoc, List.singleton_append, modify_append_length]
        rfl
      have hlen : (ks ++ node :: l.knots (ks.length + 1) ks.length).length = ks.length + 1 + l.size := by
        rw [List.length_append, List.length_cons, length_knots, Nat.add_assoc, Nat.add_comm 1]
      have hr := ihr ks.length (ks ++ node :: l.knots (ks.length + 1) ks.length)
      rw [hlen] at hr
      show (do
        let r ← grow (offset + place + 1) (expr.drop (place + 1)) ks.length _
        return (ks.length, r.2.modify ks.length (Knot.linkRight r.1))) = _
      simp only [List.length_append, List.length_singleton, hleft]
      rw [hr]
      cases Regex.parse (offset + place + 1) (expr.drop (place + 1)) with
      | error e => rfl
      | ok r =>
        show Except.ok (ks.length, (ks ++ node :: l.knots (ks.length + 1) ks.length ++
          r.knots (ks.length + 1 + l.size) ks.length).modify ks.length _) = _
        rw [List.append_assoc, List.cons_append, modify_append_length]
        rfl
  | case3 offset expr m place h hends =>
    rw [grow_def, h]
    simp only [if_pos hends]
    rfl
  | case4 offset expr m place h hends ih =>
    rw [grow_def, h]
    simp only [if_neg hends]
    rw [ih]
    cases Regex.parse offset (expr.take place) with
    | error e => rfl
    | ok l =>
      show Except.ok (ks.length, (ks ++ [Knot.unlinked (.unary m) (some parent)] ++ _).modify ks.length _) = _
      rw [List.append_assoc, List.singleton_append, modify_append_length, List.length_append]
      rfl
  | case5 offset expr h inner hi ih =>
    rw [grow_def, h, hi]
    exact ih parent ks
  | case6 offset expr h hi =>
    rw [grow_def, h, hi]
    exact growAtom_eq offset parent ks expr

/-- The tree of an expression is what building it leaves. -/
theorem growTree_eq (expr : List Char) :
    growTree expr = (fun t => t.nodes.toList.map Node.knot) <$> ofNormalized expr := by
  rw [growTree, ofNormalized, Regex.parseNormalized]
  split
  · rfl
  · rw [grow_eq]
    cases Regex.parse 0 expr with
    | error e => rfl
    | ok e =>
      show Except.ok _ = Except.ok (Knot.linkLeft 1 (.unlinked .root none) :: (e.layout 1 0 0).map Node.knot)
      rw [map_knot_layout]
      rfl

end SyntaxTree

end RegularLanguages
