import RegularLanguages.SyntaxTree.Steps
/-!
# Blocks of a syntax tree

The nodes of a subexpression are a block of consecutive nodes (`Stands`). `Block t e id climb` says
that the block of `e` begins with `id` and that reading goes on at `climb` once it has been read; from it
the steps at each of its nodes are known.
-/

namespace RegularLanguages.SyntaxTree

/-- The nodes of an expression are laid out from `id` on. -/
def Stands (t : SyntaxTree) (e : Regex) (id parent climb : NodeId) : Prop :=
  ∀ k n, (e.layout id parent climb)[k]? = some n → t.nodes[id + k]? = some n

/-- The nodes of an expression stand from `id` on, and are left by climbing to `climb`. -/
inductive Block (t : SyntaxTree) : Regex → NodeId → NodeId → Prop
  | symbol {x : Symbol} {id climb : NodeId} {parent : Option NodeId}
      (h : t.nodes[id]? = some ⟨.symbol x, none, none, parent, some climb⟩) :
      Block t (.symbol x) id climb
  | unary {m : Quantifier} {e : Regex} {id climb : NodeId} {parent : Option NodeId}
      (h : t.nodes[id]? = some ⟨.unary m, some (id + 1), none, parent, some climb⟩)
      (he : Block t e (id + 1) id) : Block t (.unary m e) id climb
  | binary {c : Connective} {l r : Regex} {id climb : NodeId} {parent : Option NodeId}
      (h : t.nodes[id]? =
        some ⟨.binary c, some (id + 1), some (id + 1 + l.size), parent, some climb⟩)
      (hl : Block t l (id + 1) id) (hr : Block t r (id + 1 + l.size) climb) :
      Block t (.binary c l r) id climb

theorem length_layout (e : Regex) (id parent climb : NodeId) :
    (e.layout id parent climb).length = e.size := by
  induction e generalizing id parent climb with
  | symbol x => rfl
  | unary m e ih => rw [Regex.layout, List.length_cons, ih, Regex.size]
  | binary c l r ihl ihr =>
    rw [Regex.layout, List.length_cons, List.length_append, ihl, ihr, Regex.size]

variable {t : SyntaxTree} {e l r : Regex} {x : Symbol} {m : Quantifier} {c : Connective}
  {id parent climb : Nat}

theorem Stands.symbol (h : t.Stands (.symbol x) id parent climb) :
    t.nodes[id]? = some ⟨.symbol x, none, none, some parent, some climb⟩ := h 0 _ rfl

theorem Stands.unary (h : t.Stands (.unary m e) id parent climb) :
    t.nodes[id]? = some ⟨.unary m, some (id + 1), none, some parent, some climb⟩ ∧
      t.Stands e (id + 1) id id := by
  refine ⟨h 0 _ rfl, fun k n hk => ?_⟩
  have hn := h (k + 1) n hk
  rwa [← Nat.add_assoc, Nat.add_right_comm] at hn

theorem Stands.binary (h : t.Stands (.binary c l r) id parent climb) :
    t.nodes[id]? =
        some ⟨.binary c, some (id + 1), some (id + 1 + l.size), some parent, some climb⟩ ∧
      t.Stands l (id + 1) id id ∧ t.Stands r (id + 1 + l.size) id climb := by
  refine ⟨h 0 _ rfl, fun k n hk => ?_, fun k n hk => ?_⟩
  · obtain ⟨hlt, -⟩ := List.getElem?_eq_some_iff.1 hk
    have hn := h (k + 1) n ((List.getElem?_append_left hlt).trans hk)
    rwa [← Nat.add_assoc, Nat.add_right_comm] at hn
  · have hlen := length_layout l (id + 1) id id
    have hn := h (l.size + k + 1) n (by
      rw [Regex.layout, List.getElem?_cons_succ, List.getElem?_append_right (by omega), hlen,
        Nat.add_sub_cancel_left, hk])
    rwa [show id + (l.size + k + 1) = id + 1 + l.size + k by omega] at hn

theorem Stands.block (h : t.Stands e id parent climb) : Block t e id climb := by
  induction e generalizing id parent climb with
  | symbol x => exact .symbol h.symbol
  | unary m e ih => exact .unary h.unary.1 (ih h.unary.2)
  | binary c l r ihl ihr => exact .binary h.binary.1 (ihl h.binary.2.1) (ihr h.binary.2.2)

theorem root_ofRegex (e : Regex) :
    (ofRegex (some e)).nodes[root]? = some ⟨.root, some 1, none, none, none⟩ :=
  rfl

theorem stands_ofRegex (e : Regex) : (ofRegex (some e)).Stands e 1 0 0 := by
  intro k n hk
  rw [ofRegex, Nat.add_comm, List.getElem?_toArray, List.getElem?_cons_succ]
  exact hk

theorem block_ofRegex (e : Regex) : Block (ofRegex (some e)) e 1 0 := (stands_ofRegex e).block

end RegularLanguages.SyntaxTree
