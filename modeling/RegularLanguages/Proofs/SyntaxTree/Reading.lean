import RegularLanguages.Proofs.Regex.Grammar
import RegularLanguages.Proofs.SyntaxTree.Layout
/-!
# What is read along a syntax tree

A word is read from a step on by moves between nodes and by the symbols of leaves, until the expression
ends. From the entry of a block a word of its expression is read, and then what can be read from where
the block is left (`Block.rest_eq`). The moves are counted: around a repetition the words of the operand
are taken off one by one, each with fewer moves to go.
-/

open scoped Computability

namespace RegularLanguages.SyntaxTree

/-- A word is read from a step on to the end of the expression, by a number of moves. -/
inductive Reads (t : SyntaxTree) : Nat → Step → List Char → Prop
  | done {d : Direction} (h : t.isTerminal (root, d) = true) (hroot : t.symbol? root = none) :
      Reads t 0 (root, d) []
  | move {a b : Step} {n : Nat} {w : List Char} (h : b ∈ t.next a) : Reads t n b w →
      Reads t (n + 1) a w
  | symbol {p : NodeId} {x : Symbol} {n : Nat} {w : List Char} (h : t.symbol? p = some x) :
      Reads t n (p, .up) w → Reads t (n + 1) (p, .down) (x.char :: w)

/-- The words that can be read from a step on. -/
def rest (t : SyntaxTree) (a : Step) : Language Char := {w | ∃ n, t.Reads n a w}

/-- The word is one of `L` and then one that is read from `a` on by fewer than `n` moves. -/
def Splits (t : SyntaxTree) (n : Nat) (w : List Char) (L : Language Char) (a : Step) : Prop :=
  ∃ u v m, m < n ∧ w = u ++ v ∧ u ∈ L ∧ t.Reads m a v

variable {t : SyntaxTree} {e l r : Regex} {x : Symbol} {id climb : NodeId} {a b : Step} {n m : Nat}
  {d : Direction} {u v w : List Char} {L M : Language Char} {node : Node}

/-! ### Single moves -/

theorem next_eq (h : t.nodes[id]? = some node) : t.next (id, d) = node.next d := by
  rw [next, h]

theorem isTerminal_eq (h : t.nodes[id]? = some node) :
    t.isTerminal (id, d) = node.isTerminal d := by
  rw [isTerminal, h]
  rfl

theorem next_of_isTerminal (h : t.isTerminal a = true) : t.next a = [] := by
  obtain ⟨id, d⟩ := a
  cases hn : t.nodes[id]? with
  | none => rw [next, hn]
  | some node =>
    rw [isTerminal_eq hn] at h
    rw [next_eq hn, Node.next, if_pos h]

theorem exists_leaf (h : t.symbol? id = some x) :
    ∃ left right parent climb, t.nodes[id]? = some ⟨.symbol x, left, right, parent, climb⟩ := by
  unfold symbol? at h
  split at h
  · rename_i y left right parent climb hn
    obtain rfl := Option.some.inj h
    exact ⟨left, right, parent, climb, hn⟩
  · cases h

theorem isTerminal_symbol (h : t.symbol? id = some x) : t.isTerminal (id, .down) = true := by
  obtain ⟨left, right, parent, climb, hn⟩ := exists_leaf h
  exact isTerminal_eq hn

/-- What holds with a number of moves to go makes, where moves go on, one of them and has fewer to go. -/
def Moving (t : SyntaxTree) (R : Nat → Step → Prop) : Prop :=
  ∀ n a, R n a → t.next a ≠ [] → ∃ m b, m < n ∧ b ∈ t.next a ∧ R m b

theorem Moving.exists_only_move {R : Nat → Step → Prop} (hR : t.Moving R) (h : R n a)
    (hn : t.next a = [b]) : ∃ m < n, R m b := by
  obtain ⟨m, b', hm, hb, hr⟩ := hR n a h (by simp [hn])
  rw [hn, List.mem_singleton] at hb
  exact ⟨m, hm, hb ▸ hr⟩

theorem Moving.exists_either_move {R : Nat → Step → Prop} {c : Step} (hR : t.Moving R) (h : R n a)
    (hn : t.next a = [b, c]) : ∃ m < n, R m b ∨ R m c := by
  obtain ⟨m, b', hm, hb, hr⟩ := hR n a h (by simp [hn])
  rw [hn, List.mem_pair] at hb
  rcases hb with rfl | rfl
  · exact ⟨m, hm, .inl hr⟩
  · exact ⟨m, hm, .inr hr⟩

theorem moving_reads (w : List Char) : t.Moving fun n a => t.Reads n a w := by
  intro n a h hn
  cases h with
  | done hd _ => exact absurd (next_of_isTerminal hd) hn
  | move hb h => exact ⟨_, _, Nat.lt_succ_self _, hb, h⟩
  | symbol hx _ => exact absurd (next_of_isTerminal (isTerminal_symbol hx)) hn

/-- At a leaf that is entered its symbol is read. -/
theorem Reads.exists_symbol (h : t.Reads n (id, .down) w) (hx : t.symbol? id = some x) :
    ∃ m v, m < n ∧ w = x.char :: v ∧ t.Reads m (id, .up) v := by
  cases h with
  | done _ hroot =>
    rw [hroot] at hx
    cases hx
  | move hb _ =>
    rw [next_of_isTerminal (isTerminal_symbol hx)] at hb
    cases hb
  | symbol hy h =>
    obtain rfl := Option.some.inj (hy.symm.trans hx)
    exact ⟨_, _, Nat.lt_succ_self _, rfl, h⟩

theorem mem_rest_of_next (hb : b ∈ t.next a) (h : w ∈ t.rest b) : w ∈ t.rest a := by
  obtain ⟨n, hn⟩ := h
  exact ⟨n + 1, .move hb hn⟩

/-! ### The steps at a block -/

theorem Block.next_symbol (h : Block t (.symbol x) id climb) :
    t.symbol? id = some x ∧ t.next (id, .up) = [(climb, .up)] := by
  cases h with
  | symbol h => exact ⟨by rw [symbol?, h], next_eq h⟩

theorem Block.next_optional (h : Block t (.unary .optional e) id climb) :
    Block t e (id + 1) id ∧ t.next (id, .down) = [(id + 1, .down), (climb, .up)] ∧
      t.next (id, .up) = [(climb, .up)] := by
  cases h with
  | unary h he => exact ⟨he, next_eq h, next_eq h⟩

theorem Block.next_star (h : Block t (.unary .star e) id climb) :
    Block t e (id + 1) id ∧ t.next (id, .down) = [(id + 1, .down), (climb, .up)] ∧
      t.next (id, .up) = [(id + 1, .down), (climb, .up)] := by
  cases h with
  | unary h he => exact ⟨he, next_eq h, next_eq h⟩

theorem Block.next_plus (h : Block t (.unary .plus e) id climb) :
    Block t e (id + 1) id ∧ t.next (id, .down) = [(id + 1, .down)] ∧
      t.next (id, .up) = [(id + 1, .down), (climb, .up)] := by
  cases h with
  | unary h he => exact ⟨he, next_eq h, next_eq h⟩

theorem Block.next_concat (h : Block t (.binary .concat l r) id climb) :
    Block t l (id + 1) id ∧ Block t r (id + 1 + l.size) climb ∧
      t.next (id, .down) = [(id + 1, .down)] ∧
      t.next (id, .up) = [(id + 1 + l.size, .down)] := by
  cases h with
  | binary h hl hr => exact ⟨hl, hr, next_eq h, next_eq h⟩

theorem Block.next_union (h : Block t (.binary .union l r) id climb) :
    Block t l (id + 1) id ∧ Block t r (id + 1 + l.size) climb ∧
      t.next (id, .down) = [(id + 1, .down), (id + 1 + l.size, .down)] ∧
      t.next (id, .up) = [(climb, .up)] := by
  cases h with
  | binary h hl hr => exact ⟨hl, hr, next_eq h, next_eq h⟩

/-! ### Words of a block come first -/

namespace Splits

theorem of_reads (h : t.Reads m a w) (hm : m < n) : t.Splits n w 1 a :=
  ⟨[], w, m, hm, rfl, Language.nil_mem_one, h⟩

theorem lift (h : t.Splits m w L a) (hm : m ≤ n) : t.Splits n w L a := by
  obtain ⟨u, v, k, hk, hw, hu, hv⟩ := h
  exact ⟨u, v, k, Nat.lt_of_lt_of_le hk hm, hw, hu, hv⟩

theorem mono (h : t.Splits n w L a) (hLM : L ≤ M) : t.Splits n w M a := by
  obtain ⟨u, v, k, hk, hw, hu, hv⟩ := h
  exact ⟨u, v, k, hk, hw, hLM hu, hv⟩

theorem trans (h : t.Splits n w L a) (hv : ∀ m v, m < n → t.Reads m a v → t.Splits m v M b) :
    t.Splits n w (L * M) b := by
  obtain ⟨u, v, m, hm, rfl, hu, hr⟩ := h
  obtain ⟨u', v', k, hk, rfl, hu', hr'⟩ := hv m v hm hr
  exact ⟨u ++ u', v', k, Nat.lt_trans hk hm, (List.append_assoc u u' v').symm,
    Language.append_mem_mul hu hu', hr'⟩

end Splits

theorem Reads.exists_only_move (h : t.Reads n a w) (hn : t.next a = [b]) :
    ∃ m < n, t.Reads m b w :=
  (moving_reads w).exists_only_move h hn

theorem Reads.exists_either_move {c : Step} (h : t.Reads n a w) (hn : t.next a = [b, c]) :
    ∃ m < n, t.Reads m b w ∨ t.Reads m c w :=
  (moving_reads w).exists_either_move h hn

/-- Around a repetition words of the operand are taken off until reading climbs on. -/
theorem splits_loop (hin : ∀ n w, t.Reads n (id + 1, .down) w → t.Splits n w L (id, .up))
    (hup : t.next (id, .up) = [(id + 1, .down), (climb, .up)])
    (ha : t.next a = [(id + 1, .down), (climb, .up)]) (h : t.Reads n a w) :
    t.Splits n w L∗ (climb, .up) := by
  induction n using Nat.strong_induction_on generalizing a w with
  | _ n ih =>
    obtain ⟨m, hm, hr | hr⟩ := h.exists_either_move ha
    · have hloop : ∀ k v, k < m → t.Reads k (id, .up) v → t.Splits k v L∗ (climb, .up) :=
        fun k v hk hv => ih k (Nat.lt_trans hk hm) hup hv
      exact (((hin m w hr).trans hloop).mono mul_kstar_le_kstar).lift (Nat.le_of_lt hm)
    · exact (Splits.of_reads hr hm).mono one_le_kstar

/-- What is read from the entry of a block starts with a word of its expression. -/
theorem Block.splits (h : Block t e id climb) (hr : t.Reads n (id, .down) w) :
    t.Splits n w e.language (climb, .up) := by
  induction e generalizing id climb n w with
  | symbol x =>
    obtain ⟨hx, hup⟩ := h.next_symbol
    obtain ⟨m, v, hm, rfl, hv⟩ := hr.exists_symbol hx
    obtain ⟨k, hk, hv⟩ := hv.exists_only_move hup
    exact ⟨[x.char], v, k, Nat.lt_trans hk hm, rfl, Set.mem_singleton _, hv⟩
  | unary q e ih =>
    cases q with
    | optional =>
      obtain ⟨he, hdown, hup⟩ := h.next_optional
      obtain ⟨m, hm, hr | hr⟩ := hr.exists_either_move hdown
      · obtain ⟨u, v, k, hk, hw, hu, hv⟩ := ih he hr
        obtain ⟨k', hk', hv⟩ := hv.exists_only_move hup
        exact ⟨u, v, k', Nat.lt_trans hk' (Nat.lt_trans hk hm), hw, .inr hu, hv⟩
      · exact (Splits.of_reads hr hm).mono le_self_add
    | star =>
      obtain ⟨he, hdown, hup⟩ := h.next_star
      exact splits_loop (fun n w hw => ih he hw) hup hdown hr
    | plus =>
      obtain ⟨he, hdown, hup⟩ := h.next_plus
      obtain ⟨m, hm, hr⟩ := hr.exists_only_move hdown
      refine ((ih he hr).trans fun k v _ hv => ?_).lift (Nat.le_of_lt hm)
      exact splits_loop (fun n w hw => ih he hw) hup hup hv
  | binary c l r ihl ihr =>
    cases c with
    | union =>
      obtain ⟨hl, hr', hdown, hup⟩ := h.next_union
      obtain ⟨m, hm, hr | hr⟩ := hr.exists_either_move hdown
      · obtain ⟨u, v, k, hk, hw, hu, hv⟩ := ihl hl hr
        obtain ⟨k', hk', hv⟩ := hv.exists_only_move hup
        exact ⟨u, v, k', Nat.lt_trans hk' (Nat.lt_trans hk hm), hw, .inl hu, hv⟩
      · exact ((ihr hr' hr).mono le_add_self).lift (Nat.le_of_lt hm)
    | concat =>
      obtain ⟨hl, hr', hdown, hup⟩ := h.next_concat
      obtain ⟨m, hm, hr⟩ := hr.exists_only_move hdown
      refine ((ihl hl hr).trans fun k v _ hv => ?_).lift (Nat.le_of_lt hm)
      obtain ⟨k', hk, hv⟩ := hv.exists_only_move hup
      exact (ihr hr' hv).lift (Nat.le_of_lt hk)

/-! ### Words of a block can be read -/

/-- Around a repetition words of the operand can be read one after the other. -/
theorem append_mem_rest_loop
    (hin : ∀ u v, u ∈ L → v ∈ t.rest (id, .up) → u ++ v ∈ t.rest (id + 1, .down))
    (hup : t.next (id, .up) = [(id + 1, .down), (climb, .up)])
    (ha : t.next a = [(id + 1, .down), (climb, .up)]) (hu : u ∈ L∗) (hv : v ∈ t.rest (climb, .up)) :
    u ++ v ∈ t.rest a := by
  obtain ⟨us, rfl, hus⟩ := Language.mem_kstar.1 hu
  clear hu
  induction us generalizing a with
  | nil => exact mem_rest_of_next (by rw [ha]; simp) hv
  | cons u us ih =>
    have hloop : us.flatten ++ v ∈ t.rest (id, .up) :=
      ih hup fun y hy => hus y (List.mem_cons_of_mem u hy)
    rw [List.flatten_cons, List.append_assoc]
    exact mem_rest_of_next (by rw [ha]; simp) (hin u _ (hus u List.mem_cons_self) hloop)

theorem Block.append_mem_rest (h : Block t e id climb) (hu : u ∈ e.language)
    (hv : v ∈ t.rest (climb, .up)) : u ++ v ∈ t.rest (id, .down) := by
  induction e generalizing id climb u v with
  | symbol x =>
    obtain ⟨hx, hup⟩ := h.next_symbol
    obtain rfl := Set.mem_singleton_iff.1 hu
    obtain ⟨n, hn⟩ := mem_rest_of_next (a := (id, .up)) (by rw [hup]; simp) hv
    exact ⟨n + 1, .symbol hx hn⟩
  | unary q e ih =>
    cases q with
    | optional =>
      obtain ⟨he, hdown, hup⟩ := h.next_optional
      rcases hu with rfl | hu
      · exact mem_rest_of_next (by rw [hdown]; simp) hv
      · have hback := mem_rest_of_next (a := (id, .up)) (by rw [hup]; simp) hv
        exact mem_rest_of_next (by rw [hdown]; simp) (ih he hu hback)
    | star =>
      obtain ⟨he, hdown, hup⟩ := h.next_star
      exact append_mem_rest_loop (fun u v hu hv => ih he hu hv) hup hdown hu hv
    | plus =>
      obtain ⟨he, hdown, hup⟩ := h.next_plus
      obtain ⟨u₁, hu₁, u₂, hu₂, rfl⟩ := Language.mem_mul.1 hu
      have hback := append_mem_rest_loop (fun u v hu hv => ih he hu hv) hup hup hu₂ hv
      rw [List.append_assoc]
      exact mem_rest_of_next (by rw [hdown]; simp) (ih he hu₁ hback)
  | binary c l r ihl ihr =>
    cases c with
    | union =>
      obtain ⟨hl, hr, hdown, hup⟩ := h.next_union
      rcases hu with hu | hu
      · have hback := mem_rest_of_next (a := (id, .up)) (by rw [hup]; simp) hv
        exact mem_rest_of_next (by rw [hdown]; simp) (ihl hl hu hback)
      · exact mem_rest_of_next (by rw [hdown]; simp) (ihr hr hu hv)
    | concat =>
      obtain ⟨hl, hr, hdown, hup⟩ := h.next_concat
      obtain ⟨u₁, hu₁, u₂, hu₂, rfl⟩ := Language.mem_mul.1 hu
      have hback := mem_rest_of_next (a := (id, .up)) (by rw [hup]; simp) (ihr hr hu₂ hv)
      rw [List.append_assoc]
      exact mem_rest_of_next (by rw [hdown]; simp) (ihl hl hu₁ hback)

/-- From the entry of a block its expression is read, and then what can be read after it. -/
theorem Block.rest_eq (h : Block t e id climb) :
    t.rest (id, .down) = e.language * t.rest (climb, .up) := by
  ext w
  rw [Language.mem_mul]
  constructor
  · rintro ⟨n, hn⟩
    obtain ⟨u, v, m, -, hw, hu, hv⟩ := h.splits hn
    exact ⟨u, hu, v, ⟨m, hv⟩, hw.symm⟩
  · rintro ⟨u, hu, v, hv, rfl⟩
    exact h.append_mem_rest hu hv

/-! ### Whole trees -/

theorem rest_of_next (hn : t.next a = [b]) : t.rest a = t.rest b := by
  ext w
  constructor
  · rintro ⟨n, h⟩
    obtain ⟨m, -, hr⟩ := h.exists_only_move hn
    exact ⟨m, hr⟩
  · exact mem_rest_of_next (by rw [hn]; exact List.mem_singleton_self b)

theorem rest_root (h : t.isTerminal (root, d) = true) (hroot : t.symbol? root = none) :
    t.rest (root, d) = 1 := by
  ext w
  rw [Language.mem_one]
  constructor
  · rintro ⟨n, hn⟩
    cases hn with
    | done _ _ => rfl
    | move hb _ =>
      rw [next_of_isTerminal h] at hb
      cases hb
    | symbol hx _ =>
      rw [hroot] at hx
      cases hx
  · rintro rfl
    exact ⟨0, .done h hroot⟩

theorem symbol?_root (e : Option Regex) : (ofRegex e).symbol? root = none := by
  cases e <;> rfl

/-- The words that are read along the whole tree are those of its expression. -/
theorem rest_ofRegex (e : Regex) : (ofRegex (some e)).rest (root, .down) = e.language := by
  have hdown : (ofRegex (some e)).next (root, .down) = [(1, .down)] := next_eq (root_ofRegex e)
  have hend : (ofRegex (some e)).isTerminal (root, .up) = true := isTerminal_eq (root_ofRegex e)
  rw [rest_of_next hdown, (block_ofRegex e).rest_eq]
  show e.language * (ofRegex (some e)).rest (root, .up) = _
  rw [rest_root hend (symbol?_root _), mul_one]

theorem rest_ofRegex_none : (ofRegex none).rest (root, .down) = 1 :=
  rest_root rfl (symbol?_root none)

end RegularLanguages.SyntaxTree
