/-!
# Partition refinement

A partition of `0, …, n - 1` is given by the least member, the leader, of the class of each number.
Splitting every class by the classes that its members move to, again and again, settles on the
coarsest stable partition below the first one. The leaders only grow and each is at most its
number, so it does settle.
-/

namespace RegularLanguages

/-- A partition of the numbers below `n`: at place `i`, the least member of the class of `i`. -/
structure Partition (n : Nat) where
  leaders : List Nat
  length_leaders : leaders.length = n
  leader_le : ∀ i (h : i < leaders.length), leaders[i] ≤ i

namespace Partition

theorem idxOf_getElem_le {κ : Type} [DecidableEq κ] {keys : List κ} {i : Nat}
    (h : i < keys.length) : keys.idxOf keys[i] ≤ i := by
  induction keys generalizing i with
  | nil => simp at h
  | cons k keys ih =>
    cases i with
    | zero => simp
    | succ i =>
      have hi := ih (Nat.lt_of_succ_lt_succ h)
      rw [List.getElem_cons_succ, List.idxOf_cons, cond_eq_ite]
      split <;> omega

def byKey {κ : Type} [DecidableEq κ] (n : Nat) (key : Nat → κ) : Partition n where
  leaders := let keys := (List.range n).map key; keys.map keys.idxOf
  length_leaders := by simp
  leader_le i h := by
    rw [List.getElem_map]
    exact idxOf_getElem_le (by simpa using h)

variable {n : Nat}

/-- The least member of the class of `q`. -/
def leader (P : Partition n) (q : Nat) : Nat := P.leaders.getD q q

/-- Splits each class by the classes of what `moves` lists for its members. -/
def refine (P : Partition n) (moves : Nat → List Nat) : Partition n :=
  byKey n fun q => (P.leader q, (moves q).map P.leader)

theorem leader_eq_getElem (P : Partition n) {q : Nat} (h : q < P.leaders.length) :
    P.leader q = P.leaders[q] := by
  simp [leader, List.getD_eq_getElem?_getD, h]

theorem leader_byKey {κ : Type} [DecidableEq κ] {key : Nat → κ} {q : Nat} (h : q < n) :
    (byKey n key).leader q = ((List.range n).map key).idxOf (key q) := by
  simp [leader, byKey, h]

/-- A leader is one of the numbers and has the key of those that it leads. -/
theorem key_leader_byKey {κ : Type} [DecidableEq κ] (key : Nat → κ) {q : Nat} (h : q < n) :
    (byKey n key).leader q < n ∧ key ((byKey n key).leader q) = key q := by
  rw [leader_byKey h]
  have hlt : ((List.range n).map key).idxOf (key q) < ((List.range n).map key).length :=
    List.idxOf_lt_length_iff.2 (List.mem_map.2 ⟨q, List.mem_range.2 h, rfl⟩)
  have hk := List.getElem_idxOf hlt
  rw [List.getElem_map, List.getElem_range] at hk
  exact ⟨by simpa using hlt, hk⟩

theorem leader_le_self (P : Partition n) {q : Nat} (h : q < n) : P.leader q ≤ q := by
  have hq : q < P.leaders.length := by rwa [P.length_leaders]
  rw [P.leader_eq_getElem hq]
  exact P.leader_le q hq

theorem leader_le_leader_refine (P : Partition n) (moves : Nat → List Nat) {q : Nat} (h : q < n) :
    P.leader q ≤ (P.refine moves).leader q := by
  have ⟨hlt, hk⟩ := key_leader_byKey (fun q => (P.leader q, (moves q).map P.leader)) h
  exact (Prod.mk.inj hk).1 ▸ P.leader_le_self hlt

def total (xs : List Nat) : Nat := xs.foldr (· + ·) 0

@[simp] theorem total_nil : total [] = 0 := rfl

@[simp] theorem total_cons (x : Nat) (xs : List Nat) : total (x :: xs) = x + total xs := rfl

theorem total_lt_total {xs ys : List Nat} (hlen : xs.length = ys.length)
    (hle : ∀ i (hx : i < xs.length) (hy : i < ys.length), xs[i] ≤ ys[i]) (hne : ys ≠ xs) :
    total xs < total ys := by
  induction xs generalizing ys with
  | nil => cases ys <;> simp_all
  | cons x xs ih =>
    cases ys with
    | nil => simp at hlen
    | cons y ys =>
      have h0 : x ≤ y := hle 0 (by simp) (by simp)
      have ht : ∀ i (hx : i < xs.length) (hy : i < ys.length), xs[i] ≤ ys[i] := fun i hx hy =>
        hle (i + 1) (Nat.succ_lt_succ hx) (Nat.succ_lt_succ hy)
      rw [total_cons, total_cons]
      by_cases he : ys = xs
      · have : x ≠ y := fun h => hne (by rw [h, he])
        rw [he]
        omega
      · have := ih (by simpa using hlen) ht he
        omega

theorem total_le {xs : List Nat} {m : Nat} (h : ∀ x ∈ xs, x ≤ m) : total xs ≤ xs.length * m := by
  induction xs with
  | nil => simp
  | cons x xs ih =>
    have h1 := h x (by simp)
    have h2 := ih fun y hy => h y (by simp [hy])
    rw [total_cons, List.length_cons, Nat.add_mul, Nat.one_mul]
    omega

theorem total_leaders_le (P : Partition n) : total P.leaders ≤ n * n := by
  have h : total P.leaders ≤ P.leaders.length * n := total_le fun x hx => by
    obtain ⟨i, hi, rfl⟩ := List.getElem_of_mem hx
    have h1 := P.leader_le i hi
    have h2 := P.length_leaders
    omega
  rwa [P.length_leaders] at h

/-- Refines until nothing is split any more. -/
def settle (P : Partition n) (moves : Nat → List Nat) : Partition n :=
  let finer := P.refine moves
  if finer.leaders = P.leaders then P else finer.settle moves
termination_by n * n - total P.leaders
decreasing_by
  rename_i hne
  have hlen : P.leaders.length = (P.refine moves).leaders.length := by
    rw [P.length_leaders, (P.refine moves).length_leaders]
  have hlt := total_lt_total hlen (fun i hx hy => by
    rw [← leader_eq_getElem P hx, ← leader_eq_getElem _ hy]
    exact P.leader_le_leader_refine moves (P.length_leaders ▸ hx)) hne
  have := (P.refine moves).total_leaders_le
  omega

end Partition

end RegularLanguages
