import Mathlib.Data.Finset.Card
import Mathlib.Data.Finset.Filter
import Mathlib.Data.Finset.Range
import Mathlib.Data.List.Forall2
import Mathlib.Order.Bounds.Basic
import RegularLanguages.Partition
/-!
# What refinement settles on

Numbers stay together exactly as long as nothing tells them apart: the settled partition is stable
under moves (`map_leader_settle`), below the first one (`leader_of_leader_settle`), and every other
such relation is finer (`leader_settle_eq`). It comes up in fewer rounds than there are numbers, with the
first round that splits nothing (`exists_settle_eq_rounds`).
-/

namespace RegularLanguages.Partition

variable {n : Nat} {P Q : Partition n} {moves : Nat → List Nat} {p q : Nat}

theorem leader_byKey_eq_iff {κ : Type} [DecidableEq κ] {key : Nat → κ} (hp : p < n) (hq : q < n) :
    (byKey n key).leader p = (byKey n key).leader q ↔ key p = key q := by
  constructor
  · intro h
    rw [← (key_leader_byKey key hp).2, h, (key_leader_byKey key hq).2]
  · intro h
    rw [leader_byKey hp, leader_byKey hq, h]

/-- Every class is led by one of its members. -/
def Led (P : Partition n) : Prop := ∀ q < n, P.leader q < n ∧ P.leader (P.leader q) = P.leader q

theorem led_byKey {κ : Type} [DecidableEq κ] (key : Nat → κ) : (byKey n key).Led := by
  intro q hq
  obtain ⟨hlt, hk⟩ := key_leader_byKey key hq
  exact ⟨hlt, (leader_byKey_eq_iff hlt hq).2 hk⟩

theorem leader_refine_eq_iff (hp : p < n) (hq : q < n) :
    (P.refine moves).leader p = (P.refine moves).leader q ↔
      P.leader p = P.leader q ∧ (moves p).map P.leader = (moves q).map P.leader := by
  rw [refine, leader_byKey_eq_iff hp hq, Prod.mk.injEq]

theorem led_settle (hP : P.Led) : (P.settle moves).Led := by
  fun_induction settle P moves with
  | case1 P finer h => exact hP
  | case2 P finer h ih => exact ih (led_byKey _)

/-- Settled classes move to classes. -/
theorem map_leader_settle (hp : p < n) (hq : q < n)
    (h : (P.settle moves).leader p = (P.settle moves).leader q) :
    (moves p).map (P.settle moves).leader = (moves q).map (P.settle moves).leader := by
  fun_induction settle P moves with
  | case1 P finer hle =>
    have heq : ∀ r, finer.leader r = P.leader r := fun r => by rw [leader, leader, hle]
    rw [← heq, ← heq] at h
    exact ((leader_refine_eq_iff hp hq).1 h).2
  | case2 P finer _ ih => exact ih h

/-- Settling only splits classes. -/
theorem leader_of_leader_settle (hp : p < n) (hq : q < n)
    (h : (P.settle moves).leader p = (P.settle moves).leader q) : P.leader p = P.leader q := by
  fun_induction settle P moves with
  | case1 P finer hle => exact h
  | case2 P finer hle ih => exact ((leader_refine_eq_iff hp hq).1 (ih h)).1

/-- What a stable relation below the first partition relates stays together. -/
theorem leader_settle_eq {R : Nat → Nat → Prop} (hlt : ∀ p q, R p q → p < n ∧ q < n)
    (hR : ∀ p q, R p q → P.leader p = P.leader q)
    (hmoves : ∀ p q, R p q → List.Forall₂ R (moves p) (moves q)) (h : R p q) :
    (P.settle moves).leader p = (P.settle moves).leader q := by
  fun_induction settle P moves with
  | case1 P finer hle => exact hR p q h
  | case2 P finer hle ih =>
    have hmap : ∀ {xs ys}, List.Forall₂ R xs ys → xs.map P.leader = ys.map P.leader := by
      intro xs ys hall
      induction hall with
      | nil => rfl
      | cons hab _ ih => rw [List.map_cons, List.map_cons, hR _ _ hab, ih]
    refine ih fun p q hpq => ?_
    obtain ⟨hp, hq⟩ := hlt p q hpq
    exact (leader_refine_eq_iff hp hq).2 ⟨hR p q hpq, hmap (hmoves p q hpq)⟩

/-! ### Rounds -/

/-- The partition after a number of rounds of splitting. -/
def rounds (P : Partition n) (moves : Nat → List Nat) : Nat → Partition n
  | 0 => P
  | k + 1 => (P.rounds moves k).refine moves

/-- The numbers that lead a class. -/
def heads (P : Partition n) : Finset Nat := {q ∈ Finset.range n | P.leader q = q}

theorem mem_heads : q ∈ P.heads ↔ q < n ∧ P.leader q = q := by
  rw [heads, Finset.mem_filter, Finset.mem_range]

theorem rounds_refine (P : Partition n) (moves : Nat → List Nat) (k : Nat) :
    (P.refine moves).rounds moves k = P.rounds moves (k + 1) := by
  induction k with
  | zero => rfl
  | succ k ih => rw [rounds, ih]; rfl

theorem leaders_eq_of_leader_eq (h : ∀ q < n, P.leader q = Q.leader q) : P.leaders = Q.leaders := by
  refine List.ext_getElem (P.length_leaders.trans Q.length_leaders.symm) fun q hP hQ => ?_
  rw [← P.leader_eq_getElem hP, ← Q.leader_eq_getElem hQ]
  exact h q (P.length_leaders ▸ hP)

/-- What leads a class goes on leading, and where a class is split another number comes to lead. -/
theorem heads_ssubset_heads_refine (h : (P.refine moves).leaders ≠ P.leaders) :
    P.heads ⊂ (P.refine moves).heads := by
  have hle {q : Nat} (hq : q < n) := P.leader_le_leader_refine moves hq
  obtain ⟨q, hq, hne⟩ : ∃ q < n, P.leader q ≠ (P.refine moves).leader q := by
    by_contra! hno
    exact h (leaders_eq_of_leader_eq hno).symm
  obtain ⟨hlt, hkey⟩ := key_leader_byKey (fun q => (P.leader q, (moves q).map P.leader)) hq
  refine Finset.ssubset_iff_of_subset (fun r hr => ?_) |>.2 ⟨(P.refine moves).leader q, ?_, ?_⟩
  · obtain ⟨hr, hled⟩ := mem_heads.1 hr
    have hself := (P.refine moves).leader_le_self hr
    exact mem_heads.2 ⟨hr, Nat.le_antisymm hself (hled.ge.trans (hle hr))⟩
  · exact mem_heads.2 ⟨hlt, (led_byKey _ q hq).2⟩
  · intro hmem
    exact hne ((Prod.mk.inj hkey).1.symm.trans (mem_heads.1 hmem).2)

/-- Refining ends with the first round that splits no class, and each round before has given another
class a leader. -/
theorem exists_settle_eq_rounds (P : Partition n) (moves : Nat → List Nat) :
    ∃ k, k + P.heads.card ≤ n ∧ P.settle moves = P.rounds moves k ∧
      IsLeast {k | (P.rounds moves (k + 1)).leaders = (P.rounds moves k).leaders} k := by
  fun_induction settle P moves with
  | case1 P finer h =>
    refine ⟨0, ?_, rfl, h, fun k _ => Nat.zero_le k⟩
    have hcard : P.heads.card ≤ (Finset.range n).card := Finset.card_filter_le _ _
    rwa [Finset.card_range, ← Nat.zero_add P.heads.card] at hcard
  | case2 P finer h ih =>
    obtain ⟨k, hcard, heq, hfix, hleast⟩ := ih
    have hlt : P.heads.card < finer.heads.card := Finset.card_lt_card (heads_ssubset_heads_refine h)
    refine ⟨k + 1, by omega, heq.trans (rounds_refine P moves k), ?_, fun j hj => ?_⟩
    · show (P.rounds moves (k + 1 + 1)).leaders = (P.rounds moves (k + 1)).leaders
      rw [← rounds_refine P moves (k + 1), ← rounds_refine P moves k]
      exact hfix
    · cases j with
      | zero => exact absurd hj h
      | succ j =>
        refine Nat.succ_le_succ (hleast ?_)
        show (finer.rounds moves (j + 1)).leaders = (finer.rounds moves j).leaders
        rw [rounds_refine P moves (j + 1), rounds_refine P moves j]
        exact hj

end RegularLanguages.Partition
