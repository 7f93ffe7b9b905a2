import Mathlib
import RegularLanguages.Proofs.StateName
/-!
# Names compare as the texts that they show

A name can be shown one character at a time: `next?` takes the next character off a stack of what is
still to be shown, and its calls give the spelling of the stack character by character (`call_eq`). So
names are equal, are in order, and match a text, as the texts do that they show (`compares_as_text`).
-/

namespace RegularLanguages.StateName

variable {a b : StateName}

/-! ### One character at a time -/

/-- The next character that a stack shows, and what is left of the stack. -/
def next? : List Pending → Option (Char × List Pending)
  | [] => none
  | .name (atom text) :: stack => next? (.text text.toList :: stack)
  | .name (group members) :: stack => some ('[', .members members false :: stack)
  | .text [] :: stack => next? stack
  | .text (c :: cs) :: stack => some (c, .text cs :: stack)
  | .members [] _ :: stack => some (']', stack)
  | .members (n :: ns) false :: stack => next? (.name n :: .members ns true :: stack)
  | .members (n :: ns) true :: stack => some (',', .name n :: .members ns true :: stack)
termination_by stack => stack.foldr (fun f n => f.weight + n) 0
decreasing_by all_goals simp [Pending.weight, weight, weightOf] <;> omega

/-- What the `k`-th call for the next character answers, counted from 0. -/
def call : Nat → List Pending → Option Char
  | 0, stack => (next? stack).map (·.1)
  | k + 1, stack => (next? stack).bind fun r => call k r.2

/-- What a stack spells begins with its next character. -/
theorem spell_eq_next? (stack : List Pending) : spell stack =
    match next? stack with
    | none => []
    | some (c, rest) => c :: spell rest := by
  fun_induction next? stack with
  | case1 => rw [spell]
  | case2 text stack ih => rw [spell, ih]
  | case3 members stack => rw [spell]
  | case4 stack ih => rw [spell, ih]
  | case5 stack c cs => rw [spell]
  | case6 started stack => rw [spell]
  | case7 n ns stack ih => rw [spell, ih]
  | case8 n ns stack => rw [spell]

theorem call_eq (k : Nat) (stack : List Pending) : call k stack = (spell stack)[k]? := by
  induction k generalizing stack with
  | zero =>
    rw [call, spell_eq_next?]
    cases next? stack <;> rfl
  | succ k ih =>
    rw [call, spell_eq_next?]
    cases next? stack with
    | none => rfl
    | some r => exact ih r.2

theorem call_name (a : StateName) (k : Nat) : call k [.name a] = a.text.toList[k]? := by
  rw [call_eq, text, String.toList_ofList, ← spelling_eq_chars, spelling]

/-! ### Order of texts -/

theorem beq_iff_text : (a == b) = true ↔ a.text = b.text := beq_iff.trans text_inj.symm

/-- Lists of characters compare by the first place where they differ, and a list comes before those that
it begins. -/
theorem compare_list (cs ds : List Char) : compare cs ds = compareOfLessAndEq cs ds := by
  induction cs generalizing ds with
  | nil => cases ds <;> rfl
  | cons c cs ih =>
    cases ds with
    | nil => rfl
    | cons d ds =>
      rw [List.compare_cons_cons, ih]
      rcases lt_trichotomy c d with hlt | rfl | hgt
      · have hcons : c :: cs < d :: ds := List.cons_lt_cons_iff.2 (.inl hlt)
        rw [compare_lt_iff_lt.2 hlt, compareOfLessAndEq_eq_lt.2 hcons]
        rfl
      · simp only [Std.ReflCmp.compare_self, Ordering.eq_then, compareOfLessAndEq,
          List.cons_lt_cons_iff, lt_irrefl, false_or, true_and, List.cons.injEq]
      · have hcons : ¬ c :: cs < d :: ds := fun h =>
          (List.cons_lt_cons_iff.1 h).elim hgt.asymm fun h => hgt.ne' h.1
        have hne : c :: cs ≠ d :: ds := fun h => hgt.ne' (List.cons.inj h).1
        rw [compare_gt_iff_gt.2 hgt]
        show Ordering.gt = if c :: cs < d :: ds then .lt else if c :: cs = d :: ds then .eq else .gt
        rw [if_neg hcons, if_neg hne]

theorem compare_eq_text (a b : StateName) : compare a b = compareOfLessAndEq a.text b.text := by
  rw [compare_def, compare_list]
  simp only [compareOfLessAndEq, String.lt_iff_toList_lt, text_inj]
  simp only [text, String.toList_ofList]

/-- A merger shows which texts are merged, whatever their order and however often they are given. -/
theorem merge_beq_merge {ms ns : List StateName} (h : ∀ s, s ∈ ms.map text ↔ s ∈ ns.map text) :
    (merge ms == merge ns) = true := by
  rw [beq_iff]
  refine chars_merge_eq fun cs => ?_
  have hmem (ks : List StateName) : cs ∈ ks.map chars ↔ String.ofList cs ∈ ks.map text := by
    simp only [List.mem_map, text, String.ofList_inj]
  rw [hmem, hmem, h]

/-- The walk over a name gives the text that it shows character by character, and then nothing more. Names
are equal, are in order, and match a text as the texts do that they show; the order is total, and names are
equal if it does not tell them apart. Mergers are equal if the same texts are merged. -/
theorem compares_as_text (a b c : StateName) (t : String) :
    (∀ k, call k [.name a] = a.text.toList[k]?) ∧
      ((a == b) = true ↔ a.text = b.text) ∧
      compare a b = compareOfLessAndEq a.text b.text ∧
      (compare a b = .eq ↔ (a == b) = true) ∧
      compare b a = (compare a b).swap ∧
      ((compare a b).isLE → (compare b c).isLE → (compare a c).isLE) ∧
      (a.hasText t = true ↔ a.text = t) ∧
      ∀ ms ns : List StateName, (∀ s, s ∈ ms.map text ↔ s ∈ ns.map text) →
        (merge ms == merge ns) = true := by
  refine ⟨call_name a, beq_iff_text, compare_eq_text a b, ?_, Std.OrientedCmp.eq_swap,
    Std.TransCmp.isLE_trans, hasText_iff, fun ms ns => merge_beq_merge⟩
  rw [compare_def, beq_iff, Std.compare_eq_iff_eq]

/-- The first name is merged of nothing and of a name, and the second one only looks like it. -/
theorem compares_as_text_lookalikes :
    let merged := merge [atom "q1", group []]
    let lookalike := atom "[[],q1]"
    call 5 [.name merged] = some '1' ∧ (merged == lookalike) = true ∧
      merged.hasText "[[],q1]" = true ∧
      (compare merged lookalike).isLE ∧ (compare lookalike (atom "q0")).isLE ∧
      (compare merged (atom "q0")).isLE ∧
      (merge [atom "q1", atom "[q0]", atom "q1"] == merge [merge [atom "q0"], atom "q1"]) = true := by
  intro merged lookalike
  have htext : merged.text = "[[],q1]" := by cbv
  have hle : (compare merged lookalike).isLE := by cbv
  have hle' : (compare lookalike (atom "q0")).isLE := by cbv
  have hms : [atom "q1", atom "[q0]", atom "q1"].map text = ["q1", "[q0]", "q1"] := by cbv
  have hns : [merge [atom "q0"], atom "q1"].map text = ["[q0]", "q1"] := by cbv
  obtain ⟨hcall, heq, -, -, -, htrans, hmatch, hmerge⟩ :=
    compares_as_text merged lookalike (atom "q0") "[[],q1]"
  refine ⟨?_, heq.2 ?_, hmatch.2 htext, hle, hle', htrans hle hle', hmerge _ _ fun s => ?_⟩
  · rw [hcall, htext]
    rfl
  · rw [htext]
    cbv
  · rw [hms, hns]
    simp only [List.mem_cons, List.not_mem_nil, or_false]
    tauto

end RegularLanguages.StateName
