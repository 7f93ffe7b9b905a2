import Mathlib.Tactic.Common
import RegularLanguages.StateName
/-!
# Reading names back

Names of which no text has a bracket or a comma are read back from what they show
(`Clean.chars_inj`). Merging adds nothing to the names that are merged, and a merger is
told from all other names as long as none of these can be assembled by merging (`Free`).
-/

namespace RegularLanguages.StateName

/-- Brackets and commas show how names are merged. -/
def IsMark (c : Char) : Prop := c = '[' ∨ c = ']' ∨ c = ','

/-- No text in the name has a bracket or a comma, and nothing is merged of no names. -/
inductive Clean : StateName → Prop
  | atom {text : String} (h : ∀ c ∈ text.toList, ¬ IsMark c) : Clean (atom text)
  | group {members : List StateName} (hne : members ≠ []) (h : ∀ m ∈ members, Clean m) :
      Clean (group members)

/-- The text `a` stands in the name. -/
inductive Involves (a : String) : StateName → Prop
  | atom : Involves a (atom a)
  | group {members : List StateName} {m : StateName} (hm : m ∈ members) (h : Involves a m) :
      Involves a (group members)

/-- Names of `N`, mergers of several of them, mergers of several of those, and so on. -/
inductive Assembled (N : StateName → Prop) : StateName → Prop
  | name {n : StateName} (h : N n) : Assembled N n
  | group {members : List StateName} {m m' : StateName} (hm : m ∈ members) (hm' : m' ∈ members)
      (hne : m ≠ m') (h : ∀ k ∈ members, Assembled N k) : Assembled N (group members)

/-- Whatever is merged of names in `N`, no merger is in `N` itself. -/
def Free (N : StateName → Prop) : Prop :=
  ∀ members m m', m ∈ members → m' ∈ members → m ≠ m' → (∀ k ∈ members, Assembled N k) →
    ¬ N (group members)

variable {m n : StateName} {ms ns : List StateName} {r s : List Char} {N N' : StateName → Prop}

/-! ### Texts of names -/

/-- What can follow a name: nothing, a comma or a closing bracket. -/
def Ends (r : List Char) : Prop := ∀ c, r.head? = some c → c = ',' ∨ c = ']'

theorem ends_nil : Ends [] := fun _ h => by cases h

theorem ends_tailChars (ms : List StateName) (r : List Char) : Ends (tailChars ms ++ r) := by
  intro c h
  cases ms with
  | nil => exact .inr (Option.some.inj h).symm
  | cons m ms => exact .inl (Option.some.inj h).symm

theorem Ends.isMark {c : Char} (h : Ends (c :: r)) : IsMark c :=
  (h c rfl).elim (fun h => .inr (.inr h)) fun h => .inr (.inl h)

theorem not_ends_bracket : ¬ Ends ('[' :: r) := fun h => by
  rcases h '[' rfl with h | h <;> cases h

theorem append_inj_of_ends {cs ds : List Char} (hc : ∀ c ∈ cs, ¬ IsMark c)
    (hd : ∀ c ∈ ds, ¬ IsMark c) (hr : Ends r) (hs : Ends s) (h : cs ++ r = ds ++ s) :
    cs = ds ∧ r = s := by
  induction cs generalizing ds with
  | nil =>
    cases ds with
    | nil => exact ⟨rfl, h⟩
    | cons d ds =>
      obtain rfl : r = d :: (ds ++ s) := h
      exact absurd hr.isMark (hd d List.mem_cons_self)
  | cons c cs ih =>
    cases ds with
    | nil =>
      obtain rfl : c :: (cs ++ r) = s := h
      exact absurd hs.isMark (hc c List.mem_cons_self)
    | cons d ds =>
      simp only [List.cons_append, List.cons.injEq] at h
      obtain ⟨rfl, htail⟩ := h
      obtain ⟨rfl, hrest⟩ := ih (fun x hx => hc x (List.mem_cons_of_mem _ hx))
        (fun x hx => hd x (List.mem_cons_of_mem _ hx)) htail
      exact ⟨rfl, hrest⟩

/-- What a clean name shows is told from what a group shows, whatever follows. -/
theorem atom_append_ne_group {text : String} (ht : ∀ c ∈ text.toList, ¬ IsMark c) (hr : Ends r) :
    (atom text).chars ++ r ≠ (group ms).chars ++ s := by
  rw [chars, chars]
  cases htext : text.toList with
  | nil =>
    intro h
    obtain rfl : r = '[' :: (charsOf ms ++ s) := h
    exact not_ends_bracket hr
  | cons c cs =>
    intro h
    obtain rfl : c = '[' := (List.cons.inj h).1
    exact ht '[' (htext ▸ List.mem_cons_self) (.inl rfl)

/-- The name is told by what it shows, and so is where it ends. -/
def ReadsBack (m : StateName) : Prop :=
  ∀ n r s, n.Clean → Ends r → Ends s → m.chars ++ r = n.chars ++ s → m = n ∧ r = s

theorem tailChars_append_inj (hms : ∀ m ∈ ms, ReadsBack m) (hns : ∀ n ∈ ns, Clean n)
    (h : tailChars ms ++ r = tailChars ns ++ s) : ms = ns ∧ r = s := by
  induction ms generalizing ns with
  | nil =>
    cases ns with
    | nil => exact ⟨rfl, (List.cons.inj h).2⟩
    | cons n ns => exact absurd (List.cons.inj h).1 (by decide)
  | cons m ms ih =>
    cases ns with
    | nil => exact absurd (List.cons.inj h).1 (by decide)
    | cons n ns =>
      simp only [tailChars, List.cons_append, List.append_assoc, List.cons.injEq, true_and] at h
      obtain ⟨rfl, htail⟩ := hms m List.mem_cons_self n _ _ (hns n List.mem_cons_self)
        (ends_tailChars ms r) (ends_tailChars ns s) h
      obtain ⟨rfl, hrest⟩ := ih (fun k hk => hms k (List.mem_cons_of_mem _ hk))
        (fun k hk => hns k (List.mem_cons_of_mem _ hk)) htail
      exact ⟨rfl, hrest⟩

theorem Clean.readsBack (hm : m.Clean) : m.ReadsBack := by
  induction hm with
  | atom ht =>
    intro n r s hn hr hs h
    cases hn with
    | atom hu =>
      rw [chars, chars] at h
      obtain ⟨htext, h⟩ := append_inj_of_ends ht hu hr hs h
      exact ⟨congrArg StateName.atom (String.toList_inj.1 htext), h⟩
    | group _ _ => exact absurd h (atom_append_ne_group ht hr)
  | @group ms hne _ ih =>
    intro n r s hn hr hs h
    cases hn with
    | atom hu => exact absurd h.symm (atom_append_ne_group hu hs)
    | @group ns hne' hns =>
      obtain ⟨m, ms, rfl⟩ := List.exists_cons_of_ne_nil hne
      obtain ⟨n, ns, rfl⟩ := List.exists_cons_of_ne_nil hne'
      simp only [chars, charsOf, List.cons_append, List.append_assoc, List.cons.injEq, true_and] at h
      obtain ⟨rfl, htail⟩ := ih m List.mem_cons_self n _ _ (hns n List.mem_cons_self)
        (ends_tailChars ms r) (ends_tailChars ns s) h
      obtain ⟨rfl, hrest⟩ := tailChars_append_inj (fun k hk => ih k (List.mem_cons_of_mem _ hk))
        (fun k hk => hns k (List.mem_cons_of_mem _ hk)) htail
      exact ⟨rfl, hrest⟩

/-- Clean names that show the same text are the same. -/
theorem Clean.chars_inj (hm : m.Clean) (hn : n.Clean) (h : m.chars = n.chars) : m = n :=
  (hm.readsBack n [] [] hn ends_nil ends_nil (by rw [h])).1

/-! ### Mergers -/

theorem mem_insertSorted_of_clean (hn : n.Clean) (hms : ∀ k ∈ ms, Clean k) :
    m ∈ insertSorted n ms ↔ m = n ∨ m ∈ ms := by
  induction ms with
  | nil => simp [insertSorted]
  | cons k ms ih =>
    have hk := hms k List.mem_cons_self
    rw [insertSorted]
    split
    · exact List.mem_cons
    · -- only equal names show the same text, so nothing is left out
      rename_i heq
      rw [compare_def, Std.compare_eq_iff_eq] at heq
      obtain rfl := hn.chars_inj hk heq
      exact ⟨.inr, fun h => h.elim (fun h => h ▸ List.mem_cons_self) id⟩
    · rw [List.mem_cons, List.mem_cons, ih fun k hk => hms k (List.mem_cons_of_mem _ hk)]
      exact or_left_comm

theorem mem_foldr_insertSorted (hns : ∀ n ∈ ns, Clean n) :
    m ∈ ns.foldr insertSorted [] ↔ m ∈ ns := by
  induction ns generalizing m with
  | nil => exact Iff.rfl
  | cons n ns ih =>
    have hns' : ∀ k ∈ ns, Clean k := fun k hk => hns k (List.mem_cons_of_mem _ hk)
    rw [List.foldr_cons, mem_insertSorted_of_clean (hns n List.mem_cons_self)
      fun k hk => hns' k ((ih hns').1 hk), ih hns', List.mem_cons]

/-- The merger of clean names has these names for its members. -/
theorem exists_merge_eq (hns : ∀ n ∈ ns, Clean n) :
    ∃ ms, merge ns = group ms ∧ ∀ m, m ∈ ms ↔ m ∈ ns :=
  ⟨_, rfl, fun _ => mem_foldr_insertSorted hns⟩

theorem clean_merge (hne : ns ≠ []) (hns : ∀ n ∈ ns, Clean n) : (merge ns).Clean := by
  obtain ⟨ms, h, hmem⟩ := exists_merge_eq hns
  obtain ⟨n, ns, rfl⟩ := List.exists_cons_of_ne_nil hne
  rw [h]
  exact .group (List.ne_nil_of_mem ((hmem n).2 List.mem_cons_self)) fun m hm => hns m ((hmem m).1 hm)

theorem involves_merge {a : String} (hns : ∀ n ∈ ns, Clean n) :
    (merge ns).Involves a ↔ ∃ n ∈ ns, n.Involves a := by
  obtain ⟨ms, h, hmem⟩ := exists_merge_eq hns
  rw [h]
  constructor
  · intro h
    cases h with
    | group hm h => exact ⟨_, (hmem _).1 hm, h⟩
  · rintro ⟨n, hn, h⟩
    exact .group ((hmem n).2 hn) h

/-- Mergers of clean names are the same only if the same names are merged. -/
theorem mem_iff_of_merge_eq (hms : ∀ m ∈ ms, Clean m) (hns : ∀ n ∈ ns, Clean n)
    (h : merge ms = merge ns) : m ∈ ms ↔ m ∈ ns := by
  rw [← mem_foldr_insertSorted hms, ← mem_foldr_insertSorted hns]
  rw [merge, merge, StateName.group.injEq] at h
  rw [h]

theorem Clean.exists_involves (h : n.Clean) : ∃ a, n.Involves a := by
  induction h with
  | atom _ => exact ⟨_, .atom⟩
  | group hne _ ih =>
    obtain ⟨m, ms, rfl⟩ := List.exists_cons_of_ne_nil hne
    obtain ⟨a, ha⟩ := ih m List.mem_cons_self
    exact ⟨a, .group List.mem_cons_self ha⟩

theorem clean_numbered (k : Nat) : (numbered k).Clean := by
  refine .atom fun c hc => ?_
  rw [String.toList_append, Nat.toString_eq_repr, Nat.toList_repr] at hc
  rcases List.mem_append.1 hc with hc | hc
  · obtain rfl : c = 'q' := List.mem_singleton.1 hc
    rintro (h | h | h) <;> cases h
  · have hdigit : c.isDigit = true := Nat.isDigit_of_mem_toDigits (by decide) (by decide) hc
    rintro (rfl | rfl | rfl) <;> cases hdigit

theorem involves_atom {a text : String} : Involves a (atom text) ↔ a = text := by
  constructor
  · intro h
    cases h
    rfl
  · rintro rfl
    exact .atom

theorem charsOf_congr (h : ms.map chars = ns.map chars) : charsOf ms = charsOf ns := by
  have htail : ∀ {ms ns : List StateName}, ms.map chars = ns.map chars → tailChars ms = tailChars ns := by
    intro ms
    induction ms with
    | nil =>
      intro ns h
      rw [List.map_eq_nil_iff.1 h.symm]
    | cons m ms ih =>
      intro ns h
      obtain ⟨n, ns, rfl, hn, hns⟩ := List.map_eq_cons_iff.1 h.symm
      rw [tailChars, tailChars, hn, ih hns.symm]
  cases ms with
  | nil => rw [List.map_eq_nil_iff.1 h.symm]
  | cons m ms =>
    obtain ⟨n, ns, rfl, hn, hns⟩ := List.map_eq_cons_iff.1 h.symm
    rw [charsOf, charsOf, hn, htail hns.symm]

theorem map_chars_insertSorted (n : StateName) (ms : List StateName) :
    (insertSorted n ms).map chars = insertSorted n.chars (ms.map chars) := by
  induction ms with
  | nil => rfl
  | cons m ms ih =>
    rw [insertSorted, List.map_cons, insertSorted, compare_def]
    cases compare n.chars m.chars with
    | lt => rfl
    | eq => rfl
    | gt => rw [List.map_cons, ih]

theorem map_chars_foldr_insertSorted (ns : List StateName) :
    (ns.foldr insertSorted []).map chars = (SortedSet.ofList (ns.map chars)).toList := by
  induction ns with
  | nil => rfl
  | cons n ns ih =>
    rw [List.foldr_cons, map_chars_insertSorted, ih]
    rfl

/-- A merger shows which texts are merged and nothing else. -/
theorem chars_merge_eq (h : ∀ cs, cs ∈ ms.map chars ↔ cs ∈ ns.map chars) :
    (merge ms).chars = (merge ns).chars := by
  have hset : SortedSet.ofList (ms.map chars) = SortedSet.ofList (ns.map chars) :=
    SortedSet.ext fun cs => by rw [SortedSet.mem_ofList, SortedSet.mem_ofList, h]
  rw [merge, merge, chars, chars]
  refine congrArg _ (charsOf_congr ?_)
  rw [map_chars_foldr_insertSorted, map_chars_foldr_insertSorted, hset]

/-! ### Names that are free of mergers -/

theorem Assembled.trans (h : ∀ n, N' n → Assembled N n) (hn : Assembled N' n) : Assembled N n := by
  induction hn with
  | name hn => exact h _ hn
  | group hm hm' hne _ ih => exact .group hm hm' hne ih

theorem Free.mono (hN : Free N) (h : ∀ n, N' n → N n) : Free N' :=
  fun ms m m' hm hm' hne hall hmem =>
    hN ms m m' hm hm' hne (fun k hk => (hall k hk).trans fun n hn => .name (h n hn)) (h _ hmem)

/-- Names stay free when some are merged and others kept, as long as none is both. -/
theorem Free.merge {K M : StateName → Prop} (hN : Free N) (hkept : ∀ n, K n → N n)
    (hmerged : ∀ n, M n → ∃ ms m m', n = group ms ∧ m ∈ ms ∧ m' ∈ ms ∧ m ≠ m' ∧
      ∀ k ∈ ms, N k ∧ ¬ K k) : Free fun n => K n ∨ M n := by
  have hassembled : ∀ n, M n → Assembled N n := by
    intro n hn
    obtain ⟨ms, m, m', rfl, hm, hm', hne, hms⟩ := hmerged n hn
    exact .group hm hm' hne fun k hk => .name (hms k hk).1
  have hback : ∀ n, Assembled (fun n => K n ∨ M n) n → Assembled N n := fun n hn =>
    hn.trans fun n hn => hn.elim (fun hn => .name (hkept n hn)) (hassembled n)
  intro ms m m' hm hm' hne hall hmem
  rcases hmem with hmem | hmem
  · exact hN ms m m' hm hm' hne (fun k hk => hback k (hall k hk)) (hkept _ hmem)
  · obtain ⟨ms', -, -, hms', -, -, -, hms⟩ := hmerged _ hmem
    obtain rfl := StateName.group.inj hms'
    obtain ⟨hN', hno⟩ := hms m hm
    -- a member is in `N`, so it is no merger of names that are assembled
    cases hall m hm with
    | name h =>
      rcases h with h | h
      · exact hno h
      · obtain ⟨ks, k, k', rfl, hk, hk', hkk, hks⟩ := hmerged m h
        exact hN ks k k' hk hk' hkk (fun j hj => .name (hks j hj).1) hN'
    | group hk hk' hkk hks => exact hN _ _ _ hk hk' hkk (fun j hj => hback j (hks j hj)) hN'

/-- What is assembled of names, and does not involve `a`, is no smaller than some name without `a`,
and involves what that name does. -/
theorem Assembled.exists_name {a : String} (hn : Assembled N n) (ha : ¬ n.Involves a) :
    ∃ k, N k ∧ ¬ k.Involves a ∧ sizeOf k ≤ sizeOf n ∧ ∀ b, k.Involves b → n.Involves b := by
  induction hn with
  | name hn => exact ⟨_, hn, ha, Nat.le_refl _, fun _ h => h⟩
  | @group ms m _ hm _ _ _ ih =>
    obtain ⟨k, hk, hka, hle, hb⟩ := ih m hm fun h => ha (.group hm h)
    have hlt : sizeOf m < sizeOf ms := List.sizeOf_lt_of_mem hm
    refine ⟨k, hk, hka, ?_, fun b h => .group hm (hb b h)⟩
    rw [StateName.group.sizeOf_spec]
    omega

/-- Names with no text in common, and sets of them as names: the sets are free, and so they are with one
more name that is not merged. -/
theorem free_of_apart {a : String} (hclean : ∀ n, N n → n.Clean)
    (hapart : ∀ m n b, N m → N n → m.Involves b → n.Involves b → m = n)
    (hN' : ∀ n, N' n → n = atom a ∨ ∃ ms, n = group ms ∧ ms ≠ [] ∧ ∀ m ∈ ms, N m) : Free N' := by
  intro ms m m' hm hm' hne hall hmem
  obtain h | ⟨ms', hms', -, hms⟩ := hN' _ hmem
  · cases h
  obtain rfl := StateName.group.inj hms'
  -- `a` stands in one of the members at most
  obtain ⟨k, hk, ha⟩ : ∃ k ∈ ms, ¬ k.Involves a := by
    by_cases ha : m.Involves a
    · exact ⟨m', hm', fun ha' => hne (hapart m m' a (hms m hm) (hms m' hm') ha ha')⟩
    · exact ⟨m, hm, ha⟩
  obtain ⟨j, hj, hja, hle, hb⟩ := (hall k hk).exists_name ha
  obtain rfl | ⟨js, rfl, hjne, hjs⟩ := hN' j hj
  · exact hja .atom
  -- some member of the set is `k` itself, and the set is no larger than `k`
  obtain ⟨x, xs, rfl⟩ := List.exists_cons_of_ne_nil hjne
  have hx := hjs x List.mem_cons_self
  obtain ⟨b, hxb⟩ := (hclean x hx).exists_involves
  obtain rfl := hapart x k b hx (hms k hk) hxb (hb b (.group List.mem_cons_self hxb))
  simp only [StateName.group.sizeOf_spec, List.cons.sizeOf_spec] at hle
  omega

/-- Groups with only one member are not mergers. -/
theorem free_of_single (h : ∀ ms, N (group ms) → ∀ m ∈ ms, ∀ m' ∈ ms, m = m') : Free N :=
  fun ms m m' hm hm' hne _ hmem => hne (h ms hmem m hm m' hm')

end RegularLanguages.StateName
