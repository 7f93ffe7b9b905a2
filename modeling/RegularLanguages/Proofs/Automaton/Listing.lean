import Mathlib
import RegularLanguages.Proofs.Automaton.Draft
import RegularLanguages.Proofs.Automaton.Levels
/-!
# The listing of the accepted words

The calls of a listing return the accepted words, shorter ones first and those of one length in the
order of their characters, each once, and then nothing (`call_lists_accepted`). A listing goes level by
level; it returns what a queue of words returns, and every call on the queue comes to an end
(`exists_queueAfter`).
-/

namespace RegularLanguages.Automaton

/-- The listing after some calls. One that has no further word stays as it is. -/
def listingAfter (A : Automaton) : Nat → Listing
  | 0 => A.listing
  | k + 1 => ((A.nextWord (A.listingAfter k)).map Prod.snd).getD (A.listingAfter k)

/-- What a call returns, the calls being counted from 0. -/
def call (A : Automaton) (k : Nat) : Option String :=
  (A.nextWord (A.listingAfter k)).map fun r => wordText r.1

/-- Shorter words first, words of one length in the order of their characters. -/
def Precedes (v w : String) : Prop := List.Shortlex (· < ·) v.toList w.toList

def accepted (A : Automaton) : Set String := {w | A.accepts w = .ok true}

/-- The accepted words of fewer than `n` characters, in order. -/
def acceptedBelow (A : Automaton) (n : Nat) : List String :=
  (List.range n).flatMap fun m => (A.acceptedAt m).map wordText

/-- A call on a queue of words. Words are taken from its front, and those that extend them put at its
back, until one is accepted. -/
inductive Next (A : Automaton) : Level → Option (List Symbol × Level) → Prop
  | ended : Next A [] none
  | found {s : SortedSet State} {w : List Symbol} {queue : Level} (h : A.meetsFinal s = true) :
      Next A ((s, w) :: queue) (some (w, queue ++ A.nextLevel [(s, w)]))
  | passed {s : SortedSet State} {w : List Symbol} {queue : Level}
      {r : Option (List Symbol × Level)} (h : A.meetsFinal s = false)
      (hr : Next A (queue ++ A.nextLevel [(s, w)]) r) : Next A ((s, w) :: queue) r

/-- The queue after some calls. -/
inductive QueueAfter (A : Automaton) : Nat → Level → Prop
  | start : QueueAfter A 0 A.firstLevel
  | call {k : Nat} {queue : Level} {r : Option (List Symbol × Level)} (h : QueueAfter A k queue)
      (hr : Next A queue r) : QueueAfter A (k + 1) ((r.map Prod.snd).getD [])

variable {A : Automaton} {l l' : Listing} {w : List Symbol} {k m n : Nat}

/-! ### Accepted words in order -/

theorem Precedes.asymm {v w : String} (h : Precedes v w) : ¬ Precedes w v :=
  Std.Asymm.asymm (r := List.Shortlex (α := Char) (· < ·)) _ _ h

theorem toList_wordText (w : List Symbol) : (wordText w).toList = spell w := String.toList_ofList

theorem mem_accepted {w : String} : w ∈ A.accepted ↔ w.toList ∈ A.language := accepts_eq_ok_true

theorem mem_map_acceptedAt {w : String} :
    w ∈ (A.acceptedAt n).map wordText ↔ w.toList.length = n ∧ w ∈ A.accepted := by
  rw [mem_accepted, List.mem_map]
  constructor
  · rintro ⟨w, hw, rfl⟩
    rw [toList_wordText, length_spell]
    exact mem_acceptedAt.1 hw
  · rintro ⟨hn, hw⟩
    obtain ⟨v, hv, -⟩ := exists_spell (symbol?_isSome_of_mem_language hw)
    rw [← hv] at hn hw
    refine ⟨v, mem_acceptedAt.2 ⟨by rwa [length_spell] at hn, hw⟩, String.toList_injective ?_⟩
    rw [toList_wordText, hv]

theorem acceptedBelow_succ (n : Nat) :
    A.acceptedBelow (n + 1) = A.acceptedBelow n ++ (A.acceptedAt n).map wordText := by
  rw [acceptedBelow, acceptedBelow, List.range_succ, List.flatMap_append, List.flatMap_singleton]

theorem mem_acceptedBelow {w : String} :
    w ∈ A.acceptedBelow n ↔ w.toList.length < n ∧ w ∈ A.accepted := by
  simp only [acceptedBelow, List.mem_flatMap, List.mem_range, mem_map_acceptedAt]
  constructor
  · rintro ⟨m, hm, rfl, hw⟩
    exact ⟨hm, hw⟩
  · rintro ⟨hn, hw⟩
    exact ⟨_, hn, rfl, hw⟩

theorem prefix_acceptedBelow (h : m ≤ n) : A.acceptedBelow m <+: A.acceptedBelow n := by
  induction h with
  | refl => exact List.prefix_rfl
  | step _ ih => exact ih.trans (acceptedBelow_succ _ ▸ List.prefix_append _ _)

theorem acceptedBelow_eq (h : ∀ i, m ≤ i → i < n → A.acceptedAt i = []) (hmn : m ≤ n) :
    A.acceptedBelow n = A.acceptedBelow m := by
  induction hmn with
  | refl => rfl
  | step hmn ih =>
    rw [acceptedBelow_succ, h _ hmn (Nat.lt_succ_self _), List.map_nil, List.append_nil]
    exact ih fun i hm hi => h i hm (Nat.lt_succ_of_lt hi)

theorem pairwise_acceptedBelow (A : Automaton) (n : Nat) :
    (A.acceptedBelow n).Pairwise Precedes := by
  rw [acceptedBelow, List.pairwise_flatMap]
  constructor
  · intro m _
    refine List.pairwise_map.2 (((pairwise_wordsOver A.alphabet m).filter _).imp_of_mem ?_)
    intro v w hv hw h
    rw [Precedes, toList_wordText, toList_wordText]
    refine .of_lex ?_ h
    rw [length_spell, length_spell, (mem_acceptedAt.1 hv).1, (mem_acceptedAt.1 hw).1]
  · refine List.pairwise_lt_range.imp fun {i j} hij v hv w hw => .of_length_lt ?_
    rwa [(mem_map_acceptedAt.1 hv).1, (mem_map_acceptedAt.1 hw).1]

theorem encard_mem {α : Type} {l : List α} (h : l.Nodup) : {x | x ∈ l}.encard = l.length := by
  classical
  rw [← List.coe_toFinset, Set.encard_coe_eq_coe_finsetCard, List.toFinset_card_of_nodup h]

theorem nodup_acceptedBelow (A : Automaton) (n : Nat) : (A.acceptedBelow n).Nodup :=
  (pairwise_acceptedBelow A n).imp fun h => by
    rintro rfl
    exact h.asymm h

/-- A word has its place among the accepted words that precede it. -/
theorem encard_precedes {w : String} (h : (A.acceptedBelow n)[k]? = some w) :
    {v ∈ A.accepted | Precedes v w}.encard = k := by
  obtain ⟨hk, hw⟩ := List.getElem?_eq_some_iff.1 h
  have hsplit : A.acceptedBelow n =
      (A.acceptedBelow n).take k ++ w :: (A.acceptedBelow n).drop (k + 1) := by
    rw [← hw, List.cons_getElem_drop_succ, List.take_append_drop]
  have hsorted := pairwise_acceptedBelow A n
  rw [hsplit, List.pairwise_append, List.pairwise_cons] at hsorted
  obtain ⟨-, ⟨hafter, -⟩, hbefore⟩ := hsorted
  have hset : {v ∈ A.accepted | Precedes v w} = {v | v ∈ (A.acceptedBelow n).take k} := by
    ext v
    constructor
    · rintro ⟨hv, hlt⟩
      have hle : v.toList.length ≤ w.toList.length := by
        rcases List.shortlex_def.1 hlt with h | h <;> omega
      have hwn := (mem_acceptedBelow.1 (List.mem_of_getElem? h)).1
      have hmem := mem_acceptedBelow.2 ⟨Nat.lt_of_le_of_lt hle hwn, hv⟩
      rw [hsplit, List.mem_append, List.mem_cons] at hmem
      rcases hmem with hmem | rfl | hmem
      · exact hmem
      · exact absurd hlt hlt.asymm
      · exact absurd hlt (hafter v hmem).asymm
    · intro hv
      exact ⟨(mem_acceptedBelow.1 (List.mem_of_mem_take hv)).2, hbefore v hv w List.mem_cons_self⟩
  rw [hset, encard_mem ((nodup_acceptedBelow A n).sublist (List.take_sublist _ _)),
    List.length_take_of_le hk.le]

theorem not_encard_accepted_le {w : String} (h : (A.acceptedBelow n)[k]? = some w) :
    ¬ A.accepted.encard ≤ k := by
  intro hle
  have hsub : {v | v ∈ A.acceptedBelow n} ⊆ A.accepted := fun v hv => (mem_acceptedBelow.1 hv).2
  have hlen := (Set.encard_mono hsub).trans hle
  rw [encard_mem (nodup_acceptedBelow A n), Nat.cast_le] at hlen
  obtain ⟨hk, -⟩ := List.getElem?_eq_some_iff.1 h
  omega

theorem getElem?_acceptedBelow_unique {v w : String} (hv : (A.acceptedBelow m)[k]? = some v)
    (hw : (A.acceptedBelow n)[k]? = some w) : v = w := by
  obtain ⟨hm, rfl⟩ := List.getElem?_eq_some_iff.1 hv
  obtain ⟨hn, rfl⟩ := List.getElem?_eq_some_iff.1 hw
  rw [(prefix_acceptedBelow (Nat.le_max_left m n)).getElem hm,
    (prefix_acceptedBelow (Nat.le_max_right m n)).getElem hn]

/-! ### Calls of the listing -/

/-- The listing is at a level, and has returned the shorter accepted words and some of the level. -/
structure Listing.StandsAt (l : Listing) (A : Automaton) (n : Nat) (given : List String) : Prop where
  level_eq : l.level = A.level n
  words_eq : A.acceptedBelow (n + 1) = given ++ l.words.map wordText

section Calls
variable (hA : A.WellFormed) {given : List String}
include hA

theorem standsAt_listing : A.listing.StandsAt A 0 [] := by
  refine ⟨rfl, ?_⟩
  have hwords : A.acceptedWords A.firstLevel = A.acceptedAt 0 := acceptedWords_level hA 0
  rw [acceptedBelow_succ, listing, hwords]
  rfl

theorem Listing.StandsAt.descend {level : Level} (h : Listing.StandsAt ⟨level, []⟩ A n given) :
    Listing.StandsAt ⟨A.nextLevel level, A.acceptedWords (A.nextLevel level)⟩ A (n + 1) given := by
  have hlevel : A.nextLevel level = A.level (n + 1) := congrArg A.nextLevel h.level_eq
  refine ⟨hlevel, ?_⟩
  rw [acceptedBelow_succ, h.words_eq, List.map_nil, List.append_nil, hlevel, acceptedWords_level hA]

/-- A call that returns a word returns the next one. -/
theorem Listing.StandsAt.nextWordWithin_eq_some (h : l.StandsAt A n given)
    (hw : A.nextWordWithin m l = some (w, l')) :
    ∃ n', l'.StandsAt A n' (given ++ [wordText w]) := by
  fun_induction nextWordWithin A m l generalizing n with
  | case1 m level w words =>
    cases hw
    exact ⟨n, h.level_eq, by rw [h.words_eq]; simp⟩
  | case2 => cases hw
  | case3 => cases hw
  | case4 =>
    rename_i ih
    exact ih (h.descend hA) hw

/-- A call that returns nothing has found no word on the levels that it looked at. -/
theorem Listing.StandsAt.nextWordWithin_eq_none (h : l.StandsAt A n given)
    (hw : A.nextWordWithin m l = none) : A.acceptedBelow (n + m + 1) = given := by
  fun_induction nextWordWithin A m l generalizing n with
  | case1 => cases hw
  | case2 m =>
    have hempty : ∀ i, n + 1 ≤ i → i < n + m + 1 → A.acceptedAt i = [] := by
      intro i hi _
      rw [← acceptedWords_level hA, level_eq_nil h.level_eq.symm (Nat.le_of_succ_le hi)]
      rfl
    rw [acceptedBelow_eq hempty (by omega), h.words_eq, List.map_nil, List.append_nil]
  | case3 => rw [Nat.add_zero, h.words_eq, List.map_nil, List.append_nil]
  | case4 =>
    rename_i ih
    rw [← ih (h.descend hA) hw]
    congr 1
    omega

/-- The levels that a call looks at suffice: if it returns nothing, nothing is left. -/
theorem Listing.StandsAt.nextWord_eq_none (h : l.StandsAt A n given) (hw : A.nextWord l = none) :
    l.words = [] ∧ A.level (n + 1) = [] ∧ A.acceptedBelow (n + 1) = given := by
  have hlast := h.nextWordWithin_eq_none hA hw
  have hprefix : A.acceptedBelow (n + 1) <+: A.acceptedBelow (n + A.size + 1) :=
    prefix_acceptedBelow (by omega)
  rw [hlast, h.words_eq] at hprefix
  have hwords : l.words = [] := by
    have hlen := hprefix.length_le
    rw [List.length_append, List.length_map] at hlen
    exact List.eq_nil_of_length_eq_zero (by omega)
  have hbelow : A.acceptedBelow (n + 1) = given := by
    rw [h.words_eq, hwords, List.map_nil, List.append_nil]
  refine ⟨hwords, ?_, hbelow⟩
  by_contra hne
  obtain ⟨i, hi, hin, hne⟩ := exists_acceptedAt hA hne
  obtain ⟨v, hv⟩ := List.exists_mem_of_ne_nil _ hne
  have hv := mem_map_acceptedAt.1 (List.mem_map_of_mem (f := wordText) hv)
  have hmem : wordText v ∈ A.acceptedBelow (n + A.size + 1) :=
    mem_acceptedBelow.2 ⟨by omega, hv.2⟩
  rw [hlast, ← hbelow] at hmem
  have := (mem_acceptedBelow.1 hmem).1
  omega

theorem exists_standsAt (k : Nat) :
    ∃ n given, (A.listingAfter k).StandsAt A n given ∧ given.length ≤ k ∧
      (given.length = k ∨ A.nextWord (A.listingAfter k) = none) := by
  induction k with
  | zero => exact ⟨0, [], standsAt_listing hA, Nat.le_refl _, .inl rfl⟩
  | succ k ih =>
    obtain ⟨n, given, h, hle, hk⟩ := ih
    rw [listingAfter]
    cases hw : A.nextWord (A.listingAfter k) with
    | none => exact ⟨n, given, h, Nat.le_succ_of_le hle, .inr hw⟩
    | some r =>
      obtain ⟨n', h'⟩ := h.nextWordWithin_eq_some hA hw
      have hlen : given.length = k := hk.resolve_right (by rw [hw]; nofun)
      exact ⟨n', _, h', by simp [hlen], .inl (by simp [hlen])⟩

theorem getElem?_of_call {w : String} (h : A.call k = some w) :
    ∃ n, (A.acceptedBelow n)[k]? = some w := by
  obtain ⟨n, given, hs, -, hk⟩ := exists_standsAt hA k
  obtain ⟨⟨u, l'⟩, hu, rfl⟩ := Option.map_eq_some_iff.1 h
  have hlen : given.length = k := hk.resolve_right (by rw [hu]; nofun)
  obtain ⟨n', hs'⟩ := hs.nextWordWithin_eq_some hA hu
  refine ⟨n' + 1, ?_⟩
  rw [hs'.words_eq, List.append_assoc, List.getElem?_append_right hlen.le, hlen, Nat.sub_self]
  rfl

theorem accepted_of_call_eq_none (h : A.call k = none) :
    ∃ n, (A.acceptedBelow n).length ≤ k ∧ A.accepted = {v | v ∈ A.acceptedBelow n} := by
  obtain ⟨n, given, hs, hle, -⟩ := exists_standsAt hA k
  obtain ⟨-, hlevel, hbelow⟩ := hs.nextWord_eq_none hA (Option.map_eq_none_iff.1 h)
  refine ⟨n + 1, hbelow ▸ hle, Set.Subset.antisymm (fun v hv => ?_) fun v hv => ?_⟩
  · refine mem_acceptedBelow.2 ⟨?_, hv⟩
    by_contra hlong
    have hmem := mem_map_acceptedAt.2 ⟨rfl, hv⟩
    rw [← acceptedWords_level hA, level_eq_nil hlevel (Nat.le_of_not_lt hlong)] at hmem
    exact absurd hmem List.not_mem_nil
  · exact (mem_acceptedBelow.1 hv).2

theorem call_eq_none_iff : A.call k = none ↔ A.accepted.encard ≤ k := by
  constructor
  · intro h
    obtain ⟨n, hlen, hall⟩ := accepted_of_call_eq_none hA h
    rw [hall, encard_mem (nodup_acceptedBelow A n)]
    exact_mod_cast hlen
  · intro h
    by_contra hne
    obtain ⟨w, hw⟩ := Option.ne_none_iff_exists'.1 hne
    obtain ⟨n, hn⟩ := getElem?_of_call hA hw
    exact not_encard_accepted_le hn h

theorem call_eq_some_iff {w : String} :
    A.call k = some w ↔ w ∈ A.accepted ∧ {v ∈ A.accepted | Precedes v w}.encard = k := by
  constructor
  · intro h
    obtain ⟨n, hn⟩ := getElem?_of_call hA h
    exact ⟨(mem_acceptedBelow.1 (List.mem_of_getElem? hn)).2, encard_precedes hn⟩
  · rintro ⟨hw, hk⟩
    -- the word stands at place `k` among the accepted words that are not longer
    obtain ⟨i, hi⟩ := List.getElem?_of_mem
      (mem_acceptedBelow.2 ⟨Nat.lt_succ_self w.toList.length, hw⟩)
    obtain rfl : i = k := by
      rw [encard_precedes hi] at hk
      exact_mod_cast hk
    cases hc : A.call i with
    | none => exact absurd ((call_eq_none_iff hA).1 hc) (not_encard_accepted_le hi)
    | some v =>
      obtain ⟨n, hn⟩ := getElem?_of_call hA hc
      rw [getElem?_acceptedBelow_unique hn hi]

end Calls

theorem append_nextLevel_append (rest a b : Level) :
    rest ++ A.nextLevel a ++ A.nextLevel b = rest ++ A.nextLevel (a ++ b) := by
  rw [List.append_assoc, nextLevel, nextLevel, nextLevel, List.flatMap_append]

/-- The queue that a listing stands for: what is left of its level, then what extends the words of
the level that have been taken. -/
def Queued (A : Automaton) (l : Listing) (queue : Level) : Prop :=
  ∃ taken rest, l.level = taken ++ rest ∧ l.words = A.acceptedWords rest ∧
    queue = rest ++ A.nextLevel taken

theorem queued_level (level : Level) : A.Queued ⟨level, A.acceptedWords level⟩ level :=
  ⟨[], level, rfl, rfl, (List.append_nil level).symm⟩

/-- A call takes its way through the rest of a level on which no word is accepted. -/
theorem Next.through {taken rest : Level} {r : Option (List Symbol × Level)}
    (h : A.acceptedWords rest = []) (hr : A.Next (A.nextLevel (taken ++ rest)) r) :
    A.Next (rest ++ A.nextLevel taken) r := by
  induction rest generalizing taken with
  | nil => rwa [List.append_nil] at hr
  | cons i rest ih =>
    obtain ⟨s, w⟩ := i
    rw [acceptedWords_cons] at h
    cases hs : A.meetsFinal s with
    | true => rw [hs, if_pos rfl] at h; cases h
    | false =>
      rw [hs, if_neg Bool.false_ne_true] at h
      have hnext : A.Next (rest ++ A.nextLevel (taken ++ [(s, w)])) r :=
        ih h (by rwa [List.append_assoc])
      exact .passed hs ((append_nextLevel_append rest taken [(s, w)]).symm ▸ hnext)

/-- A call returns the first accepted word of the rest of a level. -/
theorem Next.exists_found {taken rest : Level} {w : List Symbol} {words : List (List Symbol)}
    (h : A.acceptedWords rest = w :: words) :
    ∃ queue, A.Next (rest ++ A.nextLevel taken) (some (w, queue)) ∧
      A.Queued ⟨taken ++ rest, words⟩ queue := by
  induction rest generalizing taken with
  | nil => cases h
  | cons i rest ih =>
    obtain ⟨s, v⟩ := i
    have hqueue := A.append_nextLevel_append rest taken [(s, v)]
    have hlevel : taken ++ (s, v) :: rest = taken ++ [(s, v)] ++ rest := by simp
    rw [acceptedWords_cons] at h
    cases hs : A.meetsFinal s with
    | true =>
      rw [hs, if_pos rfl] at h
      obtain ⟨rfl, rfl⟩ := List.cons.inj h
      exact ⟨_, .found hs, taken ++ [(s, v)], rest, hlevel, rfl, hqueue⟩
    | false =>
      rw [hs, if_neg Bool.false_ne_true] at h
      obtain ⟨queue, hnext, hqueued⟩ := @ih (taken ++ [(s, v)]) h
      refine ⟨queue, .passed hs (hqueue ▸ hnext), ?_⟩
      rwa [hlevel]

theorem Queued.nextWordWithin_eq_some {queue : Level} (h : A.Queued l queue)
    (hw : A.nextWordWithin m l = some (w, l')) :
    ∃ queue', A.Next queue (some (w, queue')) ∧ A.Queued l' queue' := by
  fun_induction nextWordWithin A m l generalizing queue with
  | case1 m level w words =>
    cases hw
    obtain ⟨taken, rest, hlevel, hwords, rfl⟩ := h
    obtain rfl : level = taken ++ rest := hlevel
    exact Next.exists_found hwords.symm
  | case2 => cases hw
  | case3 => cases hw
  | case4 m level =>
    rename_i ih
    obtain ⟨queue', hnext, hqueued⟩ := ih (queued_level _) hw
    refine ⟨queue', ?_, hqueued⟩
    obtain ⟨taken, rest, hlevel, hwords, rfl⟩ := h
    obtain rfl : level = taken ++ rest := hlevel
    exact hnext.through hwords.symm

/-- A call of the listing is a call of the queue. -/
theorem Queued.next (hA : A.WellFormed) {queue : Level} (h : A.Queued l queue)
    {given : List String} (hs : l.StandsAt A n given) :
    (∃ w l' queue', A.nextWord l = some (w, l') ∧ A.Next queue (some (w, queue')) ∧
      A.Queued l' queue') ∨ A.nextWord l = none ∧ A.Next queue none := by
  cases hw : A.nextWord l with
  | none =>
    obtain ⟨hwords, hlevel, -⟩ := hs.nextWord_eq_none hA hw
    have hnext : A.nextLevel l.level = [] := hs.level_eq ▸ hlevel
    obtain ⟨taken, rest, hl, hrest, rfl⟩ := h
    rw [hl] at hnext
    exact .inr ⟨rfl, Next.through (hrest.symm.trans hwords) (hnext ▸ .ended)⟩
  | some r =>
    obtain ⟨queue', hnext, hqueued⟩ := h.nextWordWithin_eq_some hw
    exact .inl ⟨_, _, queue', rfl, hnext, hqueued⟩

theorem exists_queued (hA : A.WellFormed) (k : Nat) : ∃ queue, A.QueueAfter k queue ∧
    (A.Queued (A.listingAfter k) queue ∨ queue = [] ∧ A.nextWord (A.listingAfter k) = none) := by
  induction k with
  | zero => exact ⟨_, .start, .inl (queued_level A.firstLevel)⟩
  | succ k ih =>
    obtain ⟨queue, hafter, hqueued | ⟨rfl, hnone⟩⟩ := ih
    · obtain ⟨n, given, hs, -⟩ := exists_standsAt hA k
      rw [listingAfter]
      rcases hqueued.next hA hs with ⟨w, l', queue', hw, hnext, hqueued⟩ | ⟨hnone, hnext⟩
      · rw [hw]
        exact ⟨_, hafter.call hnext, .inl hqueued⟩
      · rw [hnone]
        exact ⟨_, hafter.call hnext, .inr ⟨rfl, hnone⟩⟩
    · rw [listingAfter, hnone]
      exact ⟨_, hafter.call .ended, .inr ⟨rfl, hnone⟩⟩

/-- Every call of the queue comes to an end and returns what the call of the listing returns. -/
theorem exists_queueAfter (hA : A.WellFormed) (k : Nat) :
    ∃ queue r, A.QueueAfter k queue ∧ A.Next queue r ∧
      A.call k = r.map fun r => wordText r.1 := by
  obtain ⟨queue, hafter, hqueued | ⟨rfl, hnone⟩⟩ := exists_queued hA k
  · obtain ⟨n, given, hs, -⟩ := exists_standsAt hA k
    rcases hqueued.next hA hs with ⟨w, l', queue', hw, hnext, -⟩ | ⟨hnone, hnext⟩
    · exact ⟨queue, _, hafter, hnext, by rw [call, hw]; rfl⟩
    · exact ⟨queue, _, hafter, hnext, by rw [call, hnone]; rfl⟩
  · exact ⟨[], none, hafter, .ended, by rw [call, hnone]; rfl⟩

theorem Next.unique {queue : Level} {r r' : Option (List Symbol × Level)} (h : A.Next queue r)
    (h' : A.Next queue r') : r = r' := by
  induction h with
  | ended => cases h'; rfl
  | found h =>
    cases h' with
    | found => rfl
    | passed h' => rw [h] at h'; cases h'
  | passed h _ ih =>
    cases h' with
    | found h' => rw [h] at h'; cases h'
    | passed _ hr => exact ih hr

theorem QueueAfter.unique {queue queue' : Level} (h : A.QueueAfter k queue)
    (h' : A.QueueAfter k queue') : queue = queue' := by
  induction h generalizing queue' with
  | start => cases h'; rfl
  | call _ hr ih =>
    obtain _ | ⟨h', hr'⟩ := h'
    obtain rfl := ih h'
    rw [hr.unique hr']

/-- The calls list the accepted words, shorter ones first and those of one length in the order of
their characters, each once, and then return nothing. Each call comes to an end. -/
theorem call_lists_accepted (hA : A.WellFormed) (k : Nat) :
    (∃ queue r, A.QueueAfter k queue ∧ A.Next queue r) ∧
      (∀ queue r, A.QueueAfter k queue → A.Next queue r →
        A.call k = r.map fun r => wordText r.1) ∧
      (∀ w, A.call k = some w ↔
        A.accepts w = .ok true ∧ {v | A.accepts v = .ok true ∧ Precedes v w}.encard = k) ∧
      (A.call k = none ↔ {v | A.accepts v = .ok true}.encard ≤ k) ∧
      (A.call k = none → ∀ m, k ≤ m → A.call m = none) ∧
      (A.initial = none → A.call k = none) := by
  obtain ⟨queue, r, hafter, hnext, hcall⟩ := exists_queueAfter hA k
  refine ⟨⟨queue, r, hafter, hnext⟩, fun queue' r' hafter' hnext' => ?_,
    fun w => call_eq_some_iff hA, call_eq_none_iff hA, fun h m hm => ?_, fun h => ?_⟩
  · obtain rfl := hafter.unique hafter'
    rw [hcall, hnext.unique hnext']
  · have hle := (call_eq_none_iff hA).1 h
    exact (call_eq_none_iff hA).2 (hle.trans (Nat.cast_le.2 hm))
  · have hempty : A.accepted = ∅ := by
      refine Set.eq_empty_of_forall_notMem fun w hw => ?_
      rw [mem_accepted, language_eq_zero h] at hw
      exact Language.notMem_zero _ hw
    refine (call_eq_none_iff hA).2 ?_
    rw [hempty, Set.encard_empty]
    exact zero_le

/-- Accepts the words of one or more letters `a`; on each it can also go to a dead end. -/
def letters : Automaton :=
  (Draft.empty.requests [.symbol 'a', .state "q0" true false, .state "q1" false true,
    .state "q2" false false, .edge "q0" 'a' "q1", .edge "q0" 'a' "q2", .edge "q1" '&' "q0"]).automaton

theorem call_lists_accepted_letters :
    letters.WellFormed ∧ letters.call 2 = some "aaa" ∧ letters.accepts "aaa" = .ok true ∧
      {v | letters.accepts v = .ok true ∧ Precedes v "aaa"}.encard = 2 ∧
      (∃ queue r, letters.QueueAfter 2 queue ∧ letters.Next queue r) ∧
      (letter ⟨'a', rfl⟩).WellFormed ∧ ∀ m, 1 ≤ m → (letter ⟨'a', rfl⟩).call m = none := by
  have hA : letters.WellFormed := Draft.wellFormed_requests _
  have hcall : letters.call 2 = some "aaa" := by cbv
  obtain ⟨hqueue, -, hword, -⟩ := call_lists_accepted hA 2
  obtain ⟨hacc, hplace⟩ := (hword "aaa").1 hcall
  have hend : (letter ⟨'a', rfl⟩).call 1 = none := by cbv
  obtain ⟨-, -, -, -, hnone, -⟩ := call_lists_accepted (wellFormed_letter ⟨'a', rfl⟩) 1
  exact ⟨hA, hcall, hacc, hplace, hqueue, wellFormed_letter _, hnone hend⟩

end RegularLanguages.Automaton
