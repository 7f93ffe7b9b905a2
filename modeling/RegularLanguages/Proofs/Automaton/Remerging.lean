import Mathlib
import RegularLanguages.Proofs.Automaton.Merging
/-!
# Merging once more

The automaton of the classes has classes of one state only (`leader_quotient`), so merging it once more
merges nothing. It need not be deterministic: where a state shares the class of the sink, every missing
edge on a symbol is made an edge to that class, also beside an edge on the empty word, and an edge on the
empty word that only the leader of a class has is given to the whole class. It is deterministic if no
state is in the class of the sink, or if its edges on the empty word are loops
(`mergeEquivalent_again`).
-/

namespace RegularLanguages.Automaton

/-- The class of the sink holds no state. -/
def SinkAlone (A : Automaton) : Prop := ∀ q < A.size, A.classes.leader q ≠ A.classes.leader A.sink

/-- On the empty word a state goes nowhere but to itself. -/
def Stays (A : Automaton) : Prop := ∀ p q, q ∈ A.targets p .epsilon → q = p

/-- The class of a state as a state, the sink for a class that holds none. -/
def placeOf (A : Automaton) (q : State) : State := (A.classOf q).getD A.quotient.sink

variable {A : Automaton} {p q h i j k : State} {l : Label} {x : Symbol}

/-! ### Classes and their places -/

theorem classOf_eq_none (h : A.classOf q = none) : A.size ≤ q := by
  by_contra hlt
  obtain ⟨i, hi⟩ := exists_classOf (Nat.lt_of_not_le hlt)
  rw [h] at hi
  cases hi

theorem classOf_leader (hh : (A.leaders A.classes)[i]? = some h) : A.classOf h = some i := by
  obtain ⟨-, hled⟩ := mem_leaders.1 (List.mem_of_getElem? hh)
  exact classOf_eq_some.2 (by rwa [hled])

theorem classOf_congr (h : A.classes.leader p = A.classes.leader q) : A.classOf p = A.classOf q := by
  rw [classOf, classOf, h]

theorem sinkAlone_iff : A.SinkAlone ↔ A.classOf A.sink = none := by
  constructor
  · intro hs
    cases hc : A.classOf A.sink with
    | none => rfl
    | some i =>
      obtain ⟨hlt, hled⟩ := mem_leaders.1 (List.mem_of_getElem? (classOf_eq_some.1 hc))
      exact absurd hled (hs _ hlt)
  · intro hc q hq heq
    rw [← classOf_congr heq] at hc
    exact absurd hq (Nat.not_lt.2 (classOf_eq_none hc))

theorem placeOf_congr (h : A.classes.leader p = A.classes.leader q) : A.placeOf p = A.placeOf q := by
  rw [placeOf, placeOf, classOf_congr h]

theorem placeOf_eq (h : A.classOf q = some i) : A.placeOf q = i := by rw [placeOf, h]; rfl

theorem placeOf_lt (A : Automaton) (q : State) : A.placeOf q < A.quotient.size + 1 := by
  rw [placeOf]
  cases hc : A.classOf q with
  | none => exact Nat.lt_succ_self _
  | some i => exact Nat.lt_succ_of_lt (lt_size_quotient.2 ⟨_, classOf_eq_some.1 hc⟩)

/-- Each class has at most one edge on each label. -/
theorem target_quotient_unique (hj : j ∈ A.quotient.targets i l) (hk : k ∈ A.quotient.targets i l) :
    j = k := by
  obtain ⟨h, hh, -, -, hj⟩ := mem_targets_quotient.1 hj
  obtain ⟨h', hh', -, -, hk⟩ := mem_targets_quotient.1 hk
  obtain rfl := Option.some.inj (hh.symm.trans hh')
  exact Option.some.inj (hj.symm.trans hk)

theorem successor_quotient_of_mem (hj : j ∈ A.quotient.targets i l) : A.quotient.successor i l = j :=
  target_quotient_unique (successor_mem (wellFormed_quotient A) hj) hj

/-! ### Nothing is left to merge -/

theorem placeOf_mem_finals (hA : A.WellFormed) (hq : q < A.size + 1) :
    A.placeOf q ∈ A.quotient.finals ↔ q ∈ A.finals := by
  rw [placeOf]
  cases hc : A.classOf q with
  | none =>
    have hle := classOf_eq_none hc
    refine iff_of_false (fun hf => ?_) fun hf => Nat.not_lt.2 hle (hA.final_lt hf)
    exact Nat.lt_irrefl _ ((wellFormed_quotient A).final_lt hf)
  | some i =>
    rw [Option.getD_some, mem_finals_quotient]
    have hi := classOf_eq_some.1 hc
    constructor
    · rintro ⟨h, hh, r, hr, hf⟩
      obtain rfl := Option.some.inj (hi.symm.trans hh)
      obtain ⟨hlt, hled⟩ := mem_members.1 hr
      exact (final_iff_of_leader_eq (Nat.lt_succ_of_lt hlt) hq hled).1 hf
    · intro hf
      exact ⟨_, hi, q, mem_members.2 ⟨hA.final_lt hf, rfl⟩, hf⟩

/-- Where an edge leads on, its class leads on to the class of what it leads to. Missing edges on the
empty word are left out. -/
theorem successor_placeOf (hA : A.WellFormed) (hp : p < A.size + 1) (hl : l ∈ A.labels) :
    A.quotient.successor (A.placeOf p) l = A.placeOf (A.successor p l) ∨
      A.quotient.successor (A.placeOf p) l = A.quotient.sink ∧
        A.placeOf (A.successor p l) = A.placeOf A.sink := by
  cases hc : A.classOf p with
  | none =>
    have hplace : A.placeOf p = A.quotient.sink := by rw [placeOf, hc]; rfl
    obtain rfl : p = A.sink := Nat.le_antisymm (Nat.le_of_lt_succ hp) (classOf_eq_none hc)
    rw [successor_sink hA, hplace, successor_sink (wellFormed_quotient A)]
    exact .inl rfl
  | some i =>
    have hi := classOf_eq_some.1 hc
    obtain ⟨hlt, hled⟩ := A.led_classes p hp
    have hsucc := leader_classes_successor hlt hp hled hl
    rw [placeOf_eq hc]
    -- an edge of the class is one of its leader
    have hback : ∀ {k}, k ∈ A.quotient.targets i l →
        (l = .epsilon → (A.transitions.get? (A.classes.leader p) l).isSome = true) ∧
          A.classOf (A.successor p l) = some k := by
      intro k hk
      obtain ⟨h, hh, -, hg, hk⟩ := mem_targets_quotient.1 hk
      obtain rfl := Option.some.inj (hi.symm.trans hh)
      exact ⟨hg, by rwa [← classOf_congr hsucc]⟩
    by_cases hg : l = .epsilon → (A.transitions.get? (A.classes.leader p) l).isSome = true
    · left
      cases hj : A.classOf (A.successor p l) with
      | none =>
        rw [placeOf, hj]
        refine successor_of_empty fun k hk => ?_
        rw [(hback hk).2] at hj
        cases hj
      | some j =>
        rw [placeOf_eq hj]
        exact successor_quotient_of_mem
          (mem_targets_quotient.2 ⟨_, hi, hl, hg, by rw [classOf_congr hsucc, hj]⟩)
    · obtain ⟨rfl, hno⟩ := Classical.not_imp.1 hg
      refine .inr ⟨successor_of_empty fun k hk => hno ((hback hk).1 rfl), ?_⟩
      rw [← placeOf_congr hsucc, successor_of_empty fun r hr =>
        hno (hA.populated.isSome_get?.2 ⟨r, hr⟩)]

/-- The class of the sink is in the class of the sink again. -/
theorem leader_placeOf_sink (hA : A.WellFormed) :
    A.quotient.classes.leader (A.placeOf A.sink) = A.quotient.classes.leader A.quotient.sink := by
  have hW := wellFormed_quotient A
  -- the two are not final and move to each other
  have hlt : ∀ r, r = A.placeOf A.sink ∨ r = A.quotient.sink → r < A.quotient.size + 1 := by
    rintro r (rfl | rfl)
    · exact A.placeOf_lt _
    · exact Nat.lt_succ_self _
  have hfinal : ∀ r, r = A.placeOf A.sink ∨ r = A.quotient.sink → r ∉ A.quotient.finals := by
    rintro r (rfl | rfl) hf
    · exact Nat.lt_irrefl _ (hA.final_lt ((placeOf_mem_finals hA (Nat.lt_succ_self _)).1 hf))
    · exact Nat.lt_irrefl _ (hW.final_lt hf)
  have hsucc : ∀ r l, r = A.placeOf A.sink ∨ r = A.quotient.sink → l ∈ A.labels →
      A.quotient.successor r l = A.placeOf A.sink ∨ A.quotient.successor r l = A.quotient.sink := by
    rintro r l (rfl | rfl) hl
    · have hs := successor_placeOf hA (p := A.sink) (Nat.lt_succ_self _) hl
      rw [successor_sink hA] at hs
      exact hs.imp id And.left
    · exact .inr (successor_sink hW l)
  exact leader_classes_eq (R := fun p q => (p = A.placeOf A.sink ∨ p = A.quotient.sink) ∧
      (q = A.placeOf A.sink ∨ q = A.quotient.sink))
    (fun p q h => ⟨hlt p h.1, hlt q h.2⟩)
    (fun p q h => iff_of_false (hfinal p h.1) (hfinal q h.2))
    (fun p q l h hl => ⟨hsucc p l h.1 hl, hsucc q l h.2 hl⟩) ⟨.inl rfl, .inr rfl⟩

theorem leader_successor_placeOf (hA : A.WellFormed) (hp : p < A.size + 1) (hl : l ∈ A.labels) :
    A.quotient.classes.leader (A.placeOf (A.successor p l)) =
      A.quotient.classes.leader (A.quotient.successor (A.placeOf p) l) := by
  rcases successor_placeOf hA hp hl with h | ⟨hs, hp⟩
  · rw [h]
  · rw [hs, hp, leader_placeOf_sink hA]

/-- What is in one class of the classes is in one class. -/
theorem leader_eq_of_placeOf (hA : A.WellFormed) (hp : p < A.size + 1) (hq : q < A.size + 1)
    (h : A.quotient.classes.leader (A.placeOf p) = A.quotient.classes.leader (A.placeOf q)) :
    A.classes.leader p = A.classes.leader q := by
  refine leader_classes_eq (R := fun p q => (p < A.size + 1 ∧ q < A.size + 1) ∧
      A.quotient.classes.leader (A.placeOf p) = A.quotient.classes.leader (A.placeOf q))
    (fun _ _ h => h.1) (fun p q ⟨⟨hp, hq⟩, h⟩ => ?_) (fun p q l ⟨⟨hp, hq⟩, h⟩ hl => ?_) ⟨⟨hp, hq⟩, h⟩
  · rw [← placeOf_mem_finals hA hp, ← placeOf_mem_finals hA hq]
    exact final_iff_of_leader_eq (A.placeOf_lt p) (A.placeOf_lt q) h
  · refine ⟨⟨successor_lt hA _ _, successor_lt hA _ _⟩, ?_⟩
    rw [leader_successor_placeOf hA hp hl, leader_successor_placeOf hA hq hl]
    exact leader_classes_successor (A := A.quotient) (A.placeOf_lt p) (A.placeOf_lt q) h hl

/-- Every state of the automaton of the classes leads a class of its own. -/
theorem leader_quotient (hA : A.WellFormed) (hi : i < A.quotient.size) :
    A.quotient.classes.leader i = i := by
  have hlt := Nat.lt_succ_of_lt hi
  have hle := A.quotient.classes.leader_le_self hlt
  obtain ⟨-, hled⟩ := A.quotient.led_classes i hlt
  obtain ⟨h, hh⟩ := lt_size_quotient.1 hi
  obtain ⟨k, hk⟩ := lt_size_quotient.1 (Nat.lt_of_le_of_lt hle hi)
  have hplace : A.placeOf h = i := placeOf_eq (classOf_leader hh)
  have hplace' : A.placeOf k = A.quotient.classes.leader i := placeOf_eq (classOf_leader hk)
  obtain ⟨hhs, hhl⟩ := mem_leaders.1 (List.mem_of_getElem? hh)
  obtain ⟨hks, hkl⟩ := mem_leaders.1 (List.mem_of_getElem? hk)
  have heq : A.classes.leader k = A.classes.leader h :=
    leader_eq_of_placeOf hA (Nat.lt_succ_of_lt hks) (Nat.lt_succ_of_lt hhs) (by rw [hplace, hplace', hled])
  rw [hhl, hkl] at heq
  subst heq
  exact leaders_inj hk hh

/-- Merging what is merged merges nothing. -/
theorem size_quotient_quotient (hA : A.WellFormed) : A.quotient.quotient.size = A.quotient.size := by
  have hleaders : A.quotient.leaders A.quotient.classes = A.quotient.states :=
    List.filter_eq_self.2 fun i hi => decide_eq_true (leader_quotient hA (mem_states.1 hi))
  rw [size_quotient, hleaders, states, List.length_range]

/-! ### Whether the classes are deterministic -/

theorem eq_of_path_nil {s : State → Prop} (hs : ∀ p q, s p → q ∈ A.targets p .epsilon → s q)
    (hp : s p) (h : A.Path p [] q) : s q := by
  generalize hw : [] = w at h
  induction h with
  | nil _ => exact hp
  | epsilon he _ ih => exact ih (hs _ _ hp he) hw
  | symbol _ _ _ _ => cases hw

theorem size_le_two {s : SortedSet State} (h : ∀ r ∈ s, r = p ∨ r = q) : s.size ≤ 2 := by
  have hsub : s.toList ⊆ [p, q] := fun r hr => by simpa using h r hr
  exact s.nodup.length_le_of_subset hsub

theorem size_targets_quotient (i : State) (l : Label) : (A.quotient.targets i l).size ≤ 1 :=
  SortedSet.size_le_one_iff.2 fun _ hj _ hk => target_quotient_unique hj hk

theorem successor_mem_of_isSome (hA : A.WellFormed)
    (h : (A.transitions.get? p l).isSome = true) : A.successor p l ∈ A.targets p l := by
  obtain ⟨r, hr⟩ := hA.populated.isSome_get?.1 h
  exact successor_mem hA hr

/-- Loops on the empty word stay loops. -/
theorem Stays.quotient (hA : A.WellFormed) (hS : A.Stays) : A.quotient.Stays := by
  intro i j hj
  obtain ⟨h, hh, -, hg, hj⟩ := mem_targets_quotient.1 hj
  rw [hS _ _ (successor_mem_of_isSome hA (hg rfl)), classOf_leader hh] at hj
  exact (Option.some.inj hj).symm

theorem size_closure_le_one (h : ∀ q ∈ A.targets p .epsilon, q = p) :
    (A.closure (.singleton p)).size ≤ 1 := by
  have hstay : ∀ r, A.Path p [] r → r = p := fun r =>
    eq_of_path_nil (s := (· = p)) (fun _ q hp hq => h q (hp ▸ hq)) rfl
  refine SortedSet.size_le_one_iff.2 fun j hj k hk => ?_
  rw [hstay j (mem_closure_singleton.1 hj), hstay k (mem_closure_singleton.1 hk)]

/-- A class that the empty word does not leave is no reason for the classes not to be deterministic. -/
theorem deterministic_at (h : ∀ j ∈ A.quotient.targets i .epsilon, j = i) :
    (A.quotient.closure (.singleton i)).size ≤ 2 ∧ ∀ x ∈ A.quotient.alphabet,
      (A.quotient.targets i (.symbol x)).size = 0 ∨
        (A.quotient.targets i (.symbol x)).size + (A.quotient.closure (.singleton i)).size ≤ 2 := by
  have hclosure := size_closure_le_one h
  refine ⟨hclosure.trans one_le_two, fun x _ => .inr ?_⟩
  have hone := size_targets_quotient (A := A) i (.symbol x)
  omega

theorem Stays.isDeterministic (hS : A.quotient.Stays) : A.quotient.isDeterministic = true :=
  isDeterministic_iff.2 fun i _ => deterministic_at (hS i)

section Exits
variable (hA : A.WellFormed) (hd : A.isDeterministic = true)
include hA hd

/-- Where the empty word leads from a class to another, it leads from the leader to another state, and the
leader has no edges on symbols. -/
theorem exists_exit (hj : j ∈ A.quotient.targets i .epsilon) (hne : j ≠ i) :
    ∃ h, (A.leaders A.classes)[i]? = some h ∧ A.successor h .epsilon ∈ A.targets h .epsilon ∧
      h ≠ A.successor h .epsilon ∧ A.classOf (A.successor h .epsilon) = some j ∧
      ∀ x ∈ A.alphabet, A.successor h (.symbol x) = A.sink := by
  obtain ⟨h, hh, -, hg, hj⟩ := mem_targets_quotient.1 hj
  have hmem := successor_mem_of_isSome hA (hg rfl)
  have hexit : h ≠ A.successor h .epsilon := fun heq => by
    rw [← heq, classOf_leader hh] at hj
    exact hne (Option.some.inj hj).symm
  refine ⟨h, hh, hmem, hexit, hj, fun x hx => successor_of_empty fun r hr => hexit ?_⟩
  have hone := (size_exits hd (hA.source_lt hr) hx hr).2
  exact SortedSet.size_le_one_iff.1 hone _ (mem_closure_singleton.2 (.nil h)) _
    (mem_closure_singleton.2 (.edge_epsilon hmem))

/-- Where the sink is alone, the empty word leads on from a class to one other at most. -/
theorem SinkAlone.eq_or_eq (hs : A.SinkAlone) (hj : j ∈ A.quotient.targets i .epsilon) (hne : j ≠ i)
    (hk : k ∈ A.quotient.targets j .epsilon) : k = i ∨ k = j := by
  obtain ⟨h, hh, hmem, hexit, hj, -⟩ := exists_exit hA hd hj hne
  obtain ⟨h', hh', -, hg', hk⟩ := mem_targets_quotient.1 hk
  have hlt := hA.target_lt hmem
  obtain ⟨hlt', -⟩ := mem_leaders.1 (List.mem_of_getElem? hh')
  -- the class that `h` leads to is led by `h'`
  have hled : A.classes.leader h' = A.classes.leader (A.successor h .epsilon) :=
    Option.some.inj ((classOf_eq_some.1 (classOf_leader hh')).symm.trans (classOf_eq_some.1 hj))
  have hsucc := leader_classes_successor (Nat.lt_succ_of_lt hlt') (Nat.lt_succ_of_lt hlt) hled
    (l := .epsilon) List.mem_cons_self
  -- so `h` goes on to a state, and that is one of the two that it reaches
  have hreal : A.successor (A.successor h .epsilon) .epsilon ≠ A.sink := fun heq => by
    rw [heq] at hsucc
    exact hs _ (hA.target_lt (successor_mem_of_isSome hA (hg' rfl))) hsucc
  have hnext := successor_mem_targets hreal
  rw [classOf_congr hsucc] at hk
  rcases SortedSet.eq_of_size_le_two (size_closure_le hd (hA.source_lt hmem))
    (mem_closure_singleton.2 (.nil h)) (mem_closure_singleton.2 (.edge_epsilon hmem))
    (mem_closure_singleton.2 (.epsilon hmem (.edge_epsilon hnext))) with heq | heq | heq
  · exact absurd heq hexit
  · rw [← heq, classOf_leader hh] at hk
    exact .inl (Option.some.inj hk).symm
  · rw [← heq, hj] at hk
    exact .inr (Option.some.inj hk).symm

/-- Classes are deterministic if none of them holds the sink and a state. -/
theorem SinkAlone.isDeterministic (hs : A.SinkAlone) : A.quotient.isDeterministic = true := by
  refine isDeterministic_iff.2 fun i _ => ?_
  by_cases hstay : ∀ j ∈ A.quotient.targets i .epsilon, j = i
  · exact deterministic_at hstay
  · simp only [not_forall] at hstay
    obtain ⟨j, hj, hne⟩ := hstay
    obtain ⟨h, hh, -, -, -, hsink⟩ := exists_exit hA hd hj hne
    refine ⟨size_le_two (p := i) (q := j) fun r hr => ?_, fun x hx => .inl ?_⟩
    · refine eq_of_path_nil (s := fun r => r = i ∨ r = j) (fun p q hp hq => ?_) (.inl rfl)
        (mem_closure_singleton.1 hr)
      rcases hp with rfl | rfl
      · exact .inr (target_quotient_unique hq hj)
      · exact hs.eq_or_eq hA hd hj hne hq
    · refine List.length_eq_zero_iff.2 (List.eq_nil_iff_forall_not_mem.2 fun k hk => ?_)
      obtain ⟨h', hh', -, -, hk⟩ := mem_targets_quotient.1 hk
      obtain rfl := Option.some.inj (hh.symm.trans hh')
      rw [hsink x hx, sinkAlone_iff.1 hs] at hk
      cases hk

/-- If a state shares the class of the sink, no edge on the empty word leads to another class. -/
theorem sinkAlone_or_stays (hx : x ∈ A.alphabet) (hB : A.quotient.isDeterministic = true) :
    A.SinkAlone ∨ A.quotient.Stays := by
  rw [or_iff_not_imp_left, sinkAlone_iff]
  intro hc i j hj
  by_contra hne
  obtain ⟨h, hh, -, -, -, hsink⟩ := exists_exit hA hd hj hne
  obtain ⟨k, hk⟩ := Option.ne_none_iff_exists'.1 hc
  -- the missing edge on `x` is an edge to the class of the sink
  have hedge : k ∈ A.quotient.targets i (.symbol x) :=
    mem_targets_quotient.2 ⟨h, hh, symbol_mem_labels.2 hx, nofun, by rwa [hsink x hx]⟩
  have hone := (size_exits hB (lt_size_quotient.2 ⟨h, hh⟩) hx hedge).2
  exact hne (SortedSet.size_le_one_iff.1 hone _ (mem_closure_singleton.2 (.edge_epsilon hj)) _
    (mem_closure_singleton.2 (.nil i)))

/-- The classes of a deterministic automaton are deterministic if the sink is alone in its class or
the empty word leads from no class to another, and only then if there are symbols. Where they are, they
can be merged again, and that merges nothing. -/
theorem mergeEquivalent_again :
    ∃ B, A.mergeEquivalent = .ok B ∧ (A.Stays → B.Stays) ∧
      (A.SinkAlone ∨ B.Stays → B.isDeterministic = true) ∧
      ((∃ x, x ∈ A.alphabet) → B.isDeterministic = true → A.SinkAlone ∨ B.Stays) ∧
      (B.isDeterministic = true → ∃ C, B.mergeEquivalent = .ok C ∧ C.size = B.size) := by
  refine ⟨A.quotient, if_pos hd, Stays.quotient hA, fun h => ?_, fun ⟨x, hx⟩ hB => ?_, fun hB => ?_⟩
  · rcases h with hs | hS
    · exact hs.isDeterministic hA hd
    · exact hS.isDeterministic
  · exact sinkAlone_or_stays hA hd hx hB
  · exact ⟨A.quotient.quotient, if_pos hB, size_quotient_quotient hA⟩

end Exits

/-- A state that reads `a` for ever, reached on the empty word. -/
def exitToLoop : Automaton :=
  (Draft.empty.requests [.symbol 'a', .state "p" true false, .state "q" false true,
    .edge "p" '&' "q", .edge "q" 'a' "q"]).automaton

theorem mergeEquivalent_again_exitToLoop :
    exitToLoop.WellFormed ∧ exitToLoop.isDeterministic = true ∧ exitToLoop.SinkAlone ∧
      ∃ B C, exitToLoop.mergeEquivalent = .ok B ∧ B.isDeterministic = true ∧
        B.mergeEquivalent = .ok C ∧ C.size = B.size := by
  have hA : exitToLoop.WellFormed := Draft.wellFormed_requests _
  have hd : exitToLoop.isDeterministic = true := by cbv
  have hs : exitToLoop.SinkAlone := by
    have hsink : exitToLoop.classOf exitToLoop.sink = none := by cbv
    exact sinkAlone_iff.2 hsink
  obtain ⟨B, hB, -, hdet, -, hagain⟩ := mergeEquivalent_again hA hd
  obtain ⟨C, hC, hsize⟩ := hagain (hdet (.inl hs))
  exact ⟨hA, hd, hs, B, C, hB, hdet (.inl hs), hC, hsize⟩

/-- Beside its edge on the empty word, `p` gets one on `a` to the dead state. -/
def exitBesideDead : Automaton :=
  (Draft.empty.requests [.symbol 'a', .state "p" true false, .state "q" false true,
    .state "d" false false, .edge "p" '&' "q"]).automaton

/-- The states `q` and `r` are merged; the edge that only `q` has goes on where `r` ends. -/
def exitThroughLeader : Automaton :=
  (Draft.empty.requests [.state "p" true false, .state "q" false true, .state "r" false true,
    .state "d" false false, .edge "p" '&' "r", .edge "q" '&' "d"]).automaton

/-- What comes of merging a deterministic automaton need not be deterministic, and then it cannot be
merged again. -/
theorem mergeEquivalent_not_again :
    (exitBesideDead.WellFormed ∧ exitBesideDead.isDeterministic = true ∧
      ∃ B, exitBesideDead.mergeEquivalent = .ok B ∧ B.isDeterministic = false ∧
        B.mergeEquivalent = .error .notDeterministic) ∧
    (exitThroughLeader.WellFormed ∧ exitThroughLeader.isDeterministic = true ∧
      ∃ B, exitThroughLeader.mergeEquivalent = .ok B ∧ B.isDeterministic = false ∧
        B.mergeEquivalent = .error .notDeterministic) := by
  have hd : exitBesideDead.isDeterministic = true := by cbv
  have hB : exitBesideDead.quotient.isDeterministic = false := by cbv
  have hd' : exitThroughLeader.isDeterministic = true := by cbv
  have hB' : exitThroughLeader.quotient.isDeterministic = false := by cbv
  exact ⟨⟨Draft.wellFormed_requests _, hd, _, if_pos hd, hB, if_neg (by simp [hB])⟩,
    ⟨Draft.wellFormed_requests _, hd', _, if_pos hd', hB', if_neg (by simp [hB'])⟩⟩

end RegularLanguages.Automaton
