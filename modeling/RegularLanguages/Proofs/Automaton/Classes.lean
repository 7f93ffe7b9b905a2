import Mathlib.Data.Option.Basic
import RegularLanguages.Proofs.Automaton.LeastEdges
import RegularLanguages.Proofs.Automaton.WellFormed
import RegularLanguages.Proofs.Partition
/-!
# Classes of states

Two states of one class lead on along the same words (`LeadsOn.congr`), and so the automaton of the
classes accepts what leads on from the initial state (`mem_language_quotient`). In a functional
automaton a class holds all states from which the same words lead to final ones, the sink being a
state that no word leads on from (`leader_classes_eq_iff`).
-/

namespace RegularLanguages.Automaton

variable {A : Automaton} {p q : State} {w : List Char}

/-- The place of the class of a state among the classes that hold a state. -/
def classOf (A : Automaton) (q : State) : Option State :=
  (A.leaders A.classes).idxOf? (A.classes.leader q)

/-! ### Classes are languages -/

theorem led_classes (A : Automaton) : A.classes.Led := Partition.led_settle (Partition.led_byKey _)

theorem leader_classes_successor (hp : p < A.size + 1) (hq : q < A.size + 1)
    (h : A.classes.leader p = A.classes.leader q) {l : Label} (hl : l ∈ A.labels) :
    A.classes.leader (A.successor p l) = A.classes.leader (A.successor q l) := by
  have hmap := Partition.map_leader_settle hp hq h
  rw [List.map_map, List.map_map, List.map_inj_left] at hmap
  exact hmap l hl

theorem final_iff_of_leader_eq (hp : p < A.size + 1) (hq : q < A.size + 1)
    (h : A.classes.leader p = A.classes.leader q) : p ∈ A.finals ↔ q ∈ A.finals := by
  have hkey := (Partition.leader_byKey_eq_iff hp hq).1 (Partition.leader_of_leader_settle hp hq h)
  simpa using hkey

theorem symbol_mem_labels {x : Symbol} : .symbol x ∈ A.labels ↔ x ∈ A.alphabet := by
  simp [labels]

/-- The states of a class lead on along the same words. -/
theorem LeadsOn.congr (hA : A.WellFormed) (hp : p < A.size + 1) (hq : q < A.size + 1)
    (h : A.classes.leader p = A.classes.leader q) (hw : A.LeadsOn p w) : A.LeadsOn q w := by
  induction hw generalizing q with
  | final hf => exact .final ((final_iff_of_leader_eq hp hq h).1 hf)
  | epsilon _ ih =>
    have hl : Label.epsilon ∈ A.labels := List.mem_cons_self
    exact .epsilon (ih (successor_lt hA _ _) (successor_lt hA _ _)
      (leader_classes_successor hp hq h hl))
  | symbol hc _ ih =>
    have hl := symbol_mem_labels.2 (symbol?_eq_some.1 hc).2
    exact .symbol hc (ih (successor_lt hA _ _) (successor_lt hA _ _)
      (leader_classes_successor hp hq h hl))

/-- What no label tells apart, step after step, is in one class. -/
theorem leader_classes_eq {R : State → State → Prop}
    (hlt : ∀ p q, R p q → p < A.size + 1 ∧ q < A.size + 1)
    (hfinal : ∀ p q, R p q → (p ∈ A.finals ↔ q ∈ A.finals))
    (hsucc : ∀ p q l, R p q → l ∈ A.labels → R (A.successor p l) (A.successor q l)) (h : R p q) :
    A.classes.leader p = A.classes.leader q := by
  refine Partition.leader_settle_eq hlt (fun p q hpq => ?_) (fun p q hpq => ?_) h
  · obtain ⟨hp, hq⟩ := hlt p q hpq
    exact (Partition.leader_byKey_eq_iff hp hq).2 (decide_eq_decide.2 (hfinal p q hpq))
  · rw [List.forall₂_map_left_iff, List.forall₂_map_right_iff, List.forall₂_same]
    exact fun l hl => hsucc p q l hpq hl

/-- Two states are in one class exactly if the same words lead from them to final states. -/
theorem leader_classes_eq_iff (hA : A.WellFormed) (hF : A.Functional) (hp : p < A.size + 1)
    (hq : q < A.size + 1) :
    A.classes.leader p = A.classes.leader q ↔ A.languageFrom p = A.languageFrom q := by
  constructor
  · intro h
    ext w
    rw [← hF.guided.leadsOn_iff hA, ← hF.guided.leadsOn_iff hA]
    exact ⟨fun hw => hw.congr hA hp hq h, fun hw => hw.congr hA hq hp h.symm⟩
  · intro h
    refine leader_classes_eq
      (R := fun p q => (p < A.size + 1 ∧ q < A.size + 1) ∧ A.languageFrom p = A.languageFrom q)
      (fun _ _ h => h.1) (fun p q ⟨_, h⟩ => ?_) (fun p q l ⟨_, h⟩ hl => ?_) ⟨⟨hp, hq⟩, h⟩
    · rw [← hF.nil_mem_languageFrom, ← hF.nil_mem_languageFrom, h]
    · refine ⟨⟨successor_lt hA _ _, successor_lt hA _ _⟩, ?_⟩
      cases l with
      | epsilon => rw [hF.successor_epsilon, hF.successor_epsilon]
      | symbol x =>
        have hc := symbol?_char (symbol_mem_labels.1 hl)
        have hstep : ∀ {r v}, v ∈ A.languageFrom (A.successor r (.symbol x)) ↔
            x.char :: v ∈ A.languageFrom r := by
          intro r v
          rw [cons_mem_languageFrom_iff hA hF, hc]
          simp
        ext v
        rw [hstep, hstep, h]

/-! ### The automaton of the classes -/

theorem mem_leaders : q ∈ A.leaders A.classes ↔ q < A.size ∧ A.classes.leader q = q := by
  rw [leaders, List.mem_filter, mem_states, decide_eq_true_iff]

theorem nodup_leaders : (A.leaders A.classes).Nodup := List.nodup_range.filter _

theorem classOf_eq_some {i : Nat} :
    A.classOf q = some i ↔ (A.leaders A.classes)[i]? = some (A.classes.leader q) :=
  idxOf?_eq_some_iff_of_nodup nodup_leaders

theorem leaders_inj {i j : Nat} (hi : (A.leaders A.classes)[i]? = some q)
    (hj : (A.leaders A.classes)[j]? = some q) : i = j :=
  Option.some.inj (((idxOf?_eq_some_iff_of_nodup nodup_leaders).2 hi).symm.trans
    ((idxOf?_eq_some_iff_of_nodup nodup_leaders).2 hj))

theorem leader_mem_leaders (hq : q < A.size) : A.classes.leader q ∈ A.leaders A.classes := by
  have hle := A.classes.leader_le_self (Nat.lt_succ_of_lt hq)
  exact mem_leaders.2 ⟨Nat.lt_of_le_of_lt hle hq, (A.led_classes q (Nat.lt_succ_of_lt hq)).2⟩

theorem exists_classOf (hq : q < A.size) : ∃ i, A.classOf q = some i := by
  obtain ⟨i, hi⟩ := List.getElem?_of_mem (leader_mem_leaders hq)
  exact ⟨i, classOf_eq_some.2 hi⟩

def members (A : Automaton) (h : State) : List State :=
  A.states.filter fun q => A.classes.leader q = h

theorem mem_members {h : State} : q ∈ A.members h ↔ q < A.size ∧ A.classes.leader q = h := by
  rw [members, List.mem_filter, mem_states, decide_eq_true_iff]

theorem size_quotient : A.quotient.size = (A.leaders A.classes).length := by
  simp [quotient, size]

theorem lt_size_quotient {i : State} :
    i < A.quotient.size ↔ ∃ h, (A.leaders A.classes)[i]? = some h := by
  rw [size_quotient, ← Option.isSome_iff_exists, isSome_getElem?]

theorem mem_edges_quotient {i j : State} {l : Label} :
    (i, l, j) ∈ ((A.leaders A.classes).zipIdx.flatMap fun (h, i) =>
        A.labels.filterMap fun l => do
          guard (l ≠ .epsilon ∨ (A.transitions.get? h l).isSome)
          return (i, l, ← A.classOf (A.successor h l)) : List Edge) ↔
      ∃ h, (A.leaders A.classes)[i]? = some h ∧ l ∈ A.labels ∧
        (l = .epsilon → (A.transitions.get? h l).isSome = true) ∧
        A.classOf (A.successor h l) = some j := by
  simp only [List.mem_flatMap, List.mem_filterMap, Prod.exists, List.mk_mem_zipIdx_iff_getElem?,
    Option.bind_eq_bind, Option.bind_eq_some_iff, Option.guard_eq_some', Option.pure_def,
    Option.some.injEq, Prod.mk.injEq]
  constructor
  · rintro ⟨h, i, hi, l, hl, -, hg, j, hj, rfl, rfl, rfl⟩
    exact ⟨h, hi, hl, fun he => hg.resolve_left fun hne => hne he, hj⟩
  · rintro ⟨h, hi, hl, hg, hj⟩
    refine ⟨h, i, hi, l, hl, (), ?_, j, hj, rfl, rfl, rfl⟩
    by_cases he : l = .epsilon
    · exact .inr (hg he)
    · exact .inl he

theorem mem_targets_quotient {i j : State} {l : Label} :
    j ∈ A.quotient.targets i l ↔ ∃ h, (A.leaders A.classes)[i]? = some h ∧ l ∈ A.labels ∧
      (l = .epsilon → (A.transitions.get? h l).isSome = true) ∧
      A.classOf (A.successor h l) = some j := by
  rw [← mem_edges_quotient]
  exact Transitions.mem_targets_ofEdges

theorem mem_finals_quotient {i : State} :
    i ∈ A.quotient.finals ↔
      ∃ h, (A.leaders A.classes)[i]? = some h ∧ ∃ q ∈ A.members h, q ∈ A.finals := by
  have hfinals : A.quotient.finals = .ofList (((A.leaders A.classes).map A.members).zipIdx.filterMap
      fun (qs, i) => if qs.any (· ∈ A.finals) then some i else none) := rfl
  rw [hfinals, SortedSet.mem_ofList]
  simp only [List.mem_filterMap, Prod.exists, List.mk_mem_zipIdx_iff_getElem?, List.getElem?_map,
    Option.map_eq_some_iff, Option.ite_none_right_eq_some, Option.some.injEq, List.any_eq_true,
    decide_eq_true_iff]
  constructor
  · rintro ⟨_, i, ⟨h, hi, rfl⟩, hq, rfl⟩
    exact ⟨h, hi, hq⟩
  · rintro ⟨h, hi, hq⟩
    exact ⟨_, i, ⟨h, hi, rfl⟩, hq, rfl⟩

theorem initial_quotient : A.quotient.initial = A.initial.bind A.classOf := rfl

theorem wellFormed_quotient (A : Automaton) : A.quotient.WellFormed := by
  refine .of_edges rfl ?_ ?_ ?_ ?_
  · intro i hi
    obtain ⟨p, -, hp⟩ := Option.bind_eq_some_iff.1 hi
    exact lt_size_quotient.2 ⟨_, classOf_eq_some.1 hp⟩
  · intro i hi
    obtain ⟨h, hh, -⟩ := mem_finals_quotient.1 hi
    exact lt_size_quotient.2 ⟨h, hh⟩
  · intro i l j h
    obtain ⟨h, hh, -, -, hj⟩ := mem_edges_quotient.1 h
    exact ⟨lt_size_quotient.2 ⟨h, hh⟩, lt_size_quotient.2 ⟨_, classOf_eq_some.1 hj⟩⟩
  · intro i x j h
    obtain ⟨_, -, hl, -⟩ := mem_edges_quotient.1 h
    exact symbol_mem_labels.1 hl

theorem functional_quotient (hA : A.WellFormed) (hF : A.Functional) : A.quotient.Functional where
  no_epsilon h := by
    obtain ⟨h, -, -, he, -⟩ := mem_targets_quotient.1 h
    obtain ⟨r, hr⟩ := hA.populated.isSome_get?.1 (he rfl)
    exact hF.no_epsilon hr
  unique h h' := by
    obtain ⟨k, hk, -, -, hj⟩ := mem_targets_quotient.1 h
    obtain ⟨k', hk', -, -, hj'⟩ := mem_targets_quotient.1 h'
    obtain rfl : k = k' := Option.some.inj (hk.symm.trans hk')
    exact Option.some.inj (hj.symm.trans hj')

/-- A class goes on where its members go on, on the empty word as on a symbol. -/
theorem LeadsOn.exists_target (hA : A.WellFormed) (hq : q < A.size) {i j : State} {l : Label}
    (hi : A.classOf q = some i) (hl : l ∈ A.labels) (hw : A.LeadsOn (A.successor q l) w)
    (hj : A.classOf (A.successor q l) = some j) : j ∈ A.quotient.targets i l := by
  have hq' := Nat.lt_succ_of_lt hq
  obtain ⟨hlt, hled⟩ := A.led_classes q hq'
  have hs := leader_classes_successor hlt hq' hled hl
  have hw := hw.congr hA (successor_lt hA _ _) (successor_lt hA _ _) hs.symm
  refine mem_targets_quotient.2 ⟨_, classOf_eq_some.1 hi, hl, ?_, by rw [classOf, hs]; exact hj⟩
  rintro rfl
  exact hA.populated.isSome_get?.2 ⟨_, successor_mem_targets (hw.ne_sink hA)⟩

/-- From a class its automaton accepts the words that lead on from the members. -/
theorem LeadsOn.mem_languageFrom_quotient (hA : A.WellFormed) (hq : q < A.size)
    (hw : A.LeadsOn q w) : ∃ i, A.classOf q = some i ∧ w ∈ A.quotient.languageFrom i := by
  have hlt : ∀ {q l v}, A.LeadsOn (A.successor q l) v → A.successor q l < A.size := fun h =>
    Nat.lt_of_le_of_ne (Nat.le_of_lt_succ (successor_lt hA _ _)) (h.ne_sink hA)
  obtain ⟨i, hi⟩ := exists_classOf hq
  refine ⟨i, hi, ?_⟩
  induction hw generalizing i with
  | final hf =>
    exact ⟨i, mem_finals_quotient.2 ⟨_, classOf_eq_some.1 hi, _, mem_members.2 ⟨hq, rfl⟩, hf⟩,
      .nil i⟩
  | epsilon hw ih =>
    obtain ⟨j, hj⟩ := exists_classOf (hlt hw)
    obtain ⟨f, hf, hp⟩ := ih (hlt hw) j hj
    exact ⟨f, hf, .epsilon (hw.exists_target hA hq hi List.mem_cons_self hj) hp⟩
  | symbol hc hw ih =>
    obtain ⟨j, hj⟩ := exists_classOf (hlt hw)
    obtain ⟨f, hf, hp⟩ := ih (hlt hw) j hj
    have hl := symbol_mem_labels.2 (symbol?_eq_some.1 hc).2
    exact ⟨f, hf, .symbol hc (hw.exists_target hA hq hi hl hj) hp⟩

/-- What the automaton of the classes accepts from a class leads on from its leader. -/
theorem leadsOn_of_mem_quotient (hA : A.WellFormed) {i h : State}
    (hi : (A.leaders A.classes)[i]? = some h) (hw : w ∈ A.quotient.languageFrom i) :
    A.LeadsOn h w := by
  -- the class of a successor is led by what the edge between the classes goes on from
  have hback : ∀ {r k j v}, A.classOf (A.successor r k) = some j →
      (∀ h, (A.leaders A.classes)[j]? = some h → A.LeadsOn h v) →
      A.LeadsOn (A.successor r k) v := by
    intro r k j v hj hv
    have hs := successor_lt hA r k
    obtain ⟨hlt, hled⟩ := A.led_classes _ hs
    exact (hv _ (classOf_eq_some.1 hj)).congr hA hlt hs hled
  obtain ⟨f, hf, hp⟩ := hw
  induction hp generalizing h with
  | nil i =>
    obtain ⟨h', hi', q, hq, hqf⟩ := mem_finals_quotient.1 hf
    obtain rfl := Option.some.inj (hi.symm.trans hi')
    obtain ⟨hqs, hql⟩ := mem_members.1 hq
    obtain ⟨hhs, hhl⟩ := mem_leaders.1 (List.mem_of_getElem? hi)
    exact .final ((final_iff_of_leader_eq (Nat.lt_succ_of_lt hqs) (Nat.lt_succ_of_lt hhs)
      (hql.trans hhl.symm)).1 hqf)
  | epsilon he _ ih =>
    obtain ⟨h', hi', -, -, hj⟩ := mem_targets_quotient.1 he
    obtain rfl := Option.some.inj (hi.symm.trans hi')
    exact .epsilon (hback hj fun _ hk => ih hk hf)
  | symbol hc he _ ih =>
    obtain ⟨h', hi', -, -, hj⟩ := mem_targets_quotient.1 he
    obtain rfl := Option.some.inj (hi.symm.trans hi')
    exact .symbol hc (hback hj fun _ hk => ih hk hf)

/-- From a class its automaton accepts what leads on from the leader. -/
theorem mem_languageFrom_quotient (hA : A.WellFormed) {i h : State}
    (hi : (A.leaders A.classes)[i]? = some h) :
    w ∈ A.quotient.languageFrom i ↔ A.LeadsOn h w := by
  refine ⟨leadsOn_of_mem_quotient hA hi, fun hw => ?_⟩
  obtain ⟨hlt, hled⟩ := mem_leaders.1 (List.mem_of_getElem? hi)
  have hclass : A.classOf h = some i := classOf_eq_some.2 (by rwa [hled])
  obtain ⟨j, hj, hw⟩ := hw.mem_languageFrom_quotient hA hlt
  rwa [Option.some.inj (hclass.symm.trans hj)]

/-- The automaton of the classes accepts what leads on from the initial state. -/
theorem mem_language_quotient (hA : A.WellFormed) :
    w ∈ A.quotient.language ↔ ∃ p, A.initial = some p ∧ A.LeadsOn p w := by
  cases hp : A.initial with
  | none =>
    have hq : A.quotient.initial = none := by rw [initial_quotient, hp]; rfl
    rw [language_eq_zero hq]
    simp [Language.notMem_zero]
  | some p =>
    have hps := Nat.lt_succ_of_lt (hA.initial_lt hp)
    obtain ⟨i, hi⟩ := exists_classOf (hA.initial_lt hp)
    have hq : A.quotient.initial = some i := by rw [initial_quotient, hp]; exact hi
    obtain ⟨hlt, hled⟩ := A.led_classes p hps
    rw [language_eq hq, mem_languageFrom_quotient hA (classOf_eq_some.1 hi)]
    constructor
    · intro hw
      exact ⟨p, rfl, hw.congr hA hlt hps hled⟩
    · rintro ⟨r, hr, hw⟩
      obtain rfl := Option.some.inj hr
      exact hw.congr hA hps hlt hled.symm

theorem Guided.language_quotient (hA : A.WellFormed) (hG : A.Guided) :
    A.quotient.language = A.language := by
  ext w
  rw [mem_language_quotient hA]
  simp only [hG.leadsOn_iff hA]
  cases hp : A.initial with
  | none => simp [language_eq_zero hp, Language.notMem_zero]
  | some p => simp [language_eq hp]

theorem language_quotient (hA : A.WellFormed) (hF : A.Functional) :
    A.quotient.language = A.language := hF.guided.language_quotient hA

theorem languageFrom_quotient (hA : A.WellFormed) (hF : A.Functional) {i h : State}
    (hi : (A.leaders A.classes)[i]? = some h) : A.quotient.languageFrom i = A.languageFrom h := by
  ext w
  rw [mem_languageFrom_quotient hA hi, hF.guided.leadsOn_iff hA]

end RegularLanguages.Automaton
