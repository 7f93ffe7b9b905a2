import Mathlib
import RegularLanguages.Proofs.Automaton.Derived
import RegularLanguages.Proofs.Automaton.Names
import RegularLanguages.Proofs.StateName
/-!
# Operations keep names distinct

Names that are drafted, and the numbered ones of a union, have no texts in common (`Apart`). The subset
construction names its states for sets of states, and merging keeps some names and merges others, so
that names have texts in common from then on; but no name is a merger of others (`FreelyNamed`).
Either way names are distinct, and all operations keep this (`invariant_wellNamed`).
-/

namespace RegularLanguages.Automaton

open StateName (Clean Involves Free)

/-- No text stands in two names. -/
def Apart (A : Automaton) : Prop :=
  A.names.toList.Pairwise fun m n => ∀ a, Involves a m → ¬ Involves a n

/-- Each word leads to one state at most, names are distinct, and none is a merger of others. -/
structure FreelyNamed (A : Automaton) : Prop where
  functional : A.Functional
  nodup : A.names.toList.Nodup
  free : Free (· ∈ A.names)

/-- Names show how they are merged, and in one way or the other they are distinct. -/
structure WellNamed (A : Automaton) : Prop where
  wellFormed : A.WellFormed
  clean {n : StateName} : n ∈ A.names → n.Clean
  apart_or_free : A.Apart ∨ A.FreelyNamed

variable {A B : Automaton} {p q r : State} {s t : SortedSet State} {ps qs : List State} {n : StateName}

/-! ### Names of lists of states -/

theorem clean_map_name (hclean : ∀ {n}, n ∈ A.names → n.Clean) (hqs : ∀ q ∈ qs, q < A.size) :
    ∀ n ∈ qs.map A.name, n.Clean := by
  intro n hn
  obtain ⟨q, hq, rfl⟩ := List.mem_map.1 hn
  exact hclean (name_mem_names (hqs q hq))

theorem name_inj (hnd : A.names.toList.Nodup) (hp : p < A.size) (hq : q < A.size)
    (h : A.name p = A.name q) : p = q := by
  rw [← map_name_states] at hnd
  exact List.inj_on_of_nodup_map hnd (mem_states.2 hp) (mem_states.2 hq) h

namespace WellNamed

variable (hA : A.WellNamed)
include hA

theorem nodup : A.names.toList.Nodup := by
  rcases hA.apart_or_free with h | h
  · refine h.imp_of_mem fun hm _ hmn heq => ?_
    obtain ⟨a, ha⟩ := (hA.clean (Array.mem_toList_iff.1 hm)).exists_involves
    exact hmn a ha (heq ▸ ha)
  · exact h.nodup

theorem namesDistinct : A.NamesDistinct :=
  hA.nodup.map_on fun _ hm _ hn h =>
    (hA.clean (Array.mem_toList_iff.1 hm)).chars_inj (hA.clean (Array.mem_toList_iff.1 hn))
      (StateName.text_inj.1 h)

/-- Mergers of the names of states tell which states they are. -/
theorem mem_of_merge_eq (hps : ∀ p ∈ ps, p < A.size) (hqs : ∀ q ∈ qs, q < A.size)
    (h : StateName.merge (ps.map A.name) = .merge (qs.map A.name)) (hp : p ∈ ps) : p ∈ qs := by
  have hmem := (StateName.mem_iff_of_merge_eq (clean_map_name hA.clean hps)
    (clean_map_name hA.clean hqs) h).1 (List.mem_map_of_mem hp)
  obtain ⟨q, hq, hname⟩ := List.mem_map.1 hmem
  rwa [← name_inj hA.nodup (hqs q hq) (hps p hp) hname]

theorem nameOfSet_inj (hs : ∀ q ∈ s, q < A.size) (ht : ∀ q ∈ t, q < A.size)
    (h : A.nameOfSet s = A.nameOfSet t) : s = t :=
  SortedSet.ext fun _ => ⟨hA.mem_of_merge_eq hs ht h, hA.mem_of_merge_eq ht hs h.symm⟩

end WellNamed

/-- The names do not change. -/
theorem WellNamed.congr (hA : A.WellNamed) (hB : B.WellFormed) (hnames : B.names = A.names)
    (hfun : A.Functional → B.Functional) : B.WellNamed := by
  refine ⟨hB, fun hn => hA.clean (hnames ▸ hn), hA.apart_or_free.imp (fun h => ?_) fun h => ?_⟩
  · rwa [Apart, hnames]
  · exact ⟨hfun h.functional, hnames ▸ h.nodup, hnames ▸ h.free⟩

theorem Apart.eq_of_involves (h : A.Apart) {a : String} (hp : p < A.size) (hq : q < A.size)
    (ha : Involves a (A.name p)) (ha' : Involves a (A.name q)) : p = q := by
  by_contra hne
  rw [Apart, ← map_name_states, List.pairwise_map] at h
  have hsymm : Std.Symm fun p q => ∀ a, Involves a (A.name p) → ¬ Involves a (A.name q) :=
    ⟨fun _ _ h a ha ha' => h a ha' ha⟩
  exact h.forall (mem_states.2 hp) (mem_states.2 hq) hne a ha ha'

/-- Plain names are apart if they are distinct. -/
theorem apart_of_atoms (hnd : A.names.toList.Nodup) (hatom : ∀ n ∈ A.names, ∃ text, n = .atom text) :
    A.Apart := by
  refine hnd.imp_of_mem fun {m n} hm hn hne a ha ha' => hne ?_
  obtain ⟨t, rfl⟩ := hatom m (Array.mem_toList_iff.1 hm)
  obtain ⟨u, rfl⟩ := hatom n (Array.mem_toList_iff.1 hn)
  rw [← StateName.involves_atom.1 ha, ← StateName.involves_atom.1 ha']

/-! ### Fewer states -/

theorem names_induce (keep : SortedSet State) :
    (A.induce keep).names.toList = (A.kept keep).map A.name := by
  simp [Automaton.induce, kept]

theorem sublist_names_induce (keep : SortedSet State) :
    (A.induce keep).names.toList.Sublist A.names.toList := by
  rw [names_induce, ← map_name_states]
  exact List.filter_sublist.map _

theorem WellNamed.induce (hA : A.WellNamed) (keep : SortedSet State) : (A.induce keep).WellNamed := by
  have hsub := A.sublist_names_induce keep
  have hmem : ∀ n, n ∈ (A.induce keep).names → n ∈ A.names := fun n hn =>
    Array.mem_toList_iff.1 (hsub.subset (Array.mem_toList_iff.2 hn))
  refine ⟨hA.wellFormed.induce keep, fun hn => hA.clean (hmem _ hn),
    hA.apart_or_free.imp (fun h => h.sublist hsub) fun h => ?_⟩
  exact ⟨h.functional.induce keep, h.nodup.sublist hsub, h.free.mono hmem⟩

/-! ### Sets of states -/

theorem names_subsetAutomaton : (A.subsetAutomaton p).names.toList =
    (A.subsets (A.closure (.singleton p))).reachable.map A.nameOfSet := by
  conv_rhs => rw [← List.zipIdx_map_fst 0 (MoveSystem.reachable _), List.map_map]
  rfl

theorem mem_names_subsetAutomaton :
    n ∈ (A.subsetAutomaton p).names ↔ ∃ s, A.LeadsTo p s ∧ A.nameOfSet s = n := by
  rw [← Array.mem_toList_iff, names_subsetAutomaton, List.mem_map]
  simp only [mem_reachable_subsets]

/-- A word leads to a single state of a functional automaton. -/
theorem Functional.eq_of_leadsTo (hF : A.Functional) (h : A.LeadsTo p s) :
    ∀ q ∈ s, ∀ r ∈ s, q = r := by
  obtain ⟨q, w, -, rfl⟩ := hF.leadsTo_iff.1 h
  intro r hr t ht
  exact (SortedSet.mem_singleton.1 hr).trans (SortedSet.mem_singleton.1 ht).symm

namespace WellNamed

variable (hA : A.WellNamed) (hp : A.initial = some p)
include hA hp

theorem lt_size_of_leadsTo (h : A.LeadsTo p s) : ∀ q ∈ s, q < A.size :=
  h.lt_size hA.wellFormed (hA.wellFormed.initial_lt hp)

theorem clean_nameOfSet (h : A.LeadsTo p s) : (A.nameOfSet s).Clean := by
  obtain ⟨q, hq⟩ := h.1
  exact StateName.clean_merge (List.ne_nil_of_mem (List.mem_map_of_mem hq))
    (clean_map_name hA.clean (hA.lt_size_of_leadsTo hp h))

theorem exists_nameOfSet_eq (h : A.LeadsTo p s) :
    ∃ ms, A.nameOfSet s = .group ms ∧ ∀ m, m ∈ ms ↔ ∃ q ∈ s, A.name q = m := by
  obtain ⟨ms, hms, hmem⟩ :=
    StateName.exists_merge_eq (clean_map_name hA.clean (hA.lt_size_of_leadsTo hp h))
  exact ⟨ms, hms, fun m => (hmem m).trans List.mem_map⟩

/-- Names for sets of states, with one plain name besides, are no mergers of each other. -/
theorem free_of_sets {N : StateName → Prop} {a : String}
    (hN : ∀ n, N n → n = .atom a ∨ ∃ s, A.LeadsTo p s ∧ A.nameOfSet s = n) : Free N := by
  rcases hA.apart_or_free with hapart | hfree
  · refine StateName.free_of_apart (N := (· ∈ A.names)) (a := a) (fun _ => hA.clean) ?_ fun n hn => ?_
    · intro m n b hm hn hb hb'
      obtain ⟨q, hq, rfl⟩ := mem_names.1 hm
      obtain ⟨r, hr, rfl⟩ := mem_names.1 hn
      rw [hapart.eq_of_involves hq hr hb hb']
    · refine (hN n hn).imp_right ?_
      rintro ⟨s, hs, rfl⟩
      obtain ⟨ms, hms, hmem⟩ := hA.exists_nameOfSet_eq hp hs
      obtain ⟨q, hq⟩ := hs.1
      refine ⟨ms, hms, List.ne_nil_of_mem ((hmem _).2 ⟨q, hq, rfl⟩), fun m hm => ?_⟩
      obtain ⟨r, hr, rfl⟩ := (hmem m).1 hm
      exact name_mem_names (hA.lt_size_of_leadsTo hp hs r hr)
  · -- a word leads to one state at most, so each set has one name to merge
    refine StateName.free_of_single fun ms hms m hm m' hm' => ?_
    rcases hN _ hms with h | ⟨s, hs, h⟩
    · cases h
    obtain ⟨ms', hms', hmem⟩ := hA.exists_nameOfSet_eq hp hs
    obtain rfl := StateName.group.inj (hms'.symm.trans h)
    obtain ⟨q, hq, rfl⟩ := (hmem m).1 hm
    obtain ⟨r, hr, rfl⟩ := (hmem m').1 hm'
    rw [hfree.functional.eq_of_leadsTo hs q hq r hr]

theorem nodup_names_subsetAutomaton : (A.subsetAutomaton p).names.toList.Nodup := by
  rw [names_subsetAutomaton]
  refine (MoveSystem.nodup_reachable _).map_on fun s hs t ht h => ?_
  exact hA.nameOfSet_inj (hA.lt_size_of_leadsTo hp (mem_reachable_subsets.1 hs))
    (hA.lt_size_of_leadsTo hp (mem_reachable_subsets.1 ht)) h

theorem subsets : (A.subsetAutomaton p).WellNamed where
  wellFormed := wellFormed_subsetAutomaton
  clean hn := by
    obtain ⟨s, hs, rfl⟩ := mem_names_subsetAutomaton.1 hn
    exact hA.clean_nameOfSet hp hs
  apart_or_free := .inr ⟨functional_subsetAutomaton, hA.nodup_names_subsetAutomaton hp,
    hA.free_of_sets hp (a := "") fun _ hn => .inr (mem_names_subsetAutomaton.1 hn)⟩

end WellNamed

/-! ### The sink -/

theorem isState_iff {text : String} : A.isState text = true ↔ ∃ n ∈ A.names, n.text = text := by
  rw [isState, find?, Array.findIdx?_isSome, Array.any_eq_true']
  simp only [StateName.hasText_iff]

/-- One of more numbered names than there are states is shown by no state. -/
theorem exists_numbered_not_shown (A : Automaton) :
    ∃ k ∈ List.range (A.size + 1), A.isState (StateName.numbered k).text = false := by
  by_contra hno
  simp only [not_exists, not_and, Bool.not_eq_false] at hno
  have hsub : (List.range (A.size + 1)).map (fun k => (StateName.numbered k).text) ⊆
      A.names.toList.map StateName.text := by
    intro text htext
    obtain ⟨k, hk, rfl⟩ := List.mem_map.1 htext
    obtain ⟨n, hn, htext⟩ := isState_iff.1 (hno k hk)
    exact List.mem_map.2 ⟨n, Array.mem_toList_iff.2 hn, htext⟩
  have hnd : ((List.range (A.size + 1)).map fun k => (StateName.numbered k).text).Nodup :=
    List.nodup_range.map fun _ _ h => StateName.text_numbered_injective h
  have hle := hnd.length_le_of_subset hsub
  rw [List.length_map, List.length_map, List.length_range, Array.length_toList] at hle
  exact Nat.not_succ_le_self _ hle

theorem isState_unusedName (A : Automaton) : A.isState A.unusedName.text = false := by
  obtain ⟨k, hk, hfree⟩ := A.exists_numbered_not_shown
  obtain ⟨j, hj⟩ := Option.isSome_iff_exists.1 <|
    List.find?_isSome (p := fun k => !A.isState (StateName.numbered k).text).2 ⟨k, hk, by simp [hfree]⟩
  have hshown := List.find?_some hj
  rw [unusedName, hj, Option.getD_some]
  rwa [Bool.not_eq_true'] at hshown

theorem unusedName_not_mem (A : Automaton) : A.unusedName ∉ A.names := by
  intro hmem
  have hshown := isState_iff.2 ⟨_, hmem, rfl⟩
  rw [isState_unusedName] at hshown
  cases hshown

theorem names_addSink (h : A.missing ≠ []) : A.addSink.names = A.names.push A.unusedName := by
  rw [addSink_of_missing_ne_nil h]
  rfl

theorem mem_names_addSink (h : n ∈ A.addSink.names) : n ∈ A.names ∨ n = A.unusedName := by
  by_cases hm : A.missing = []
  · rw [addSink_of_missing_nil hm] at h
    exact .inl h
  · rw [names_addSink hm] at h
    exact Array.mem_push.1 h

theorem nodup_names_addSink (h : A.names.toList.Nodup) : A.addSink.names.toList.Nodup := by
  by_cases hm : A.missing = []
  · rwa [addSink_of_missing_nil hm]
  · rw [names_addSink hm, Array.toList_push]
    refine h.append (List.nodup_singleton _) (List.disjoint_singleton.2 ?_)
    exact fun hmem => A.unusedName_not_mem (Array.mem_toList_iff.1 hmem)

theorem WellNamed.addSink (hA : A.WellNamed) (hp : A.initial = some p) :
    (A.subsetAutomaton p).addSink.WellNamed where
  wellFormed := wellFormed_subsetAutomaton.addSink
  clean hn := by
    rcases mem_names_addSink hn with hn | rfl
    · exact (hA.subsets hp).clean hn
    · exact StateName.clean_numbered _
  apart_or_free := by
    refine .inr ⟨functional_subsetAutomaton.addSink wellFormed_subsetAutomaton,
      nodup_names_addSink (hA.nodup_names_subsetAutomaton hp), ?_⟩
    -- the name of the sink is a numbered one
    obtain ⟨a, ha⟩ : ∃ a, (A.subsetAutomaton p).unusedName = .atom a := ⟨_, rfl⟩
    refine hA.free_of_sets hp (a := a) fun n hn => ?_
    rw [← ha]
    exact (mem_names_addSink hn).symm.imp_right mem_names_subsetAutomaton.1

/-! ### Unions -/

theorem names_unionAutomaton : (A.unionAutomaton B p q).names.toList =
    (List.range (1 + A.size + B.size + 1)).map .numbered := rfl

/-- Whatever the operands show, a union has numbered names. -/
theorem wellNamed_unionAutomaton (h : (A.unionAutomaton B p q).WellFormed) :
    (A.unionAutomaton B p q).WellNamed := by
  have hmem : ∀ n ∈ (A.unionAutomaton B p q).names, ∃ k, n = .numbered k := by
    intro n hn
    rw [← Array.mem_toList_iff, names_unionAutomaton, List.mem_map] at hn
    obtain ⟨k, -, rfl⟩ := hn
    exact ⟨k, rfl⟩
  refine ⟨h, fun {n} hn => ?_, .inl (apart_of_atoms ?_ fun n hn => ?_)⟩
  · obtain ⟨k, rfl⟩ := hmem n hn
    exact StateName.clean_numbered k
  · rw [names_unionAutomaton]
    exact List.nodup_range.map fun j k h => StateName.text_numbered_injective (congrArg _ h)
  · obtain ⟨k, rfl⟩ := hmem n hn
    exact ⟨_, rfl⟩

/-! ### Classes -/

theorem names_quotient :
    A.quotient.names.toList = (A.leaders A.classes).map fun h => A.className (A.members h) := by
  simp only [Automaton.quotient, List.map_map]
  rfl

theorem lt_size_of_mem_members {h : State} (hq : q ∈ A.members h) : q < A.size :=
  (mem_members.1 hq).1

theorem leader_mem_members {h : State} (hh : h ∈ A.leaders A.classes) : h ∈ A.members h :=
  mem_members.2 (mem_leaders.1 hh)

theorem eq_of_mem_members {h h' : State} (hq : q ∈ A.members h) (hq' : q ∈ A.members h') : h = h' :=
  (mem_members.1 hq).2.symm.trans (mem_members.1 hq').2

/-- A class of one state keeps its name, and the names of other classes are mergers. -/
theorem className_cases (hne : qs ≠ []) (hnd : qs.Nodup) :
    (∃ q, qs = [q] ∧ A.className qs = A.name q) ∨
      ∃ q ∈ qs, ∃ r ∈ qs, q ≠ r ∧ A.className qs = .merge (qs.map A.name) := by
  match qs with
  | [] => exact absurd rfl hne
  | [q] => exact .inl ⟨q, rfl, rfl⟩
  | q :: r :: qs =>
    have hqr : q ≠ r := fun h => (List.nodup_cons.1 hnd).1 (h ▸ List.mem_cons_self)
    exact .inr ⟨q, List.mem_cons_self, r, List.mem_cons_of_mem _ List.mem_cons_self, hqr, rfl⟩

theorem involves_className (hclean : ∀ {n}, n ∈ A.names → n.Clean) (hqs : ∀ q ∈ qs, q < A.size)
    {a : String} : Involves a (A.className qs) ↔ ∃ q ∈ qs, Involves a (A.name q) := by
  have hmerge := StateName.involves_merge (a := a) (clean_map_name hclean hqs)
  simp only [List.mem_map, exists_exists_and_eq_and] at hmerge
  match qs with
  | [] => exact hmerge
  | [q] => simp [className]
  | _ :: _ :: _ => exact hmerge

theorem clean_className (hclean : ∀ {n}, n ∈ A.names → n.Clean) (hqs : ∀ q ∈ qs, q < A.size)
    (hne : qs ≠ []) : (A.className qs).Clean := by
  have hmerge := StateName.clean_merge (mt List.map_eq_nil_iff.1 hne) (clean_map_name hclean hqs)
  match qs with
  | [] => exact hmerge
  | [q] => exact hclean (name_mem_names (hqs q List.mem_cons_self))
  | _ :: _ :: _ => exact hmerge

theorem mem_names_quotient :
    n ∈ A.quotient.names ↔ ∃ h ∈ A.leaders A.classes, A.className (A.members h) = n := by
  rw [← Array.mem_toList_iff, names_quotient, List.mem_map]

theorem apart_quotient (hclean : ∀ {n}, n ∈ A.names → n.Clean) (hA : A.Apart) : A.quotient.Apart := by
  rw [Apart, names_quotient, List.pairwise_map]
  refine nodup_leaders.pairwise_of_forall_ne fun h _ h' _ hne a ha ha' => hne ?_
  obtain ⟨q, hq, ha⟩ := (involves_className hclean fun _ => lt_size_of_mem_members).1 ha
  obtain ⟨r, hr, ha'⟩ := (involves_className hclean fun _ => lt_size_of_mem_members).1 ha'
  obtain rfl :=
    hA.eq_of_involves (lt_size_of_mem_members hq) (lt_size_of_mem_members hr) ha ha'
  exact eq_of_mem_members hq hr

theorem cases_of_leader {h : State} (hh : h ∈ A.leaders A.classes) :
    (∃ q, A.members h = [q] ∧ A.className (A.members h) = A.name q) ∨
      ∃ q ∈ A.members h, ∃ r ∈ A.members h, q ≠ r ∧
        A.className (A.members h) = .merge ((A.members h).map A.name) :=
  className_cases (List.ne_nil_of_mem (leader_mem_members hh)) (List.nodup_range.filter _)

namespace FreelyNamed

variable (hF : A.FreelyNamed) (hclean : ∀ {n}, n ∈ A.names → n.Clean)
include hF hclean

/-- The members of a merger of several names of states. -/
theorem exists_members (hqs : ∀ q ∈ qs, q < A.size) (hq : q ∈ qs) (hr : r ∈ qs) (hne : q ≠ r) :
    ∃ ms m m', StateName.merge (qs.map A.name) = .group ms ∧ m ∈ ms ∧ m' ∈ ms ∧ m ≠ m' ∧
      ∀ k ∈ ms, ∃ j ∈ qs, A.name j = k := by
  obtain ⟨ms, hms, hmem⟩ := StateName.exists_merge_eq (clean_map_name hclean hqs)
  refine ⟨ms, A.name q, A.name r, hms, (hmem _).2 (List.mem_map_of_mem hq),
    (hmem _).2 (List.mem_map_of_mem hr),
    fun h => hne (name_inj hF.nodup (hqs q hq) (hqs r hr) h), fun k hk => ?_⟩
  exact List.mem_map.1 ((hmem k).1 hk)

theorem merge_not_mem (hqs : ∀ q ∈ qs, q < A.size) (hq : q ∈ qs) (hr : r ∈ qs) (hne : q ≠ r) :
    StateName.merge (qs.map A.name) ∉ A.names := by
  obtain ⟨ms, m, m', hms, hm, hm', hmm, hall⟩ := hF.exists_members hclean hqs hq hr hne
  rw [hms]
  refine hF.free ms m m' hm hm' hmm fun k hk => .name ?_
  obtain ⟨j, hj, rfl⟩ := hall k hk
  exact name_mem_names (hqs j hj)

theorem nodup_names_quotient (hW : A.WellNamed) : A.quotient.names.toList.Nodup := by
  rw [names_quotient]
  refine nodup_leaders.map_on fun h hh h' hh' heq => ?_
  rcases cases_of_leader hh with ⟨q, hq, hname⟩ | ⟨q, hq, r, hr, hne, hname⟩ <;>
    rcases cases_of_leader hh' with ⟨q', hq', hname'⟩ | ⟨q', hq', r', hr', hne', hname'⟩ <;>
    rw [hname, hname'] at heq
  · have hmem : q ∈ A.members h := hq ▸ List.mem_cons_self
    have hmem' : q' ∈ A.members h' := hq' ▸ List.mem_cons_self
    obtain rfl := name_inj hF.nodup (lt_size_of_mem_members hmem) (lt_size_of_mem_members hmem') heq
    exact eq_of_mem_members hmem hmem'
  · have hmem : q ∈ A.members h := hq ▸ List.mem_cons_self
    refine absurd (name_mem_names (lt_size_of_mem_members hmem)) ?_
    rw [heq]
    exact hF.merge_not_mem hclean (fun _ => lt_size_of_mem_members) hq' hr' hne'
  · have hmem : q' ∈ A.members h' := hq' ▸ List.mem_cons_self
    refine absurd (name_mem_names (lt_size_of_mem_members hmem)) ?_
    rw [← heq]
    exact hF.merge_not_mem hclean (fun _ => lt_size_of_mem_members) hq hr hne
  · have hmem : h ∈ A.members h' := hW.mem_of_merge_eq (fun _ => lt_size_of_mem_members)
      (fun _ => lt_size_of_mem_members) heq (leader_mem_members hh)
    exact eq_of_mem_members (leader_mem_members hh) hmem

theorem free_quotient : Free (· ∈ A.quotient.names) := by
  refine (hF.free.merge (K := fun n => ∃ h q, A.members h = [q] ∧ A.name q = n)
    (M := fun n => ∃ h, ∃ q ∈ A.members h, ∃ r ∈ A.members h, q ≠ r ∧
      StateName.merge ((A.members h).map A.name) = n) ?_ ?_).mono ?_
  · rintro n ⟨h, q, hq, rfl⟩
    exact name_mem_names (lt_size_of_mem_members (hq ▸ List.mem_cons_self))
  · rintro n ⟨h, q, hq, r, hr, hne, rfl⟩
    obtain ⟨ms, m, m', hms, hm, hm', hmm, hall⟩ :=
      hF.exists_members hclean (fun _ => lt_size_of_mem_members) hq hr hne
    refine ⟨ms, m, m', hms, hm, hm', hmm, fun k hk => ?_⟩
    obtain ⟨j, hj, rfl⟩ := hall k hk
    refine ⟨name_mem_names (lt_size_of_mem_members hj), ?_⟩
    -- a state in a class of several keeps its name in no other class
    rintro ⟨h', i, hi, hname⟩
    have hmem : i ∈ A.members h' := hi ▸ List.mem_cons_self
    obtain rfl := name_inj hF.nodup (lt_size_of_mem_members hmem) (lt_size_of_mem_members hj) hname
    obtain rfl := eq_of_mem_members hmem hj
    rw [hi, List.mem_singleton] at hq hr
    exact hne (hq.trans hr.symm)
  · intro n hn
    obtain ⟨h, hh, rfl⟩ := mem_names_quotient.1 hn
    rcases cases_of_leader hh with ⟨q, hq, hname⟩ | ⟨q, hq, r, hr, hne, hname⟩
    · exact .inl ⟨h, q, hq, hname.symm⟩
    · exact .inr ⟨h, q, hq, r, hr, hne, hname.symm⟩

end FreelyNamed

theorem WellNamed.quotient (hA : A.WellNamed) : A.quotient.WellNamed where
  wellFormed := wellFormed_quotient A
  clean hn := by
    obtain ⟨h, hh, rfl⟩ := mem_names_quotient.1 hn
    exact clean_className hA.clean (fun _ => lt_size_of_mem_members)
      (List.ne_nil_of_mem (leader_mem_members hh))
  apart_or_free := hA.apart_or_free.imp (apart_quotient hA.clean) fun h =>
    ⟨functional_quotient hA.wellFormed h.functional, h.nodup_names_quotient hA.clean hA,
      h.free_quotient hA.clean⟩

/-! ### All operations -/

theorem invariant_wellNamed : Invariant WellNamed where
  addSymbols extra hA :=
    hA.congr (hA.wellFormed.addSymbols extra) rfl fun h => ⟨h.no_epsilon, h.unique⟩
  subsets hp hA := hA.subsets hp
  induce keep hA := hA.induce keep
  quotient hA := hA.quotient
  addSink hp hA := hA.addSink hp
  flipFinals hA := hA.congr hA.wellFormed.flipFinals rfl Functional.flipFinals
  union hp hq hA hB :=
    wellNamed_unionAutomaton (wellFormed_unionAutomaton hA.wellFormed hB.wellFormed hp hq)

/-- Drafted, and no state shows a bracket or a comma. -/
def PlainDraft (A : Automaton) : Prop :=
  (∃ rs, A = (Draft.empty.requests rs).automaton) ∧
    ∀ n ∈ A.names, ∀ c ∈ n.text.toList, c ≠ '[' ∧ c ≠ ']' ∧ c ≠ ','

theorem PlainDraft.wellNamed (h : PlainDraft A) : A.WellNamed := by
  obtain ⟨⟨rs, rfl⟩, hplain⟩ := h
  have hI := Draft.indexed_empty.requests rs
  refine ⟨Draft.wellFormed_requests rs, fun {n} hn => ?_,
    .inl (apart_of_atoms hI.nodup_names fun n hn => hI.exists_text hn)⟩
  obtain ⟨text, rfl⟩ := hI.exists_text hn
  refine .atom fun c hc => ?_
  obtain ⟨hopen, hclose, hcomma⟩ :=
    hplain _ hn c (by rwa [StateName.text, String.toList_ofList, StateName.chars])
  rintro (h | h | h)
  · exact hopen h
  · exact hclose h
  · exact hcomma h

/-- Whatever operations make of drafted automata, no two states show the same name. -/
theorem derived_namesDistinct (h : Derived PlainDraft A) : A.NamesDistinct :=
  (h.of_invariant invariant_wellNamed fun _ => PlainDraft.wellNamed).namesDistinct

/-- Two sinks are added in turn. When the second takes the name `q0`, the first one, which had it before,
is named for its set. -/
theorem derived_namesDistinct_stuck : PlainDraft stuck ∧
    ∃ B C, stuck.complement = .ok B ∧ (B.addSymbols (.singleton ⟨'b', rfl⟩)).complete = .ok C ∧
      C.names.toList.map StateName.text = ["[[p]]", "[q0]", "q0"] ∧ C.NamesDistinct := by
  have hnames : stuck.names = #[.atom "p"] := by cbv
  have hplain : PlainDraft stuck := by
    refine ⟨⟨_, rfl⟩, fun n hn => ?_⟩
    rw [hnames, Array.mem_singleton] at hn
    subst hn
    simp [StateName.text, StateName.chars]
  have hB := complement_eq (A := stuck) (p := 0) rfl
  have hinitial : ((stuck.complementAutomaton 0).addSymbols (.singleton ⟨'b', rfl⟩)).initial = some 0 :=
    initial_complementAutomaton
  have hC : ((stuck.complementAutomaton 0).addSymbols (.singleton ⟨'b', rfl⟩)).complete =
      .ok (((stuck.complementAutomaton 0).addSymbols (.singleton ⟨'b', rfl⟩)).subsetAutomaton
        0).addSink := by
    rw [complete, determinize_eq hinitial]
    rfl
  refine ⟨hplain, _, _, hB, hC, by cbv, ?_⟩
  exact derived_namesDistinct (.complete (.addSymbols (.complement (.base hplain) hB) _) hC)

end RegularLanguages.Automaton
