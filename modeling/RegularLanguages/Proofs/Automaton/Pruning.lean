import Mathlib
import RegularLanguages.Proofs.Automaton.Compact
import RegularLanguages.Proofs.Automaton.Draft
/-!
# Pruning in either order

A state is useful if a path from the initial state to a final one passes it. Dropping the states that are not
reached loses no path to a final state from those that are left, and dropping the dead ones loses no path from
the initial state to those that are left. So the one after the other, in either order, leaves the useful states
(`livePart_reachable`, `reachable_livePart`), and as a part of a part is a part (`induce_induce`), the same
automaton.
-/

namespace RegularLanguages.Automaton

/-- A path from the initial state to a final one passes the state. -/
def Useful (A : Automaton) (q : State) : Prop :=
  ∃ p u f v, A.initial = some p ∧ A.Path p u q ∧ f ∈ A.finals ∧ A.Path q v f

/-- The live states that `p` reaches. -/
def liveFrom (A : Automaton) (p : State) : SortedSet State := (A.reach p).filter (· ∈ A.live)

variable {A : Automaton} {p q : State} {keep keep' both : SortedSet State} {i j : Nat}

/-! ### Parts of parts -/

/-- The states that are kept stay in order. -/
theorem pairwise_kept (A : Automaton) (keep : SortedSet State) :
    (A.kept keep).Pairwise fun p q => p < q :=
  List.pairwise_lt_range.filter _

theorem kept_lt (hi : (A.kept keep)[i]? = some p) (hj : (A.kept keep)[j]? = some q) (hij : i < j) :
    p < q := by
  obtain ⟨hi', rfl⟩ := List.getElem?_eq_some_iff.1 hi
  obtain ⟨hj', rfl⟩ := List.getElem?_eq_some_iff.1 hj
  exact List.pairwise_iff_getElem.1 (A.pairwise_kept keep) i j hi' hj' hij

/-- The states that are left of those that are left, in the numbers that they had first. -/
theorem map_kept_induce {f : State → State} (hf : ∀ i q, (A.kept keep)[i]? = some q → f i = q)
    (hmem : ∀ i q, (A.kept keep)[i]? = some q → (q ∈ both ↔ i ∈ keep')) (hsub : ∀ q ∈ both, q ∈ keep) :
    ((A.induce keep).kept keep').map f = A.kept both := by
  have hsorted : (((A.induce keep).kept keep').map f).Pairwise fun p q => p < q := by
    refine List.pairwise_map.2 (((A.induce keep).pairwise_kept keep').imp_of_mem fun {i j} hi hj hij => ?_)
    obtain ⟨p, hp⟩ := lt_size_induce.1 (mem_kept.1 hi).1
    obtain ⟨q, hq⟩ := lt_size_induce.1 (mem_kept.1 hj).1
    rw [hf i p hp, hf j q hq]
    exact kept_lt hp hq hij
  have hiff : ∀ q, q ∈ ((A.induce keep).kept keep').map f ↔ q ∈ A.kept both := by
    intro q
    rw [List.mem_map, mem_kept]
    constructor
    · rintro ⟨i, hi, rfl⟩
      obtain ⟨hi, hik⟩ := mem_kept.1 hi
      obtain ⟨q, hq⟩ := lt_size_induce.1 hi
      rw [hf i q hq]
      exact ⟨(of_kept hq).1, (hmem i q hq).2 hik⟩
    · rintro ⟨hq, hqb⟩
      obtain ⟨i, hi⟩ := exists_kept hq (hsub q hqb)
      exact ⟨i, mem_kept.2 ⟨lt_size_induce.2 ⟨q, hi⟩, (hmem i q hi).1 hqb⟩, hf i q hi⟩
  have hnodup : (((A.induce keep).kept keep').map f).Nodup := hsorted.imp fun h => Nat.ne_of_lt h
  exact List.Perm.eq_of_pairwise (fun _ _ _ _ h h' => absurd h' (Nat.lt_asymm h)) hsorted
    (A.pairwise_kept both) ((List.perm_ext_iff_of_nodup hnodup nodup_kept).2 hiff)

/-- A part of a part is the part with the states that both keep. -/
theorem induce_induce (hmem : ∀ i q, (A.kept keep)[i]? = some q → (q ∈ both ↔ i ∈ keep'))
    (hsub : ∀ q ∈ both, q ∈ keep) : (A.induce keep).induce keep' = A.induce both := by
  have hcut := (A.cutTo_induce keep).trans ((A.induce keep).cutTo_induce keep')
    (f := fun i => (A.kept keep)[i]?.getD 0) fun i hi => by
      obtain ⟨q, hq⟩ := lt_size_induce.1 (mem_kept.1 hi).1
      rw [hq, Option.getD_some]
  rw [map_kept_induce (fun i q hq => by rw [hq, Option.getD_some]) hmem hsub] at hcut
  exact hcut.unique (A.cutTo_induce both) (.ofEdges _) (.ofEdges _)

/-! ### Useful states -/

theorem mem_liveFrom : q ∈ A.liveFrom p ↔ q ∈ A.reach p ∧ q ∈ A.live := by
  rw [liveFrom, SortedSet.mem_filter, decide_eq_true_iff]

namespace WellFormed

variable (hA : A.WellFormed)
include hA

theorem mem_liveFrom_iff (hp : A.initial = some p) : q ∈ A.liveFrom p ↔ A.Useful q := by
  rw [mem_liveFrom, hA.mem_reach, hA.mem_live]
  constructor
  · rintro ⟨⟨u, hu⟩, v, f, hf, hv⟩
    exact ⟨p, u, f, v, hp, hu, hf, hv⟩
  · rintro ⟨p', u, f, v, hp', hu, hf, hv⟩
    obtain rfl := Option.some.inj (hp.symm.trans hp')
    exact ⟨⟨u, hu⟩, v, f, hf, hv⟩

/-- A state that is reached is live in the reachable part if it is live. -/
theorem livePart_reachable (p : State) :
    (A.induce (A.reach p)).livePart = A.induce (A.liveFrom p) := by
  refine induce_induce (fun i q hi => ?_) fun q hq => (mem_liveFrom.1 hq).1
  obtain ⟨u, hu⟩ := hA.mem_reach.1 (of_kept hi).2
  have hlanguage : (A.induce (A.reach p)).languageFrom i = A.languageFrom q := by
    refine languageFrom_induce hi fun v r hv _ => mem_kept.2 ⟨?_, ?_⟩
    · exact hA.path_lt hv (of_kept hi).1
    · exact hA.mem_reach.2 ⟨u ++ v, hu.trans hv⟩
  rw [mem_liveFrom, (hA.induce _).mem_live, hlanguage, ← hA.mem_live]
  exact and_iff_right (of_kept hi).2

/-- A live state is reached in the live part if it is reached. -/
theorem reachable_livePart (hi : (A.kept A.live)[i]? = some p) :
    A.livePart.induce (A.livePart.reach i) = A.induce (A.liveFrom p) := by
  refine induce_induce (fun j q hj => ?_) fun q hq => (mem_liveFrom.1 hq).2
  have hL : A.livePart.WellFormed := hA.induce _
  rw [mem_liveFrom, hA.mem_reach, hL.mem_reach, and_iff_left (of_kept hj).2]
  constructor
  · rintro ⟨w, hw⟩
    -- the states on the way to a live state are live
    obtain ⟨x, f, hf, hx⟩ := hA.mem_live.1 (of_kept hj).2
    refine ⟨w, path_induce hw (fun u v r hu hv => mem_kept.2 ⟨?_, ?_⟩) hi hj⟩
    · exact hA.path_lt hu (of_kept hi).1
    · exact hA.mem_live.2 ⟨v ++ x, f, hf, hv.trans hx⟩
  · rintro ⟨w, hw⟩
    obtain ⟨q', hq', hpath⟩ := path_of_path_induce hw hi
    obtain rfl : q = q' := Option.some.inj (hj.symm.trans hq')
    exact ⟨w, hpath⟩

theorem initial_liveFrom (hp : A.initial = some p) (hl : p ∈ A.live) :
    ∃ k : Nat, (A.kept (A.liveFrom p))[k]? = some p ∧ (A.induce (A.liveFrom p)).initial = some k := by
  have hreach : p ∈ A.reach p := hA.mem_reach.2 ⟨[], .nil p⟩
  obtain ⟨k, hk⟩ := exists_kept (hA.initial_lt hp) (mem_liveFrom.2 ⟨hreach, hl⟩)
  exact ⟨k, hk, initial_induce.2 ⟨p, hp, hk⟩⟩

theorem trim_liveFrom (hp : A.initial = some p) : (A.induce (A.liveFrom p)).Trim := by
  rw [← hA.livePart_reachable]
  exact (hA.induce _).trim_livePart fun q hq => hA.reached_reachable hp hq

theorem language_liveFrom (hp : A.initial = some p) :
    (A.induce (A.liveFrom p)).language = A.language := by
  obtain ⟨i, -, hi⟩ := hA.exists_initial_reachable hp
  rw [← hA.livePart_reachable, (hA.induce _).language_livePart hi, hA.language_reachable hp]

end WellFormed

/-- If the initial state reaches a final one, then dropping the states that are not reached and dropping the dead
ones leave the same automaton in either order: the useful states, with all that is said of them. It accepts the
same words, and dropping once more changes nothing. Otherwise nothing is left in the one order, and in the
other there is no initial state to go on with. -/
theorem prune_in_either_order (hA : A.WellFormed) (hp : A.initial = some p) :
    ((∃ f ∈ A.finals, ∃ w, A.Path p w f) → ∃ R T qs, A.reachablePart = .ok R ∧ R.livePart = T ∧
      A.livePart.reachablePart = .ok T ∧ T.CutTo A qs ∧ (qs.Pairwise fun q r => q < r) ∧
      (∀ q, q ∈ qs ↔ A.Useful q) ∧ T.initialName = A.initialName ∧ (∀ w, T.accepts w = A.accepts w) ∧
      T.reachablePart = .ok T ∧ T.livePart = T) ∧
    ((∀ f ∈ A.finals, ∀ w, ¬ A.Path p w f) → ∃ R, A.reachablePart = .ok R ∧ R.livePart.size = 0 ∧
      A.livePart.reachablePart = .error .noInitialState) := by
  have hreachable := reachablePart_eq hp
  have hlive := hA.livePart_reachable p
  constructor
  · rintro ⟨f, hf, w, hw⟩
    have hpl : p ∈ A.live := hA.mem_live.2 ⟨w, f, hf, hw⟩
    obtain ⟨i, hi⟩ := exists_kept (hA.initial_lt hp) hpl
    obtain ⟨k, hk, hTi⟩ := hA.initial_liveFrom hp hpl
    have hLi : A.livePart.initial = some i := initial_induce.2 ⟨p, hp, hi⟩
    have hT : (A.induce (A.liveFrom p)).WellFormed := hA.induce _
    have hcut := A.cutTo_induce (A.liveFrom p)
    have htrim := hA.trim_liveFrom hp
    refine ⟨_, _, _, hreachable, hlive, ?_, hcut, A.pairwise_kept _, fun q => ?_, ?_, ?_, ?_, ?_⟩
    · rw [reachablePart_eq hLi, hA.reachable_livePart hi]
    · rw [mem_kept, hA.mem_liveFrom_iff hp]
      refine and_iff_right_of_imp ?_
      rintro ⟨p', u, f, v, hp', hu, -⟩
      exact hA.path_lt hu (hA.initial_lt hp')
    · rw [initialName, hTi, initialName, hp, Option.map_some, Option.map_some, hcut.name_eq hk]
    · exact accepts_congr hTi hp (hA.language_liveFrom hp)
    · exact htrim.reachablePart_eq hT (.ofEdges _) hTi
    · exact htrim.livePart_eq hT (.ofEdges _)
  · intro hno
    have hpl : p ∉ A.live := by
      rw [hA.mem_live]
      rintro ⟨w, f, hf, hw⟩
      exact hno f hf w hw
    refine ⟨_, hreachable, ?_, reachablePart_of_no_initial ?_⟩
    · rw [hlive, size_induce, List.length_eq_zero_iff, List.eq_nil_iff_forall_not_mem]
      intro q hq
      obtain ⟨p', u, f, v, hp', hu, hf, hv⟩ := (hA.mem_liveFrom_iff hp).1 (mem_kept.1 hq).2
      obtain rfl := Option.some.inj (hp.symm.trans hp')
      exact hno f hf _ (hu.trans hv)
    · rw [Option.eq_none_iff_forall_ne_some]
      intro i hi
      obtain ⟨q, hq, hk⟩ := initial_induce.1 hi
      obtain rfl := Option.some.inj (hp.symm.trans hq)
      exact hpl (of_kept hk).2

/-- One state is dead, and one is not reached. -/
def overgrown : Automaton :=
  (Draft.empty.requests [.symbol 'a', .state "q0" true false, .state "q1" false false,
    .state "q2" false false, .state "q3" false true, .edge "q0" 'a' "q1", .edge "q2" 'a' "q1",
    .edge "q2" 'a' "q3", .edge "q0" '&' "q3"]).automaton

/-- The only edge leads to the initial state. -/
def inboundOnly : Automaton :=
  (Draft.empty.requests [.symbol 'a', .state "q0" true false, .state "q1" false true,
    .edge "q1" 'a' "q0"]).automaton

theorem prune_in_either_order_overgrown :
    overgrown.WellFormed ∧ overgrown.initial = some 0 ∧
      (∃ f ∈ overgrown.finals, ∃ w, overgrown.Path 0 w f) ∧
      (∃ R T qs, overgrown.reachablePart = .ok R ∧ R.livePart = T ∧
        overgrown.livePart.reachablePart = .ok T ∧ T.CutTo overgrown qs ∧ 0 ∈ qs ∧ 1 ∉ qs) ∧
      inboundOnly.WellFormed ∧ inboundOnly.initial = some 0 ∧
      (∀ f ∈ inboundOnly.finals, ∀ w, ¬ inboundOnly.Path 0 w f) ∧
      inboundOnly.livePart.reachablePart = .error .noInitialState := by
  have hA : overgrown.WellFormed := Draft.wellFormed_requests _
  have hi : overgrown.initial = some 0 := by decide
  have hreach : 3 ∈ overgrown.reach 0 := by
    have h : (overgrown.reach 0).toList = [0, 1, 3] := by cbv
    simp [← SortedSet.mem_toList, h]
  have hdead : 1 ∉ overgrown.live := by
    have h : overgrown.live.toList = [0, 2, 3] := by cbv
    simp [← SortedSet.mem_toList, h]
  obtain ⟨w, hw⟩ := hA.mem_reach.1 hreach
  have hf : ∃ f ∈ overgrown.finals, ∃ w, overgrown.Path 0 w f := ⟨3, by decide, w, hw⟩
  obtain ⟨R, T, qs, hR, hT, hT', hcut, -, huseful, -⟩ := (prune_in_either_order hA hi).1 hf
  have h0 : overgrown.Useful 0 := ⟨0, [], 3, w, hi, .nil 0, by decide, hw⟩
  have h1 : ¬ overgrown.Useful 1 := by
    rintro ⟨-, -, f, v, -, -, hf, hv⟩
    exact hdead (hA.mem_live.2 ⟨v, f, hf, hv⟩)
  -- nothing leads from the initial state to the final one
  have hB : inboundOnly.WellFormed := Draft.wellFormed_requests _
  have hBi : inboundOnly.initial = some 0 := by decide
  have hno : ∀ f ∈ inboundOnly.finals, ∀ w, ¬ inboundOnly.Path 0 w f := by
    intro f hf w hw
    have hreach : (inboundOnly.reach 0).toList = [0] := by cbv
    have hfinals : inboundOnly.finals.toList = [1] := by cbv
    have hmem := hB.mem_reach.2 ⟨w, hw⟩
    rw [← SortedSet.mem_toList, hreach, List.mem_singleton] at hmem
    rw [← SortedSet.mem_toList, hfinals, List.mem_singleton, hmem] at hf
    cases hf
  obtain ⟨-, -, -, herror⟩ := (prune_in_either_order hB hBi).2 hno
  exact ⟨hA, hi, hf, ⟨R, T, qs, hR, hT, hT', hcut, (huseful 0).2 h0, fun h => h1 ((huseful 1).1 h)⟩,
    hB, hBi, hno, herror⟩

end RegularLanguages.Automaton
