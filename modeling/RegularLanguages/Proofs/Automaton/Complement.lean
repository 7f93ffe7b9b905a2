import RegularLanguages.Automaton.Boolean
import RegularLanguages.Proofs.Automaton.Subsets
/-!
# Complements

A sink makes a functional automaton total without a change to its language
(`languageFrom_addSink`). In a total functional automaton each word over the alphabet leads to exactly one
state, so that flipping the final states gives the complement (`mem_languageFrom_flipFinals`).
-/

namespace RegularLanguages.Automaton

/-- Each state has an edge on each symbol. -/
def Total (A : Automaton) : Prop :=
  ∀ q < A.size, ∀ x ∈ A.alphabet, ∃ r, r ∈ A.targets q (.symbol x)

variable {A B : Automaton} {p q r d : State} {w : List Char} {l : Label}

theorem isComplete_iff (hA : A.WellFormed) : A.isComplete = true ↔ A.Total := by
  simp only [isComplete, List.all_eq_true, mem_states, SortedSet.mem_toList,
    hA.populated.isSome_get?]
  exact Iff.rfl

/-! ### The sink -/

theorem mem_missing : (q, l) ∈ A.missing ↔
    ∃ x ∈ A.alphabet, q < A.size ∧ (A.transitions.get? q (.symbol x)).isSome = false ∧
      l = .symbol x := by
  simp only [missing, List.mem_flatMap, List.mem_filterMap, mem_states, SortedSet.mem_toList]
  constructor
  · rintro ⟨q', hq, x, hx, h⟩
    split at h
    · cases h
    · rename_i hno
      obtain ⟨rfl, rfl⟩ := Prod.mk.inj (Option.some.inj h)
      exact ⟨x, hx, hq, by simpa using hno, rfl⟩
  · rintro ⟨x, hx, hq, hno, rfl⟩
    exact ⟨q, hq, x, hx, by rw [if_neg (by simp [hno])]⟩

theorem addSink_of_missing_nil (h : A.missing = []) : A.addSink = A := by
  rw [addSink, h]
  rfl

/-- The loops on the sink, and the edges to it where others are missing. -/
def sinkEdges (A : Automaton) : List Edge :=
  A.alphabet.toList.map (fun x => (A.size, .symbol x, A.size)) ++
    A.missing.map fun e => (e.1, e.2, A.size)

theorem addSink_of_missing_ne_nil (h : A.missing ≠ []) :
    A.addSink = (A.addState A.unusedName false).addEdges A.sinkEdges := by
  rw [addSink, if_neg (by simpa using h)]
  rfl

theorem mem_sinkEdges : (q, l, d) ∈ A.sinkEdges ↔ d = A.size ∧
    ((q = A.size ∧ ∃ x ∈ A.alphabet, l = .symbol x) ∨ (q, l) ∈ A.missing) := by
  rw [sinkEdges, List.mem_append, List.mem_map, List.mem_map]
  simp only [Prod.mk.injEq, Prod.exists, SortedSet.mem_toList]
  constructor
  · rintro (⟨x, hx, rfl, rfl, rfl⟩ | ⟨q, l, hm, rfl, rfl, rfl⟩)
    · exact ⟨rfl, .inl ⟨rfl, x, hx, rfl⟩⟩
    · exact ⟨rfl, .inr hm⟩
  · rintro ⟨rfl, ⟨rfl, x, hx, rfl⟩ | hm⟩
    · exact .inl ⟨x, hx, rfl, rfl, rfl⟩
    · exact .inr ⟨q, l, hm, rfl, rfl, rfl⟩

theorem mem_targets_addSink (h : A.missing ≠ []) : d ∈ A.addSink.targets q l ↔
    d ∈ A.targets q l ∨ d = A.size ∧
      ((q = A.size ∧ ∃ x ∈ A.alphabet, l = .symbol x) ∨ (q, l) ∈ A.missing) := by
  rw [addSink_of_missing_ne_nil h, mem_targets_addEdges, or_comm, mem_sinkEdges]
  rfl

theorem size_addSink (h : A.missing ≠ []) : A.addSink.size = A.size + 1 := by
  rw [addSink_of_missing_ne_nil h]
  exact A.size_addState A.unusedName false

theorem size_le_size_addSink : A.size ≤ A.addSink.size := by
  by_cases h : A.missing = []
  · rw [addSink_of_missing_nil h]
  · rw [size_addSink h]
    exact Nat.le_succ _

theorem alphabet_addSink : A.addSink.alphabet = A.alphabet := by
  rw [addSink]
  split <;> rfl

theorem initial_addSink : A.addSink.initial = A.initial := by
  rw [addSink]
  split <;> rfl

theorem finals_addSink : A.addSink.finals = A.finals := by
  rw [addSink]
  split <;> rfl

theorem symbol?_congr (h : B.alphabet = A.alphabet) (c : Char) : B.symbol? c = A.symbol? c := by
  rw [symbol?, symbol?, h]

theorem WellFormed.addSink (hA : A.WellFormed) : A.addSink.WellFormed := by
  by_cases h : A.missing = []
  · rwa [addSink_of_missing_nil h]
  have hsize := A.size_addState A.unusedName false
  rw [addSink_of_missing_ne_nil h]
  refine (hA.addState _ _).addEdges (fun p l q he => ?_) fun p x q he => ?_
  · rw [hsize]
    obtain ⟨rfl, ⟨rfl, -⟩ | hm⟩ := mem_sinkEdges.1 he
    · exact ⟨Nat.lt_succ_self _, Nat.lt_succ_self _⟩
    · obtain ⟨-, -, hp, -⟩ := mem_missing.1 hm
      exact ⟨Nat.lt_succ_of_lt hp, Nat.lt_succ_self _⟩
  · obtain ⟨-, ⟨-, y, hy, hl⟩ | hm⟩ := mem_sinkEdges.1 he
    · rwa [Label.symbol.inj hl]
    · obtain ⟨y, hy, -, -, hl⟩ := mem_missing.1 hm
      rwa [Label.symbol.inj hl]

theorem not_mem_targets_of_mem_missing (hA : A.WellFormed) (h : (q, l) ∈ A.missing) :
    r ∉ A.targets q l := by
  obtain ⟨x, -, -, hno, rfl⟩ := mem_missing.1 h
  intro hr
  rw [hA.populated.isSome_get?.2 ⟨r, hr⟩] at hno
  cases hno

theorem Functional.addSink (hF : A.Functional) (hA : A.WellFormed) : A.addSink.Functional := by
  by_cases h : A.missing = []
  · rwa [addSink_of_missing_nil h]
  refine ⟨fun hq => ?_, fun {p q r x} hq hr => ?_⟩
  · rcases (mem_targets_addSink h).1 hq with hq | ⟨-, ⟨-, x, -, hl⟩ | hm⟩
    · exact hF.no_epsilon hq
    · cases hl
    · obtain ⟨x, -, -, -, hl⟩ := mem_missing.1 hm
      cases hl
  · -- no old edge leaves the sink or stands where one is missing
    have hold : ∀ {s t}, s ∈ A.targets p (.symbol x) → t = A.size ∧
        ((p = A.size ∧ ∃ y ∈ A.alphabet, Label.symbol x = .symbol y) ∨
          (p, .symbol x) ∈ A.missing) → s = t := by
      rintro s t hs ⟨-, ⟨rfl, -⟩ | hm⟩
      · exact absurd (hA.source_lt hs) (Nat.lt_irrefl _)
      · exact absurd hs (not_mem_targets_of_mem_missing hA hm)
    rcases (mem_targets_addSink h).1 hq with hq | hq <;>
      rcases (mem_targets_addSink h).1 hr with hr | hr
    · exact hF.unique hq hr
    · exact hold hq hr
    · exact (hold hr hq).symm
    · exact hq.1.trans hr.1.symm

theorem total_addSink (hA : A.WellFormed) : A.addSink.Total := by
  intro q hq x hx
  rw [alphabet_addSink] at hx
  by_cases hs : (A.transitions.get? q (.symbol x)).isSome = true
  · obtain ⟨r, hr⟩ := hA.populated.isSome_get?.1 hs
    refine ⟨r, ?_⟩
    by_cases h : A.missing = []
    · rwa [addSink_of_missing_nil h]
    · exact (mem_targets_addSink h).2 (.inl hr)
  · have hmiss : ∀ hq : q < A.size, (q, .symbol x) ∈ A.missing := fun hq =>
      mem_missing.2 ⟨x, hx, hq, by simpa using hs, rfl⟩
    by_cases h : A.missing = []
    · rw [addSink_of_missing_nil h] at hq
      have hm := hmiss hq
      rw [h] at hm
      exact absurd hm List.not_mem_nil
    · refine ⟨A.size, (mem_targets_addSink h).2 (.inr ⟨rfl, ?_⟩)⟩
      rw [size_addSink h] at hq
      rcases Nat.lt_succ_iff_lt_or_eq.1 hq with hq | rfl
      · exact .inr (hmiss hq)
      · exact .inl ⟨rfl, x, hx, rfl⟩

theorem Path.addSink (hp : A.Path p w q) : A.addSink.Path p w q := by
  by_cases h : A.missing = []
  · rwa [addSink_of_missing_nil h]
  · exact hp.mono (fun _ hc => (symbol?_congr alphabet_addSink _).trans hc)
      fun he => (mem_targets_addSink h).2 (.inl he)

/-- No path leads back from the sink. -/
theorem path_sink (h : A.missing ≠ []) (hA : A.WellFormed) (hp : A.addSink.Path A.size w q) :
    q = A.size := by
  generalize hs : A.size = s at hp
  have hloop : ∀ {l d}, d ∈ A.addSink.targets A.size l → d = A.size := by
    intro l d hd
    rcases (mem_targets_addSink h).1 hd with hd | ⟨rfl, -⟩
    · exact absurd (hA.source_lt hd) (Nat.lt_irrefl _)
    · rfl
  induction hp with
  | nil _ => rfl
  | epsilon he _ ih =>
    subst hs
    rw [hloop he] at ih
    exact ih rfl
  | symbol _ he _ ih =>
    subst hs
    rw [hloop he] at ih
    exact ih rfl

theorem languageFrom_addSink (hA : A.WellFormed) (q : State) :
    A.addSink.languageFrom q = A.languageFrom q := by
  by_cases h : A.missing = []
  · rw [addSink_of_missing_nil h]
  have hsym := symbol?_congr (alphabet_addSink (A := A))
  ext w
  rw [mem_languageFrom, mem_languageFrom, finals_addSink]
  refine exists_congr fun f => and_congr_right fun hf => ⟨fun hp => ?_, fun hp => ?_⟩
  · -- a path that enters the sink does not come to a final state
    have hback : ∀ {q d l v}, d ∈ A.addSink.targets q l → A.addSink.Path d v f →
        d ∈ A.targets q l := by
      intro q d l v hd hp
      rcases (mem_targets_addSink h).1 hd with hd | ⟨rfl, -⟩
      · exact hd
      · have hff := hA.final_lt hf
        rw [path_sink h hA hp] at hff
        exact absurd hff (Nat.lt_irrefl _)
    induction hp with
    | nil q => exact .nil q
    | epsilon he hrest ih => exact .epsilon (hback he hrest) (ih hf hback)
    | symbol hc he hrest ih =>
      rw [hsym] at hc
      exact .symbol hc (hback he hrest) (ih hf hback)
  · exact hp.addSink

/-! ### Flipped final states -/

theorem mem_finals_flipFinals : q ∈ A.flipFinals.finals ↔ q < A.size ∧ q ∉ A.finals := by
  rw [flipFinals, SortedSet.mem_ofList, List.mem_filter, mem_states, decide_eq_true_iff]

theorem path_flipFinals : A.flipFinals.Path p w q ↔ A.Path p w q :=
  ⟨Path.mono (fun _ hc => hc) id, Path.mono (fun _ hc => hc) id⟩

theorem WellFormed.flipFinals (hA : A.WellFormed) : A.flipFinals.WellFormed :=
  ⟨hA.initial_lt, fun h => (mem_finals_flipFinals.1 h).1, hA.source_lt, hA.target_lt,
    hA.symbol_mem, hA.populated⟩

theorem Functional.flipFinals (hF : A.Functional) : A.flipFinals.Functional :=
  ⟨hF.no_epsilon, hF.unique⟩

theorem Total.exists_path (hT : A.Total) (hA : A.WellFormed) (hq : q < A.size)
    (hw : ∀ c ∈ w, (A.symbol? c).isSome = true) : ∃ r, A.Path q w r := by
  induction w generalizing q with
  | nil => exact ⟨q, .nil q⟩
  | cons c w ih =>
    obtain ⟨x, hx⟩ := Option.isSome_iff_exists.1 (hw c (by simp))
    obtain ⟨r, hr⟩ := hT q hq x (symbol?_eq_some.1 hx).2
    obtain ⟨s, hs⟩ := ih (hA.target_lt hr) fun d hd => hw d (by simp [hd])
    exact ⟨s, .symbol hx hr hs⟩

theorem mem_languageFrom_flipFinals (hT : A.Total) (hF : A.Functional) (hA : A.WellFormed)
    (hq : q < A.size) : w ∈ A.flipFinals.languageFrom q ↔
      (∀ c ∈ w, (A.symbol? c).isSome = true) ∧ w ∉ A.languageFrom q := by
  simp only [mem_languageFrom, mem_finals_flipFinals, path_flipFinals]
  constructor
  · rintro ⟨r, ⟨-, hr⟩, hp⟩
    refine ⟨hp.symbol?_isSome, ?_⟩
    rintro ⟨f, hf, hp'⟩
    exact hr (hF.path_unique hp hp' ▸ hf)
  · rintro ⟨hw, hno⟩
    obtain ⟨r, hr⟩ := hT.exists_path hA hq hw
    exact ⟨r, ⟨hA.path_lt hr hq, fun hf => hno ⟨r, hf, hr⟩⟩, hr⟩

/-! ### The complement -/

def complementAutomaton (A : Automaton) (p : State) : Automaton :=
  (A.subsetAutomaton p).addSink.flipFinals

theorem complement_eq (h : A.initial = some p) : A.complement = .ok (A.complementAutomaton p) := by
  rw [complement, complete, determinize_eq h]
  rfl

theorem complement_of_no_initial (h : A.initial = none) :
    A.complement = .error .noInitialState := by
  rw [complement, complete, determinize_of_no_initial h]
  rfl

theorem wellFormed_complementAutomaton : (A.complementAutomaton p).WellFormed :=
  wellFormed_subsetAutomaton.addSink.flipFinals

theorem functional_complementAutomaton : (A.complementAutomaton p).Functional :=
  (functional_subsetAutomaton.addSink wellFormed_subsetAutomaton).flipFinals

theorem total_complementAutomaton : (A.complementAutomaton p).Total :=
  total_addSink wellFormed_subsetAutomaton

theorem alphabet_complementAutomaton : (A.complementAutomaton p).alphabet = A.alphabet :=
  alphabet_addSink

theorem initial_complementAutomaton : (A.complementAutomaton p).initial = some 0 :=
  initial_addSink

/-- The complement accepts the words over the alphabet that are not accepted. -/
theorem mem_language_complementAutomaton (h : A.initial = some p) :
    w ∈ (A.complementAutomaton p).language ↔
      (∀ c ∈ w, (A.symbol? c).isSome = true) ∧ w ∉ A.language := by
  have hD := wellFormed_subsetAutomaton (A := A) (p := p)
  have hDi := initial_subsetAutomaton (A := A) (p := p)
  have hlt : 0 < (A.subsetAutomaton p).addSink.size :=
    Nat.lt_of_lt_of_le (hD.initial_lt hDi) size_le_size_addSink
  rw [language_eq initial_complementAutomaton, complementAutomaton,
    mem_languageFrom_flipFinals (total_addSink hD) (functional_subsetAutomaton.addSink hD)
      hD.addSink hlt, languageFrom_addSink hD, ← language_eq hDi, language_subsetAutomaton h]
  simp only [symbol?_congr (B := (A.subsetAutomaton p).addSink) alphabet_addSink,
    symbol?_congr (A := A) alphabet_subsetAutomaton]

end RegularLanguages.Automaton
