import RegularLanguages.Proofs.Automaton.Draft
import RegularLanguages.Proofs.StateTable.Renumbering
/-!
# What is requested is what is drafted

A draft has the symbols, states, marks and edges of the requests that it granted, and no others
(`Records`). Nothing of this tells in which order they were made, so drafts that granted the same
requests have automata that differ in the numbers of states only (`renumbering_of_grant`).
-/

namespace RegularLanguages.Draft

/-- Makes requests one after the other, up to the first one that is refused. -/
def grant (D : Draft) (rs : List Request) : Except Error Draft := rs.foldlM request D

/-- The requests are those that the draft granted. -/
structure Records (D : Draft) (rs : List Request) : Prop where
  symbol_iff {x : Symbol} : x ∈ D.automaton.alphabet ↔ .symbol x.char ∈ rs
  state_iff {text : String} :
    (∃ q, D.index.get? text = some q) ↔ ∃ isInitial isFinal, .state text isInitial isFinal ∈ rs
  initial_iff {q : State} : D.automaton.initial = some q ↔
    ∃ text isFinal, .state text true isFinal ∈ rs ∧ D.index.get? text = some q
  final_iff {q : State} : q ∈ D.automaton.finals ↔
    ∃ text isInitial, .state text isInitial true ∈ rs ∧ D.index.get? text = some q
  target_iff {p q : State} {l : Label} : q ∈ D.automaton.targets p l ↔
    ∃ src dst, .edge src l.char dst ∈ rs ∧ D.index.get? src = some p ∧ D.index.get? dst = some q
  edge_named {src dst : String} {c : Char} : .edge src c dst ∈ rs →
    (∃ p, D.index.get? src = some p) ∧ ∃ q, D.index.get? dst = some q

variable {D D' : Draft} {rs rs' : List Request} {name text : String} {p q : State}

theorem requests_of_grant (h : D.grant rs = .ok D') : D.requests rs = D' := by
  induction rs generalizing D with
  | nil => exact Except.ok.inj h
  | cons r rs ih =>
    rw [grant, List.foldlM_cons] at h
    obtain ⟨E, hr, h⟩ := bind_eq_ok.1 h
    rw [requests, List.foldl_cons, hr]
    exact ih h

/-! ### One request -/

theorem get?_intern (D : Draft) (name text : String) : (D.intern name).2.index.get? text =
    if text = name then some (D.intern name).1 else D.index.get? text := by
  unfold intern
  cases h : D.index.get? name with
  | some q =>
    show D.index.get? text = if text = name then some q else D.index.get? text
    split
    · rename_i htext
      rw [htext, h]
    · rfl
  | none => exact SortedMap.get?_insert _ _ _ _

theorem get?_intern_self (D : Draft) (name : String) :
    (D.intern name).2.index.get? name = some (D.intern name).1 := by
  rw [get?_intern, if_pos rfl]

/-- What a text stands for is not changed by another one. -/
theorem get?_intern_eq_some (hknown : ∃ q, D.index.get? text = some q) :
    (D.intern name).2.index.get? text = some q ↔ D.index.get? text = some q := by
  rw [get?_intern]
  split
  · rename_i htext
    obtain ⟨p, hp⟩ := hknown
    rw [← htext, intern, hp]
  · exact Iff.rfl

theorem automaton_intern (D : Draft) (name : String) : ∃ names,
    (D.intern name).2.automaton = { D.automaton with names := names } := by
  unfold intern
  cases D.index.get? name with
  | some q => exact ⟨_, rfl⟩
  | none => exact ⟨_, rfl⟩

theorem addState_cases {isInitial isFinal : Bool} (h : D.addState name isInitial isFinal = .ok D') :
    (isInitial = true → D.automaton.initial = none) ∧ D'.index = (D.intern name).2.index ∧
      ∃ names, D'.automaton = { D.automaton with
        names := names
        initial := if isInitial then some (D.intern name).1 else D.automaton.initial
        finals := if isFinal then D.automaton.finals.insert (D.intern name).1
          else D.automaton.finals } := by
  obtain ⟨names, hnames⟩ := D.automaton_intern name
  unfold addState at h
  generalize D.intern name = i at h hnames ⊢
  split at h
  · cases h
  · rename_i hfree
    obtain rfl := Except.ok.inj h
    refine ⟨fun hi => ?_, rfl, names, ?_⟩
    · cases hq : D.automaton.initial with
      | none => rfl
      | some q => exact absurd hq (hfree q hi)
    · simp only [hnames]

namespace Records

theorem empty : Draft.empty.Records [] where
  symbol_iff := by simp [Draft.empty, default, Automaton.empty]
  state_iff := by simp [Draft.empty]
  initial_iff := by simp [Draft.empty, default, Automaton.empty]
  final_iff := by simp [Draft.empty, default, Automaton.empty]
  target_iff := by simp [Draft.empty, default, Automaton.empty, Automaton.targets]
  edge_named h := by cases h

theorem addSymbol (h : D.Records rs) {c : Char} (hr : D.addSymbol c = .ok D') :
    D'.Records (rs ++ [.symbol c]) := by
  obtain ⟨x, rfl, rfl⟩ := addSymbol_cases hr
  constructor
  · intro y
    have hadded : y ∈ (D.automaton.addSymbols (.singleton x)).alphabet ↔
        y = x ∨ y ∈ D.automaton.alphabet := by
      rw [Automaton.addSymbols, SortedSet.mem_union, SortedSet.mem_singleton]
    have hchar : y.char = x.char ↔ y = x := ⟨Symbol.char_injective, congrArg Symbol.char⟩
    rw [hadded, h.symbol_iff, List.mem_append, List.mem_singleton, Request.symbol.injEq, hchar,
      or_comm]
  all_goals simp only [List.mem_append, List.mem_singleton, reduceCtorEq, or_false]
  · exact h.state_iff
  · exact h.initial_iff
  · exact h.final_iff
  · exact h.target_iff
  · exact h.edge_named

theorem addEdge (h : D.Records rs) {src dst : String} {c : Char}
    (hr : D.addEdge src c dst = .ok D') : D'.Records (rs ++ [.edge src c dst]) := by
  obtain ⟨p, l, q, hp, hq, rfl, -, rfl⟩ := addEdge_cases hr
  constructor
  case target_iff =>
    intro s t k
    show t ∈ (D.automaton.addEdge (p, l, q)).targets s k ↔ _
    rw [Automaton.targets, Automaton.addEdge, Transitions.mem_targets_addEdge]
    constructor
    · rintro (he | ht)
      · cases he
        exact ⟨src, dst, List.mem_append_right _ List.mem_cons_self, hp, hq⟩
      · obtain ⟨src', dst', hmem, hs, ht⟩ := h.target_iff.1 ht
        exact ⟨src', dst', List.mem_append_left _ hmem, hs, ht⟩
    · rintro ⟨src', dst', hmem, hs, ht⟩
      rcases List.mem_append.1 hmem with hmem | hmem
      · exact .inr (h.target_iff.2 ⟨src', dst', hmem, hs, ht⟩)
      · obtain ⟨rfl, hk, rfl⟩ := Request.edge.inj (List.mem_singleton.1 hmem)
        rw [hp] at hs
        rw [hq] at ht
        rw [Label.char_injective hk, Option.some.inj hs, Option.some.inj ht]
        exact .inl rfl
  case edge_named =>
    intro src' dst' c' hmem
    rcases List.mem_append.1 hmem with hmem | hmem
    · exact h.edge_named hmem
    · cases List.mem_singleton.1 hmem
      exact ⟨⟨p, hp⟩, ⟨q, hq⟩⟩
  all_goals simp only [List.mem_append, List.mem_singleton, reduceCtorEq, or_false]
  · exact h.symbol_iff
  · exact h.state_iff
  · exact h.initial_iff
  · exact h.final_iff

theorem addState (h : D.Records rs) {isInitial isFinal : Bool}
    (hr : D.addState name isInitial isFinal = .ok D') :
    D'.Records (rs ++ [.state name isInitial isFinal]) := by
  obtain ⟨hfree, hindex, names, hD'⟩ := addState_cases hr
  -- texts in earlier requests stand for what they stood for
  have hstate : ∀ {text i f q}, .state text i f ∈ rs →
      (D'.index.get? text = some q ↔ D.index.get? text = some q) := by
    intro text i f q hmem
    rw [hindex]
    exact get?_intern_eq_some (h.state_iff.2 ⟨i, f, hmem⟩)
  have hedge : ∀ {src c dst p q}, .edge src c dst ∈ rs →
      (D'.index.get? src = some p ∧ D'.index.get? dst = some q ↔
        D.index.get? src = some p ∧ D.index.get? dst = some q) := by
    intro src c dst p q hmem
    obtain ⟨hsrc, hdst⟩ := h.edge_named hmem
    rw [hindex, get?_intern_eq_some hsrc, get?_intern_eq_some hdst]
  have hself : D'.index.get? name = some (D.intern name).1 := hindex ▸ get?_intern_self D name
  constructor
  case symbol_iff =>
    simp only [hD', List.mem_append, List.mem_singleton, reduceCtorEq, or_false]
    exact h.symbol_iff
  case state_iff =>
    intro text
    by_cases htext : text = name
    · subst htext
      exact iff_of_true ⟨_, hself⟩
        ⟨isInitial, isFinal, List.mem_append_right _ List.mem_cons_self⟩
    · have hkeep : D'.index.get? text = D.index.get? text := by
        rw [hindex, get?_intern, if_neg htext]
      simp only [hkeep, h.state_iff, List.mem_append, List.mem_singleton, Request.state.injEq, htext,
        false_and, or_false]
  case initial_iff =>
    intro q
    have hinitial : D'.automaton.initial = some q ↔
        isInitial = true ∧ (D.intern name).1 = q ∨ D.automaton.initial = some q := by
      rw [hD']
      cases isInitial with
      | false => simp
      | true => simp [hfree]
    rw [hinitial]
    constructor
    · rintro (⟨rfl, rfl⟩ | hq)
      · exact ⟨name, isFinal, List.mem_append_right _ List.mem_cons_self, hself⟩
      · obtain ⟨text, f, hmem, hq⟩ := h.initial_iff.1 hq
        exact ⟨text, f, List.mem_append_left _ hmem, (hstate hmem).2 hq⟩
    · rintro ⟨text, f, hmem, hq⟩
      rcases List.mem_append.1 hmem with hmem | hmem
      · exact .inr (h.initial_iff.2 ⟨text, f, hmem, (hstate hmem).1 hq⟩)
      · cases List.mem_singleton.1 hmem
        exact .inl ⟨rfl, Option.some.inj (hself.symm.trans hq)⟩
  case final_iff =>
    intro q
    have hfinals : q ∈ D'.automaton.finals ↔
        isFinal = true ∧ (D.intern name).1 = q ∨ q ∈ D.automaton.finals := by
      rw [hD']
      cases isFinal <;> simp [eq_comm]
    rw [hfinals]
    constructor
    · rintro (⟨rfl, rfl⟩ | hq)
      · exact ⟨name, isInitial, List.mem_append_right _ List.mem_cons_self, hself⟩
      · obtain ⟨text, i, hmem, hq⟩ := h.final_iff.1 hq
        exact ⟨text, i, List.mem_append_left _ hmem, (hstate hmem).2 hq⟩
    · rintro ⟨text, i, hmem, hq⟩
      rcases List.mem_append.1 hmem with hmem | hmem
      · exact .inr (h.final_iff.2 ⟨text, i, hmem, (hstate hmem).1 hq⟩)
      · cases List.mem_singleton.1 hmem
        exact .inl ⟨rfl, Option.some.inj (hself.symm.trans hq)⟩
  case target_iff =>
    intro p q l
    have htargets : D'.automaton.targets p l = D.automaton.targets p l := by
      rw [hD']
      rfl
    rw [htargets, h.target_iff]
    constructor
    · rintro ⟨src, dst, hmem, hpq⟩
      exact ⟨src, dst, List.mem_append_left _ hmem, (hedge hmem).2 hpq⟩
    · rintro ⟨src, dst, hmem, hpq⟩
      rcases List.mem_append.1 hmem with hmem | hmem
      · exact ⟨src, dst, hmem, (hedge hmem).1 hpq⟩
      · cases List.mem_singleton.1 hmem
  case edge_named =>
    intro src dst c hmem
    rcases List.mem_append.1 hmem with hmem | hmem
    · obtain ⟨⟨p, hp⟩, q, hq⟩ := h.edge_named hmem
      obtain ⟨hp, hq⟩ := (hedge hmem).2 ⟨hp, hq⟩
      exact ⟨⟨p, hp⟩, q, hq⟩
    · cases List.mem_singleton.1 hmem

theorem request (h : D.Records rs) {r : Request} (hr : D.request r = .ok D') :
    D'.Records (rs ++ [r]) := by
  cases r with
  | symbol c => exact h.addSymbol hr
  | state name isInitial isFinal => exact h.addState hr
  | edge src c dst => exact h.addEdge hr

theorem grant (h : D.Records rs) (hr : D.grant rs' = .ok D') : D'.Records (rs ++ rs') := by
  induction rs' generalizing D rs with
  | nil =>
    obtain rfl := Except.ok.inj hr
    rwa [List.append_nil]
  | cons r rs' ih =>
    rw [Draft.grant, List.foldlM_cons] at hr
    obtain ⟨E, hE, hr⟩ := bind_eq_ok.1 hr
    rw [List.append_cons]
    exact ih (h.request hE) hr

theorem congr (h : D.Records rs) (hrs : ∀ r, r ∈ rs ↔ r ∈ rs') : D.Records rs' := by
  constructor
  all_goals simp only [← hrs]
  · exact h.symbol_iff
  · exact h.state_iff
  · exact h.initial_iff
  · exact h.final_iff
  · exact h.target_iff
  · exact h.edge_named

end Records

/-! ### The order of requests -/

namespace Indexed

theorem name_eq (h : D.Indexed) (hq : D.index.get? text = some q) :
    D.automaton.name q = .atom text := by
  rw [Automaton.name, h.get?_eq_some.1 hq]
  rfl

theorem lt_size (h : D.Indexed) (hq : D.index.get? text = some q) : q < D.automaton.size :=
  (Array.getElem?_eq_some_iff.1 (h.get?_eq_some.1 hq)).1

theorem exists_get? (h : D.Indexed) (hq : q < D.automaton.size) :
    ∃ text, D.index.get? text = some q := by
  obtain ⟨text, htext⟩ := h.exists_text (Array.getElem_mem hq)
  exact ⟨text, h.get?_eq_some.2 (by rw [Array.getElem?_eq_getElem hq, htext])⟩

theorem text_unique (h : D.Indexed) {s t : String} (hs : D.index.get? s = some q)
    (ht : D.index.get? t = some q) : s = t :=
  StateName.atom.inj ((h.name_eq hs).symm.trans (h.name_eq ht))

theorem namesDistinct (h : D.Indexed) : D.automaton.NamesDistinct := by
  refine Automaton.namesDistinct_iff.2 fun p q hp hq htext => ?_
  obtain ⟨s, hs⟩ := h.exists_get? hp
  obtain ⟨t, ht⟩ := h.exists_get? hq
  rw [h.name_eq hs, h.name_eq ht, StateName.text_inj] at htext
  rw [String.toList_inj.1 htext, ht] at hs
  exact (Option.some.inj hs).symm

end Indexed

/-- The state that `D'` has for the text that names a state of `D`. -/
def counterpart (D D' : Draft) (q : State) : State :=
  (D'.index.get? (D.automaton.name q).text).getD 0

section Order

variable (hD : D.Indexed) (hD' : D'.Indexed) (h : D.Records rs) (h' : D'.Records rs)
include hD h h'

theorem get?_eq_map_counterpart (text : String) :
    D'.index.get? text = (D.index.get? text).map (D.counterpart D') := by
  have hknown : (∃ q, D'.index.get? text = some q) ↔ ∃ q, D.index.get? text = some q :=
    h'.state_iff.trans h.state_iff.symm
  cases hq : D.index.get? text with
  | none =>
    rw [Option.map_none, Option.eq_none_iff_forall_ne_some]
    intro r hr
    obtain ⟨q, hq'⟩ := hknown.1 ⟨r, hr⟩
    rw [hq] at hq'
    cases hq'
  | some q =>
    obtain ⟨r, hr⟩ := hknown.2 ⟨q, hq⟩
    have htext : (D.automaton.name q).text = text := by
      rw [hD.name_eq hq, StateName.text, StateName.chars, String.ofList_toList]
    rw [Option.map_some, counterpart, htext, hr]
    rfl

include hD'

theorem get?_eq_counterpart (hq : q < D.automaton.size) :
    D'.index.get? text = some (D.counterpart D' q) ↔ D.index.get? text = some q := by
  have hmap := get?_eq_map_counterpart hD h h'
  constructor
  · intro htext
    obtain ⟨t, ht⟩ := hD.exists_get? hq
    have ht' : D'.index.get? t = some (D.counterpart D' q) := by rw [hmap, ht, Option.map_some]
    rwa [hD'.text_unique htext ht']
  · intro htext
    rw [hmap, htext, Option.map_some]

/-- Drafts of the same requests have the same automaton, but for how its states are numbered. -/
theorem renumbering_counterpart :
    Automaton.Renumbering D.automaton D'.automaton (D.counterpart D') := by
  have hmap := get?_eq_map_counterpart hD h h'
  have hiff : ∀ {q}, q < D.automaton.size → ∀ text,
      (D'.index.get? text = some (D.counterpart D' q) ↔ D.index.get? text = some q) :=
    fun hq text => get?_eq_counterpart hD hD' h h' hq
  refine ⟨⟨⟨fun q hq => ?_, fun p hp q hq hpq => ?_, fun r hr => ?_⟩, ?_, fun {q} hq => ?_,
    fun {p q l} hp hq => ?_⟩, fun {q} hq => ?_, ?_⟩
  · obtain ⟨text, htext⟩ := hD.exists_get? hq
    exact hD'.lt_size ((hiff hq text).2 htext)
  · obtain ⟨text, htext⟩ := hD.exists_get? hp
    have hq' := (hiff hp text).2 htext
    rw [hpq, hiff hq, htext] at hq'
    exact Option.some.inj hq'
  · obtain ⟨text, htext⟩ := hD'.exists_get? hr
    rw [hmap] at htext
    obtain ⟨q, hq, rfl⟩ := Option.map_eq_some_iff.1 htext
    exact ⟨q, hD.lt_size hq, rfl⟩
  · refine Option.ext fun r => ?_
    rw [h'.initial_iff, Option.map_eq_some_iff]
    constructor
    · rintro ⟨text, f, hmem, hr⟩
      rw [hmap] at hr
      obtain ⟨q, hq, rfl⟩ := Option.map_eq_some_iff.1 hr
      exact ⟨q, h.initial_iff.2 ⟨text, f, hmem, hq⟩, rfl⟩
    · rintro ⟨q, hq, rfl⟩
      obtain ⟨text, f, hmem, hq⟩ := h.initial_iff.1 hq
      exact ⟨text, f, hmem, (hiff (hD.lt_size hq) text).2 hq⟩
  · simp only [h.final_iff, h'.final_iff, hiff hq]
  · simp only [h.target_iff, h'.target_iff, hiff hp, hiff hq]
  · obtain ⟨text, htext⟩ := hD.exists_get? hq
    rw [hD'.name_eq ((hiff hq text).2 htext), hD.name_eq htext]
  · exact SortedSet.ext fun x => h'.symbol_iff.trans h.symbol_iff.symm

end Order

/-- In whatever order the same requests are made, if they are granted, they lead to automata that differ in
the numbers of states only. -/
theorem renumbering_of_grant (h : empty.grant rs = .ok D) (h' : empty.grant rs' = .ok D')
    (hrs : ∀ r, r ∈ rs ↔ r ∈ rs') :
    Automaton.Renumbering D.automaton D'.automaton (D.counterpart D') := by
  have hD : D.Indexed := requests_of_grant h ▸ indexed_empty.requests rs
  have hD' : D'.Indexed := requests_of_grant h' ▸ indexed_empty.requests rs'
  have hrec : D.Records rs := Records.empty.grant h
  have hrec' : D'.Records rs := (Records.empty.grant h').congr fun r => (hrs r).symm
  exact renumbering_counterpart hD hD' hrec hrec'

end RegularLanguages.Draft
