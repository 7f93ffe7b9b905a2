import RegularLanguages.Automaton.Draft
import RegularLanguages.Proofs.Automaton.WellFormed
/-!
# What is drafted is well formed

A granted request keeps the automaton of a draft well formed and its index inside the states, and a
refused one leaves the draft as it was. So whatever is requested, in whatever order, the automaton of
the draft is well formed (`wellFormed_requests`).
-/

namespace RegularLanguages

/-- Marking a state as initial, as final, or as both. -/
theorem Automaton.WellFormed.mark {A : Automaton} {q : State} (h : A.WellFormed) (hq : q < A.size)
    (isInitial isFinal : Bool) : WellFormed { A with
      initial := if isInitial then some q else A.initial
      finals := if isFinal then A.finals.insert q else A.finals } := by
  refine ⟨fun {p} hp => ?_, fun {p} hp => ?_, h.source_lt, h.target_lt, h.symbol_mem, h.populated⟩
  · cases isInitial with
    | false => exact h.initial_lt hp
    | true =>
      obtain rfl := Option.some.inj hp
      exact hq
  · cases isFinal with
    | false => exact h.final_lt hp
    | true =>
      rcases SortedSet.mem_insert.1 hp with rfl | hp
      · exact hq
      · exact h.final_lt hp

theorem Label.char_of_ofChar? {c : Char} {l : Label} (h : Label.ofChar? c = some l) : l.char = c := by
  unfold Label.ofChar? at h
  split at h
  · rename_i hc
    rw [hc, ← Option.some.inj h]
    rfl
  · obtain ⟨x, hx, rfl⟩ := Option.map_eq_some_iff.1 h
    exact Symbol.char_of_ofChar? hx

theorem Label.char_injective {k l : Label} (h : k.char = l.char) : k = l := by
  have hk := Label.ofChar?_char k
  rw [h, Label.ofChar?_char] at hk
  exact (Option.some.inj hk).symm

namespace Draft

/-- The automaton is well formed, and texts stand for states that it has. -/
structure WellFormed (D : Draft) : Prop where
  automaton : D.automaton.WellFormed
  index_lt {name : String} {q : State} : D.index.get? name = some q → q < D.automaton.size

inductive Request
  | symbol (c : Char)
  | state (name : String) (isInitial isFinal : Bool)
  | edge (src : String) (c : Char) (dst : String)
deriving Repr, DecidableEq

def request (D : Draft) : Request → Except Error Draft
  | .symbol c => D.addSymbol c
  | .state name isInitial isFinal => D.addState name isInitial isFinal
  | .edge src c dst => D.addEdge src c dst

/-- Makes requests one after the other, and goes on after those that are refused. -/
def requests (D : Draft) (rs : List Request) : Draft :=
  rs.foldl (fun D r => (D.request r).toOption.getD D) D

variable {D D' : Draft} {p q : State}

/-- What granted requests keep is kept by all requests. -/
theorem requests_induction {P : Draft → Prop}
    (hstep : ∀ {D D' : Draft} {r : Request}, P D → D.request r = .ok D' → P D') (h : P D)
    (rs : List Request) : P (D.requests rs) := by
  induction rs generalizing D with
  | nil => exact h
  | cons r rs ih =>
    have hnext : P ((D.request r).toOption.getD D) := by
      cases hr : D.request r with
      | error err => exact h
      | ok D' => exact hstep h hr
    exact ih hnext

theorem wellFormed_empty : empty.WellFormed := ⟨.empty ∅, fun h => by cases h⟩

theorem addSymbol_cases {c : Char} (h : D.addSymbol c = .ok D') : ∃ x : Symbol, x.char = c ∧
    D' = { D with automaton := D.automaton.addSymbols (.singleton x) } := by
  rw [addSymbol] at h
  obtain ⟨x, hx, h⟩ := bind_eq_ok.1 h
  refine ⟨x, ?_, (Except.ok.inj h).symm⟩
  unfold Symbol.ofChar at hx
  split at hx
  · rename_i y hy
    rw [← Except.ok.inj hx, Symbol.char_of_ofChar? hy]
  · cases hx

theorem state_eq_ok {name : String} (h : D.state name = .ok q) : D.index.get? name = some q := by
  unfold state at h
  split at h
  · rename_i hq
    rw [hq, Except.ok.inj h]
  · cases h

/-- The symbol of a label that a draft allows is in its alphabet. -/
theorem label_cases {c : Char} {l : Label} (h : D.label c = .ok l) :
    l.char = c ∧ ∀ x, l = .symbol x → x ∈ D.automaton.alphabet := by
  unfold label at h
  split at h
  · rename_i hc
    cases h
    exact ⟨Label.char_of_ofChar? hc, nofun⟩
  · rename_i y hc
    split at h
    · rename_i hmem
      cases h
      exact ⟨Label.char_of_ofChar? hc, fun x hx => Label.symbol.inj hx ▸ hmem⟩
    · cases h
  · cases h

theorem addEdge_cases {src dst : String} {c : Char} (h : D.addEdge src c dst = .ok D') :
    ∃ p l q, D.index.get? src = some p ∧ D.index.get? dst = some q ∧ l.char = c ∧
      (∀ x, l = .symbol x → x ∈ D.automaton.alphabet) ∧
      D' = { D with automaton := D.automaton.addEdge (p, l, q) } := by
  rw [addEdge] at h
  obtain ⟨p, hp, h⟩ := bind_eq_ok.1 h
  obtain ⟨q, hq, h⟩ := bind_eq_ok.1 h
  obtain ⟨l, hl, h⟩ := bind_eq_ok.1 h
  obtain ⟨hc, hx⟩ := label_cases hl
  exact ⟨p, l, q, state_eq_ok hp, state_eq_ok hq, hc, hx, (Except.ok.inj h).symm⟩

namespace WellFormed

theorem intern (h : D.WellFormed) (name : String) :
    (D.intern name).2.WellFormed ∧ (D.intern name).1 < (D.intern name).2.automaton.size := by
  unfold Draft.intern
  cases hq : D.index.get? name with
  | some q => exact ⟨h, h.index_lt hq⟩
  | none =>
    have hsize := D.automaton.size_addState (.atom name) false
    refine ⟨⟨h.automaton.addState _ _, fun {other q} hq => ?_⟩, ?_⟩
    · show q < (D.automaton.addState (.atom name) false).size
      have hget : (if other = name then some D.automaton.size else D.index.get? other) = some q := by
        rw [← hq, SortedMap.get?_insert]
      rw [hsize]
      split at hget
      · obtain rfl := Option.some.inj hget
        exact Nat.lt_succ_self _
      · exact Nat.lt_succ_of_lt (h.index_lt hget)
    · show D.automaton.size < (D.automaton.addState (.atom name) false).size
      rw [hsize]
      exact Nat.lt_succ_self _

theorem addState (h : D.WellFormed) {name : String} {isInitial isFinal : Bool}
    (hs : D.addState name isInitial isFinal = .ok D') : D'.WellFormed := by
  obtain ⟨hD, hq⟩ := h.intern name
  unfold Draft.addState at hs
  split at hs
  · cases hs
  · obtain rfl := Except.ok.inj hs
    exact ⟨hD.automaton.mark hq _ _, hD.index_lt⟩

theorem request (h : D.WellFormed) {r : Request} (hr : D.request r = .ok D') : D'.WellFormed := by
  cases r with
  | symbol c =>
    obtain ⟨x, -, rfl⟩ := addSymbol_cases hr
    exact ⟨h.automaton.addSymbols _, h.index_lt⟩
  | state name isInitial isFinal => exact h.addState hr
  | edge src c dst =>
    obtain ⟨p, l, q, hp, hq, -, hl, rfl⟩ := addEdge_cases hr
    have hA : (D.automaton.addEdges [(p, l, q)]).WellFormed := by
      refine h.automaton.addEdges (fun p' l' q' he => ?_) fun p' x q' he => ?_
      · cases List.mem_singleton.1 he
        exact ⟨h.index_lt hp, h.index_lt hq⟩
      · cases List.mem_singleton.1 he
        exact hl x rfl
    exact ⟨hA, h.index_lt⟩

theorem requests (h : D.WellFormed) (rs : List Request) : (D.requests rs).WellFormed :=
  requests_induction (fun hD hr => hD.request hr) h rs

end WellFormed

/-- What some requests, granted or refused, lead to. -/
def Requested (D : Draft) : Prop := ∃ rs, D = empty.requests rs

/-! ### The index -/

/-- States are named by plain texts, and the index leads from a text to the one state named by it. -/
structure Indexed (D : Draft) : Prop where
  get?_eq_some {text : String} {q : State} :
    D.index.get? text = some q ↔ D.automaton.names[q]? = some (.atom text)
  exists_text {n : StateName} : n ∈ D.automaton.names → ∃ text, n = .atom text

theorem indexed_empty : empty.Indexed where
  get?_eq_some {text q} := iff_of_false (fun h => by cases h) fun h => by cases h
  exists_text h := absurd h (Array.not_mem_empty _)

namespace Indexed

theorem intern (h : D.Indexed) (name : String) : (D.intern name).2.Indexed := by
  unfold Draft.intern
  cases hname : D.index.get? name with
  | some q => exact h
  | none =>
    constructor
    · intro text q
      show (D.index.insert name D.automaton.size).get? text = some q ↔
        (D.automaton.names.push (.atom name))[q]? = some (.atom text)
      rw [SortedMap.get?_insert, Array.getElem?_push]
      by_cases htext : text = name
      · subst htext
        rw [if_pos rfl]
        by_cases hq : q = D.automaton.names.size
        · rw [if_pos hq, hq]
          exact iff_of_true rfl rfl
        · rw [if_neg hq, ← h.get?_eq_some, hname]
          exact iff_of_false (fun h => hq (Option.some.inj h).symm) fun h => by cases h
      · rw [if_neg htext, h.get?_eq_some]
        by_cases hq : q = D.automaton.names.size
        · rw [if_pos hq, hq, Array.getElem?_eq_none (Nat.le_refl _)]
          refine iff_of_false (fun h => by cases h) fun h => htext ?_
          exact (StateName.atom.inj (Option.some.inj h)).symm
        · rw [if_neg hq]
    · intro n hn
      rcases Array.mem_push.1 hn with hn | rfl
      · exact h.exists_text hn
      · exact ⟨name, rfl⟩

theorem request (h : D.Indexed) {r : Request} (hr : D.request r = .ok D') : D'.Indexed := by
  cases r with
  | symbol c =>
    obtain ⟨x, -, rfl⟩ := addSymbol_cases hr
    exact ⟨h.get?_eq_some, h.exists_text⟩
  | state name isInitial isFinal =>
    have hi := h.intern name
    change D.addState name isInitial isFinal = .ok D' at hr
    unfold Draft.addState at hr
    split at hr
    · cases hr
    · obtain rfl := Except.ok.inj hr
      exact ⟨hi.get?_eq_some, hi.exists_text⟩
  | edge src c dst =>
    obtain ⟨p, l, q, -, -, -, -, rfl⟩ := addEdge_cases hr
    exact ⟨h.get?_eq_some, h.exists_text⟩

theorem requests (h : D.Indexed) (rs : List Request) : (D.requests rs).Indexed :=
  requests_induction (fun hD hr => hD.request hr) h rs

/-- No two states have the same name. -/
theorem nodup_names (h : D.Indexed) : D.automaton.names.toList.Nodup := by
  rw [List.nodup_iff_getElem?_ne_getElem?]
  intro p q hpq hq heq
  rw [Array.getElem?_toList, Array.getElem?_toList] at heq
  have hlt : p < D.automaton.names.size := Nat.lt_trans hpq hq
  obtain ⟨text, htext⟩ := h.exists_text (Array.getElem_mem hlt)
  have hp : D.automaton.names[p]? = some (.atom text) := by
    rw [Array.getElem?_eq_getElem hlt, htext]
  have hpos := h.get?_eq_some.2 hp
  rw [heq] at hp
  rw [h.get?_eq_some.2 hp] at hpos
  exact Nat.ne_of_gt hpq (Option.some.inj hpos)

end Indexed

/-- No sequence of requests, granted or refused, leads to an automaton that is not well formed. -/
theorem wellFormed_requests (rs : List Request) : (empty.requests rs).automaton.WellFormed :=
  (wellFormed_empty.requests rs).automaton

end Draft

end RegularLanguages
