import RegularLanguages.Automaton.Draft
import RegularLanguages.Proofs.MoveSystem
/-!
# Assembling an automaton by requests

The automaton of a move system can be drafted request by request while its configurations are
discovered: a configuration is taken off a queue, and for each of its moves the edge is requested, after
the target if that is new. Every request is granted, since what it names is in the draft by then, and the
draft ends as the automaton of the system (`assemble_eq`).
-/

namespace RegularLanguages

/-- The text of the name of the `k`-th state. -/
def stateText (k : Nat) : String := "q" ++ toString k

theorem stateText_injective {j k : Nat} (h : stateText j = stateText k) : j = k := by
  rw [stateText, stateText, ← StateName.text_numbered, ← StateName.text_numbered] at h
  exact StateName.text_numbered_injective h

/-! ### Single requests -/

namespace Draft

variable {D : Draft} {name src dst : String} {p q : State} {x : Symbol}

theorem addSymbol_eq (D : Draft) (x : Symbol) :
    D.addSymbol x.char = .ok { D with automaton := D.automaton.addSymbols (.singleton x) } := by
  rw [addSymbol, Symbol.ofChar, Symbol.ofChar?_char]
  rfl

/-- A state under a new name, other than an initial one. -/
theorem addState_eq (h : D.index.get? name = none) (isFinal : Bool) :
    D.addState name false isFinal =
      .ok ⟨D.automaton.addState (.atom name) isFinal, D.index.insert name D.automaton.size⟩ := by
  unfold addState
  split
  · contradiction
  · rw [intern, h]
    cases isFinal <;> rfl

theorem addEdge_eq (hp : D.index.get? src = some p) (hq : D.index.get? dst = some q)
    (hx : x ∈ D.automaton.alphabet) : D.addEdge src x.char dst =
      .ok { D with automaton := D.automaton.addEdge (p, .symbol x, q) } := by
  have hl : D.label x.char = .ok (.symbol x) := by
    have hc : Label.ofChar? x.char = some (.symbol x) := Label.ofChar?_char (.symbol x)
    rw [label, hc]
    simp only
    rw [if_pos hx]
  rw [addEdge, state, state, hp, hq]
  show (do let l ← D.label x.char; _) = _
  rw [hl]
  rfl

end Draft

/-! ### The assembly -/

/-- A draft, and the configurations that it has states for. -/
structure Assembly (σ : Type) where
  draft : Draft
  found : List σ

namespace MoveSystem

variable {σ : Type} (M : MoveSystem σ)

def moves (x : σ) : List (Symbol × σ) :=
  M.alphabet.toList.filterMap fun s => (M.move x s).map fun y => (s, y)

theorem map_moves (x : σ) : (M.moves x).map (·.2) = M.next x := by
  rw [moves, next, List.map_filterMap]
  congr 1
  funext s
  cases M.move x s <;> rfl

/-- The draft has the states of what has been found, and the given edges. -/
structure Describes (s : Assembly σ) (es : List Edge) : Prop where
  names_eq : s.draft.automaton.names = ((List.range s.found.length).map .numbered).toArray
  alphabet_eq : s.draft.automaton.alphabet = M.alphabet
  transitions_eq : s.draft.automaton.transitions = .ofEdges es
  initial_eq : s.draft.automaton.initial = some 0
  mem_finals (q : Nat) : q ∈ s.draft.automaton.finals ↔
    ∃ x, s.found[q]? = some x ∧ M.isFinal x = true
  get?_index (k : Nat) : s.draft.index.get? (stateText k) =
    if k < s.found.length then some k else none

theorem getElem?_concat_eq_some {l : List σ} {x y : σ} {q : Nat} :
    (l ++ [y])[q]? = some x ↔ l[q]? = some x ∨ (q = l.length ∧ x = y) := by
  rw [List.getElem?_append]
  split
  · rename_i hlt
    exact ⟨.inl, fun h => h.resolve_right fun hq => Nat.ne_of_lt hlt hq.1⟩
  · rename_i hle
    have hnone : l[q]? = none := List.getElem?_eq_none (Nat.le_of_not_lt hle)
    rw [hnone, List.getElem?_singleton]
    split
    · rename_i hq
      have heq : q = l.length := by omega
      constructor
      · intro h
        exact .inr ⟨heq, (Option.some.inj h).symm⟩
      · rintro (h | ⟨-, rfl⟩)
        · cases h
        · rfl
    · rename_i hq
      constructor
      · intro h
        cases h
      · rintro (h | ⟨rfl, -⟩)
        · cases h
        · omega

section Describes

variable {M} {s : Assembly σ} {es : List Edge}

theorem Describes.size_eq (h : M.Describes s es) : s.draft.automaton.size = s.found.length := by
  rw [Automaton.size, h.names_eq]
  simp

theorem Describes.addEdge (h : M.Describes s es) (e : Edge) :
    M.Describes ⟨{ s.draft with automaton := s.draft.automaton.addEdge e }, s.found⟩ (es ++ [e]) := by
  refine ⟨h.names_eq, h.alphabet_eq, ?_, h.initial_eq, h.mem_finals, h.get?_index⟩
  show s.draft.automaton.transitions.addEdge e = _
  rw [h.transitions_eq, Transitions.ofEdges, Transitions.ofEdges, Transitions.addEdges,
    Transitions.addEdges, List.foldl_append]
  rfl

theorem Describes.addState (h : M.Describes s es) (y : σ) :
    M.Describes ⟨⟨s.draft.automaton.addState (.numbered s.found.length) (M.isFinal y),
      s.draft.index.insert (stateText s.found.length) s.draft.automaton.size⟩, s.found ++ [y]⟩ es := by
  refine ⟨?_, h.alphabet_eq, h.transitions_eq, h.initial_eq, fun q => ?_, fun k => ?_⟩
  · show s.draft.automaton.names.push _ = _
    rw [h.names_eq, List.length_append, List.length_singleton, List.range_succ, List.map_append]
    simp
  · have hfinals : ∀ b, q ∈ (s.draft.automaton.addState (.numbered s.found.length) b).finals ↔
        (b = true ∧ q = s.found.length) ∨ q ∈ s.draft.automaton.finals := by
      intro b
      rw [← h.size_eq]
      cases b with
      | false => simp [Automaton.addState]
      | true => simp [Automaton.addState]
    simp only [hfinals, h.mem_finals, getElem?_concat_eq_some]
    constructor
    · rintro (⟨hf, hq⟩ | ⟨x, hx, hf⟩)
      · exact ⟨y, .inr ⟨hq, rfl⟩, hf⟩
      · exact ⟨x, .inl hx, hf⟩
    · rintro ⟨x, hx | ⟨hq, rfl⟩, hf⟩
      · exact .inr ⟨x, hx, hf⟩
      · exact .inl ⟨hf, hq⟩
  · show (s.draft.index.insert _ _).get? _ = _
    rw [SortedMap.get?_insert, h.get?_index, h.size_eq, List.length_append, List.length_singleton]
    by_cases hk : k = s.found.length
    · rw [hk, if_pos rfl, if_pos (Nat.lt_succ_self _)]
    · rw [if_neg fun hname => hk (stateText_injective hname)]
      split <;> split <;> first | rfl | omega

end Describes

variable [DecidableEq σ]

/-- Requests the edge of a move, after its target if that is new. -/
def link (src : String) (s : Assembly σ) (m : Symbol × σ) : Except Error (Assembly σ) := do
  if m.2 ∈ s.found then
    let D ← s.draft.addEdge src m.1.char (stateText (s.found.idxOf m.2))
    return ⟨D, s.found⟩
  else
    let name := stateText s.found.length
    let D ← s.draft.addState name false (M.isFinal m.2)
    let D ← D.addEdge src m.1.char name
    return ⟨D, s.found ++ [m.2]⟩

def linkAll (s : Assembly σ) (x : σ) : Except Error (Assembly σ) :=
  (M.moves x).foldlM (M.link (stateText (s.found.idxOf x))) s

theorem found_link {src : String} {s s' : Assembly σ} {m : Symbol × σ}
    (h : M.link src s m = .ok s') : s'.found = s.found ++ fresh s.found [m.2] := by
  by_cases hm : m.2 ∈ s.found
  · rw [link, if_pos hm] at h
    obtain ⟨D, -, h⟩ := bind_eq_ok.1 h
    obtain rfl := Except.ok.inj h
    simp [fresh, hm]
  · rw [link, if_neg hm] at h
    obtain ⟨D, -, h⟩ := bind_eq_ok.1 h
    obtain ⟨E, -, h⟩ := bind_eq_ok.1 h
    obtain rfl := Except.ok.inj h
    simp [fresh, hm]

theorem found_linkAll {s s' : Assembly σ} {x : σ} (h : M.linkAll s x = .ok s') :
    s'.found = s.found ++ fresh s.found (M.next x) := by
  rw [← map_moves]
  rw [linkAll] at h
  generalize stateText (s.found.idxOf x) = src at h
  generalize M.moves x = ms at h
  induction ms generalizing s with
  | nil =>
    obtain rfl := Except.ok.inj h
    simp [fresh]
  | cons m ms ih =>
    rw [List.foldlM_cons] at h
    obtain ⟨u, hm, h⟩ := bind_eq_ok.1 h
    have hu := M.found_link hm
    rw [ih h, hu, List.map_cons, fresh_cons s.found m.2 (ms.map (·.2)), List.append_assoc]

/-- Goes on with the configurations of a queue, and with those that their moves lead to first. -/
def assembleFrom (s : Assembly σ) (queue : List σ) : Except Error Draft :=
  match queue with
  | [] => .ok s.draft
  | x :: queue =>
    match _ : M.linkAll s x with
    | .error err => .error err
    | .ok s' => assembleFrom s' (queue ++ s'.found.drop s.found.length)
termination_by ((M.finiteMoves_next.choose.filter (· ∉ s.found)).length, queue.length)
decreasing_by
  rename_i hs
  have hnew := M.found_linkAll hs
  have hdrop : s'.found.drop s.found.length = fresh s.found (M.next x) := by
    rw [hnew, List.drop_left]
  rw [hdrop, hnew]
  by_cases hn : fresh s.found (M.next x) = []
  · rw [hn, List.append_nil, List.append_nil]
    exact Prod.Lex.right _ (Nat.lt_succ_self _)
  · obtain ⟨y, hy⟩ := List.exists_mem_of_ne_nil _ hn
    have hm := mem_fresh.1 hy
    exact Prod.Lex.left _ _
      (length_filter_notMem_append_lt hy (M.finiteMoves_next.choose_spec x y hm.1) hm.2)

def assemble (symbols : List Symbol) : Except Error Draft := do
  let D ← symbols.foldlM (fun (D : Draft) x => D.addSymbol x.char) .empty
  let D ← D.addState (stateText 0) true (M.isFinal M.start)
  M.assembleFrom ⟨D, [M.start]⟩ [M.start]

/-! ### Every request is granted -/

/-- The edges that the moves of a configuration call for, when `i` is its number. -/
def edgesFrom (configs : List σ) (x : σ) (i : Nat) : List Edge :=
  (M.moves x).map fun m => (i, .symbol m.1, configs.idxOf m.2)

variable {M} {s : Assembly σ} {es : List Edge} {i : Nat} {m : Symbol × σ}

theorem Describes.exists_link (h : M.Describes s es) (hi : i < s.found.length)
    (hm : m.1 ∈ M.alphabet) : ∃ s', M.link (stateText i) s m = .ok s' ∧
      M.Describes s' (es ++ [(i, .symbol m.1, s'.found.idxOf m.2)]) := by
  have hsrc : s.draft.index.get? (stateText i) = some i := by rw [h.get?_index, if_pos hi]
  by_cases hf : m.2 ∈ s.found
  · have hdst : s.draft.index.get? (stateText (s.found.idxOf m.2)) = some (s.found.idxOf m.2) := by
      rw [h.get?_index, if_pos (List.idxOf_lt_length_of_mem hf)]
    refine ⟨_, ?_, h.addEdge (i, .symbol m.1, s.found.idxOf m.2)⟩
    rw [link, if_pos hf, Draft.addEdge_eq hsrc hdst (h.alphabet_eq ▸ hm)]
    rfl
  · have hnone : s.draft.index.get? (stateText s.found.length) = none := by
      rw [h.get?_index, if_neg (Nat.lt_irrefl _)]
    have hidx : (s.found ++ [m.2]).idxOf m.2 = s.found.length := by
      rw [List.idxOf_append_of_notMem hf, List.idxOf_cons_self, Nat.add_zero]
    have h' := h.addState m.2
    have hsrc' := h'.get?_index i
    have hdst' := h'.get?_index s.found.length
    rw [List.length_append, List.length_singleton, if_pos (Nat.lt_succ_of_lt hi)] at hsrc'
    rw [List.length_append, List.length_singleton, if_pos (Nat.lt_succ_self _)] at hdst'
    have hedge := Draft.addEdge_eq (x := m.1) hsrc' hdst' (h'.alphabet_eq ▸ hm)
    have hdescribes := h'.addEdge (i, .symbol m.1, s.found.length)
    refine ⟨_, ?_, hidx ▸ hdescribes⟩
    rw [link, if_neg hf, hidx]
    simp only
    rw [Draft.addState_eq hnone]
    show (do let D ← Draft.addEdge _ _ _ _; _) = _
    rw [show StateName.atom (stateText s.found.length) = .numbered s.found.length from rfl, hedge]
    rfl

theorem Describes.exists_links {ms : List (Symbol × σ)} (h : M.Describes s es)
    (hi : i < s.found.length) (hms : ∀ m ∈ ms, m.1 ∈ M.alphabet) :
    ∃ s', ms.foldlM (M.link (stateText i)) s = .ok s' ∧ (∃ new, s'.found = s.found ++ new) ∧
      M.Describes s' (es ++ ms.map fun m => (i, .symbol m.1, s'.found.idxOf m.2)) := by
  induction ms generalizing s es with
  | nil => exact ⟨s, rfl, ⟨[], by simp⟩, by simpa using h⟩
  | cons m ms ih =>
    obtain ⟨u, hu, hdu⟩ := h.exists_link hi (hms m List.mem_cons_self)
    have hfound := M.found_link hu
    have hiu : i < u.found.length := by
      rw [hfound, List.length_append]
      omega
    obtain ⟨s', hs', ⟨new, hnew⟩, hds'⟩ := ih hdu hiu fun m hm => hms m (List.mem_cons_of_mem _ hm)
    have hmem : m.2 ∈ u.found := by
      rw [hfound, List.mem_append, mem_fresh, List.mem_singleton]
      by_cases hm : m.2 ∈ s.found
      · exact .inl hm
      · exact .inr ⟨rfl, hm⟩
    have hidx : s'.found.idxOf m.2 = u.found.idxOf m.2 := by
      rw [hnew, List.idxOf_append_of_mem hmem]
    refine ⟨s', ?_, ⟨_, by rw [hnew, hfound, List.append_assoc]⟩, ?_⟩
    · rw [List.foldlM_cons, hu]
      exact hs'
    · rw [List.map_cons, hidx]
      simpa using hds'

theorem Describes.exists_linkAll {x : σ} (h : M.Describes s es) (hx : x ∈ s.found) :
    ∃ s', M.linkAll s x = .ok s' ∧
      M.Describes s' (es ++ M.edgesFrom s'.found x (s.found.idxOf x)) := by
  have hms : ∀ m ∈ M.moves x, m.1 ∈ M.alphabet := by
    intro m hm
    obtain ⟨y, hy, hmy⟩ := List.mem_filterMap.1 hm
    obtain ⟨z, -, rfl⟩ := Option.map_eq_some_iff.1 hmy
    exact hy
  obtain ⟨s', hs', -, hds'⟩ := h.exists_links (List.idxOf_lt_length_of_mem hx) hms
  exact ⟨s', hs', hds'⟩

/-! ### Discovery in order -/

/-- How far a search has come: what is found has been taken off the queue or is still on it, and moves
do not lead out of it from what has been taken off. -/
structure Progress (M : MoveSystem σ) (found processed queue : List σ) : Prop where
  found_eq : found = processed ++ queue
  nodup : found.Nodup
  closed : ∀ x ∈ processed, ∀ y ∈ M.next x, y ∈ found

def edgesOf (M : MoveSystem σ) (found processed : List σ) : List Edge :=
  processed.zipIdx.flatMap fun p => M.edgesFrom found p.1 p.2

section Progress

variable {found processed queue : List σ} {x : σ}

theorem edgesFrom_append (new : List σ) (hx : ∀ y ∈ M.next x, y ∈ found) :
    M.edgesFrom (found ++ new) x i = M.edgesFrom found x i := by
  refine List.map_congr_left fun m hm => ?_
  have hmem : m.2 ∈ M.next x := by
    rw [← map_moves]
    exact List.mem_map_of_mem hm
  rw [List.idxOf_append_of_mem (hx m.2 hmem)]

theorem edgesOf_append (new : List σ) (hp : ∀ x ∈ processed, ∀ y ∈ M.next x, y ∈ found) :
    M.edgesOf (found ++ new) processed = M.edgesOf found processed := by
  refine List.flatMap_congr fun p hmem => edgesFrom_append new (hp p.1 ?_)
  exact List.mem_of_getElem? (List.mk_mem_zipIdx_iff_getElem?.1 hmem)

omit [DecidableEq σ] in
theorem Progress.mem_found (h : Progress M found processed (x :: queue)) : x ∈ found := by
  rw [h.found_eq]
  exact List.mem_append_right _ List.mem_cons_self

/-- The next one on the queue has the number of those taken off before. -/
theorem Progress.idxOf_eq (h : Progress M found processed (x :: queue)) :
    found.idxOf x = processed.length := by
  have hn := h.nodup
  rw [h.found_eq] at hn
  have hnot : x ∉ processed := by
    intro hmem
    exact (List.nodup_append.1 hn).2.2 x hmem x List.mem_cons_self rfl
  rw [h.found_eq, List.idxOf_append_of_notMem hnot, List.idxOf_cons_self, Nat.add_zero]

theorem Progress.edgesOf_concat (h : Progress M found processed (x :: queue)) (new : List σ) :
    M.edgesOf (found ++ new) (processed ++ [x]) =
      M.edgesOf found processed ++ M.edgesFrom (found ++ new) x (found.idxOf x) := by
  have hold := edgesOf_append new h.closed
  rw [edgesOf] at hold
  rw [edgesOf, List.zipIdx_append, List.flatMap_append, hold, h.idxOf_eq, Nat.zero_add]
  simp

/-- What moves from the next one lead to is put at the end of the queue, where it is new. -/
theorem Progress.step (h : Progress M found processed (x :: queue)) :
    Progress M (found ++ fresh found (M.next x)) (processed ++ [x])
      (queue ++ fresh found (M.next x)) := by
  refine ⟨?_, ?_, fun z hz y hy => ?_⟩
  · rw [h.found_eq]
    simp
  · refine List.nodup_append.2 ⟨h.nodup, nodup_fresh _ _, fun a ha b hb hab => ?_⟩
    subst hab
    exact (mem_fresh.1 hb).2 ha
  · rw [List.mem_append, mem_fresh]
    by_cases hyf : y ∈ found
    · exact .inl hyf
    · rcases List.mem_append.1 hz with hz | hz
      · exact absurd (h.closed z hz y hy) hyf
      · rw [List.mem_singleton.1 hz] at hy
        exact .inr ⟨hy, hyf⟩

/-- What is assembled describes what a search discovers. -/
theorem Describes.exists_assembleFrom {D : Draft} (hp : Progress M found processed queue)
    (h : M.Describes ⟨D, found⟩ (M.edgesOf found processed)) :
    ∃ D', M.assembleFrom ⟨D, found⟩ queue = .ok D' ∧
      M.Describes ⟨D', discover M.next M.finiteMoves_next found queue⟩
        (M.edgesOf (discover M.next M.finiteMoves_next found queue)
          (discover M.next M.finiteMoves_next found queue)) := by
  fun_induction discover M.next M.finiteMoves_next found queue generalizing processed D with
  | case1 found =>
    have hfound := hp.found_eq
    rw [List.append_nil] at hfound
    exact ⟨D, by rw [assembleFrom], by rwa [← hfound] at h⟩
  | case2 found x queue new =>
    rename_i ih
    obtain ⟨s', hs', hds'⟩ := h.exists_linkAll hp.mem_found
    have hfound : s'.found = found ++ new := M.found_linkAll hs'
    have hdescribes : M.Describes ⟨s'.draft, found ++ new⟩
        (M.edgesOf (found ++ new) (processed ++ [x])) := by
      rw [hp.edgesOf_concat new, ← hfound]
      exact hds'
    obtain ⟨D', hD', hdD'⟩ := ih hp.step hdescribes
    refine ⟨D', ?_, hdD'⟩
    rw [assembleFrom]
    split
    · rename_i err herr
      rw [hs'] at herr
      cases herr
    · rename_i u hu
      obtain rfl := Except.ok.inj (hs'.symm.trans hu)
      have hdrop : s'.found.drop found.length = new := by
        rw [hfound, List.drop_left]
      rw [hdrop, ← hD', ← hfound]

end Progress

/-- If moves do not leave the configurations, each of their edges leads to a number. -/
theorem edges_eq_edgesOf {configs : List σ} (hn : configs.Nodup)
    (h : ∀ x ∈ configs, ∀ y ∈ M.next x, y ∈ configs) :
    M.edges configs = M.edgesOf configs configs := by
  refine List.flatMap_congr fun p hmem => ?_
  have hp : p.1 ∈ configs := List.mem_of_getElem? (List.mk_mem_zipIdx_iff_getElem?.1 hmem)
  rw [edgesFrom, moves, List.map_filterMap]
  refine List.filterMap_congr fun x hx => ?_
  cases hy : M.move p.1 x with
  | none => rfl
  | some y =>
    have hyc : y ∈ configs := h p.1 hp y (M.mem_next.2 ⟨x, hx, hy⟩)
    have hidx := (idxOf?_eq_some_iff_of_nodup hn).2 (List.getElem?_idxOf hyc)
    show (do let y ← some y; let j ← configs.idxOf? y; pure (p.2, Label.symbol x, j)) = _
    rw [Option.bind_eq_bind, Option.bind_some, hidx]
    rfl

/-- The first request for a state makes it the initial one. -/
theorem exists_describes_start (M : MoveSystem σ) : ∃ D,
    Draft.addState ⟨.empty M.alphabet, ∅⟩ (stateText 0) true (M.isFinal M.start) = .ok D ∧
      M.Describes ⟨D, [M.start]⟩ (M.edgesOf [M.start] []) := by
  refine ⟨_, rfl, rfl, rfl, rfl, rfl, fun q => ?_, fun k => ?_⟩
  · show q ∈ (if M.isFinal M.start = true then SortedSet.insert 0 ∅ else ∅ : SortedSet State) ↔
      ∃ x, [M.start][q]? = some x ∧ M.isFinal x = true
    have hget : ∀ x, [M.start][q]? = some x ↔ q = 0 ∧ x = M.start := by
      intro x
      simpa using getElem?_concat_eq_some (l := []) (x := x) (y := M.start) (q := q)
    simp only [hget]
    split
    · rename_i hfinal
      rw [SortedSet.mem_insert]
      constructor
      · rintro (rfl | hq)
        · exact ⟨M.start, ⟨rfl, rfl⟩, hfinal⟩
        · exact absurd hq (SortedSet.not_mem_empty q)
      · rintro ⟨x, ⟨hq, -⟩, -⟩
        exact .inl hq
    · rename_i hfinal
      constructor
      · intro hq
        exact absurd hq (SortedSet.not_mem_empty q)
      · rintro ⟨x, ⟨-, rfl⟩, hx⟩
        exact absurd hx hfinal
  · show (SortedMap.insert ∅ (stateText 0) 0).get? (stateText k) = if k < 1 then some k else none
    rw [SortedMap.get?_insert, SortedMap.get?_empty]
    by_cases hk : k = 0
    · rw [hk, if_pos rfl, if_pos (Nat.lt_succ_self 0)]
    · rw [if_neg fun hname => hk (stateText_injective hname), if_neg]
      intro hlt
      exact hk (Nat.lt_one_iff.1 hlt)

theorem addSymbols_eq (symbols : List Symbol) (D : Draft) :
    ∃ alphabet : SortedSet Symbol,
      symbols.foldlM (fun (D : Draft) x => D.addSymbol x.char) D =
        .ok { D with automaton := { D.automaton with alphabet := alphabet } } ∧
      ∀ x, x ∈ alphabet ↔ x ∈ symbols ∨ x ∈ D.automaton.alphabet := by
  induction symbols generalizing D with
  | nil => exact ⟨D.automaton.alphabet, rfl, by simp⟩
  | cons y symbols ih =>
    obtain ⟨alphabet, hfold, hmem⟩ :=
      ih { D with automaton := D.automaton.addSymbols (.singleton y) }
    refine ⟨alphabet, ?_, fun x => ?_⟩
    · rw [List.foldlM_cons, Draft.addSymbol_eq]
      exact hfold
    · rw [hmem, List.mem_cons]
      simp only [Automaton.addSymbols, SortedSet.mem_union, SortedSet.mem_singleton]
      tauto

/-- Assembling a system over its alphabet grants every request and gives the automaton of the system. -/
theorem assemble_eq (M : MoveSystem σ) {symbols : List Symbol} (hs : M.alphabet = .ofList symbols) :
    ∃ D, M.assemble symbols = .ok D ∧ D.automaton = M.toAutomaton fun i _ => .numbered i := by
  obtain ⟨alphabet, hfold, hmem⟩ := addSymbols_eq symbols .empty
  have halph : alphabet = M.alphabet := by
    refine SortedSet.ext fun x => ?_
    rw [hs, hmem, SortedSet.mem_ofList]
    exact or_iff_left (SortedSet.not_mem_empty x)
  obtain ⟨D, hD, hdescribes⟩ := M.exists_describes_start
  have hprogress : Progress M [M.start] [] [M.start] :=
    ⟨rfl, List.nodup_singleton _, fun _ hx => absurd hx List.not_mem_nil⟩
  obtain ⟨D', hD', h⟩ := hdescribes.exists_assembleFrom hprogress
  have hstart : fresh [] [M.start] = [M.start] := by simp [fresh]
  have hreach : discover M.next M.finiteMoves_next [M.start] [M.start] = M.reachable := by
    rw [reachable, explore, hstart]
  rw [hreach] at h
  refine ⟨D', ?_, ?_⟩
  · rw [assemble, hfold, halph]
    show (do
      let D ← Draft.addState ⟨.empty M.alphabet, ∅⟩ (stateText 0) true (M.isFinal M.start)
      M.assembleFrom ⟨D, [M.start]⟩ [M.start]) = _
    rw [hD]
    exact hD'
  · have hclosed : ∀ x ∈ M.reachable, ∀ y ∈ M.next x, y ∈ M.reachable := by
      intro x hx y hy
      rw [reachable, mem_explore] at hx ⊢
      obtain ⟨z, hz, hr⟩ := hx
      exact ⟨z, hz, hr.step hy⟩
    have hnames : D'.automaton.names = (M.toAutomaton fun i _ => .numbered i).names := by
      rw [h.names_eq, List.range_eq_range', ← List.zipIdx_map_snd, List.map_map]
      rfl
    have htransitions : D'.automaton.transitions =
        (M.toAutomaton fun i _ => .numbered i).transitions := by
      rw [h.transitions_eq, ← edges_eq_edgesOf M.nodup_reachable hclosed]
      rfl
    have hfinals : D'.automaton.finals = (M.toAutomaton fun i _ => .numbered i).finals := by
      refine SortedSet.ext fun q => ?_
      rw [h.mem_finals, mem_finals]
    calc D'.automaton
        = ⟨D'.automaton.names, D'.automaton.alphabet, D'.automaton.transitions,
            D'.automaton.initial, D'.automaton.finals⟩ := rfl
      _ = M.toAutomaton fun i _ => .numbered i := by
          rw [hnames, h.alphabet_eq, htransitions, h.initial_eq, hfinals]
          rfl

end MoveSystem

end RegularLanguages
