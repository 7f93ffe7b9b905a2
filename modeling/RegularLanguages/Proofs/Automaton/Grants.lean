import RegularLanguages.Proofs.Automaton.Requests
/-!
# Which requests are granted

Whether a draft grants a request can be told from those that it granted before (`Fits`): a symbol has to be
one, only one state can be made initial, and an edge needs both its states and its symbol. So requests are
granted one after the other exactly if each of them fits those before it (`Records.exists_grant_iff`).
-/

namespace RegularLanguages.Draft

/-- What a request needs of the requests that were granted before. -/
def Fits (rs : List Request) : Request → Prop
  | .symbol c => Symbol.isValid c = true
  | .state _ isInitial _ => isInitial = true → ∀ name isFinal, .state name true isFinal ∉ rs
  | .edge src c dst => (∃ isInitial isFinal, .state src isInitial isFinal ∈ rs) ∧
      (∃ isInitial isFinal, .state dst isInitial isFinal ∈ rs) ∧
      (c = epsilonChar ∨ Symbol.isValid c = true ∧ .symbol c ∈ rs)

/-- Each request fits those before it, of which `rs` come first. -/
def FitInTurn (rs : List Request) : List Request → Prop
  | [] => True
  | w :: ws => Fits rs w ∧ FitInTurn (rs ++ [w]) ws

variable {D D' : Draft} {rs us ws : List Request} {r : Request} {name src dst : String} {c : Char}
  {l : Label}

/-! ### One request -/

theorem exists_addSymbol_iff : (∃ D', D.addSymbol c = .ok D') ↔ Symbol.isValid c = true := by
  constructor
  · rintro ⟨D', h⟩
    obtain ⟨x, rfl, -⟩ := addSymbol_cases h
    exact x.valid
  · intro h
    rw [addSymbol, Symbol.ofChar, Symbol.ofChar?, dif_pos h]
    exact ⟨_, rfl⟩

theorem exists_addState_iff {isInitial isFinal : Bool} :
    (∃ D', D.addState name isInitial isFinal = .ok D') ↔
      (isInitial = true → D.automaton.initial = none) := by
  constructor
  · rintro ⟨D', h⟩
    exact (addState_cases h).1
  · intro h
    unfold addState
    split
    · rename_i q hq
      rw [h rfl] at hq
      cases hq
    · exact ⟨_, rfl⟩

theorem exists_addEdge_iff : (∃ D', D.addEdge src c dst = .ok D') ↔
    (∃ p, D.index.get? src = some p) ∧ (∃ q, D.index.get? dst = some q) ∧ ∃ l, D.label c = .ok l := by
  constructor
  · rintro ⟨D', h⟩
    rw [addEdge] at h
    obtain ⟨p, hp, h⟩ := bind_eq_ok.1 h
    obtain ⟨q, hq, h⟩ := bind_eq_ok.1 h
    obtain ⟨l, hl, -⟩ := bind_eq_ok.1 h
    exact ⟨⟨p, state_eq_ok hp⟩, ⟨q, state_eq_ok hq⟩, l, hl⟩
  · rintro ⟨⟨p, hp⟩, ⟨q, hq⟩, l, hl⟩
    rw [addEdge, state, state, hp, hq]
    exact ⟨_, bind_eq_ok.2 ⟨p, rfl, bind_eq_ok.2 ⟨q, rfl, bind_eq_ok.2 ⟨l, hl, rfl⟩⟩⟩⟩

namespace Records

variable (h : D.Records rs)
include h

theorem exists_label_iff : (∃ l, D.label c = .ok l) ↔
    c = epsilonChar ∨ Symbol.isValid c = true ∧ .symbol c ∈ rs := by
  constructor
  · rintro ⟨l, hl⟩
    obtain ⟨rfl, hx⟩ := label_cases hl
    cases l with
    | epsilon => exact .inl rfl
    | symbol x => exact .inr ⟨x.valid, h.symbol_iff.1 (hx x rfl)⟩
  · rintro (rfl | ⟨hc, hmem⟩)
    · exact ⟨.epsilon, rfl⟩
    · have hx : (⟨c, hc⟩ : Symbol) ∈ D.automaton.alphabet := h.symbol_iff.2 hmem
      have hlabel : Label.ofChar? c = some (.symbol ⟨c, hc⟩) := Label.ofChar?_char (.symbol ⟨c, hc⟩)
      rw [label, hlabel]
      exact ⟨_, if_pos hx⟩

/-- There is an initial state if one was requested. -/
theorem initial_eq_none_iff :
    D.automaton.initial = none ↔ ∀ name isFinal, .state name true isFinal ∉ rs := by
  rw [Option.eq_none_iff_forall_ne_some]
  constructor
  · intro hno name isFinal hmem
    obtain ⟨q, hq⟩ := h.state_iff.2 ⟨true, isFinal, hmem⟩
    exact hno q (h.initial_iff.2 ⟨name, isFinal, hmem, hq⟩)
  · intro hno q hq
    obtain ⟨name, isFinal, hmem, -⟩ := h.initial_iff.1 hq
    exact hno name isFinal hmem

/-- A request is granted if it fits those that were granted before. -/
theorem exists_request_iff : (∃ D', D.request r = .ok D') ↔ Fits rs r := by
  cases r with
  | symbol c => exact exists_addSymbol_iff
  | state name isInitial isFinal => exact exists_addState_iff.trans (by rw [h.initial_eq_none_iff]; rfl)
  | edge src c dst =>
    refine exists_addEdge_iff.trans ?_
    rw [h.state_iff, h.state_iff, h.exists_label_iff]
    rfl

/-- Requests are granted one after the other if each of them fits those before it. -/
theorem exists_grant_iff : (∃ D', D.grant ws = .ok D') ↔ FitInTurn rs ws := by
  induction ws generalizing D rs with
  | nil => exact iff_of_true ⟨D, rfl⟩ trivial
  | cons w ws ih =>
    rw [FitInTurn, ← h.exists_request_iff]
    simp only [Draft.grant, List.foldlM_cons, bind_eq_ok]
    constructor
    · rintro ⟨D', E, hw, hws⟩
      exact ⟨⟨E, hw⟩, (ih (h.request hw)).1 ⟨D', hws⟩⟩
    · rintro ⟨⟨E, hw⟩, hws⟩
      obtain ⟨D', hD'⟩ := (ih (h.request hw)).2 hws
      exact ⟨D', E, hw, hD'⟩

end Records

/-! ### Requests of one kind -/

theorem grant_append {us ws : List Request} : D.grant (us ++ ws) = .ok D' ↔
    ∃ E, D.grant us = .ok E ∧ E.grant ws = .ok D' := by
  rw [grant, List.foldlM_append, bind_eq_ok]
  rfl

theorem fitInTurn_append : FitInTurn rs (us ++ ws) ↔ FitInTurn rs us ∧ FitInTurn (rs ++ us) ws := by
  induction us generalizing rs with
  | nil => simp [FitInTurn]
  | cons u us ih => simp [FitInTurn, ih, and_assoc]

/-- Symbols do not depend on what came before. -/
theorem fitInTurn_symbols {cs : List Char} :
    FitInTurn rs (cs.map .symbol) ↔ ∀ c ∈ cs, Symbol.isValid c = true := by
  induction cs generalizing rs with
  | nil => simp [FitInTurn]
  | cons c cs ih => simp [FitInTurn, Fits, ih]

/-- Edges do not make a difference to what comes after them. -/
theorem fitInTurn_edges {es : List (String × Char × String)} :
    FitInTurn rs (es.map fun e => .edge e.1 e.2.1 e.2.2) ↔ ∀ e ∈ es, Fits rs (.edge e.1 e.2.1 e.2.2) := by
  induction es generalizing rs with
  | nil => simp [FitInTurn]
  | cons e es ih => simp [FitInTurn, Fits, ih]

/-! ### Names -/

/-- The name of the state that is requested. -/
def Request.name? : Request → Option String
  | .state name _ _ => some name
  | _ => none

theorem names_addState {isInitial isFinal : Bool} (hname : D.index.get? name = none)
    (h : D.addState name isInitial isFinal = .ok D') :
    D'.automaton.names = D.automaton.names.push (.atom name) := by
  unfold addState at h
  split at h
  · cases h
  · rw [intern, hname] at h
    obtain rfl := Except.ok.inj h
    rfl

namespace Records

theorem get?_eq_none (h : D.Records rs) (hname : name ∉ rs.filterMap Request.name?) :
    D.index.get? name = none := by
  rw [Option.eq_none_iff_forall_ne_some]
  intro q hq
  obtain ⟨isInitial, isFinal, hmem⟩ := h.state_iff.1 ⟨q, hq⟩
  exact hname (List.mem_filterMap.2 ⟨_, hmem, rfl⟩)

/-- States are numbered in the order in which they are requested, if each of them is requested once. -/
theorem names_grant (h : D.Records rs) (hw : D.grant ws = .ok D')
    (hnodup : ((rs ++ ws).filterMap Request.name?).Nodup) :
    D'.automaton.names = D.automaton.names ++ ((ws.filterMap Request.name?).map StateName.atom).toArray := by
  induction ws generalizing D rs with
  | nil =>
    obtain rfl := Except.ok.inj hw
    simp
  | cons w ws ih =>
    rw [Draft.grant, List.foldlM_cons] at hw
    obtain ⟨E, hE, hw⟩ := bind_eq_ok.1 hw
    have hrest := ih (h.request hE) hw (by rwa [← List.append_cons])
    cases w with
    | symbol c =>
      obtain ⟨x, -, rfl⟩ := addSymbol_cases hE
      exact hrest
    | state name isInitial isFinal =>
      have hnew : name ∉ rs.filterMap Request.name? := by
        rw [List.filterMap_append] at hnodup
        exact fun hmem => (List.nodup_append.1 hnodup).2.2 name hmem name List.mem_cons_self rfl
      rw [hrest, names_addState (h.get?_eq_none hnew) hE]
      simp [Request.name?]
    | edge src c dst =>
      obtain ⟨p, l, q, -, -, -, -, rfl⟩ := addEdge_cases hE
      exact hrest

end Records

end RegularLanguages.Draft
