import Mathlib
import RegularLanguages.Proofs.Automaton.Grants
/-!
# Drafting in place

A draft can be changed in place, by calls that check what they need and write along the way. What a call has
written when it fails stays written, so that a failed call changes nothing is a matter of the order of checks and
writes: every check comes before the first write (`perform_eq`). Hence the calls that succeed make the draft on
their own (`grant_successes`), and what is said of granted requests is true of them.
-/

namespace RegularLanguages.Draft

/-! ### Calls -/

inductive Call
  | addSymbol (c : Char)
  | addState (name : String) (isInitial isFinal : Bool)
  | addEdge (src : String) (c : Char) (dst : String)
  | addEpsilonEdge (src dst : String)
deriving Repr, DecidableEq

namespace InPlace

/-- Looks something up that may be missing, and changes nothing. -/
def check {α : Type} (f : Draft → Except Error α) : EStateM Error Draft α := do
  MonadExcept.ofExcept (f (← get))

/-- No other state is initial when `name` is to be. -/
def noInitial (name : String) (D : Draft) : Except Error Unit :=
  match D.automaton.initial with
  | some q => .error (.duplicateInitialState (D.automaton.name q).text name)
  | none => .ok ()

def addSymbol (c : Char) : EStateM Error Draft Unit := do
  let x ← check fun _ => Symbol.ofChar c
  modify fun D => { D with automaton := D.automaton.addSymbols (.singleton x) }

def pushState (name : StateName) : EStateM Error Draft State :=
  modifyGet fun D => (D.automaton.size, { D with automaton := D.automaton.addState name false })

/-- The state called `name`; a new one is added to the automaton first, and to the index then. -/
def intern (name : String) : EStateM Error Draft State := do
  match (← get).index.get? name with
  | some q => return q
  | none =>
    let q ← pushState (.atom name)
    modify fun D => { D with index := D.index.insert name q }
    return q

/-- Sets marks, and clears none. -/
def mark (q : State) (isInitial isFinal : Bool) : EStateM Error Draft Unit := do
  if isInitial then
    modify fun D => { D with automaton := { D.automaton with initial := some q } }
  if isFinal then
    modify fun D => { D with automaton := { D.automaton with finals := D.automaton.finals.insert q } }

def addState (name : String) (isInitial isFinal : Bool) : EStateM Error Draft Unit := do
  if isInitial then
    check (noInitial name)
  let q ← intern name
  mark q isInitial isFinal

def addEdge (src : String) (c : Char) (dst : String) : EStateM Error Draft Unit := do
  let p ← check (·.state src)
  let q ← check (·.state dst)
  let l ← check (·.label c)
  modify fun D => { D with automaton := D.automaton.addEdge (p, l, q) }

end InPlace

namespace Call

/-- Makes the call on a draft, which is changed in place. -/
def perform : Call → EStateM Error Draft Unit
  | addSymbol c => InPlace.addSymbol c
  | addState name isInitial isFinal => InPlace.addState name isInitial isFinal
  | addEdge src c dst => InPlace.addEdge src c dst
  | addEpsilonEdge src dst => InPlace.addEdge src epsilonChar dst

/-- What is requested by the call. -/
def request : Call → Request
  | addSymbol c => .symbol c
  | addState name isInitial isFinal => .state name isInitial isFinal
  | addEdge src c dst => .edge src c dst
  | addEpsilonEdge src dst => .edge src epsilonChar dst

/-- The name of the state that is to be the initial one. -/
def initialName? : Call → Option String
  | addState name true _ => some name
  | _ => none

end Call

/-- What a change in place does that gives a new draft or leaves the draft as it is. -/
def settle (D : Draft) : Except Error Draft → EStateM.Result Error Draft Unit
  | .ok E => .ok () E
  | .error e => .error e D

/-- The draft after a call, whether it succeeded or failed. -/
def afterCall (D : Draft) (c : Call) : Draft :=
  match c.perform D with
  | .ok _ E => E
  | .error _ E => E

def succeeds (D : Draft) (c : Call) : Bool :=
  match c.perform D with
  | .ok _ _ => true
  | .error _ _ => false

/-- Makes calls one after the other, and goes on after those that fail. -/
def afterCalls (D : Draft) (cs : List Call) : Draft := cs.foldl afterCall D

/-- Those of the calls that succeed when all of them are made. -/
def successes (D : Draft) : List Call → List Call
  | [] => []
  | c :: cs => if D.succeeds c then c :: (D.afterCall c).successes cs else (D.afterCall c).successes cs

variable {D D' E : Draft} {c : Call} {cs : List Call} {e : Error} {rs : List Request} {r : Request}
  {name : String} {q : State}

/-! ### Checks come before writes -/

theorem check_bind {α : Type} (f : Draft → Except Error α) (k : α → EStateM Error Draft Unit) (D : Draft) :
    (InPlace.check f >>= k) D = match f D with
      | .ok a => k a D
      | .error e => .error e D := by
  show EStateM.bind (InPlace.check f) k D = _
  have hcheck : InPlace.check f D = match f D with
      | .ok a => .ok a D
      | .error e => .error e D := by
    show (MonadExcept.ofExcept (f D) : EStateM Error Draft α) D = _
    cases f D <;> rfl
  rw [EStateM.bind, hcheck]
  cases f D <;> rfl

theorem addSymbol_inPlace (D : Draft) (c : Char) : InPlace.addSymbol c D = D.settle (D.addSymbol c) := by
  rw [InPlace.addSymbol, check_bind, Draft.addSymbol]
  cases Symbol.ofChar c <;> rfl

theorem addEdge_inPlace (D : Draft) (src : String) (c : Char) (dst : String) :
    InPlace.addEdge src c dst D = D.settle (D.addEdge src c dst) := by
  rw [InPlace.addEdge, check_bind, Draft.addEdge]
  cases D.state src with
  | error e => rfl
  | ok p =>
    simp only [check_bind]
    cases D.state dst with
    | error e => rfl
    | ok q => cases D.label c <;> rfl

/-- Nothing is checked when a state is looked up or added. -/
theorem intern_inPlace (D : Draft) (name : String) :
    InPlace.intern name D = .ok (D.intern name).1 (D.intern name).2 := by
  have hrun : InPlace.intern name D = (match D.index.get? name with
      | some q => pure q
      | none => do
        let q ← InPlace.pushState (.atom name)
        modify fun D => { D with index := D.index.insert name q }
        return q : EStateM Error Draft State) D := rfl
  rw [hrun, Draft.intern]
  cases D.index.get? name <;> rfl

theorem addState_inPlace (D : Draft) (name : String) (isInitial isFinal : Bool) :
    InPlace.addState name isInitial isFinal D = D.settle (D.addState name isInitial isFinal) := by
  have hwrite : (InPlace.intern name >>= fun q => InPlace.mark q isInitial isFinal) D =
      .ok () { (D.intern name).2 with automaton := { (D.intern name).2.automaton with
        initial := if isInitial then some (D.intern name).1 else (D.intern name).2.automaton.initial
        finals := if isFinal then (D.intern name).2.automaton.finals.insert (D.intern name).1
          else (D.intern name).2.automaton.finals } } := by
    show EStateM.bind (InPlace.intern name) _ D = _
    rw [EStateM.bind, intern_inPlace]
    cases isInitial <;> cases isFinal <;> rfl
  cases isInitial with
  | false => exact hwrite
  | true =>
    have hrun : InPlace.addState name true isFinal D = (InPlace.check (InPlace.noInitial name) >>=
        fun _ => InPlace.intern name >>= fun q => InPlace.mark q true isFinal) D := rfl
    rw [hrun, check_bind]
    unfold InPlace.noInitial Draft.addState
    cases D.automaton.initial with
    | some q => rfl
    | none => exact hwrite

/-- A call grants what it requests, or it fails and leaves the draft as it was. -/
theorem perform_eq (c : Call) (D : Draft) : c.perform D = D.settle (D.request c.request) := by
  cases c with
  | addSymbol c => exact addSymbol_inPlace D c
  | addState name isInitial isFinal => exact addState_inPlace D name isInitial isFinal
  | addEdge src c dst => exact addEdge_inPlace D src c dst
  | addEpsilonEdge src dst => exact addEdge_inPlace D src epsilonChar dst

theorem eq_of_perform_error (h : c.perform D = .error e E) : E = D := by
  rw [perform_eq] at h
  cases hr : D.request c.request with
  | ok D' =>
    rw [hr] at h
    cases h
  | error e' =>
    rw [hr] at h
    cases h
    rfl

theorem afterCall_eq (D : Draft) (c : Call) :
    D.afterCall c = (D.request c.request).toOption.getD D := by
  rw [afterCall, perform_eq]
  cases D.request c.request <;> rfl

theorem request_of_succeeds (h : D.succeeds c = true) : D.request c.request = .ok (D.afterCall c) := by
  rw [succeeds, perform_eq] at h
  rw [afterCall_eq]
  cases hr : D.request c.request with
  | ok D' => rfl
  | error e =>
    rw [hr] at h
    cases h

theorem afterCall_of_fails (h : D.succeeds c = false) : D.afterCall c = D := by
  rw [succeeds, perform_eq] at h
  rw [afterCall_eq]
  cases hr : D.request c.request with
  | ok D' =>
    rw [hr] at h
    cases h
  | error e => rfl

/-! ### Calls that succeed -/

theorem afterCalls_eq_requests (D : Draft) (cs : List Call) :
    D.afterCalls cs = D.requests (cs.map Call.request) := by
  rw [afterCalls, requests, List.foldl_map]
  exact congrArg (List.foldl · D cs) (funext₂ afterCall_eq)

/-- The calls that succeed are granted one after the other. -/
theorem grant_successes (D : Draft) (cs : List Call) :
    D.grant ((D.successes cs).map Call.request) = .ok (D.afterCalls cs) := by
  induction cs generalizing D with
  | nil => rfl
  | cons c cs ih =>
    rw [successes, afterCalls, List.foldl_cons]
    cases h : D.succeeds c with
    | true =>
      rw [if_pos rfl, List.map_cons, grant, List.foldlM_cons, request_of_succeeds h]
      exact ih (D.afterCall c)
    | false =>
      rw [if_neg Bool.false_ne_true, afterCall_of_fails h]
      exact ih D

theorem afterCalls_successes (D : Draft) (cs : List Call) :
    D.afterCalls (D.successes cs) = D.afterCalls cs := by
  rw [afterCalls_eq_requests, requests_of_grant (grant_successes D cs)]

/-- They all succeed again when the others are not made. -/
theorem successes_successes (D : Draft) (cs : List Call) :
    D.successes (D.successes cs) = D.successes cs := by
  induction cs generalizing D with
  | nil => rfl
  | cons c cs ih =>
    rw [successes]
    cases h : D.succeeds c with
    | true => rw [if_pos rfl, successes, h, if_pos rfl, ih]
    | false => rw [if_neg Bool.false_ne_true, afterCall_of_fails h, ih]

/-! ### The initial state -/

theorem get?_of_request (h : D.request r = .ok E) (hq : D.index.get? name = some q) :
    E.index.get? name = some q := by
  cases r with
  | symbol c =>
    obtain ⟨x, -, rfl⟩ := addSymbol_cases h
    exact hq
  | state text isInitial isFinal =>
    obtain ⟨-, hindex, -⟩ := addState_cases h
    rw [hindex]
    exact (get?_intern_eq_some ⟨q, hq⟩).2 hq
  | edge src c dst =>
    obtain ⟨p, l, t, -, -, -, -, rfl⟩ := addEdge_cases h
    exact hq

theorem initial_of_request (h : D.request r = .ok E) (hq : D.automaton.initial = some q) :
    E.automaton.initial = some q := by
  cases r with
  | symbol c =>
    obtain ⟨x, -, rfl⟩ := addSymbol_cases h
    exact hq
  | state text isInitial isFinal =>
    obtain ⟨hfree, -, names, hE⟩ := addState_cases h
    cases isInitial with
    | false =>
      rw [hE]
      exact hq
    | true =>
      -- a second initial state is refused
      rw [hfree rfl] at hq
      cases hq
  | edge src c dst =>
    obtain ⟨p, l, t, -, -, -, -, rfl⟩ := addEdge_cases h
    exact hq

/-- Whatever is called, the initial state stays the initial one, under the name that it has. -/
theorem initial_afterCalls (h : D.Indexed) (hq : D.automaton.initial = some q) (hlt : q < D.automaton.size)
    (cs : List Call) : (D.afterCalls cs).automaton.initial = some q ∧
      (D.afterCalls cs).automaton.name q = D.automaton.name q := by
  rw [afterCalls_eq_requests]
  obtain ⟨text, htext⟩ := h.exists_get? hlt
  have hkept : (D.requests (cs.map Call.request)).index.get? text = some q :=
    requests_induction (fun hD hr => get?_of_request hr hD) htext _
  refine ⟨requests_induction (fun hD hr => initial_of_request hr hD) hq _, ?_⟩
  rw [(h.requests _).name_eq hkept, h.name_eq htext]

theorem mem_map_request_iff {gs : List Call} {isFinal : Bool} :
    .state name true isFinal ∈ gs.map Call.request ↔ .addState name true isFinal ∈ gs := by
  rw [List.mem_map]
  constructor
  · rintro ⟨c, hc, hr⟩
    cases c with
    | addState => cases hr; exact hc
    | _ => cases hr
  · intro hc
    exact ⟨_, hc, rfl⟩

theorem Call.initialName?_eq_some : c.initialName? = some name ↔ ∃ isFinal, c = .addState name true isFinal := by
  constructor
  · intro h
    cases c with
    | addState text isInitial isFinal =>
      cases isInitial with
      | true => obtain rfl := Option.some.inj h; exact ⟨isFinal, rfl⟩
      | false => cases h
    | _ => cases h
  · rintro ⟨isFinal, rfl⟩
    rfl

/-- The initial state is the one of the first call that asked for an initial state. -/
theorem Records.initial_eq {gs : List Call} (h : D.Records (gs.map Call.request)) :
    D.automaton.initial = (gs.findSome? Call.initialName?).bind D.index.get? := by
  cases hfirst : gs.findSome? Call.initialName? with
  | none =>
    rw [List.findSome?_eq_none_iff] at hfirst
    refine h.initial_eq_none_iff.2 fun name isFinal hmem => ?_
    have hname := hfirst _ (mem_map_request_iff.1 hmem)
    cases hname
  | some name =>
    obtain ⟨c, hc, hname⟩ := List.exists_of_findSome?_eq_some hfirst
    obtain ⟨isFinal, rfl⟩ := Call.initialName?_eq_some.1 hname
    have hmem := mem_map_request_iff.2 hc
    obtain ⟨q, hq⟩ := h.state_iff.2 ⟨true, isFinal, hmem⟩
    rw [Option.bind_some, hq]
    exact h.initial_iff.2 ⟨name, isFinal, hmem, hq⟩

/-! ### Building by calls -/

/-- A call that fails leaves any draft as it was, whatever it is called with. So the calls that succeed, of those
that are made on an empty draft, make the same draft on their own, and all succeed again. The draft's index and its
list of states are inverse to each other, its initial state is that of the first call that was granted one and
stays the initial state whatever is called, and its automaton has the symbols, states, marks and edges of the calls
that succeed, and no others. -/
theorem afterCalls_records (cs : List Call) :
    (∀ D c e E, Call.perform c D = .error e E → E = D) ∧
    ∃ D gs, empty.afterCalls cs = D ∧ empty.successes cs = gs ∧ empty.afterCalls gs = D ∧
      empty.successes gs = gs ∧ D.Indexed ∧ D.automaton.NamesDistinct ∧
      D.automaton.initial = (gs.findSome? Call.initialName?).bind D.index.get? ∧
      (∀ q, D.automaton.initial = some q → ∀ ds, (D.afterCalls ds).automaton.initial = some q ∧
        (D.afterCalls ds).automaton.name q = D.automaton.name q) ∧
      D.Records (gs.map Call.request) := by
  have hgrant := empty.grant_successes cs
  have hindexed : (empty.afterCalls cs).Indexed := by
    rw [afterCalls_eq_requests]
    exact indexed_empty.requests _
  have hwell : (empty.afterCalls cs).WellFormed := by
    rw [afterCalls_eq_requests]
    exact wellFormed_empty.requests _
  have hrecords : (empty.afterCalls cs).Records ((empty.successes cs).map Call.request) :=
    Records.empty.grant hgrant
  exact ⟨fun _ _ _ _ => eq_of_perform_error, _, _, rfl, rfl, afterCalls_successes _ _,
    successes_successes _ _, hindexed, hindexed.namesDistinct, hrecords.initial_eq,
    fun q hq => initial_afterCalls hindexed hq (hwell.automaton.initial_lt hq), hrecords⟩

/-- Five of the calls fail: for a bad symbol, a second initial state, a state that is not there yet, a symbol that
is not in the alphabet and a second initial state again, under the name of the first. -/
def calls : List Call :=
  [.addSymbol 'a', .addSymbol 'A', .addState "q0" true false, .addState "q1" true true, .addEdge "q0" 'a' "q1",
    .addState "q1" false true, .addEdge "q0" 'b' "q1", .addEdge "q0" 'a' "q1", .addState "q0" true true,
    .addEpsilonEdge "q1" "q0", .addState "q0" false true]

theorem afterCalls_records_calls :
    empty.successes calls = [.addSymbol 'a', .addState "q0" true false, .addState "q1" false true,
        .addEdge "q0" 'a' "q1", .addEpsilonEdge "q1" "q0", .addState "q0" false true] ∧
      empty.afterCalls (empty.successes calls) = empty.afterCalls calls ∧
      (empty.afterCalls calls).automaton.initial = some 0 ∧
      ∀ ds, ((empty.afterCalls calls).afterCalls ds).automaton.initial = some 0 := by
  obtain ⟨-, D, gs, rfl, rfl, hsame, -, -, -, -, hstays, -⟩ := afterCalls_records calls
  have hinitial : (empty.afterCalls calls).automaton.initial = some 0 := by cbv
  exact ⟨by cbv, hsame, hinitial, fun ds => (hstays 0 hinitial ds).1⟩

end RegularLanguages.Draft
