import RegularLanguages.Sorted.Set
import RegularLanguages.Sorted.Table
import RegularLanguages.Symbol
/-!
# Labelled edges

The edges of an automaton, as a table from a state and a label to the set of targets. The view is
the list of edges: `mem_edges` says when an edge is there, and every operation is described by it.
-/

namespace RegularLanguages

/-- A state, as its place in the list of states. -/
abbrev State := Nat

/-- An edge: source, label, target. -/
abbrev Edge := State × Label × State

/-- The targets of every state on every label. -/
abbrev Transitions := SortedTable State Label (SortedSet State)

namespace Transitions

variable {t : Transitions} {s d : State} {l : Label}

/-- The targets of `s` on `l`; none is the empty set. -/
def targets (t : Transitions) (s : State) (l : Label) : SortedSet State := (t.get? s l).getD ∅

def edges (t : Transitions) : List Edge :=
  t.toList.flatMap fun e => e.2.2.toList.map fun d => (e.1, e.2.1, d)

/-- The targets of `s` on any label, with repetitions. -/
def successors (t : Transitions) (s : State) : List State :=
  (t.row s).flatMap fun e => e.2.toList

def addEdge (t : Transitions) (e : Edge) : Transitions :=
  t.insertWith e.1 e.2.1 (.singleton e.2.2) (·.insert e.2.2)

def addEdges (t : Transitions) (es : List Edge) : Transitions := es.foldl addEdge t

def ofEdges (es : List Edge) : Transitions := addEdges ∅ es

theorem mem_edges : (s, l, d) ∈ t.edges ↔ d ∈ t.targets s l := by
  simp only [edges, List.mem_flatMap, List.mem_map, Prod.exists, Prod.mk.injEq, targets,
    SortedTable.mem_toList]
  constructor
  · rintro ⟨s', l', ds, hg, d', hd, rfl, rfl, rfl⟩
    simpa [hg] using hd
  · intro h
    cases hg : t.get? s l with
    | none => simp [hg] at h
    | some ds => exact ⟨s, l, ds, hg, d, by simpa [hg] using h, rfl, rfl, rfl⟩

@[simp] theorem mem_targets_addEdge {e : Edge} :
    d ∈ (t.addEdge e).targets s l ↔ (s, l, d) = e ∨ d ∈ t.targets s l := by
  rcases e with ⟨s', l', d'⟩
  simp only [addEdge, targets, SortedTable.get?_insertWith, Prod.mk.injEq]
  by_cases h : s = s' ∧ l = l'
  · obtain ⟨rfl, rfl⟩ := h
    cases hg : t.get? s l <;> simp
  · simp only [if_neg h]
    exact ⟨.inr, fun h' => h'.resolve_left fun he => h ⟨he.1, he.2.1⟩⟩

@[simp] theorem mem_targets_addEdges {es : List Edge} :
    d ∈ (t.addEdges es).targets s l ↔ (s, l, d) ∈ es ∨ d ∈ t.targets s l := by
  unfold addEdges
  induction es generalizing t with
  | nil => simp
  | cons e es ih => rw [List.foldl_cons, ih, mem_targets_addEdge, List.mem_cons]; grind

@[simp] theorem targets_empty : (∅ : Transitions).targets s l = ∅ := rfl

@[simp] theorem mem_targets_ofEdges {es : List Edge} :
    d ∈ (ofEdges es).targets s l ↔ (s, l, d) ∈ es := by
  simp [ofEdges]

theorem get?_eq_some_targets {ds : SortedSet State} (h : t.get? s l = some ds) :
    t.targets s l = ds := by
  rw [targets, h, Option.getD_some]

/-- Where targets stand there is one. -/
def Populated (t : Transitions) : Prop := ∀ s l ds, t.get? s l = some ds → ∃ d, d ∈ ds

theorem Populated.addEdge (h : t.Populated) (e : Edge) : (t.addEdge e).Populated := by
  intro s l ds hds
  rw [Transitions.addEdge, SortedTable.get?_insertWith] at hds
  split at hds
  · cases hg : t.get? e.1 e.2.1 with
    | none => rw [hg] at hds; exact ⟨e.2.2, by rw [← Option.some.inj hds]; simp⟩
    | some es => rw [hg] at hds; exact ⟨e.2.2, by rw [← Option.some.inj hds]; simp⟩
  · exact h s l ds hds

theorem Populated.addEdges (h : t.Populated) (es : List Edge) : (t.addEdges es).Populated := by
  unfold Transitions.addEdges
  induction es generalizing t with
  | nil => exact h
  | cons e es ih => exact ih (h.addEdge e)

theorem populated_empty : (∅ : Transitions).Populated := fun _ _ _ h => by simp at h

theorem populated_ofEdges (es : List Edge) : (ofEdges es).Populated := populated_empty.addEdges es

theorem Populated.isSome_get? (h : t.Populated) :
    (t.get? s l).isSome = true ↔ ∃ d, d ∈ t.targets s l := by
  cases hg : t.get? s l with
  | none => simp [targets, hg]
  | some ds =>
    rw [get?_eq_some_targets hg]
    exact ⟨fun _ => h s l ds hg, fun _ => rfl⟩

theorem Populated.hasColumn_iff (h : t.Populated) :
    t.hasColumn l = true ↔ ∃ s d, d ∈ t.targets s l := by
  rw [SortedTable.hasColumn_iff]
  constructor
  · rintro ⟨s, ds, hg⟩
    obtain ⟨d, hd⟩ := h s l ds hg
    exact ⟨s, d, by rwa [get?_eq_some_targets hg]⟩
  · rintro ⟨s, d, hd⟩
    exact ⟨s, Option.isSome_iff_exists.1 (h.isSome_get?.2 ⟨d, hd⟩)⟩

theorem mem_successors : d ∈ t.successors s ↔ ∃ l, d ∈ t.targets s l := by
  unfold successors SortedTable.row
  cases hr : t.rows.get? s with
  | none => simp [targets, SortedTable.get?, hr]
  | some cols =>
    simp only [List.mem_flatMap, Prod.exists, SortedMap.mem_toList, targets, SortedTable.get?, hr,
      Option.bind_some]
    constructor
    · rintro ⟨l, ds, hl, hd⟩
      exact ⟨l, by simpa [hl] using hd⟩
    · rintro ⟨l, hd⟩
      cases hl : cols.get? l with
      | none => simp [hl] at hd
      | some ds => exact ⟨l, ds, hl, by simpa [hl] using hd⟩

end Transitions

end RegularLanguages
