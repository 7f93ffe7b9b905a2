import RegularLanguages.Automaton.Reachable
/-!
# Listing the accepted words

The accepted words, shortest first, words of one length in the order of their symbols. The listing
goes level by level: a level holds the words of one length that some accepted word extends, each
with the live states that it leads to.
-/

namespace RegularLanguages

/-- A word, and the live states that reading it leads to. -/
abbrev Automaton.Level := List (SortedSet State × List Symbol)

/-- A listing in progress: the current level, and what of its words is still to be given out. -/
structure Automaton.Listing where
  level : Automaton.Level
  words : List (List Symbol)

namespace Automaton

variable (A : Automaton)

/-- The words of a level that are accepted. -/
def acceptedWords (level : Level) : List (List Symbol) :=
  level.filterMap fun (s, w) => if A.meetsFinal s then some w else none

/-- The live states of `s` beside the word `w`, unless there are none. -/
def levelItem (live s : SortedSet State) (w : List Symbol) : Level :=
  let s := s.filter (· ∈ live)
  if s.isEmpty then [] else [(s, w)]

def firstLevel : Level :=
  match A.initial with
  | some q => levelItem A.live (A.closure (.singleton q)) []
  | none => []

def nextLevel (level : Level) : Level :=
  let live := A.live
  level.flatMap fun (s, w) =>
    A.alphabet.toList.flatMap fun x => levelItem live (A.step s x) (w ++ [x])

def listing : Listing := ⟨A.firstLevel, A.acceptedWords A.firstLevel⟩

/-- Takes the next word, going on to at most `levels` further levels. -/
def nextWordWithin : Nat → Listing → Option (List Symbol × Listing)
  | _, ⟨level, w :: words⟩ => some (w, ⟨level, words⟩)
  | _, ⟨[], []⟩ => none
  | 0, ⟨_ :: _, []⟩ => none
  | levels + 1, ⟨level, []⟩ =>
    let level := A.nextLevel level
    nextWordWithin levels ⟨level, A.acceptedWords level⟩

/-- Takes the next word, if there is one. A live state reaches a final one by fewer symbols than
there are states, so there are never more levels than states before the next word. -/
def nextWord (l : Listing) : Option (List Symbol × Listing) := A.nextWordWithin A.size l

def takeWords : Nat → Listing → List (List Symbol)
  | 0, _ => []
  | n + 1, l =>
    match A.nextWord l with
    | some (w, l) => w :: takeWords n l
    | none => []

def wordText (w : List Symbol) : String := String.ofList (w.map Symbol.char)

def firstWords (n : Nat) : List String := (A.takeWords n A.listing).map wordText

end Automaton

end RegularLanguages
