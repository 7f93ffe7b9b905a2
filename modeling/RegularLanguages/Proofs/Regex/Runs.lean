import Mathlib.Data.List.SplitBy
import RegularLanguages.Proofs.Regex.Normalize
/-!
# Runs of quantifiers

Normalizing leaves one quantifier of each run. In the grammar that is one phrase made from another
(`Phrase.collapsed`), and in the text it is done run by run (`collapseRuns`); the two agree
(`collapseRuns_text`). So what is left of a normal text without its marks is the expression with its runs
collapsed, and that is an expression which normalizes to the same text (`normalize_collapseRuns`).
-/

namespace RegularLanguages

namespace Quantifier

theorem char_injective {m n : Quantifier} (h : m.char = n.char) : m = n := by
  rw [← Option.some_inj, ← ofChar?_char m, h, ofChar?_char]

/-- A run leaves the quantifier that is repeated, or `*`. -/
theorem foldl_stack (m : Quantifier) (ms : List Quantifier) :
    ms.foldl stack m = if ∀ n ∈ ms, n = m then m else star := by
  induction ms generalizing m with
  | nil => rfl
  | cons n ms ih =>
    rw [List.foldl_cons, ih]
    by_cases h : m = n
    · subst h
      simp only [stack, if_true, List.forall_mem_cons, true_and]
    · have hno : ¬ ∀ k ∈ n :: ms, k = m := fun hall => h (hall n List.mem_cons_self).symm
      rw [stack, if_neg h, ite_self, if_neg hno]

theorem collapse_collapse (ms : List Quantifier) : collapse (collapse ms).toList = collapse ms := by
  cases ms <;> rfl

end Quantifier

namespace Regex

def isQuantifier (c : Char) : Bool := (Quantifier.ofChar? c).isSome

/-- A run of quantifiers as one: the one that is repeated, or `*` if there are different ones. Other text is
left as it is. -/
def collapseRun : List Char → List Char
  | [] => []
  | c :: cs => if isQuantifier c then [if cs.all (· = c) then c else '*'] else c :: cs

/-- The text with every run of quantifiers collapsed. -/
def collapseRuns (source : List Char) : List Char :=
  (source.splitBy fun c d => isQuantifier c && isQuantifier d).flatMap collapseRun

example : collapseRuns "a++(b?*)?|c".toList = "a+(b*)?|c".toList := by cbv

variable {u v : List Char} {x : Char}

theorem isQuantifier_char (m : Quantifier) : isQuantifier m.char = true := by
  rw [isQuantifier, m.ofChar?_char]
  rfl

theorem isQuantifier_symbol (s : Symbol) : isQuantifier s.char = false := by
  rw [isQuantifier, Quantifier.ofChar?_symbol]
  rfl

/-- Texts collapse apart where no run goes on from one to the other. -/
theorem collapseRuns_append
    (h : ∀ c ∈ u.getLast?, ∀ d ∈ v.head?, (isQuantifier c && isQuantifier d) = false) :
    collapseRuns (u ++ v) = collapseRuns u ++ collapseRuns v := by
  rw [collapseRuns, List.splitBy_append h, List.flatMap_append]
  rfl

theorem collapseRuns_append_cons (hx : isQuantifier x = false) :
    collapseRuns (u ++ x :: v) = collapseRuns u ++ collapseRuns (x :: v) := by
  refine collapseRuns_append fun c _ d hd => ?_
  obtain rfl : x = d := Option.some.inj hd
  rw [hx, Bool.and_false]

theorem collapseRuns_cons (hx : isQuantifier x = false) :
    collapseRuns (x :: v) = x :: collapseRuns v := by
  have happend : collapseRuns ([x] ++ v) = collapseRuns [x] ++ collapseRuns v := by
    refine collapseRuns_append fun c hc d _ => ?_
    obtain rfl : x = c := Option.some.inj hc
    rw [hx, Bool.false_and]
  have hrun : collapseRun [x] = [x] := if_neg (by simp [hx])
  rw [List.singleton_append] at happend
  rw [happend]
  show collapseRun [x] ++ [] ++ collapseRuns v = x :: collapseRuns v
  rw [hrun]
  rfl

theorem collapseRuns_quantifiers (ms : List Quantifier) :
    collapseRuns (ms.map Quantifier.char) = (Quantifier.collapse ms).toList.map Quantifier.char := by
  cases ms with
  | nil => rfl
  | cons m ms =>
    have hchain : ((m :: ms).map Quantifier.char).IsChain
        fun c d => (isQuantifier c && isQuantifier d) = true := by
      refine (List.isChain_map _).2 (List.Pairwise.isChain (List.pairwise_of_forall fun k n => ?_))
      rw [isQuantifier_char, isQuantifier_char, Bool.and_self]
    have hall : ((ms.map Quantifier.char).all (· = m.char)) = true ↔ ∀ n ∈ ms, n = m := by
      simp only [List.all_map, List.all_eq_true, Function.comp, decide_eq_true_eq]
      exact forall₂_congr fun n _ => ⟨Quantifier.char_injective, congrArg _⟩
    rw [collapseRuns, List.splitBy_of_isChain (by simp) hchain, List.flatMap_singleton, List.map_cons,
      collapseRun, if_pos (isQuantifier_char m), Quantifier.collapse, Quantifier.foldl_stack]
    simp only [hall]
    split <;> rfl

end Regex

namespace Phrase

open Regex

variable {c : Category}

/-- The phrase with every run of quantifiers collapsed. -/
def collapsed : {c : Category} → Phrase c → Phrase c
  | _, symbol s => symbol s
  | _, group e => group e.collapsed
  | _, factor a ms => factor a.collapsed (Quantifier.collapse ms).toList
  | _, single f => single f.collapsed
  | _, juxtapose f t => juxtapose f.collapsed t.collapsed
  | _, lone t => lone t.collapsed
  | _, union t e => union t.collapsed e.collapsed

theorem exists_head_text (p : Phrase c) : ∃ x v, p.text = x :: v ∧ isQuantifier x = false := by
  induction p with
  | symbol s => exact ⟨s.char, [], rfl, isQuantifier_symbol s⟩
  | group e _ => exact ⟨'(', e.text ++ [')'], rfl, rfl⟩
  | factor a ms ih =>
    obtain ⟨x, v, hx, hq⟩ := ih
    exact ⟨x, v ++ ms.map Quantifier.char, by rw [text, hx, List.cons_append], hq⟩
  | single f ih => exact ih
  | juxtapose f t ih _ =>
    obtain ⟨x, v, hx, hq⟩ := ih
    exact ⟨x, v ++ t.text, by rw [text, hx, List.cons_append], hq⟩
  | lone t ih => exact ih
  | union t e ih _ =>
    obtain ⟨x, v, hx, hq⟩ := ih
    exact ⟨x, v ++ '|' :: e.text, by rw [text, hx, List.cons_append], hq⟩

/-- No run of quantifiers begins before the end of an atom. -/
theorem isQuantifier_getLast_atom (a : Phrase .atom) : ∀ x ∈ a.text.getLast?, isQuantifier x = false := by
  intro x hx
  cases a with
  | symbol s =>
    obtain rfl : s.char = x := Option.some.inj hx
    exact isQuantifier_symbol s
  | group e =>
    rw [text, ← List.cons_append, List.getLast?_concat] at hx
    obtain rfl : ')' = x := Option.some.inj hx
    rfl

theorem collapseRuns_text (p : Phrase c) : collapseRuns p.text = p.collapsed.text := by
  induction p with
  | symbol s => exact collapseRuns_cons (isQuantifier_symbol s)
  | group e ih =>
    rw [text, collapseRuns_cons rfl, collapseRuns_append_cons rfl, ih]
    rfl
  | factor a ms ih =>
    have hends : ∀ x ∈ a.text.getLast?, ∀ y ∈ (ms.map Quantifier.char).head?,
        (isQuantifier x && isQuantifier y) = false := fun x hx y _ => by
      rw [a.isQuantifier_getLast_atom x hx, Bool.false_and]
    rw [text, collapseRuns_append hends, ih, collapseRuns_quantifiers]
    rfl
  | single f ih => exact ih
  | juxtapose f t ihf iht =>
    obtain ⟨x, v, hx, hq⟩ := t.exists_head_text
    rw [text, hx, collapseRuns_append_cons hq, ← hx, ihf, iht]
    rfl
  | lone t ih => exact ih
  | union t e iht ihe =>
    rw [text, collapseRuns_append_cons rfl, collapseRuns_cons rfl, iht, ihe]
    rfl

theorem normal_collapsed (p : Phrase c) : p.collapsed.normal = p.normal := by
  induction p with
  | symbol s => rfl
  | group e ih => rw [collapsed, normal, normal, ih]
  | factor a ms ih => rw [collapsed, normal, normal, ih, Quantifier.collapse_collapse]
  | single f ih => exact ih
  | juxtapose f t ihf iht => rw [collapsed, normal, normal, ihf, iht]
  | lone t ih => exact ih
  | union t e iht ihe => rw [collapsed, normal, normal, iht, ihe]

/-- Without its marks a normal text is what is left of the phrase with its runs collapsed. -/
theorem filter_normal (p : Phrase c) :
    p.normal.filter (· ≠ Connective.concat.char) = p.collapsed.text := by
  induction p with
  | symbol s =>
    have hs : s.char ≠ Connective.concat.char := s.char_ne rfl
    exact List.filter_cons_of_pos (by simpa using hs)
  | group e ih =>
    rw [normal, collapsed, text, List.filter_cons_of_pos (by decide), List.filter_append, ih]
    rfl
  | factor a ms ih =>
    rw [normal, collapsed, text, List.filter_append, ih]
    cases Quantifier.collapse ms with
    | none => rfl
    | some m => cases m <;> rfl
  | single f ih => exact ih
  | juxtapose f t ihf iht =>
    rw [normal, collapsed, text, List.filter_append, ihf, List.filter_cons_of_neg (by decide), iht]
  | lone t ih => exact ih
  | union t e iht ihe =>
    rw [normal, collapsed, text, List.filter_append, iht, List.filter_cons_of_pos (by decide), ihe]

end Phrase

namespace Regex

/-- A normal text without its marks is the expression with every run of quantifiers collapsed. That is an
expression too, and normalizes to the same text. -/
theorem normalize_collapseRuns {source : List Char} (h : IsExpression source) :
    ∃ out, normalize source = .ok out ∧
      out.filter (· ≠ Connective.concat.char) = collapseRuns source ∧
      IsExpression (collapseRuns source) ∧ normalize (collapseRuns source) = .ok out := by
  rcases h with rfl | ⟨e, rfl⟩
  · exact ⟨[], rfl, rfl, .inl rfl, rfl⟩
  · have htext := e.collapseRuns_text
    refine ⟨e.normal, Scan.normalize_text e, by rw [htext, e.filter_normal], ?_, ?_⟩
    · exact .inr ⟨e.collapsed, htext.symm⟩
    · rw [htext, Scan.normalize_text, e.normal_collapsed]

/-- Runs after a group, a symbol and a quantified group, with different quantifiers and with one. -/
theorem normalize_collapseRuns_stacked :
    IsExpression "(a|b)++*?(c??d+)??".toList ∧
      normalize "(a|b)++*?(c??d+)??".toList = .ok "(a|b)*.(c?.d+)?".toList ∧
      collapseRuns "(a|b)++*?(c??d+)??".toList = "(a|b)*(c?d+)?".toList ∧
      IsExpression "(a|b)*(c?d+)?".toList ∧
      normalize "(a|b)*(c?d+)?".toList = .ok "(a|b)*.(c?.d+)?".toList := by
  have hnormal : normalize "(a|b)++*?(c??d+)??".toList = .ok "(a|b)*.(c?.d+)?".toList := by rfl
  have hexpr := normalize_isOk_iff.1 ⟨_, hnormal⟩
  obtain ⟨out, hout, hruns, hexpr', hagain⟩ := normalize_collapseRuns hexpr
  obtain rfl := Except.ok.inj (hnormal.symm.trans hout)
  have hfilter : "(a|b)*.(c?.d+)?".toList.filter (· ≠ Connective.concat.char) =
      "(a|b)*(c?d+)?".toList := by rfl
  rw [hfilter] at hruns
  rw [← hruns] at hexpr' hagain
  exact ⟨hexpr, hnormal, hruns.symm, hexpr', hagain⟩

end Regex

end RegularLanguages
