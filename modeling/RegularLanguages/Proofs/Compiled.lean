import RegularLanguages.Proofs.Automaton.Compact
import RegularLanguages.Proofs.Discovery
import RegularLanguages.Proofs.Recognizer
import RegularLanguages.Proofs.SyntaxTree.Continuations
/-!
# Compiled automata

The automaton that an expression compiles to has the symbols of the expression for its alphabet and the
compositions that reading reaches for its states, in the order in which they are found. It is
deterministic and trim, so neither dropping unreachable states nor dropping dead ones changes it.
-/

namespace RegularLanguages

theorem Phrase.mem_symbols_regex {c : Category} (p : Phrase c) {x : Symbol} :
    x ∈ p.regex.symbols ↔ x.char ∈ p.text := by
  have hx {k : Char} (hk : Symbol.isValid k = false) : x.char ≠ k := x.char_ne hk
  induction p with
  | symbol y =>
    rw [regex, Regex.symbols, text, List.mem_singleton, List.mem_singleton]
    exact ⟨congrArg Symbol.char, Symbol.char_injective⟩
  | group e ih => simp [regex, text, ih, hx (k := '(') rfl, hx (k := ')') rfl]
  | factor a ms ih =>
    have hms : x.char ∉ ms.map Quantifier.char := by
      simp only [List.mem_map, not_exists, not_and]
      intro m _ hm
      exact hx (by cases m <;> rfl) hm.symm
    rw [text, List.mem_append, or_iff_left hms, regex]
    cases Quantifier.collapse ms with
    | none => exact ih
    | some m => exact ih
  | single f ih => exact ih
  | juxtapose f t ihf iht => simp [regex, text, Regex.symbols, ihf, iht]
  | lone t ih => exact ih
  | union t e iht ihe => simp [regex, text, Regex.symbols, iht, ihe, hx (k := '|') rfl]

namespace SyntaxTree

theorem text_name_toAutomaton (t : SyntaxTree) {i : State} {c : Composition}
    (h : t.compositions.reachable[i]? = some c) :
    (t.toAutomaton.name i).text = "q" ++ toString i := by
  rw [toAutomaton, MoveSystem.name_toAutomaton _ _ h, StateName.text_numbered]

theorem wellFormed_toAutomaton (t : SyntaxTree) : t.toAutomaton.WellFormed :=
  MoveSystem.wellFormed_toAutomaton _ _

theorem compact_toAutomaton (t : SyntaxTree) : t.toAutomaton.transitions.Compact :=
  .ofEdges _

theorem livePart_toAutomaton (e : Option Regex) :
    (ofRegex e).toAutomaton.livePart = (ofRegex e).toAutomaton :=
  (trim_toAutomaton e).livePart_eq (wellFormed_toAutomaton _) (compact_toAutomaton _)

theorem reachablePart_toAutomaton (e : Option Regex) :
    (ofRegex e).toAutomaton.reachablePart = .ok (ofRegex e).toAutomaton :=
  (trim_toAutomaton e).reachablePart_eq (wellFormed_toAutomaton _) (compact_toAutomaton _) rfl

end SyntaxTree

namespace Recognizer

variable {source : String} {r : Recognizer}

/-- What a text compiles to is the automaton of a tree with the symbols of the text. -/
theorem exists_ofRegex_of_compile (h : compile source = .ok r) :
    ∃ e, r.tree = .ofRegex e ∧ r.automaton = (SyntaxTree.ofRegex e).toAutomaton ∧
      ∀ x, x ∈ (SyntaxTree.ofRegex e).alphabet ↔ x.char ∈ source.toList := by
  rcases compile_isOk_iff.1 ⟨r, h⟩ with hs | ⟨e, hs⟩
  · have hn : Regex.normalize source.toList = .ok [] := by rw [hs]; rfl
    obtain rfl := Except.ok.inj (h.symm.trans (compile_eq hn SyntaxTree.ofNormalized_nil))
    refine ⟨none, rfl, rfl, fun x => ?_⟩
    rw [hs]
    exact iff_of_false SyntaxTree.not_mem_alphabet_none List.not_mem_nil
  · have hn := Regex.Scan.normalize_text e
    rw [hs] at hn
    obtain rfl := Except.ok.inj (h.symm.trans (compile_eq hn (SyntaxTree.ofNormalized_normal e)))
    refine ⟨some e.regex, rfl, rfl, fun x => ?_⟩
    rw [SyntaxTree.mem_alphabet_ofRegex, e.mem_symbols_regex, hs]

/-- A compiled automaton reads the symbols of its expression deterministically, its states are the
compositions that reading reaches, and no state is dropped as unreachable or dead. -/
theorem compile_trim (h : compile source = .ok r) :
    r.automaton.isDeterministic = true ∧ r.automaton.hasEpsilon = false ∧
    (∀ x, x ∈ r.automaton.alphabet ↔ x.char ∈ source.toList) ∧
    (∃ comps, r.tree.compositions.Unfolds comps r.automaton ∧
      ∀ i c, comps[i]? = some c → (r.automaton.name i).text = "q" ++ toString i ∧
        (i ∈ r.automaton.finals ↔ SyntaxTree.root ∈ c)) ∧
    r.automaton.Trim ∧ r.automaton.reachablePart = .ok r.automaton ∧
    r.automaton.livePart = r.automaton := by
  obtain ⟨e, htree, haut, halph⟩ := exists_ofRegex_of_compile h
  rw [htree, haut]
  have hfun := (SyntaxTree.ofRegex e).compositions.functional_toAutomaton fun i _ => .numbered i
  have hunfolds :=
    (SyntaxTree.ofRegex e).compositions.unfolds_toAutomaton fun i _ => .numbered i
  refine ⟨hfun.isDeterministic, hfun.hasEpsilon (SyntaxTree.compact_toAutomaton _).populated, halph,
    ⟨_, hunfolds, fun i c hc => ⟨SyntaxTree.text_name_toAutomaton _ hc, ?_⟩⟩,
    SyntaxTree.trim_toAutomaton e, SyntaxTree.reachablePart_toAutomaton e,
    SyntaxTree.livePart_toAutomaton e⟩
  exact (hunfolds.final_iff hc).trans decide_eq_true_iff

theorem compile_trim_loop :
    ∃ r, compile "a*b" = .ok r ∧ r.automaton.isDeterministic = true ∧
      (∀ x, x ∈ r.automaton.alphabet ↔ x.char = 'a' ∨ x.char = 'b') ∧ r.automaton.Trim ∧
      r.automaton.livePart = r.automaton := by
  have hs : IsExpression "a*b".toList :=
    .inr ⟨.lone (.juxtapose (.factor (.symbol ⟨'a', rfl⟩) [.star])
      (.single (.factor (.symbol ⟨'b', rfl⟩) []))), rfl⟩
  obtain ⟨r, hr⟩ := compile_isOk_iff.2 hs
  obtain ⟨hdet, -, halph, -, htrim, -, hlive⟩ := compile_trim hr
  have htext : "a*b".toList = ['a', '*', 'b'] := rfl
  refine ⟨r, hr, hdet, fun x => ?_, htrim, hlive⟩
  rw [halph, htext]
  simp [x.char_ne (c := '*') rfl]

end Recognizer

end RegularLanguages
