import Pseudocode.Proofs.Acceptance
import Pseudocode.Proofs.Derivation.Relocation
import Pseudocode.Proofs.Scanning

/-!
# The first diagnostic is exact

If a program text cannot be read, the first diagnostic points to the first token that is wrong: the
tokens before it begin a sentence of the grammar, and with it they do not. If it names the only
class of tokens that would do, a token of that class would have done.

## Main results

* `Scan.first_diagnostic_exact`: the first diagnostic of a text that cannot be read.
-/

namespace Pseudocode

open Pseudocode.Derivation

/-- A list of tokens with one end of input, at its end, is the stream that it makes. -/
theorem Stream.all_ofTokens {tokens : List Token} {l : Location}
    (h : ∀ t ∈ tokens, t.kind ≠ .endOfInput) :
    (ofTokens (tokens ++ [Token.endAt l])).all = tokens ++ [Token.endAt l] := by
  have hend (t : Token) (ht : t ∈ tokens) : t.isEnd = false := by
    simpa [Token.isEnd] using h t ht
  have hahead : (tokens ++ [Token.endAt l]).takeWhile (!·.isEnd) = tokens := by
    rw [List.takeWhile_append_of_pos fun t ht ↦ by rw [hend t ht]; rfl]
    exact List.append_nil tokens
  have hnone : tokens.find? (·.isEnd) = none :=
    List.find?_eq_none.2 fun t ht ↦ by rw [hend t ht]; exact Bool.noConfusion
  have hfind : (tokens ++ [Token.endAt l]).find? (·.isEnd) = some (Token.endAt l) := by
    rw [List.find?_append, hnone]
    rfl
  rw [all, close, ofTokens, closedBy, hfind, hahead]
  rfl

/-- Behind the tokens `w`, the next token of a stream is the one that follows them. -/
theorem Stream.take_all_push (rest : Stream) (w : List Token) :
    (rest.push w).all.take w.length = w ∧
      (rest.push w).all.take (w.length + 1) = w ++ [rest.peek] ∧
      (rest.push w).all[w.length]? = some rest.peek := by
  obtain ⟨more, hmore⟩ := List.head?_eq_some_iff.1 rest.head?_all
  have hall : (rest.push w).all = w ++ [rest.peek] ++ more := by
    rw [all_push, hmore, List.append_assoc]
    rfl
  refine ⟨?_, ?_, ?_⟩
  · rw [all_push, List.take_left]
  · rw [hall, List.take_left' (by rw [List.length_append]; rfl)]
  · rw [all_push, List.getElem?_append_right (Nat.le_refl _), Nat.sub_self, hmore]
    rfl

namespace Scan

/-- The stream of a text is its tokens. -/
theorem all_ofTokens (source : String) :
    (Stream.ofTokens (ofSource source).tokens).all = (ofSource source).tokens := by
  rw [tokens_ofSource]
  exact Stream.all_ofTokens (Cursor.drains_drain _).kind_ne_endOfInput

/-- No two tokens of a text start at the same place. -/
theorem index_unique {source : String} {i j : Nat} {t u : Token}
    (ht : (ofSource source).tokens[i]? = some t) (hu : (ofSource source).tokens[j]? = some u)
    (hstart : t.start = u.start) : i = j := by
  obtain ⟨hi, rfl⟩ := List.getElem?_eq_some_iff.1 ht
  obtain ⟨hj, rfl⟩ := List.getElem?_eq_some_iff.1 hu
  have hpairwise := List.pairwise_iff_getElem.1 (pairwise_start_ofSource source)
  rcases Nat.lt_trichotomy i j with hlt | heq | hlt
  · have hoffset := hpairwise i j hi hj hlt
    rw [hstart] at hoffset
    exact absurd hoffset (Nat.lt_irrefl _)
  · exact heq
  · have hoffset := hpairwise j i hj hi hlt
    rw [hstart] at hoffset
    exact absurd hoffset (Nat.lt_irrefl _)

/-- If a text cannot be read, its first diagnostic is located at one of its tokens. The tokens
before it begin a sentence, and with that token they do not; the diagnostic tells how the token is
written; and if it names the only class that would do, a token of this class may follow. -/
theorem first_diagnostic_exact (source : String) {failure : Failure}
    (hfail : (Reading.ofTokens (ofSource source).tokens).program.1 = .error failure) :
    let tokens := (ofSource source).tokens
    ∃ (first : SyntaxError) (others : List SyntaxError) (i : Nat) (token : Token),
      (Reading.ofTokens tokens).program.2.diagnostics = first :: others ∧
      tokens[i]? = some token ∧ token.span? = some first.span ∧
      (∀ j u, tokens[j]? = some u → u.start = first.span.start → j = i) ∧
      Viable ((tokens.take i).map (·.kind)) ∧
      ¬ Viable ((tokens.take (i + 1)).map (·.kind)) ∧
      first.found = token.kind.text ∧
      ∀ s, first.expectation.symbol? = some s → ∃ kind : Token.Kind, kind.category.text = s ∧
        Viable ((tokens.take i).map (·.kind) ++ [kind]) := by
  intro tokens
  rcases Reading.program_cases (ordered_ofSource source) with
    ⟨d, hd⟩ | ⟨w, rest, e, hw, hhead, hat, hblame⟩
  · have hok := (Reading.program_of_derivation (ordered_ofSource source) hd).1
    rw [hfail] at hok
    cases hok
  · obtain ⟨hbefore, hwith, hindex⟩ := rest.take_all_push w
    rw [← hw, all_ofTokens source] at hbefore hwith hindex
    obtain ⟨hstart, -⟩ := Span.between?_eq_some_iff.1 hat.1
    obtain ⟨others, hothers⟩ := List.head?_eq_some_iff.1 hhead
    refine ⟨e, others, w.length, rest.peek, hothers, hindex, hat.1, ?_, ?_, ?_, hat.2, ?_⟩
    · intro j u hu hstart'
      exact index_unique hu hindex (hstart'.trans hstart)
    · rw [hbefore]
      obtain ⟨ts, hts, hprefix⟩ := hblame.viable
      exact viable_of_prefix hts hprefix
    · rw [hwith]
      refine hblame.not_viable fun u hu ↦ ordered_ofSource source u ?_
      rw [← hwith] at hu
      exact List.mem_of_mem_take hu
    · intro s hs
      rw [hbefore]
      obtain ⟨c, hc, rfl⟩ : ∃ c, e.expectation = .token c ∧ c.text = s := by
        cases hwanted : e.expectation with
        | token c => exact ⟨c, rfl, by rw [hwanted] at hs; exact Option.some.inj hs⟩
        | instruction => rw [hwanted] at hs; cases hs
        | factor => rw [hwanted] at hs; cases hs
      obtain ⟨u, hu, ts, hts, hprefix⟩ := hblame.viable_wanted c hc
      refine ⟨u.kind, by rw [hu], ?_⟩
      have hviable := viable_of_prefix hts hprefix
      rwa [List.map_append] at hviable

/-- An assignment without a value. -/
theorem first_diagnostic_exact_assignment :
    let tokens := (ofSource "procedure principale () x = ; finproc").tokens
    ∃ (first : SyntaxError) (i : Nat) (token : Token),
      (Reading.ofTokens tokens).program.2.diagnostics.head? = some first ∧
      tokens[i]? = some token ∧ token.span? = some first.span ∧
      Viable ((tokens.take i).map (·.kind)) ∧ ¬ Viable ((tokens.take (i + 1)).map (·.kind)) := by
  have hfail : (Reading.ofTokens
      (ofSource "procedure principale () x = ; finproc").tokens).program.1 = .error (.syntactic
      { span := { start := ⟨28, 0, 28⟩, stop := ⟨29, 0, 29⟩, ordered := by decide }
        expectation := .factor
        found := ";" }) := by
    decide +kernel
  obtain ⟨first, others, i, token, hfirst, hi, hspan, -, hviable, hnot, -, -⟩ :=
    first_diagnostic_exact "procedure principale () x = ; finproc" hfail
  exact ⟨first, i, token, by rw [hfirst]; rfl, hi, hspan, hviable, hnot⟩

end Scan

end Pseudocode
