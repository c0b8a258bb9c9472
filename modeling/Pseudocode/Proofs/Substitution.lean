import Pseudocode.Proofs.Calculation
import Pseudocode.Proofs.Derivation.Substitution

/-!
# Writing values in the place of variables

A value may be written in the text of an expression wherever its variable stands. The spaces around
the value keep it apart from the tokens before and behind, and what lies between the other tokens is
left as it is, so all other tokens stay the same. In the grammar the value may stand where the
variable stood. So the text is an expression again, and it has the value that it had before. Only
the smallest integer cannot be written, since its digits are too large without their sign.

## Main definitions

* `Scan.substitute`: a text with another text in the place of each token of a variable.
* `Scan.spaced`: how a value is written in the place of a variable.
* `Cursor.Substituted`: the lexemes of a text with a value in the place of a variable.

## Main results

* `Cursor.Drains.exists_substituted`: the rest of a text is left alone but for the variable.
* `Scan.values_may_be_written`: an expression with a value in the place of a variable, and the
  decimal text of a value alone.
-/

namespace Pseudocode

open Token (Kind)

/-! ### Texts with a value in the place of a variable -/

/-- The bytes of the text from `start` up to `stop`, if they are a piece of it. -/
def Text.piece (source : String) (start stop : Nat) : String :=
  (slice? source start stop).getD ""

namespace Scan

/-- The text from the byte `start` on, with `text` in the place of each of the tokens that is the
variable `x`. Everything else stays as it is. -/
def substituteFrom (source x text : String) (start : Nat) : List Token → String
  | [] => Text.piece source start source.utf8ByteSize
  | t :: ts =>
    Text.piece source start t.start.offset ++
      ((if t.kind = .var x then text else Text.piece source t.start.offset t.stop.offset) ++
        substituteFrom source x text t.stop.offset ts)

/-- The text with `text` in the place of each token that is the variable `x`. -/
def substitute (source x text : String) : String :=
  substituteFrom source x text 0 (ofSource source).tokens

/-- The decimal text of a value between two spaces. -/
def spaced (v : Int64) : String :=
  " " ++ (Decimal.ofInt64 v ++ " ")

/-- The tokens of a text before the end of input. -/
theorem takeWhile_tokens (source : String) : (ofSource source).tokens.takeWhile (!·.isEnd) =
    (Cursor.ofSource source).drain.map (·.token) := by
  have hkinds := (Cursor.drains_drain (Cursor.ofSource source)).kind_ne_endOfInput
  rw [tokens_ofSource, List.takeWhile_append_of_pos, List.takeWhile_cons_of_neg (by simp),
    List.append_nil]
  intro t ht
  simpa [Token.isEnd] using hkinds t ht

end Scan

/-! ### Its lexemes -/

namespace Cursor

open Text (IsGap Lexes)

variable {x : String} {v : Int64} {c d : Cursor} {xs : List Scanned} {text : List Char}
  {lexemes : List Lexeme}

/-- The text `text`, that is made of these lexemes, is what the cursor has ahead, with the tokens
`xs` in it, but for the value `v` between two spaces in the place of the variable `x`. -/
structure Substituted (x : String) (v : Int64) (c : Cursor) (xs : List Scanned) (text : List Char)
    (lexemes : List Lexeme) : Prop where
  /-- The lexemes of the text. -/
  lexes : Lexes text lexemes
  /-- The text begins as before, or with a space. -/
  head : text.head? = c.rest.head? ∨ ∀ e ∈ text.head?, e = ' '
  /-- The kinds are the same but for the variable. -/
  kinds : lexemes.map (·.kind) = xs.flatMap fun y ↦ y.token.kind.withValue x v
  /-- All flaws are those of the value. -/
  flaws : lexemes.filterMap (·.flaw) = xs.flatMap fun y ↦
    if y.token.kind = .var x then (Lexeme.numeral v).filterMap (·.flaw) else []

namespace Substituted

/-- Where only a gap is left, nothing changes. -/
theorem done (h : IsGap True c.rest) : Substituted x v c [] c.rest [] :=
  ⟨.done h, .inl rfl, rfl, rfl⟩

/-- A gap before the text stays as it is. -/
theorem gap {gap : List Char} (hgap : IsGap False gap) (hwalks : c.Walks gap d)
    (h : Substituted x v d xs text lexemes) : Substituted x v c xs (gap ++ text) lexemes := by
  refine ⟨.gap hgap h.lexes, ?_, h.kinds, h.flaws⟩
  rw [hwalks.1]
  cases gap with
  | nil => exact h.head
  | cons e gap => exact .inl rfl

/-- The value in the place of the variable. -/
theorem value {y : Scanned} (hy : y.token.kind = .var x)
    (h : Substituted x v d xs text lexemes) :
    Substituted x v c (y :: xs) ((Scan.spaced v).toList ++ text)
      (Lexeme.numeral v ++ lexemes) := by
  have hstop : ∀ e ∈ ([' '] ++ text).head?, e = ' ' := fun e he ↦ (Option.some.inj he).symm
  have hnumeral := (h.lexes.gap .space).numeral v hstop
  refine ⟨?_, .inr fun e he ↦ ?_, ?_, ?_⟩
  · rw [Scan.spaced, String.toList_append, String.toList_append, List.append_assoc,
      List.append_assoc]
    exact hnumeral.gap .space
  · rw [Scan.spaced, String.toList_append] at he
    exact (Option.some.inj he).symm
  · rw [List.map_append, h.kinds, List.flatMap_cons, Kind.withValue, if_pos hy]
  · rw [List.filterMap_append, h.flaws, List.flatMap_cons, if_pos hy]

/-- Another token stays what it is. -/
theorem keep {head : Char} {tail : List Char} (hrest : c.rest = head :: tail)
    (hblank : Text.isBlank head = false) (hhash : head ≠ '#')
    (hflaw : (Lexeme.ofHead head tail).flaw = none)
    (hne : (c.place (Lexeme.ofHead head tail)).token.kind ≠ .var x)
    (hwalks : c.Walks (Lexeme.ofHead head tail).text d)
    (h : Substituted x v d xs text lexemes) :
    Substituted x v c (c.place (Lexeme.ofHead head tail) :: xs)
      ((Lexeme.ofHead head tail).text ++ text) (Lexeme.ofHead head tail :: lexemes) := by
  have hsplit : head :: tail = (Lexeme.ofHead head tail).text ++ d.rest := hrest ▸ hwalks.1
  have hends : (Lexeme.ofHead head tail).EndsBefore text := by
    rcases h.head with hhead | hspace
    · exact (Lexeme.endsBefore_ofHead hsplit).of_head? hhead
    · exact Lexeme.endsBefore_of_space hflaw hspace
  refine ⟨h.lexes.before hblank hhash hsplit hends, .inl ?_, ?_, ?_⟩
  · rw [hwalks.1]
    obtain ⟨e, es, htext⟩ := List.exists_cons_of_ne_nil (Lexeme.ofHead_text_ne_nil head tail)
    rw [htext]
    rfl
  · have hkinds : (c.place (Lexeme.ofHead head tail)).token.kind.withValue x v =
        [(Lexeme.ofHead head tail).kind] := if_neg hne
    rw [List.map_cons, h.kinds, List.flatMap_cons, hkinds]
    rfl
  · rw [List.filterMap_cons_none hflaw, h.flaws, List.flatMap_cons, if_neg hne, List.nil_append]

end Substituted

variable {source : String} {before : List Char}

theorem Walks.piece_eq (hc : (ofSource source).Walks before c) (h : c.Walks text d) :
    Text.piece source c.location.offset d.location.offset = String.ofList text := by
  rw [Text.piece, hc.slice?_eq h]
  rfl

/-- From a cursor on, a text without flaws is left alone but for the variable. -/
theorem Drains.exists_substituted (h : c.Drains xs) (hc : (ofSource source).Walks before c)
    (hflaws : ∀ y ∈ xs, y.error? = none) :
    ∃ lexemes, Substituted x v c xs (Scan.substituteFrom source x (Scan.spaced v)
      c.location.offset (xs.map (·.token) ++ [Token.endAt c.finish.location])).toList lexemes := by
  induction h generalizing before with
  | @done c hnext =>
    have hend : (Token.endAt c.finish.location).kind ≠ .var x := fun h ↦ nomatch h
    have hfinish := (hc.trans c.walks_finish)
    have hpiece : Text.piece source c.finish.location.offset c.finish.location.offset = "" :=
      hfinish.piece_eq ⟨rfl, rfl⟩
    refine ⟨[], ?_⟩
    rw [List.map_nil, List.nil_append, Scan.substituteFrom, if_neg hend, Scan.substituteFrom]
    change Substituted x v c [] (Text.piece source _ c.finish.location.offset ++
      (Text.piece source c.finish.location.offset c.finish.location.offset ++
        Text.piece source c.finish.location.offset source.utf8ByteSize)).toList []
    rw [← hc.offset_finish, hpiece, hc.piece_eq c.walks_finish, String.empty_append,
      String.append_empty, String.toList_ofList]
    exact .done (isGap_of_next?_eq_none hnext)
  | @step c d y xs hnext _ ih =>
    obtain ⟨gap, head, tail, hgap, hisGap, hrest, hblank, hhash, rfl, hd⟩ :=
      exists_of_next?_eq_some hnext
    obtain ⟨hflaw, hflaws⟩ := List.forall_mem_cons.1 hflaws
    obtain ⟨lexemes, hlexemes⟩ := ih ((hc.trans hgap).trans hd) hflaws
    rw [(hgap.trans hd).finish_eq] at hlexemes
    have hspace : Text.piece source c.location.offset
        (c.skipGap.place (Lexeme.ofHead head tail)).token.start.offset = String.ofList gap :=
      hc.piece_eq hgap
    have hword : Text.piece source
        (c.skipGap.place (Lexeme.ofHead head tail)).token.start.offset d.location.offset =
          String.ofList (Lexeme.ofHead head tail).text := (hc.trans hgap).piece_eq hd
    rw [List.map_cons, List.cons_append, Scan.substituteFrom, hd.stop_place, hspace,
      String.toList_append, String.toList_append, String.toList_ofList]
    by_cases hy : (c.skipGap.place (Lexeme.ofHead head tail)).token.kind = .var x
    · rw [if_pos hy]
      exact ⟨_, (hlexemes.value hy).gap hisGap hgap⟩
    · have hflaw' : (Lexeme.ofHead head tail).flaw = none := Option.map_eq_none_iff.1 hflaw
      rw [if_neg hy, hword, String.toList_ofList]
      exact ⟨_, (hlexemes.keep hrest hblank hhash hflaw' hy hd).gap hisGap hgap⟩

end Cursor

/-! ### Meaning -/

/-- The tokens of a text that is made of lexemes, before the end of input. -/
theorem Text.Lexes.kinds_takeWhile {source : String} {lexemes : List Lexeme}
    (h : Lexes source.toList lexemes) :
    ((Scan.ofSource source).tokens.takeWhile (!·.isEnd)).map (·.kind) =
      lexemes.map (·.kind) := by
  have hkinds := h.kinds_eq
  rw [Scan.tokens_ofSource, List.map_append] at hkinds
  rw [Scan.takeWhile_tokens]
  exact List.append_inj_left' hkinds rfl

/-- One item for each element that satisfies `p`. -/
theorem flatMap_ite_singleton {α β : Type} (p : α → Prop) [DecidablePred p] (b : β)
    (l : List α) : (l.flatMap fun a ↦ if p a then [b] else []) = List.replicate (l.countP p) b := by
  induction l with
  | nil => rfl
  | cons a l ih =>
    rw [List.flatMap_cons, ih, List.countP_cons]
    by_cases ha : p a <;> simp [ha, List.replicate_succ]

namespace Scan

open Reference Pseudocode.Derivation

variable {source x : String} {v : Int64}

/-- The end of input is no variable. -/
theorem countP_tokens (source x : String) : (ofSource source).tokens.countP (·.kind = .var x) =
    (Cursor.ofSource source).drain.countP (·.token.kind = .var x) := by
  rw [tokens_ofSource, List.countP_append, List.countP_map, List.countP_singleton]
  rfl

/-- The lexemes of a text without errors, with a value in the place of a variable. -/
theorem exists_lexes_substitute (hscan : (ofSource source).errors = []) (x : String) (v : Int64) :
    ∃ lexemes, Text.Lexes (substitute source x (spaced v)).toList lexemes ∧
      lexemes.map (·.kind) = ((ofSource source).tokens.takeWhile (!·.isEnd)).flatMap
        (fun t ↦ t.kind.withValue x v) ∧
      lexemes.filterMap (·.flaw) = if v = Int64.minValue then
        List.replicate ((ofSource source).tokens.countP (·.kind = .var x)) .invalidNumber
        else [] := by
  rw [errors_ofSource] at hscan
  obtain ⟨lexemes, h⟩ := (Cursor.drains_drain (Cursor.ofSource source)).exists_substituted
    (Cursor.walks_ofSource source) (List.filterMap_eq_nil_iff.1 hscan)
  refine ⟨lexemes, ?_, ?_, ?_⟩
  · rw [substitute, tokens_ofSource]
    exact h.lexes
  · rw [takeWhile_tokens, List.flatMap_map]
    exact h.kinds
  · rw [h.flaws, Lexeme.flaws_numeral, countP_tokens]
    split
    · exact flatMap_ite_singleton _ _ _
    · simp

/-- The tokens of an expression with a value in the place of a variable. -/
theorem substitutes_substitute (hscan : (ofSource source).errors = []) (x : String) (v : Int64) :
    Substitutes x v ((ofSource (substitute source x (spaced v))).tokens.takeWhile (!·.isEnd))
      ((ofSource source).tokens.takeWhile (!·.isEnd)) := by
  obtain ⟨lexemes, hlexes, hkinds, -⟩ := exists_lexes_substitute hscan x v
  refine ⟨hlexes.kinds_takeWhile.trans hkinds, fun t ht ↦ ?_⟩
  exact ordered_ofSource _ t ((List.takeWhile_sublist _).mem ht)

/-- What is wrong with a text with a value in the place of a variable. -/
theorem flaws_substitute (hscan : (ofSource source).errors = []) (x : String) (v : Int64) :
    (ofSource (substitute source x (spaced v))).errors.map (·.flaw) = if v = Int64.minValue then
      List.replicate ((ofSource source).tokens.countP (·.kind = .var x)) .invalidNumber
      else [] := by
  obtain ⟨lexemes, hlexes, -, hflaws⟩ := exists_lexes_substitute hscan x v
  rw [hlexes.flaws_eq, hflaws]

theorem lexes_ofInt64 (v : Int64) :
    Text.Lexes (Decimal.ofInt64 v).toList (Lexeme.numeral v) := by
  have hend : ∀ e ∈ ([] : List Char).head?, e = ' ' := fun e he ↦ nomatch he
  have hlexes := Text.Lexes.numeral v hend (.done .nil)
  rwa [List.append_nil, List.append_nil] at hlexes

/-- The decimal text of a value is an expression with this value. -/
theorem calculates_ofInt64 (hv : v ≠ Int64.minValue) (env : Env) :
    Calculates (Decimal.ofInt64 v) env (.ok v) := by
  have hlexes := lexes_ofInt64 v
  have hscan : (ofSource (Decimal.ofInt64 v)).errors = [] := by
    rw [← List.map_eq_nil_iff, hlexes.flaws_eq, Lexeme.flaws_numeral, if_neg hv]
  obtain ⟨d, hd, hdenote⟩ := Factor.exists_numeral hlexes.kinds_takeWhile fun t ht ↦
    ordered_ofSource _ t ((List.takeWhile_sublist _).mem ht)
  have hexpression := calculates_of_derivation hscan (d := .chain d [])
    ((List.append_nil _).trans hd) env
  rwa [Expression.denote, hdenote] at hexpression

/-- Values may be written in the place of variables. If a text is nothing but an expression, it has
a value in every environment, or divides by zero. With the decimal text of the value of a variable
in the place of each of its tokens, between spaces, it is an expression again. Whatever the value of
the variable is now, it has the same value, or divides by zero as before. Only the smallest integer
cannot be written: then each of these tokens becomes a number that is too large. The decimal text of
every other integer is an expression with the value of this integer. -/
theorem values_may_be_written :
    (∀ (source : String) (tree : Tree Symbol), Expresses source tree →
      ∀ (env : Env) (x : String),
      let written := substitute source x (spaced (env x))
      ∃ answer, Calculates source env answer ∧
        (env x ≠ Int64.minValue → ∀ env' : Env, (∀ y, y ≠ x → env' y = env y) →
          ∃ answer', Calculates written env' answer' ∧ answer'.toOption = answer.toOption) ∧
        (env x = Int64.minValue → (ofSource written).errors.map (·.flaw) =
          List.replicate ((ofSource source).tokens.countP (·.kind = .var x)) .invalidNumber)) ∧
    ∀ (v : Int64) (env : Env), (v ≠ Int64.minValue → Calculates (Decimal.ofInt64 v) env (.ok v)) ∧
      (v = Int64.minValue → (ofSource (Decimal.ofInt64 v)).errors.map (·.flaw) =
        [.invalidNumber]) := by
  refine ⟨fun source tree h env x ↦ ?_, fun v env ↦ ⟨fun hv ↦ calculates_ofInt64 hv env, ?_⟩⟩
  · intro written
    obtain ⟨hscan, d, hd, rfl⟩ := expresses_iff.1 h
    have hflaws := flaws_substitute hscan x (env x)
    refine ⟨d.denote env, calculates_of_derivation hscan hd env, fun hv env' hothers ↦ ?_,
      fun hv ↦ ?_⟩
    · rw [if_neg hv, List.map_eq_nil_iff] at hflaws
      have htokens := substitutes_substitute hscan x (env x)
      rw [← hd] at htokens
      obtain ⟨d', hd', hdenote⟩ := d.exists_substituted ⟨rfl, hothers⟩ _ htokens
      exact ⟨d'.denote env', calculates_of_derivation hflaws hd' env', hdenote⟩
    · rw [if_pos hv] at hflaws
      exact hflaws
  · intro hv
    rw [(lexes_ofInt64 v).flaws_eq, Lexeme.flaws_numeral, if_pos hv]

/-- A minus sign, and behind it a variable with a negative value, which has its name in a comment
too. The other variable has the smallest integer for its value, which cannot be written. -/
theorem values_may_be_written_negative :
    let env : Env := fun y ↦ if y = "x" then -7 else Int64.minValue
    substitute "y-x#x" "x" (spaced (env "x")) = "y- -7 #x" ∧
    Calculates "y-x#x" env (.ok (Int64.minValue + 7)) ∧
    Calculates (substitute "y-x#x" "x" (spaced (env "x"))) env (.ok (Int64.minValue + 7)) ∧
    (ofSource (substitute "y-x#x" "y" (spaced (env "y")))).errors.map (·.flaw) =
      [.invalidNumber] ∧
    Calculates (Decimal.ofInt64 (-7)) env (.ok (-7)) ∧
    (ofSource (Decimal.ofInt64 Int64.minValue)).errors.map (·.flaw) = [.invalidNumber] := by
  intro env
  let tree : Tree Symbol := .binary .subtract ⟨⟨1, 0, 1⟩, ⟨2, 0, 2⟩, by decide⟩
    (.cell (.var "y")) (.cell (.var "x"))
  have hexpresses : Expresses "y-x#x" tree :=
    ⟨by decide +kernel, by decide +kernel, by decide +kernel⟩
  obtain ⟨hexpressions, hvalues⟩ := values_may_be_written
  obtain ⟨answer, hanswer, hwritten, -⟩ := hexpressions _ tree hexpresses env "x"
  obtain ⟨answer', hanswer', hsame⟩ := hwritten (by decide) env fun _ _ ↦ rfl
  obtain ⟨-, -, -, hsmallest⟩ := hexpressions _ tree hexpresses env "y"
  have hrun : (((Reading.ofTokens (ofSource "y-x#x").tokens).expression.2.resolve tree).run 0
      { table := (Reading.ofTokens (ofSource "y-x#x").tokens).expression.2.table.assign env }).map
        Prod.fst = some (.ok (Int64.minValue + 7)) := by decide +kernel
  obtain rfl : answer = .ok (Int64.minValue + 7) := hanswer.eq_of_run hexpresses hrun
  obtain rfl : answer' = .ok (Int64.minValue + 7) := by
    cases answer' with
    | ok v => exact congrArg Except.ok (Option.some.inj hsame)
    | error span => cases hsame
  have hcount : (ofSource "y-x#x").tokens.countP (·.kind = .var "y") = 1 := by decide +kernel
  refine ⟨by decide +kernel, hanswer, hanswer', ?_, (hvalues (-7) env).1 (by decide),
    (hvalues Int64.minValue env).2 rfl⟩
  rw [hsmallest rfl, hcount]
  rfl

end Scan

end Pseudocode
