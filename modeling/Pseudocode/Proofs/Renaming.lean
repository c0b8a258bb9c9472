import Mathlib.Logic.Equiv.Basic
import Pseudocode.Proofs.Interning
import Pseudocode.Proofs.Printing
import Pseudocode.Proofs.Renaming.Evaluation
import Pseudocode.Proofs.Translation.Reading

/-!
# Names of variables carry no meaning

The variables of a text may be renamed, as long as different ones keep different names. The reader
of the renamed tokens does what it did. Literals are kept apart from variables under any name, since
they are spelled in another way, so the same symbols share a cell as before, and the tree refers to
the same cells. Running it shows no name.

## Main definitions

* `variableNames`: the words that are not reserved.
* `Renaming`: other names for variables, no two of them the same.
* `Table.rename`: a table with the variables under other names.
* `SyntaxError.SameButNamed`: errors about a token and about the renamed token.

## Main results

* `Scan.text_mem_variableNames_iff`: nothing but a variable is written like the name of one.
* `Table.internAll_mapNames`, `Table.indexOf_mapNames`: renamed symbols get the same cells.
* `Scan.names_carry_no_meaning`: what becomes of a text whose variables are renamed.
-/

namespace Pseudocode

open Token (Kind)

/-! ### Names of variables -/

/-- The names that a variable can have: words that are not reserved. -/
def variableNames : Set String :=
  {name | (Kind.var name).WellFormed}

theorem notMem_variableNames {text : String}
    (h : text.toList.head?.any Lexeme.isWordStart = false) : text ∉ variableNames := by
  rintro ⟨⟨c, cs, htext, hstart, -⟩, -⟩
  rw [htext, List.head?_cons, Option.any_some, hstart] at h
  cases h

/-- Nothing but a variable is written like the name of one. -/
theorem Lexeme.Spells.text_mem_variableNames_iff {text : List Char} {kind : Kind}
    (h : Spells text kind) : kind.text ∈ variableNames ↔ kind.name?.isSome = true := by
  cases h with
  | keyword k => exact iff_of_false (fun hmem ↦ hmem.2 k rfl) Bool.false_ne_true
  | @var c cs hc hcs hkeyword =>
    refine iff_of_true ⟨⟨c, cs, String.toList_ofList, hc, hcs⟩, fun k hk ↦ hkeyword k ?_⟩ rfl
    rw [hk, Kind.text, String.toList_ofList]
  | @integer digits hne hdigits =>
    refine iff_of_false (notMem_variableNames ?_) Bool.false_ne_true
    obtain ⟨c, cs, rfl⟩ := List.exists_cons_of_ne_nil hne
    rw [Kind.text, String.toList_ofList, List.head?_cons, Option.any_some]
    exact Bool.eq_false_iff.2 (not_isWordStart_of_isDigit (hdigits c List.mem_cons_self))
  | @closed contents _ | @unclosed contents _ =>
    refine iff_of_false (notMem_variableNames ?_) Bool.false_ne_true
    have hquote : (Kind.string (String.ofList contents)).text.toList.head? = some '"' := by
      simp [Kind.text]
    rw [hquote]
    decide
  | punctuator p =>
    refine iff_of_false (notMem_variableNames ?_) Bool.false_ne_true
    cases p <;> decide
  | @illegal c _ _ _ hword =>
    refine iff_of_false (notMem_variableNames ?_) Bool.false_ne_true
    have hself : (Kind.illegal c).text.toList = [c] := String.toList_singleton c
    rw [hself]
    exact hword

theorem Scan.text_mem_variableNames_iff {source : String} {t : Token}
    (ht : t ∈ (ofSource source).tokens) :
    t.kind.text ∈ variableNames ↔ t.kind.name?.isSome = true := by
  rcases mem_tokens_ofSource.1 ht with ⟨x, hx, rfl⟩ | rfl
  · obtain ⟨before, d, head, tail, -, -, hblank, hhash, rfl⟩ :=
      Cursor.exists_place_ofSource source x hx
    exact (Lexeme.spells_ofHead tail hblank hhash).text_mem_variableNames_iff
  · have hend : "<END_OF_INPUT>" ∉ variableNames := notMem_variableNames (by decide)
    exact iff_of_false hend Bool.false_ne_true

/-- Nor is a literal that is met. -/
theorem Symbol.From.text_mem_variableNames_iff {source : String} {x : Symbol}
    (h : x.From (Scan.ofSource source).tokens) :
    x.text ∈ variableNames ↔ x.cell.kind = .var := by
  rcases h with rfl | ⟨t, ht, hx⟩
  · have hzero : "0" ∉ variableNames := notMem_variableNames (by decide)
    exact iff_of_false hzero fun hkind ↦ nomatch hkind
  · have htext := Scan.text_mem_variableNames_iff ht
    obtain ⟨kind, start, stop⟩ := t
    cases kind <;> cases hx
    · exact iff_of_true (htext.2 rfl) rfl
    · exact iff_of_false (mt htext.1 Bool.false_ne_true) fun hkind ↦ nomatch hkind

/-! ### Renamings -/

/-- Other names for variables. -/
structure Renaming where
  /-- The name that takes the place of a name. -/
  name : String → String
  /-- A variable gets a name that variables can have. -/
  mapsTo : Set.MapsTo name variableNames variableNames
  /-- No two variables get the same name. -/
  injOn : Set.InjOn name variableNames

namespace Renaming

/-- Two names are exchanged. -/
def exchange {a b : String} (ha : a ∈ variableNames) (hb : b ∈ variableNames) : Renaming where
  name := Equiv.swap a b
  mapsTo name hname := by
    rw [Equiv.swap_apply_def]
    split
    · exact hb
    split
    · exact ha
    · exact hname
  injOn := (Equiv.swap a b).injective.injOn

variable (r : Renaming)

open Classical in
/-- The renaming, with every text kept that is not the name of a variable. -/
noncomputable def extend (text : String) : String :=
  if text ∈ variableNames then r.name text else text

variable {r}

theorem extend_of_mem {text : String} (h : text ∈ variableNames) : r.extend text = r.name text :=
  if_pos h

theorem extend_of_notMem {text : String} (h : text ∉ variableNames) : r.extend text = text :=
  if_neg h

theorem extend_mem_iff {text : String} : r.extend text ∈ variableNames ↔ text ∈ variableNames := by
  by_cases h : text ∈ variableNames
  · rw [extend_of_mem h]
    exact iff_of_true (r.mapsTo h) h
  · rw [extend_of_notMem h]

/-- No two texts become the same. -/
theorem extend_injective : Function.Injective r.extend := by
  intro a b h
  have hmem : a ∈ variableNames ↔ b ∈ variableNames := by
    rw [← r.extend_mem_iff, h, r.extend_mem_iff]
  -- a name of a variable and any other text stay apart, since names are taken to names
  by_cases ha : a ∈ variableNames
  · have hb := hmem.1 ha
    rw [extend_of_mem ha, extend_of_mem hb] at h
    exact r.injOn ha hb h
  · rwa [extend_of_notMem ha, extend_of_notMem (mt hmem.2 ha)] at h

section Text

variable {source : String}

/-- The texts of tokens are renamed as the tokens are. -/
theorem covers {t : Token} (ht : t ∈ (Scan.ofSource source).tokens) :
    (Translation.naming r.extend).Covers t := by
  have htext := Scan.text_mem_variableNames_iff ht
  obtain ⟨kind, start, stop⟩ := t
  cases kind with
  | var name => rfl
  | _ => exact extend_of_notMem (mt htext.1 Bool.false_ne_true)

/-- On the tokens of a text, nothing but names of variables is renamed. -/
theorem rename_extend {t : Token} (ht : t ∈ (Scan.ofSource source).tokens) :
    t.rename r.extend = t.rename r.name := by
  have htext := Scan.text_mem_variableNames_iff ht
  obtain ⟨kind, start, stop⟩ := t
  cases kind with
  | var name =>
    have hname : r.extend name = r.name name := extend_of_mem (htext.2 rfl)
    rw [Token.rename, Kind.rename, hname]
    rfl
  | _ => rfl

theorem text_rename {x : Symbol} (hx : x.From (Scan.ofSource source).tokens) :
    (x.rename r.extend).text = r.extend x.text := by
  have htext := hx.text_mem_variableNames_iff
  cases x with
  | var name => rfl
  | literal digits value =>
    exact (extend_of_notMem fun hmem ↦ nomatch htext.1 hmem).symm

end Text

end Renaming

/-! ### Tables of renamed symbols -/

/-- The cell under another name, if it is one of a variable. -/
def Cell.rename (ρ : String → String) (c : Cell) : Cell :=
  match c.kind with
  | .var => c.mapName ρ
  | .integer => c

/-- The table with the variables under other names. -/
def Table.rename (ρ : String → String) (t : Table) : Table where
  cells := t.cells.map (Cell.rename ρ)

namespace Table

variable {ρ : String → String}

theorem name_mapName_beq (hρ : Function.Injective ρ) (name : String) (c : Cell) :
    ((c.mapName ρ).name == ρ name) = (c.name == name) := by
  rw [Bool.eq_iff_iff, beq_iff_eq, beq_iff_eq]
  exact hρ.eq_iff

theorem contains_mapNames (hρ : Function.Injective ρ) (t : Table) (name : String) :
    (t.mapNames ρ).contains (ρ name) = t.contains name := by
  simp only [contains, mapNames, Array.any_map, Function.comp_def, name_mapName_beq hρ]

/-- A renamed text finds the cell that the text found. -/
theorem indexOf_mapNames (hρ : Function.Injective ρ) (t : Table) (name : String) :
    (t.mapNames ρ).indexOf (ρ name) = t.indexOf name := by
  obtain ⟨⟨cells⟩⟩ := t
  simp only [indexOf, mapNames, List.map_toArray, List.findIdx_toArray, List.findIdx_map,
    Function.comp_def, name_mapName_beq hρ]

/-- A renamed symbol gets a cell if and only if the symbol did. -/
theorem intern_mapNames (hρ : Function.Injective ρ) (t : Table) {x : Symbol}
    (hx : (x.rename ρ).text = ρ x.text) :
    (t.mapNames ρ).intern (x.rename ρ) = (t.intern x).mapNames ρ := by
  have hcell : (x.rename ρ).cell = x.cell.mapName ρ := by
    cases x with
    | var name => rfl
    | literal digits value => exact congrArg (fun d ↦ (Symbol.literal d value).cell) hx
  rw [intern, intern, hx, contains_mapNames hρ, hcell]
  split
  · rfl
  · exact congrArg mk Array.map_push.symm

theorem internAll_mapNames (hρ : Function.Injective ρ) {symbols : List Symbol}
    (h : ∀ x ∈ symbols, (x.rename ρ).text = ρ x.text) (t : Table) :
    (t.mapNames ρ).internAll (symbols.map (Symbol.rename ρ)) =
      (t.internAll symbols).mapNames ρ := by
  induction symbols generalizing t with
  | nil => rfl
  | cons x symbols ih =>
    obtain ⟨hx, hothers⟩ := List.forall_mem_cons.1 h
    rw [List.map_cons, internAll, List.foldl_cons, intern_mapNames hρ t hx]
    exact ih hothers (t.intern x)

end Table

/-! ### Readings of renamed tokens -/

namespace Translation

variable {T : Translation} {r : Reading}

/-- The symbols that are met get the same cells, under other names. -/
theorem table_reading (hT : Function.Injective T.name)
    (h : ∀ x, .met x ∈ r.trail → (x.rename T.name).text = T.name x.text) :
    (T.reading r).table = r.table.mapNames T.name := by
  have hsymbols : Trail.symbols (T.reading r).trail =
      (Trail.symbols r.trail).map (Symbol.rename T.name) := by
    refine Trail.symbols_map (fun x ↦ ?_) r.trail
    cases x <;> rfl
  have hempty : ({} : Table) = Table.mapNames T.name {} := congrArg Table.mk Array.map_empty.symm
  rw [Reading.table, Trail.table, Trail.intern, hsymbols, hempty]
  exact Table.internAll_mapNames hT (fun x hx ↦ h x (Trail.mem_symbols_iff.1 hx)) {}

/-- A tree of symbols that are met refers to the same cells. -/
theorem resolve_reading (hT : Function.Injective T.name)
    (h : ∀ x, .met x ∈ r.trail → (x.rename T.name).text = T.name x.text) {t : Tree Symbol}
    (ht : ∀ x, .met x ∈ t.trail → .met x ∈ r.trail) :
    (T.reading r).resolve (t.map (Symbol.rename T.name)) = r.resolve t := by
  rw [Reading.resolve, Reading.resolve, table_reading hT h, Tree.resolve, Tree.resolve,
    Tree.map_map]
  refine t.map_congr fun x hx ↦ ?_
  rw [Function.comp_apply, h x (ht x hx), Table.indexOf_mapNames hT]

end Translation

/-! ### What renamed tokens have in common with the tokens -/

/-- The errors are at the same place, where they want the same, and are about a token and about the
renamed token. -/
structure SyntaxError.SameButNamed (ρ : String → String) (tokens : List Token)
    (e e' : SyntaxError) : Prop where
  /-- The errors are at the same place. -/
  span : e'.span = e.span
  /-- They want the same. -/
  expectation : e'.expectation = e.expectation
  /-- They tell how a token is written, before it is renamed and after. -/
  about : ∃ t ∈ tokens, e.At t ∧ e'.At (t.rename ρ)

namespace Renaming

variable (r : Renaming) (source : String)

/-- The reader of the renamed tokens of a text. -/
theorem reading_naming : (Translation.naming r.extend).reading
    (Reading.ofTokens (Scan.ofSource source).tokens) =
      Reading.ofTokens ((Scan.ofSource source).tokens.map (Token.rename r.name)) := by
  have htokens : (Scan.ofSource source).tokens.map (Token.rename r.name) =
      (Scan.ofSource source).tokens.map (Token.rename r.extend) :=
    List.map_congr_left fun t ht ↦ (rename_extend ht).symm
  rw [Translation.reading, Reading.ofTokens, Translation.naming_stream_ofTokens, htokens]
  rfl

theorem injective_error : Function.Injective (Translation.naming r.extend).error := by
  intro e e' h
  have hfound : e.found = e'.found := extend_injective (congrArg SyntaxError.found h)
  obtain ⟨span, expectation, found⟩ := e
  obtain ⟨span', expectation', found'⟩ := e'
  cases hfound
  cases h
  rfl

/-- What is read of the renamed tokens, and where the reader is then. -/
theorem program_eq :
    let first := (Reading.ofTokens (Scan.ofSource source).tokens).program
    (Reading.ofTokens ((Scan.ofSource source).tokens.map (Token.rename r.name))).program =
      ((first.1.map (Translation.naming r.extend).tree).mapError
          (Translation.naming r.extend).failure,
        (Translation.naming r.extend).reading first.2) := by
  have hcovers : ∀ t ∈ (Reading.ofTokens (Scan.ofSource source).tokens).stream.all,
      (Translation.naming r.extend).Covers t := by
    rw [Reading.ofTokens, Scan.all_ofTokens source]
    exact fun t ht ↦ covers ht
  rw [← r.reading_naming source]
  exact Prod.ext (Translation.program_fst_reading hcovers r.injective_error.injOn)
    (Translation.program_snd_reading hcovers)

variable {r source}

/-- The symbols that are met in a text are renamed as their texts are. -/
theorem text_rename_of_met {x : Symbol}
    (hx : .met x ∈ (Reading.ofTokens (Scan.ofSource source).tokens).program.2.trail) :
    (x.rename r.extend).text = r.extend x.text :=
  text_rename (Reading.from_program hx)

/-- In the table of a text, the names of variables and nothing else are renamed. -/
theorem mapNames_table :
    let first := (Reading.ofTokens (Scan.ofSource source).tokens).program
    first.2.table.mapNames r.extend = first.2.table.rename r.name := by
  refine congrArg Table.mk (Array.map_congr_left fun c hc ↦ ?_)
  obtain ⟨x, hx, rfl⟩ := Trail.mem_cells_table hc
  have htext := (Reading.from_program hx).text_mem_variableNames_iff
  cases x with
  | var name => exact congrArg (fun n ↦ (Symbol.var n).cell) (extend_of_mem (htext.2 rfl))
  | literal digits value =>
    have hdigits : digits ∉ variableNames := fun hmem ↦ nomatch htext.1 hmem
    exact congrArg (fun d ↦ (Symbol.literal d value).cell) (extend_of_notMem hdigits)

/-- What becomes of an error is about the renamed token. -/
theorem sameButNamed_error {e : SyntaxError}
    (h : ∃ t ∈ (Scan.ofSource source).tokens, e.At t) :
    e.SameButNamed r.name (Scan.ofSource source).tokens
      ((Translation.naming r.extend).error e) := by
  obtain ⟨t, ht, hspan, hfound⟩ := h
  refine ⟨rfl, rfl, t, ht, ⟨hspan, hfound⟩, ?_⟩
  rw [← rename_extend ht]
  refine ⟨hspan, Eq.trans ?_ (covers ht)⟩
  rw [Translation.error, hfound]

end Renaming

namespace Scan

open Translation (naming)

/-- The names of variables carry no meaning. If the variables among the tokens of a text are
renamed, the same cells are made in the same order, up to the names of variables. Either both are
programs, with trees that refer to the same cells, and running them gives the same result and the
same lines; or neither is, and the same errors are told in the same order, about the same tokens. -/
theorem names_carry_no_meaning (source : String) (r : Renaming) :
    let tokens := (ofSource source).tokens
    let first := (Reading.ofTokens tokens).program
    let second := (Reading.ofTokens (tokens.map (Token.rename r.name))).program
    second.2.table = first.2.table.rename r.name ∧
      ((∃ tree tree', first.1 = .ok tree ∧ second.1 = .ok tree' ∧
          second.2.resolve tree' = first.2.resolve tree ∧
          ∀ bound, ((second.2.resolve tree').run bound { table := second.2.table }).map
              (fun (result, m) ↦ (result, m.lines)) =
            ((first.2.resolve tree).run bound { table := first.2.table }).map
              fun (result, m) ↦ (result, m.lines)) ∨
        (∃ e e', first.1 = .error (.syntactic e) ∧ second.1 = .error (.syntactic e') ∧
            e.SameButNamed r.name tokens e') ∧
          List.Forall₂ (SyntaxError.SameButNamed r.name tokens) first.2.diagnostics
            second.2.diagnostics) := by
  intro tokens first second
  have hprogram := r.program_eq source
  have hresult : second.1 = (first.1.map (naming r.extend).tree).mapError
      (naming r.extend).failure := congrArg Prod.fst hprogram
  have hafter : second.2 = (naming r.extend).reading first.2 := congrArg Prod.snd hprogram
  have htable : second.2.table = first.2.table.mapNames r.extend := by
    rw [hafter]
    exact Translation.table_reading Renaming.extend_injective fun x ↦ Renaming.text_rename_of_met
  refine ⟨htable.trans Renaming.mapNames_table, ?_⟩
  rcases Reading.program_tree_or_first (inOrder_ofSource source) (all_ofTokens source) with
    ⟨-, tree, htree⟩ | ⟨e, others, hcons, he⟩
  · obtain ⟨d, -, rfl, htrail, -⟩ :=
      Reading.exists_derivation_of_ok (ordered_ofSource source) htree
    have htree' : second.1 = .ok ((naming r.extend).tree d.tree) := by
      rw [hresult, htree]
      rfl
    -- the trail is the one of the tree, so all symbols of the tree are met
    have hresolve : second.2.resolve ((naming r.extend).tree d.tree) =
        first.2.resolve d.tree := by
      rw [hafter, Translation.naming_tree]
      exact Translation.resolve_reading Renaming.extend_injective
        (fun x ↦ Renaming.text_rename_of_met) fun x hx ↦ htrail ▸ hx
    refine .inl ⟨d.tree, _, htree, htree', hresolve, fun bound ↦ ?_⟩
    rw [hresolve, htable, ← Machine.mapNames_start]
    exact Tree.result_and_lines_mapNames ..
  · have hreached := Reading.reached_program (inOrder_ofSource source) (all_ofTokens source)
    have hlocated := hreached.1.located
    have hdiagnostics : second.2.diagnostics =
        first.2.diagnostics.map (naming r.extend).error := by
      rw [hafter]
      exact Translation.diagnostics_reading r.injective_error.injOn
    have he' : second.1 = .error (.syntactic ((naming r.extend).error e)) := by
      rw [hresult, he]
      rfl
    refine .inr ⟨⟨e, _, he, he', ?_⟩, ?_⟩
    · exact Renaming.sameButNamed_error (hlocated e (hcons ▸ List.mem_cons_self))
    · rw [hdiagnostics, List.forall₂_map_right_iff, List.forall₂_same]
      exact fun e' he' ↦ Renaming.sameButNamed_error (hlocated e' he')

/-- Two variables exchange their names. -/
theorem names_carry_no_meaning_exchange :
    let tokens := (ofSource "procedure principale () x = 1; y = x / 0; finproc").tokens
    let first := (Reading.ofTokens tokens).program
    ∃ r : Renaming, tokens.map (Token.rename r.name) ≠ tokens ∧
      let second := (Reading.ofTokens (tokens.map (Token.rename r.name))).program
      ∃ tree tree', first.1 = .ok tree ∧ second.1 = .ok tree' ∧
        second.2.resolve tree' = first.2.resolve tree := by
  intro tokens first
  have hx : "x" ∈ variableNames := ⟨⟨'x', [], rfl, by decide, fun _ hd ↦ nomatch hd⟩, by
    rintro ⟨⟩ <;> decide⟩
  have hy : "y" ∈ variableNames := ⟨⟨'y', [], rfl, by decide, fun _ hd ↦ nomatch hd⟩, by
    rintro ⟨⟩ <;> decide⟩
  have hne : tokens.map (Token.rename (Equiv.swap "x" "y")) ≠ tokens := by decide +kernel
  refine ⟨.exchange hx hy, hne, ?_⟩
  rcases (names_carry_no_meaning "procedure principale () x = 1; y = x / 0; finproc"
    (.exchange hx hy)).2 with ⟨tree, tree', h, h', hresolve, -⟩ | ⟨⟨e, -, he, -⟩, -⟩
  · exact ⟨tree, tree', h, h', hresolve⟩
  · have hok : first.1.toOption.isSome = true := by decide +kernel
    rw [show first.1 = _ from he] at hok
    cases hok

end Scan

end Pseudocode
