/-!
# Keywords

The reserved words of the language. A word is a keyword only if it is spelled exactly as one, in
lower case.

## Main definitions

* `Keyword`: the eighteen reserved words.
* `Keyword.text`: how a keyword is spelled.
* `Keyword.ofText?`: the keyword that a word spells.

## Main results

* `Keyword.ofText?_eq_some_iff`: reading a spelling undoes writing it.
-/

namespace Pseudocode

/-- The reserved words, in alphabetical order. -/
inductive Keyword where
  | ecrire
  | et
  | finpour
  | finproc
  | finsi
  | fintantque
  | jusqua
  | lire
  | non
  | ou
  | pour
  | principale
  | procedure
  | repeter
  | si
  | sinon
  | sinonsi
  | tantque
deriving DecidableEq

namespace Keyword

/-- How the keyword is spelled. -/
def text : Keyword → String
  | ecrire => "ecrire"
  | et => "et"
  | finpour => "finpour"
  | finproc => "finproc"
  | finsi => "finsi"
  | fintantque => "fintantque"
  | jusqua => "jusqua"
  | lire => "lire"
  | non => "non"
  | ou => "ou"
  | pour => "pour"
  | principale => "principale"
  | procedure => "procedure"
  | repeter => "repeter"
  | si => "si"
  | sinon => "sinon"
  | sinonsi => "sinonsi"
  | tantque => "tantque"

/-- All keywords. -/
def all : List Keyword :=
  [ecrire, et, finpour, finproc, finsi, fintantque, jusqua, lire, non, ou, pour, principale,
    procedure, repeter, si, sinon, sinonsi, tantque]

/-- The keyword spelled `word`, if there is one. -/
def ofText? (word : String) : Option Keyword :=
  all.find? (·.text == word)

theorem mem_all (k : Keyword) : k ∈ all := by
  cases k <;> decide

theorem ofText?_text (k : Keyword) : ofText? k.text = some k := by
  cases k <;> decide

theorem ofText?_eq_some_iff {word : String} {k : Keyword} :
    ofText? word = some k ↔ word = k.text := by
  constructor
  · intro h
    have hk := List.find?_some h
    exact (eq_of_beq hk).symm
  · rintro rfl
    exact ofText?_text k

/-- No two keywords share a spelling. -/
theorem text_injective {j k : Keyword} (h : j.text = k.text) : j = k := by
  have := ofText?_text j
  rw [h, ofText?_text] at this
  exact (Option.some.inj this).symm

end Keyword

end Pseudocode
