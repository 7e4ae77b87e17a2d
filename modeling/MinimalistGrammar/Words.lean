import MinimalistGrammar.Text.Blank

/-!
# Words and tokens

A lexical word is written as one or more tokens with blanks between them. The silent word, written
`∅` or left blank, has none.

## Main definitions

* `epsilon` — the written form of the silent word.
* `isSilent` — whether a text is a form of the silent word.
* `tokens` — the input tokens that a word stands for.
-/

namespace MinimalistGrammar

/-- The written form of the silent word. -/
def epsilon : String := "∅"

/-- Whether a text is a form of the silent word: nothing but blanks, or `∅` between blanks. -/
def isSilent (word : String) : Bool :=
  let core := Text.trim word.toList
  core.isEmpty || core == epsilon.toList

/-- The input tokens that a word stands for. The silent word stands for none. -/
def tokens (word : String) : List String :=
  if isSilent word then [] else Text.wordsOf word

theorem tokens_of_isSilent {word : String} (h : isSilent word = true) : tokens word = [] :=
  if_pos h

end MinimalistGrammar
