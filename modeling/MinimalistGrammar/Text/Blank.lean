/-!
# Blank characters, words and lines

A text is read through its blanks: the characters with the Unicode property `White_Space`.
Words are the longest runs of other characters, and lines are the fields between line feeds.

## Main definitions

* `isBlank` — the 25 characters with the property `White_Space`.
* `trim` — a text without the blanks at its two ends.
* `fields` — the pieces of a text between the characters that satisfy a test.
* `words` — the pieces between blanks that are not empty.
* `lines` — the pieces between line feeds; the last one only if it is not empty.
-/

namespace MinimalistGrammar
namespace Text

/-- The characters with the Unicode property `White_Space`. -/
def isBlank (c : Char) : Bool :=
  let n := c.toNat
  (0x9 ≤ n && n ≤ 0xD) || n == 0x20 || n == 0x85 || n == 0xA0 || n == 0x1680 ||
    (0x2000 ≤ n && n ≤ 0x200A) || n == 0x2028 || n == 0x2029 || n == 0x202F || n == 0x205F ||
    n == 0x3000

/-- Every blank of the ASCII class is a blank. -/
theorem isBlank_of_isWhitespace {c : Char} (h : c.isWhitespace = true) : isBlank c = true := by
  simp only [Char.isWhitespace, Bool.or_eq_true, decide_eq_true_eq] at h
  rcases h with ((h | h) | h) | h <;> subst h <;> decide

/-! ### Trimming -/

/-- A text without the blanks at its end. -/
def trimEnd (s : List Char) : List Char :=
  (s.reverse.dropWhile isBlank).reverse

/-- A text without the blanks at its two ends. -/
def trim (s : List Char) : List Char :=
  trimEnd (s.dropWhile isBlank)

@[simp] theorem trim_nil : trim [] = [] := rfl

/-! ### Fields -/

/-- The pieces of a text between the characters that satisfy `p`; there is one more piece than
there are such characters. -/
def fields (p : Char → Bool) : List Char → List (List Char)
  | [] => [[]]
  | c :: cs =>
    if p c then [] :: fields p cs
    else
      match fields p cs with
      | [] => [[c]]
      | w :: ws => (c :: w) :: ws

@[simp] theorem fields_nil (p : Char → Bool) : fields p [] = [[]] := rfl

/-- A text has at least one field. -/
theorem fields_ne_nil (p : Char → Bool) (s : List Char) : fields p s ≠ [] := by
  cases s with
  | nil => simp
  | cons c cs =>
    rw [fields]
    split
    · simp
    · split <;> simp

/-- The longest runs of characters that are not blank. -/
def words (s : List Char) : List (List Char) :=
  (fields isBlank s).filter (· ≠ [])

@[simp] theorem words_nil : words [] = [] := rfl

/-! ### Lines -/

/-- A line without the carriage return that may stand before its line feed. -/
def dropReturn (line : List Char) : List Char :=
  match line.getLast? with
  | some '\r' => line.dropLast
  | _ => line

/-- The lines of a text. A line ends at a line feed, with or without a carriage return before
it; what follows the last line feed is a line only if it is not empty. -/
def lines (s : List Char) : List (List Char) :=
  let pieces := fields (· == '\n') s
  pieces.dropLast.map dropReturn ++ (pieces.getLast?.toList.filter (· ≠ []))

@[simp] theorem lines_nil : lines [] = [] := rfl

/-! ### On strings -/

/-- `trim` on strings. -/
def trimString (s : String) : String := String.ofList (trim s.toList)

/-- The words of a string. -/
def wordsOf (s : String) : List String := (words s.toList).map String.ofList

/-- The lines of a string. -/
def linesOf (s : String) : List String := (lines s.toList).map String.ofList

end Text
end MinimalistGrammar
