import MinimalistGrammar.File
import MinimalistGrammar.Feature.Reader
import MinimalistGrammar.Lexicon

/-!
# Lexicons as text

A lexicon is written one entry a line: a word, `::`, and its features. The word may hold blanks
and even `::`, since the last `::` of the line counts. Blank lines and lines that begin with `#`
say nothing.

## Main definitions

* `LexiconError` — what is wrong, on which line and in which file.
* `readEntries` — the entries of a text, or what is wrong with its first bad line.
* `Lexicon.parse`, `Lexicon.ofFile` — the trie of these entries.
* `Lexicon.text` — a lexicon as text again.
-/

namespace MinimalistGrammar

/-! ### Errors -/

/-- What can be wrong with a lexicon. -/
inductive LexiconFault
  /-- A line without `::`. -/
  | missingSeparator (line : String)
  /-- A word with nothing after `::`. -/
  | noFeatures (word : String)
  /-- A token after `::` that is no feature. -/
  | malformedFeature (token : String)
  /-- The file has no text. -/
  | unreadable (e : FileError)
deriving DecidableEq, Repr

namespace LexiconFault

/-- The message for a fault. -/
def message : LexiconFault → String
  | missingSeparator line => "expected `word :: features`, found `" ++ line ++ "`"
  | noFeatures word => "entry `" ++ word ++ "` has no features"
  | malformedFeature token => MalformedFeature.message ⟨token⟩
  | unreadable e => "IO error: " ++ e.message

/-- The token at fault. -/
def token? : LexiconFault → Option String
  | malformedFeature token => some token
  | _ => none

end LexiconFault

/-- A fault and its place. -/
structure LexiconError where
  /-- The file, if the text comes from one. -/
  file : Option String := none
  /-- The line, counted from one, or zero if the fault is on no line. -/
  line : Nat := 0
  fault : LexiconFault
deriving DecidableEq, Repr

/-- The message for an error: its place, as far as it is known, then the fault. -/
def LexiconError.message (e : LexiconError) : String :=
  match e.file, e.line with
  | some file, 0 => file ++ ": " ++ e.fault.message
  | some file, line => file ++ ", line " ++ toString line ++ ": " ++ e.fault.message
  | none, 0 => e.fault.message
  | none, line => "line " ++ toString line ++ ": " ++ e.fault.message

/-! ### One line -/

/-- An entry as read from a line. -/
structure Entry where
  word : String
  features : List Feature
  line : Nat
deriving DecidableEq, Repr

/-- The parts of a text before and after its last `::`. -/
def splitAtLastSeparator : List Char → Option (List Char × List Char)
  | [] => none
  | c :: cs =>
    match splitAtLastSeparator cs with
    | some (before, after) => some (c :: before, after)
    | none =>
      match c, cs with
      | ':', ':' :: after => some ([], after)
      | _, _ => none

/-- The parts of a split are the whole text less the separator. -/
theorem splitAtLastSeparator_eq {s before after : List Char}
    (h : splitAtLastSeparator s = some (before, after)) : s = before ++ ':' :: ':' :: after := by
  fun_induction splitAtLastSeparator s generalizing before with
  | case1 => simp at h
  | case2 c cs w f hcs ih =>
    simp only [Option.some.injEq, Prod.mk.injEq] at h
    obtain ⟨rfl, rfl⟩ := h
    rw [ih hcs, List.cons_append]
  | case3 =>
    simp only [Option.some.injEq, Prod.mk.injEq] at h
    obtain ⟨rfl, rfl⟩ := h
    rfl
  | case4 => simp at h

/-- A word as it is kept: `∅` for the silent word, otherwise one space between its tokens. -/
def normalWord (s : List Char) : String :=
  let word := String.ofList s
  if isSilent word then epsilon else " ".intercalate (Text.wordsOf word)

/-- Reads the features of an entry. -/
def readFeatures (s : List Char) : Except LexiconFault (List Feature) :=
  (Text.words s).mapM fun token =>
    match Feature.parse (String.ofList token) with
    | .ok f => .ok f
    | .error e => .error (.malformedFeature e.token)

/-- Reads a line without the blanks at its ends. A line that says nothing gives no entry. -/
def readTrimmed (line : List Char) : Except LexiconFault (Option (String × List Feature)) :=
  if line.isEmpty || line.head? == some '#' then .ok none
  else
    match splitAtLastSeparator line with
    | none => .error (.missingSeparator (String.ofList line))
    | some (before, after) => do
      let word := normalWord before
      let features ← readFeatures after
      if features.isEmpty then .error (.noFeatures word) else .ok (some (word, features))

/-! ### The whole text -/

/-- The entries on some lines, the first of which is line `n`. -/
def readLines (n : Nat) : List (List Char) → Except LexiconError (List Entry)
  | [] => .ok []
  | line :: rest =>
    match readTrimmed (Text.trim line) with
    | .error fault => .error { line := n, fault }
    | .ok none => readLines (n + 1) rest
    | .ok (some (word, features)) => do
      let entries ← readLines (n + 1) rest
      .ok ({ word, features, line := n } :: entries)

/-- The entries of a text, or what is wrong with its first bad line. -/
def readEntries (text : String) : Except LexiconError (List Entry) :=
  readLines 1 (Text.lines text.toList)

namespace Lexicon

/-- Reads a lexicon. -/
def parse (text : String) : Except LexiconError Lexicon := do
  let entries ← readEntries text
  .ok (ofEntries (entries.map fun e => (e.word, e.features)))

/-- Reads a lexicon from a file; errors name the file. -/
def ofFile (name : String) (contents : Except FileError String) : Except LexiconError Lexicon :=
  match contents with
  | .error e => .error { file := some name, fault := .unreadable e }
  | .ok text => (parse text).mapError fun e => { e with file := some name }

/-- A lexicon as text: one entry a line, in the order of the trie. -/
def text (lex : Lexicon) : String :=
  String.join (lex.entries.map fun (w, fs) => w ++ " :: " ++ Feature.listText fs ++ "\n")

end Lexicon
end MinimalistGrammar
