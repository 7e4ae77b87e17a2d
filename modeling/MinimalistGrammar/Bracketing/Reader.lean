import MinimalistGrammar.Bracketing

/-!
# Reading a bracketing

The text is cut into brackets and words first. An opening bracket takes the label that stands right
behind it, a dot with the characters up to the next blank or bracket. The tokens are then put
together with a stack of the brackets that are still open.

## Main definitions

* `BracketToken`, `scanBrackets` — the tokens, each with the text that it begins.
* `assemble` — puts tokens together up to the bracket that closes the first one.
* `Bracketing.parse` — reads a whole text.
-/

namespace MinimalistGrammar

/-- What is wrong with the text of a bracketing. -/
inductive BracketingError
  /-- Neither a bracket opens nor a word begins here. -/
  | noWord (rest : String)
  /-- The text ends before a bracket is closed. -/
  | unclosed
  /-- Something follows the end of the tree. -/
  | trailing (rest : String)
deriving DecidableEq, Repr

/-- The message for an error. -/
def BracketingError.message : BracketingError → String
  | noWord rest => "couldn't match [^\\s\\[\\]]+ at " ++ rest
  | unclosed => "unclosed bracket"
  | trailing rest => "trailing input after bracketing: " ++ rest

/-! ### Tokens -/

/-- A piece of the text of a bracketing. -/
inductive BracketToken
  | open (label : Option String)
  | close
  | word (w : String)
deriving DecidableEq, Repr

/-- A character of a word or label: neither a blank nor a bracket. -/
def isWordPiece (c : Char) : Bool := !Text.isBlank c && c != '[' && c != ']'

/-- The label that a text begins with, and what follows it. -/
def splitLabel : List Char → Option String × List Char
  | '.' :: rest => (some (String.ofList (rest.takeWhile isWordPiece)), rest.dropWhile isWordPiece)
  | s => (none, s)

theorem length_dropWhile_le (p : Char → Bool) (s : List Char) :
    (s.dropWhile p).length ≤ s.length := by
  induction s with
  | nil => exact Nat.le_refl _
  | cons c cs ih =>
    rw [List.dropWhile_cons]
    split
    · exact Nat.le_succ_of_le ih
    · exact Nat.le_refl _

theorem length_splitLabel_le (s : List Char) : (splitLabel s).2.length ≤ s.length := by
  unfold splitLabel
  split
  · exact Nat.le_succ_of_le (length_dropWhile_le _ _)
  · exact Nat.le_refl _

/-- The tokens of a text. With each token comes the text from it on. -/
def scanBrackets : List Char → List (BracketToken × List Char)
  | [] => []
  | c :: cs =>
    if Text.isBlank c then scanBrackets cs
    else if c == '[' then (.open (splitLabel cs).1, c :: cs) :: scanBrackets (splitLabel cs).2
    else if c == ']' then (.close, c :: cs) :: scanBrackets cs
    else
      (.word (String.ofList (c :: cs.takeWhile isWordPiece)), c :: cs) ::
        scanBrackets (cs.dropWhile isWordPiece)
termination_by s => s.length
decreasing_by
  · simp
  · exact Nat.lt_succ_of_le (length_splitLabel_le cs)
  · simp
  · exact Nat.lt_succ_of_le (length_dropWhile_le _ cs)

/-! ### Assembly -/

/-- An open bracket: its label, and its parts so far, the last one first. -/
abbrev OpenBracket := Option String × List Bracketing

/-- Puts tokens together until `top`, with `below` around it, is closed. The tokens that follow are
left. -/
def assemble (top : OpenBracket) (below : List OpenBracket) :
    List (BracketToken × List Char) →
      Except BracketingError (Bracketing × List (BracketToken × List Char))
  | [] => .error .unclosed
  | (.open label, _) :: rest => assemble (label, []) (top :: below) rest
  | (.word w, _) :: rest => assemble (top.1, .word w :: top.2) below rest
  | (.close, _) :: rest =>
    let done := Bracketing.node top.1 top.2.reverse
    match below with
    | [] => .ok (done, rest)
    | next :: others => assemble (next.1, done :: next.2) others rest

namespace Bracketing

/-- Reads a bracketing that takes up the whole text but for blanks around it. -/
def parse (text : String) : Except BracketingError Bracketing := do
  let (tree, rest) ←
    match scanBrackets text.toList with
    | [] => .error (.noWord "")
    | (.close, s) :: _ => .error (.noWord (String.ofList s))
    | (.word w, _) :: rest => .ok (.word w, rest)
    | (.open label, _) :: rest => assemble (label, []) [] rest
  match rest with
  | [] => .ok tree
  | (_, s) :: _ => .error (.trailing (String.ofList s))

end Bracketing
end MinimalistGrammar
