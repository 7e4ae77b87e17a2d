/-!
# Files as read

What a program knows of a file is its contents or the reason why there are none.

## Main definitions

* `FileError` — why a file could not be read as text, with the message the system gives.
* `decodeFile` — the text in the bytes of a file, if there is such a file.
-/

namespace MinimalistGrammar

/-- Why a file could not be read as text. -/
inductive FileError
  /-- There is no such file. -/
  | notFound
  /-- There is a file where a folder is needed. -/
  | notFolder
  /-- There is a folder where a file is needed. -/
  | isFolder
  /-- The name has more bytes than a file system takes. -/
  | nameTooLong
  /-- The bytes are not UTF-8. -/
  | notUtf8
deriving DecidableEq, Repr

/-- The message for a file that could not be read. -/
def FileError.message : FileError → String
  | notFound => "No such file or directory (os error 2)"
  | notFolder => "Not a directory (os error 20)"
  | isFolder => "Is a directory (os error 21)"
  | nameTooLong => "File name too long (os error 36)"
  | notUtf8 => "stream did not contain valid UTF-8"

/-- The text in the bytes of a file. -/
def decodeFile (bytes : Option ByteArray) : Except FileError String :=
  match bytes with
  | none => .error .notFound
  | some b =>
    match String.fromUTF8? b with
    | none => .error .notUtf8
    | some text => .ok text

end MinimalistGrammar
