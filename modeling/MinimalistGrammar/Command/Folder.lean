import MinimalistGrammar.Dict
import MinimalistGrammar.File

/-!
# Folders

A path is followed part by part from the folder in which the command runs. An empty part and a
single point stay where they are, two points go up, and every other part goes down into a folder
that is there: one that has a file in it, or one above the folder in which the command runs.

## Main definitions

* `Folder` — the texts of files, by the parts that lead to them.
* `Folder.follow` — the place to which the parts of a path lead.
* `Folder.read`, `Folder.write` — the text of a file, and the folder with another text in it.
-/

namespace MinimalistGrammar

/-- The texts of files, each under its path from the folder without detours. -/
abbrev Folder := Dict String String

namespace Folder

/-- The greatest number of bytes in a part of a path. -/
def longestName : Nat := 255

/-- The greatest number of bytes in a path. -/
def longestPath : Nat := 4095

/-- The device that has no text and forgets what is written to it. -/
def nullDevice : String := "/dev/null"

/-- A place as a path without detours. -/
def pathTo (place : List String) : String := "/".intercalate place

/-- Whether a place is the folder in which the command runs, or above it. -/
def isAbove (place : List String) : Bool := place.all (· == "..")

/-- The folder that a place is in. -/
def parent (place : List String) : List String :=
  if isAbove place then place ++ [".."] else place.dropLast

/-- Whether there is a folder at a place. -/
def hasFolder (f : Folder) (place : List String) : Bool :=
  isAbove place || f.keys.any fun key => (pathTo place ++ "/").isPrefixOf key

/-- Whether the parts of a path go on below a place. The last part may name what is not there. -/
def enter (f : Folder) (place rest : List String) : Except FileError Unit :=
  if rest.isEmpty || f.hasFolder place then .ok ()
  else if f.contains (pathTo place) then .error .notFolder
  else .error .notFound

/-- The place to which the parts of a path lead from another place. -/
def follow (f : Folder) (place : List String) : List String → Except FileError (List String)
  | [] => .ok place
  | part :: rest =>
    if part == "" || part == "." then f.follow place rest
    else if part == ".." then f.follow (parent place) rest
    else if longestName < part.utf8ByteSize then .error .nameTooLong
    else do
      f.enter (place ++ [part]) rest
      f.follow (place ++ [part]) rest

/-- The place to which a path leads. Paths that begin at the root of the file system lead
nowhere. -/
def locate (f : Folder) (path : String) : Except FileError (List String) :=
  if longestPath < path.utf8ByteSize then .error .nameTooLong
  else
    match path.splitOn "/" with
    | "" :: _ => .error .notFound
    | parts => f.follow [] parts

/-- The path without detours of a file that is there or could be. -/
def filePath (f : Folder) (path : String) : Except FileError String := do
  let place ← f.locate path
  if f.hasFolder place then .error .isFolder else .ok (pathTo place)

/-- The text of a file. -/
def read (f : Folder) (path : String) : Except FileError String :=
  if path == nullDevice then .ok ""
  else do
    let path ← f.filePath path
    (f.get? path).elim (.error .notFound) .ok

/-- The folder with a text written to a file. -/
def write (f : Folder) (path text : String) : Except FileError Folder :=
  if path == nullDevice then .ok f
  else do return f.insert (← f.filePath path) text

end Folder
end MinimalistGrammar
