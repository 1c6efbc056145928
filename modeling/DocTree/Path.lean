import DocTree.Error

-- Absolute paths, as text with `/` between components. A path is canonical when it is `/` followed
-- by one or more components with `/` between them, each one a proper name: neither empty nor `.`
-- nor `..`. `split` takes the last component off a canonical path, `join` puts it back.

namespace DocTree.Path

def root : String := "/"

-- A path that is too long cannot be the key of a document.
def checkLength (path : String) (maxLength : Nat) : Except FsError Unit :=
  if path.utf8ByteSize > maxLength then .error .nameTooLong else .ok ()

-- The pieces between the slashes of a text; there is always at least one.
def pieces : List Char → List (List Char)
  | [] => [[]]
  | '/' :: rest => [] :: pieces rest
  | c :: rest => (pieces rest).modifyHead (c :: ·)

-- Neither empty nor one of the two names that a directory gives itself and its parent.
def isName (piece : List Char) : Bool := piece ≠ [] ∧ piece ≠ ['.'] ∧ piece ≠ ['.', '.']

-- The text in front of the last slash and the one behind it, if there is a slash.
def splitLast? : List Char → Option (List Char × List Char)
  | [] => none
  | c :: rest =>
    match splitLast? rest with
    | some (front, leaf) => some (c :: front, leaf)
    | none => if c = '/' then some ([], rest) else none

-- The parent directory and the last component of a canonical path of at most `maxLength` bytes.
def split (path : String) (maxLength : Nat) : Except FsError (String × String) := do
  checkLength path maxLength
  if path.toList.head? ≠ some '/' ∨ path = root then
    .error .invalidArgument
  else
    match splitLast? path.toList with
    | none => .error .invalidArgument
    | some (front, leaf) =>
      -- The first piece of an absolute path is the empty one in front of its first slash.
      if ¬isName leaf ∨ ((pieces front).drop 1).any (!isName ·) then
        .error .invalidArgument
      else
        return (if front = [] then root else String.ofList front, String.ofList leaf)

def join (directory name : String) : String :=
  if directory = root then root ++ name else directory ++ "/" ++ name

-- The directory that holds a path. The root, and whatever is not canonical, lies in the root.
def parent (path : String) : String :=
  match split path path.utf8ByteSize with
  | .ok (directory, _) => directory
  | .error _ => root

-- Block 0 of a file has the file's path as its key, block `n` the path, a NUL and `n`.
def blockKey (path : String) (index : Nat) : String :=
  if index = 0 then path else path ++ "\x00" ++ toString index

end DocTree.Path
