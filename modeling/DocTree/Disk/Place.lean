namespace DocTree

-- The way from the working folder to a file or a folder, name by name; `..` stands at its front
-- only, for the folders above the working folder.
abbrev Place := List String

namespace Place

-- The working folder, or a folder that it lies in.
def isAbove (place : Place) : Bool := place.all (· = "..")

def up (place : Place) : Place := if place.isAbove then place ++ [".."] else place.dropLast

end Place

-- What a path says of the thing that it leads to.
inductive Spot where
  -- A name in a folder.
  | name (place : Place)
  -- A name with a slash behind it, which only a folder can have.
  | folderName (place : Place)
  -- A folder that was reached by `.` or `..`, and not by its name.
  | folder
  deriving DecidableEq, Repr

-- A path cut behind its last slash.
def splitPath (path : String) : String × String :=
  let back := path.toList.reverse
  (String.ofList (back.dropWhile (· ≠ '/')).reverse,
    String.ofList (back.takeWhile (· ≠ '/')).reverse)

-- The stem of a file name: what stands in front of the last point, unless nothing does.
def fileStem (name : List Char) : List Char :=
  let back := (name.reverse.dropWhile (· ≠ '.')).drop 1
  if back = [] then name else back.reverse

-- A file is first written under this path and then renamed: its ending gives way to another one.
-- What is left of `..a` without its ending is `..`, the folder above, and no ending goes behind
-- that, so a file of such a name is never replaced.
def stagingPath (path : String) : String :=
  let (folder, name) := splitPath path
  let stem := fileStem name.toList
  folder ++ (if stem = ['.'] then ".." else String.ofList stem ++ ".staging")

end DocTree
