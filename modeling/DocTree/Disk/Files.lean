import DocTree.Bytes.Basic
import DocTree.Disk.Place
import DocTree.Path
import Std.Data.ExtTreeMap

namespace DocTree

inductive DiskError where
  | notFound
  | alreadyExists
  | isDirectory
  | notDirectory
  -- A folder cannot be mapped into memory.
  | noDevice
  | nameTooLong
  | nulInName
  deriving DecidableEq, Repr

namespace DiskError

def kind : DiskError → String
  | notFound => "NotFound"
  | alreadyExists => "AlreadyExists"
  | isDirectory => "IsADirectory"
  | notDirectory => "NotADirectory"
  | noDevice => "Uncategorized"
  | nameTooLong => "InvalidFilename"
  | nulInName => "InvalidInput"

def message : DiskError → String
  | notFound => "No such file or directory (os error 2)"
  | alreadyExists => "File exists (os error 17)"
  | isDirectory => "Is a directory (os error 21)"
  | notDirectory => "Not a directory (os error 20)"
  | noDevice => "No such device (os error 19)"
  | nameTooLong => "File name too long (os error 36)"
  | nulInName => "file name contained an unexpected NUL byte"

end DiskError

inductive DiskEntry where
  | file (content : Bytes)
  | folder
  deriving DecidableEq

abbrev Disk := Std.ExtTreeMap Place DiskEntry

namespace Disk

def maxNameLength : Nat := 255

def maxPathLength : Nat := 4095

def checkPath (path : String) : Except DiskError Unit :=
  if '\x00' ∈ path.toList then .error .nulInName
  else if path.utf8ByteSize > maxPathLength then .error .nameTooLong
  else .ok ()

-- The working folder and those above it are always there.
def look (disk : Disk) (place : Place) : Except DiskError (Option DiskEntry) :=
  if place.isAbove then .ok (some .folder)
  else if place.any (·.utf8ByteSize > maxNameLength) then .error .nameTooLong
  else .ok disk[place]?

-- One step of a walk, from a folder into a folder.
def enter (disk : Disk) (place : Place) (name : String) : Except DiskError Place :=
  if name = "" ∨ name = "." then .ok place
  else if name = ".." then .ok place.up
  else do
    match ← disk.look (place ++ [name]) with
    | some .folder => return place ++ [name]
    | some (.file _) => .error .notDirectory
    | none => .error .notFound

-- Walks from the working folder; each name of the path but the last has to be that of a folder.
def spot (disk : Disk) (path : String) : Except DiskError Spot := do
  checkPath path
  let back := ((Path.pieces path.toList).map String.ofList).reverse
  match back.dropWhile (· = "") with
  | [] => return .folderName []
  | last :: front =>
    let place ← front.reverse.foldlM disk.enter []
    if last = "." ∨ last = ".." then return .folder
    else if back.head? = some "" then return .folderName (place ++ [last])
    else return .name (place ++ [last])

def find (disk : Disk) (spot : Spot) : Except DiskError DiskEntry := do
  match spot with
  | .name place => (← disk.look place).elim (.error .notFound) .ok
  | .folderName place =>
    match ← disk.look place with
    | some .folder => return .folder
    | some (.file _) => .error .notDirectory
    | none => .error .notFound
  | .folder => return .folder

def read (disk : Disk) (path : String) : Except DiskError Bytes := do
  match ← disk.find (← disk.spot path) with
  | .file content => return content
  | .folder => .error .isDirectory

-- The content of a file, mapped into memory.
def map (disk : Disk) (path : String) : Except DiskError Bytes := do
  match ← disk.find (← disk.spot path) with
  | .file content => return content
  | .folder => .error .noDevice

-- Puts a file in the place of whatever file is there.
def write (disk : Disk) (path : String) (content : Bytes) : Except DiskError Disk := do
  match ← disk.spot path with
  | .name place =>
    if (← disk.look place) = some .folder then .error .isDirectory
    else return disk.insert place (.file content)
  | .folderName _ | .folder => .error .isDirectory

def createNew (disk : Disk) (path : String) : Except DiskError Disk := do
  match ← disk.spot path with
  | .name place =>
    if (← disk.look place).isSome then .error .alreadyExists
    else return disk.insert place (.file [])
  | .folderName _ => .error .isDirectory
  | .folder => .error .alreadyExists

-- Moves a file, over any file that is in its new place.
def rename (disk : Disk) (source target : String) : Except DiskError Disk := do
  match ← disk.spot source, ← disk.spot target with
  | .name source, .name target =>
    match ← disk.look source, ← disk.look target with
    | none, _ => .error .notFound
    | some (.file content), none | some (.file content), some (.file _) =>
      return (disk.erase source).insert target (.file content)
    | some _, _ => .error .isDirectory
  | _, _ => .error .isDirectory

def delete (disk : Disk) (path : String) : Except DiskError Disk := do
  let spot ← disk.spot path
  match spot, ← disk.find spot with
  | .name place, .file _ => return disk.erase place
  | _, _ => .error .isDirectory

def makeFolder (disk : Disk) (path : String) : Except DiskError Disk := do
  match ← disk.spot path with
  | .name place | .folderName place =>
    if (← disk.look place).isSome then .error .alreadyExists
    else return disk.insert place .folder
  | .folder => .error .alreadyExists

-- The names in the working folder, in order.
def names (disk : Disk) : List String := disk.keys.filterMap fun
  | [name] => some name
  | _ => none

end Disk

end DocTree
