namespace DocTree

inductive FsError where
  | notFound
  | alreadyExists
  -- A document does not have the expected size or shape.
  | corrupt (what : String)
  | nameTooLong
  | fileTooLarge
  | invalidArgument
  | isDirectory
  | notDirectory
  | notEmpty
  | permissionDenied
  -- A document changed under every attempt to change it.
  | conflict
  -- The store could not be reached, or said that it failed.
  | io (what : String)
  | outOfMemory
  deriving DecidableEq, Repr

namespace FsError

def errno : FsError → Nat
  | notFound => 2
  | alreadyExists => 17
  | corrupt _ => 9
  | nameTooLong => 36
  | fileTooLarge => 27
  | invalidArgument => 22
  | isDirectory => 21
  | notDirectory => 20
  | notEmpty => 39
  | permissionDenied => 13
  | conflict => 5
  | io _ => 5
  | outOfMemory => 12

def message : FsError → String
  | notFound => "no such file or directory"
  | alreadyExists => "file exists"
  | corrupt what => "corrupt document: " ++ what
  | nameTooLong => "path exceeds the maximum key length"
  | fileTooLarge => "file exceeds the maximum file length"
  | invalidArgument => "invalid argument"
  | isDirectory => "is a directory"
  | notDirectory => "not a directory"
  | notEmpty => "directory not empty"
  | permissionDenied => "permission denied"
  | conflict => "document version conflict"
  | io what => "store i/o failure: " ++ what
  | outOfMemory => "out of memory"

end FsError

end DocTree
