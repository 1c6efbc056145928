namespace DocTree

inductive FileKind where
  | regularFile
  | directory
  | unknown
  deriving DecidableEq, Repr

-- The types of file that the kernel is told about.
inductive EntryKind where
  | regularFile
  | directory
  deriving DecidableEq, Repr

namespace Mode

def typeMask : UInt32 := 0o170000

def directory : UInt32 := 0o040000

def regularFile : UInt32 := 0o100000

def ownerRead : UInt32 := 0o400

def ownerWrite : UInt32 := 0o200

def root : UInt32 := directory ||| 0o755

def typeBits (mode : UInt32) : UInt32 := mode &&& typeMask

def permissions (mode : UInt32) : UInt32 := mode &&& ~~~typeMask

def kind (mode : UInt32) : FileKind :=
  if typeBits mode = directory then .directory
  else if typeBits mode = regularFile then .regularFile
  else .unknown

end Mode

namespace FileKind

-- Unknown types are shown as regular files.
def entryKind : FileKind → EntryKind
  | directory => .directory
  | regularFile => .regularFile
  | unknown => .regularFile

end FileKind

def EntryKind.typeBits : EntryKind → UInt32
  | regularFile => Mode.regularFile
  | directory => Mode.directory

end DocTree
