import DocTree.Kernel.Inodes
import DocTree.Tree.Operation

namespace DocTree

structure Mounted where
  limits : Limits
  inodes : Inodes

namespace Mounted

-- Mounts what the store holds, and makes the root directory if it is missing.
def new (limits : Limits) (now : TimeSpec) : Call Mounted := do
  Call.ofExcept limits.validate
  Tree.bootstrap now
  return ⟨limits, Inodes.new⟩

-- The preferred length of a read or write: one block, as far as 32 bits can say.
def blockSize (mounted : Mounted) : UInt32 := UInt32.ofNat (min mounted.limits.blockSize 0xffffffff)

def noEntry : Nat := FsError.notFound.errno

def pathOf (mounted : Mounted) (ino : Nat) : Except Nat String :=
  match mounted.inodes.pathOf? ino with
  | some path => .ok path
  | none => .error noEntry

-- The path of a name inside the directory with number `parent`. The name must be UTF-8.
def childPath (mounted : Mounted) (parent : Nat) (name : Bytes) : Except Nat String := do
  let directory ← mounted.pathOf parent
  match Utf8.decode name with
  | some name => return Path.join directory name
  | none => .error FsError.invalidArgument.errno

def numberOf (mounted : Mounted) (path : String) : Nat × Mounted :=
  let (ino, inodes) := mounted.inodes.numberOf path
  (ino, { mounted with inodes })

def forget (mounted : Mounted) (path : String) : Mounted :=
  { mounted with inodes := mounted.inodes.forget path }

-- The attributes of a path, numbered if it has no number yet. A stored time that no instant can
-- hold leaves `none`.
def fileAttr (mounted : Mounted) (path : String) (owner : Caller) :
    Call (Except Nat (Option FileAttr) × Mounted) := do
  match ← (Tree.getattr mounted.limits path owner).attempt with
  | .error error => return (.error error.errno, mounted)
  | .ok attributes =>
    let (ino, mounted) := mounted.numberOf path
    return (.ok (attributes.fileAttr? ino mounted.blockSize), mounted)

end Mounted

end DocTree
