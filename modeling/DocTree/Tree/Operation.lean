import DocTree.Document.Attributes
import DocTree.Tree.Content
import DocTree.Tree.Directory

namespace DocTree

namespace Tree

-- No call is transactional: if it fails part way, what it did before stays done.

def fileStat (limits : Limits) (path : String) : Call StatRecord := do
  Call.ofExcept (Path.checkLength path limits.maxKeyLen)
  let (stat, _) ← Metadata.get path
  Call.check (¬stat.isDirectory) .isDirectory
  return stat

def requireDirectory (path : String) : Call Unit := do
  let (stat, _) ← Metadata.get path
  Call.check stat.isDirectory .notDirectory

-- Fails if the path is a directory; a record that cannot be read does not count as one.
def refuseDirectory (path : String) : Call Unit := do
  match ← (Metadata.get path).attempt with
  | .ok (stat, _) => Call.check (¬stat.isDirectory) .isDirectory
  | .error _ => return ()

-- Adds a name to the children of a directory, unless it is there already.
def listChild (directory name : String) : Call Unit := do
  let dentry ← Directory.get directory
  if dentry.contains name then
    return ()
  else
    let _ ← Directory.addChild directory name

-- Removes the document of a directory without children. A document that cannot be read, or not be
-- removed, is passed over.
def dropDentry (directory : String) : Call Unit := do
  match ← (Directory.get directory).attempt with
  | .ok dentry =>
    Call.check (dentry.children = []) .notEmpty
    Call.bestEffort (Directory.remove directory)
  | .error _ => return ()

def ensureRootStat (now : TimeSpec) : Call Unit := do
  match ← (Metadata.get Path.root).attempt with
  | .ok (stat, _) => Call.check stat.isDirectory .notDirectory
  | .error .notFound =>
    let _ ← Metadata.insert Path.root Mode.root now
  | .error error => Call.fail error

def ensureRootDentry : Call Unit := do
  match ← (Directory.create Path.root Path.root).attempt with
  | .ok _ => return ()
  | .error error => Call.check (error = .alreadyExists) error

-- Makes the root directory, as far as it is missing.
def bootstrap (now : TimeSpec) : Call Unit := do
  ensureRootStat now
  ensureRootDentry

def getattr (limits : Limits) (path : String) (owner : Caller) : Call Attributes := do
  Call.ofExcept (Path.checkLength path limits.maxKeyLen)
  let (stat, _) ← Metadata.get path
  return ⟨stat, owner⟩

-- Whether flags of `open` ask for reading and for writing; the fourth access mode does not exist.
def accessMode? (flags : Int32) : Option (Bool × Bool) :=
  if flags &&& 3 = 0 then some (true, false)
  else if flags &&& 3 = 1 then some (false, true)
  else if flags &&& 3 = 2 then some (true, true)
  else none

def isRefused (stat : StatRecord) (reads writes : Bool) : Bool :=
  reads ∧ stat.permissions &&& Mode.ownerRead = 0 ∨
    writes ∧ stat.permissions &&& Mode.ownerWrite = 0

def openFile (limits : Limits) (path : String) (flags : Int32) : Call StatRecord := do
  Call.ofExcept (Path.checkLength path limits.maxKeyLen)
  let (stat, _) ← Metadata.get path
  let (reads, writes) ← Call.ofExcept ((accessMode? flags).elim (.error .invalidArgument) .ok)
  Call.check (¬(writes ∧ stat.isDirectory)) .isDirectory
  Call.check (¬isRefused stat reads writes) .permissionDenied
  return stat

def create (limits : Limits) (path : String) (mode : UInt32) (now : TimeSpec) :
    Call StatRecord := do
  let (parent, leaf) ← Call.ofExcept (Path.split path limits.maxKeyLen)
  Call.check (Mode.typeBits mode = Mode.regularFile) .invalidArgument
  requireDirectory parent
  -- The record comes first, so whatever a directory lists has a record.
  let stat ← Metadata.insert path mode now
  listChild parent leaf
  return stat

def mkdir (limits : Limits) (path : String) (mode : UInt32) (now : TimeSpec) : Call StatRecord := do
  let (parent, leaf) ← Call.ofExcept (Path.split path limits.maxKeyLen)
  requireDirectory parent
  let stat ← Metadata.insert path (Mode.directory ||| Mode.permissions mode) now
  -- The document stands before a parent lists the name.
  let _ ← Directory.create path parent
  listChild parent leaf
  return stat

def unlink (limits : Limits) (path : String) : Call Unit := do
  let (parent, leaf) ← Call.ofExcept (Path.split path limits.maxKeyLen)
  refuseDirectory path
  -- Only the removal of the record decides the result, so a file that was left half made can go.
  Call.bestEffort (Content.remove limits path)
  Call.bestEffort (Directory.removeChild parent leaf)
  Metadata.remove path

def rmdir (limits : Limits) (path : String) : Call Unit := do
  let (parent, leaf) ← Call.ofExcept (Path.split path limits.maxKeyLen)
  requireDirectory path
  dropDentry path
  -- As with a file, only the last step decides.
  Call.bestEffort (Directory.removeChild parent leaf)
  Metadata.remove path

def read (limits : Limits) (path : String) (offset : UInt64) (size : UInt32) (now : Readings) :
    Call Bytes := do
  let stat ← fileStat limits path
  -- Nothing is read past the recorded size, whatever blocks may be there.
  let length := min size.toNat (stat.size.toNat - offset.toNat)
  let data ← if length = 0 then pure [] else Content.read limits path offset.toNat length
  let _ ← Metadata.update path .accessed now
  return data

-- Removes content past the recorded size, which a write left there that failed half way. A file
-- that grows must not pick it up.
def dropUnrecordedTail (limits : Limits) (path : String) (stat : StatRecord) : Call Unit :=
  Content.truncate limits path stat.size.toNat

def writeContent (limits : Limits) (path : String) (stat : StatRecord) (offset stop : Nat)
    (data : Bytes) : Call StatChange := do
  if data ≠ [] ∧ stat.size.toNat < stop then
    dropUnrecordedTail limits path stat
    let grown ← Content.write limits path offset data
    return .size (UInt64.ofNat (grown.getD stop))
  else
    let _ ← Content.write limits path offset data
    return .modified

def write (limits : Limits) (path : String) (offset : UInt64) (data : Bytes) (now : Readings) :
    Call Nat := do
  let stat ← fileStat limits path
  let stop := offset.toNat + data.length
  Call.check (stop ≤ limits.maxFileLen) .fileTooLarge
  let change ← writeContent limits path stat offset.toNat stop data
  let _ ← Metadata.update path change now
  return data.length

def growTo (limits : Limits) (path : String) (chunk size position : Nat) : Call Unit :=
  if position < size then
    let length := min chunk (size - position)
    if 0 < length then do
      let _ ← Content.write limits path position (Bytes.zeros length)
      growTo limits path chunk size (position + length)
    else
      -- An empty chunk would go on for ever.
      Call.crash
  else
    return ()
termination_by size - position

def resizeContent (limits : Limits) (path : String) (stat : StatRecord) (size : Nat) :
    Call Unit := do
  let old := stat.size.toNat
  if size < old then
    Content.truncate limits path size
  else if old < size then
    dropUnrecordedTail limits path stat
    growTo limits path (min limits.blockSize (size - old)) size old
  else
    return ()

-- Sets the length of a file. Where it grows it is filled with zeros, so the recorded size is the
-- length of the content.
def truncate (limits : Limits) (path : String) (size : UInt64) (now : Readings) :
    Call StatRecord := do
  let stat ← fileStat limits path
  Call.check (size.toNat ≤ limits.maxFileLen) .fileTooLarge
  resizeContent limits path stat size.toNat
  Metadata.update path (.size size) now

def chmod (limits : Limits) (path : String) (mode : UInt32) (now : Readings) : Call StatRecord := do
  Call.ofExcept (Path.checkLength path limits.maxKeyLen)
  Metadata.update path (.mode mode) now

-- Sets the access and the modify time; without a pair, both to now.
def utimens (limits : Limits) (path : String) (times : Option (TimeUpdate × TimeUpdate))
    (now : Readings) : Call StatRecord := do
  Call.ofExcept (Path.checkLength path limits.maxKeyLen)
  Metadata.update path (.times times) now

-- The names `.` and `..`, then the children from index `offset` on.
def readdir (limits : Limits) (path : String) (offset : UInt64) : Call (List String) := do
  Call.ofExcept (Path.checkLength path limits.maxKeyLen)
  requireDirectory path
  let dentry ← Directory.get path
  return "." :: ".." :: dentry.children.drop offset.toNat

end Tree

inductive Operation where
  | bootstrap
  | getattr (path : String) (owner : Caller)
  | openFile (path : String) (flags : Int32)
  | create (path : String) (mode : UInt32)
  | mkdir (path : String) (mode : UInt32)
  | unlink (path : String)
  | rmdir (path : String)
  | read (path : String) (offset : UInt64) (size : UInt32)
  | write (path : String) (offset : UInt64) (data : Bytes)
  | truncate (path : String) (size : UInt64)
  | chmod (path : String) (mode : UInt32)
  | utimens (path : String) (times : Option (TimeUpdate × TimeUpdate))
  | readdir (path : String) (offset : UInt64)
  deriving DecidableEq

inductive Answer where
  | nothing
  | attributes (attributes : Attributes)
  | stat (stat : StatRecord)
  | data (data : Bytes)
  | count (count : Nat)
  | names (names : List String)
  deriving DecidableEq

namespace Operation

-- `now` is what the clock shows each time that it is read. No call puts more than one record in
-- place or makes more than one change of a record.
def call (limits : Limits) (now : Readings) : Operation → Call Answer
  | bootstrap => (fun _ => .nothing) <$> Tree.bootstrap (now 0)
  | getattr path owner => .attributes <$> Tree.getattr limits path owner
  | openFile path flags => .stat <$> Tree.openFile limits path flags
  | create path mode => .stat <$> Tree.create limits path mode (now 0)
  | mkdir path mode => .stat <$> Tree.mkdir limits path mode (now 0)
  | unlink path => (fun _ => .nothing) <$> Tree.unlink limits path
  | rmdir path => (fun _ => .nothing) <$> Tree.rmdir limits path
  | read path offset size => .data <$> Tree.read limits path offset size now
  | write path offset data => .count <$> Tree.write limits path offset data now
  | truncate path size => .stat <$> Tree.truncate limits path size now
  | chmod path mode => .stat <$> Tree.chmod limits path mode now
  | utimens path times => .stat <$> Tree.utimens limits path times now
  | readdir path offset => .names <$> Tree.readdir limits path offset

end Operation

end DocTree
