import DocTree.Kernel.Mounted

namespace DocTree

inductive KernelCall where
  | lookup (parent : Nat) (name : Bytes)
  | getattr (ino : Nat)
  | setattr (ino : Nat) (mode : Option UInt32) (size : Option UInt64)
      (accessed modified : TimeUpdate.Wish)
  | openFile (ino : Nat) (flags : Int32)
  | create (parent : Nat) (name : Bytes) (mode umask : UInt32)
  | mkdir (parent : Nat) (name : Bytes) (mode umask : UInt32)
  | unlink (parent : Nat) (name : Bytes)
  | rmdir (parent : Nat) (name : Bytes)
  | read (ino : Nat) (offset : Int64) (size : UInt32)
  | write (ino : Nat) (offset : Int64) (data : Bytes)
  -- A listing into a buffer of `size` bytes.
  | readdir (ino : Nat) (offset : Int64) (size : Nat)

-- One entry of a listing. `offset` is what a later listing passes to go on behind it.
structure ListedEntry where
  ino : Nat
  offset : Nat
  kind : EntryKind
  name : String
  deriving DecidableEq

inductive KernelReply where
  | error (errno : Nat)
  -- No reply can be made: a stored time has no place in the attributes.
  | crashed
  | entry (attr : FileAttr)
  | attr (attr : FileAttr)
  | opened
  | created (attr : FileAttr)
  | done
  | data (data : Bytes)
  | written (count : Nat)
  | entries (entries : List ListedEntry)

namespace KernelCall

def invalid : KernelReply := .error FsError.invalidArgument.errno

def replyAttr (mounted : Mounted) (path : String) (caller : Caller)
    (reply : FileAttr → KernelReply) : Call (KernelReply × Mounted) := do
  let (answer, mounted) ← mounted.fileAttr path caller
  match answer with
  | .error errno => return (.error errno, mounted)
  | .ok none => return (.crashed, mounted)
  | .ok (some attr) => return (reply attr, mounted)

def withPath (mounted : Mounted) (ino : Nat) (next : String → Call (KernelReply × Mounted)) :
    Call (KernelReply × Mounted) :=
  match mounted.pathOf ino with
  | .ok path => next path
  | .error errno => return (.error errno, mounted)

def withChild (mounted : Mounted) (parent : Nat) (name : Bytes)
    (next : String → Call (KernelReply × Mounted)) : Call (KernelReply × Mounted) :=
  match mounted.childPath parent name with
  | .ok path => next path
  | .error errno => return (.error errno, mounted)

def withAnswer {α : Type} (mounted : Mounted) (call : Call α)
    (next : α → Call (KernelReply × Mounted)) : Call (KernelReply × Mounted) := do
  match ← call.attempt with
  | .ok answer => next answer
  | .error error => return (.error error.errno, mounted)

-- Makes the changes that were asked for, one after the other: mode, then size, then times. Each of
-- them has the readings of the clock that the one in front of it cannot have used up.
def setAttributes (limits : Limits) (path : String) (mode : Option UInt32) (size : Option UInt64)
    (accessed modified : TimeUpdate.Wish) (now : Readings) : Call Unit := do
  setMode
  setSize
  setTimes
where
  setMode : Call Unit :=
    match mode with
    | some mode => do let _ ← Tree.chmod limits path mode now
    | none => return ()
  setSize : Call Unit :=
    match size with
    | some size => do let _ ← Tree.truncate limits path size (now.after maxAttempts)
    | none => return ()
  setTimes : Call Unit :=
    match accessed, modified with
    | .omit, .omit => return ()
    | accessed, modified => do
      let accessed ← Call.ofExcept (TimeUpdate.ofWish accessed)
      let modified ← Call.ofExcept (TimeUpdate.ofWish modified)
      let _ ← Tree.utimens limits path (some (accessed, modified)) (now.after (2 * maxAttempts))

-- How many bytes of the buffer an entry takes.
def entryLength (name : String) : Nat := (24 + name.utf8ByteSize + 7) / 8 * 8

-- The kind of a path; one that has no readable record is of unknown kind.
def kindOf (limits : Limits) (path : String) (caller : Caller) : Call FileKind := do
  match ← (Tree.getattr limits path caller).attempt with
  | .ok attributes => return attributes.stat.kind
  | .error _ => return .unknown

def describeEntry (mounted : Mounted) (caller : Caller) (ino : Nat) (path name : String) :
    Call ((Nat × EntryKind) × Mounted) := do
  if name = "." then
    return ((ino, .directory), mounted)
  else if name = ".." then
    let (number, mounted) := mounted.numberOf (Path.parent path)
    return ((number, .directory), mounted)
  else
    let child := Path.join path name
    let kind ← kindOf mounted.limits child caller
    let (number, mounted) := mounted.numberOf child
    return ((number, kind.entryKind), mounted)

-- The offset of the entry at `index` of a listing whose children begin with number `first`: 1 and 2
-- for the two names in front, `n + 3` for child `n`.
def entryOffset (first index : Nat) : Nat := if index < 2 then index + 1 else first + index + 1

-- Puts entries into a buffer with `space` bytes left, up to the first that does not fit.
def listEntries (caller : Caller) (ino : Nat) (path : String) (offset first : Nat)
    (mounted : Mounted) (space index : Nat) (listed : List ListedEntry) :
    List String → Call (List ListedEntry × Mounted)
  | [] => return (listed.reverse, mounted)
  | name :: names => do
    let entry := entryOffset first index
    if entry ≤ offset then
      listEntries caller ino path offset first mounted space (index + 1) listed names
    else
      -- The path is numbered even if the buffer turns out to be full.
      let ((number, kind), mounted) ← describeEntry mounted caller ino path name
      if space < entryLength name then
        return (listed.reverse, mounted)
      else
        listEntries caller ino path offset first mounted (space - entryLength name) (index + 1)
          (⟨number, entry, kind, name⟩ :: listed) names

def call (mounted : Mounted) (caller : Caller) (now : Readings) :
    KernelCall → Call (KernelReply × Mounted)
  | lookup parent name =>
    withChild mounted parent name fun path => replyAttr mounted path caller .entry
  | getattr ino => withPath mounted ino fun path => replyAttr mounted path caller .attr
  | setattr ino mode size accessed modified =>
    withPath mounted ino fun path =>
      withAnswer mounted (setAttributes mounted.limits path mode size accessed modified now)
        fun _ => replyAttr mounted path caller .attr
  | openFile ino flags =>
    withPath mounted ino fun path =>
      withAnswer mounted (Tree.openFile mounted.limits path flags)
        fun _ => return (.opened, mounted)
  | create parent name mode umask =>
    withChild mounted parent name fun path =>
      withAnswer mounted (Tree.create mounted.limits path (mode &&& ~~~umask) (now 0))
        fun _ => replyAttr mounted path caller .created
  | mkdir parent name mode umask =>
    withChild mounted parent name fun path =>
      withAnswer mounted (Tree.mkdir mounted.limits path (mode &&& ~~~umask) (now 0))
        fun _ => replyAttr mounted path caller .entry
  | unlink parent name =>
    withChild mounted parent name fun path =>
      withAnswer mounted (Tree.unlink mounted.limits path)
        fun _ => return (.done, mounted.forget path)
  | rmdir parent name =>
    withChild mounted parent name fun path =>
      withAnswer mounted (Tree.rmdir mounted.limits path)
        fun _ => return (.done, mounted.forget path)
  | read ino offset size =>
    if offset < 0 then
      return (invalid, mounted)
    else
      withPath mounted ino fun path =>
        withAnswer mounted (Tree.read mounted.limits path offset.toUInt64 size now)
          fun data => return (.data data, mounted)
  | write ino offset data =>
    if offset < 0 then
      return (invalid, mounted)
    else
      withPath mounted ino fun path =>
        withAnswer mounted (Tree.write mounted.limits path offset.toUInt64 data now)
          fun count => return (.written count, mounted)
  | readdir ino offset size =>
    if offset < 0 then
      return (invalid, mounted)
    else
      withPath mounted ino fun path =>
        let offset := offset.toUInt64.toNat
        -- The first two entries are no children.
        let first := offset - 2
        withAnswer mounted (Tree.readdir mounted.limits path (UInt64.ofNat first)) fun names => do
          let (entries, mounted) ← listEntries caller ino path offset first mounted size 0 [] names
          return (.entries entries, mounted)

end KernelCall

end DocTree
