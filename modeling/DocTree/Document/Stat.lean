import DocTree.Document.Mode
import DocTree.Error
import DocTree.Time

namespace DocTree

structure StatRecord where
  -- File type and permission bits.
  mode : UInt32
  accessedAt : TimeSpec
  modifiedAt : TimeSpec
  changedAt : TimeSpec
  -- The length of the content; 0 for directories.
  size : UInt64
  deriving DecidableEq, Repr, Inhabited

inductive TimeUpdate where
  | now
  | omit
  | at (time : TimeSpec)
  deriving DecidableEq, Repr

inductive StatChange where
  | size (size : UInt64)
  -- The content changed and kept its length.
  | modified
  | accessed
  -- New permission bits; the file type stays.
  | mode (mode : UInt32)
  -- New access and modify times; without a pair both become now.
  | times (times : Option (TimeUpdate × TimeUpdate))
  deriving DecidableEq, Repr

namespace TimeUpdate

-- A time that the kernel asks for: left out, the clock's, or an instant, which must not lie before
-- the epoch.
inductive Wish where
  | omit
  | now
  | at (instant : Instant)

def ofWish : Wish → Except FsError TimeUpdate
  | .omit => .ok .omit
  | .now => .ok .now
  | .at instant =>
    match instant.toTimeSpec? with
    | some time => .ok (.at time)
    | none => .error .invalidArgument

end TimeUpdate

namespace StatRecord

def width : Nat := 48

def new (mode : UInt32) (now : TimeSpec) : StatRecord := ⟨mode, now, now, now, 0⟩

def kind (stat : StatRecord) : FileKind := Mode.kind stat.mode

def isDirectory (stat : StatRecord) : Bool := stat.kind = .directory

def isRegularFile (stat : StatRecord) : Bool := stat.kind = .regularFile

def permissions (stat : StatRecord) : UInt32 := Mode.permissions stat.mode

instance : Layout StatRecord where
  encode stat :=
    Layout.encode stat.mode ++ Layout.encode stat.accessedAt ++ Layout.encode stat.modifiedAt ++
      Layout.encode stat.changedAt ++ Layout.encode stat.size
  decode bytes := do
    let (mode, rest) ← Layout.decode bytes
    let (accessedAt, rest) ← Layout.decode rest
    let (modifiedAt, rest) ← Layout.decode rest
    let (changedAt, rest) ← Layout.decode rest
    let (size, rest) ← Layout.decode rest
    return (⟨mode, accessedAt, modifiedAt, changedAt, size⟩, rest)

def encode (stat : StatRecord) : Bytes := Layout.encode stat

def decode (bytes : Bytes) : Except FsError StatRecord :=
  if bytes.length ≠ width then
    .error (.corrupt s!"stat record is {bytes.length} bytes, expected {width}")
  else
    match Layout.decode bytes with
    | some (stat, _) => .ok stat
    | none => .error (.corrupt "stat record")

-- Sets a time as an update asks for. The flag tells whether any was set so far.
def setTime (now : TimeSpec) (state : StatRecord × Bool)
    (field : (StatRecord → TimeSpec → StatRecord) × TimeUpdate) : StatRecord × Bool :=
  match field.2 with
  | .omit => state
  | .now => (field.1 state.1 now, true)
  | .at time => (field.1 state.1 time, true)

def apply (stat : StatRecord) (change : StatChange) (now : TimeSpec) : StatRecord :=
  match change with
  | .size size => { stat with size, modifiedAt := now, changedAt := now }
  | .modified => { stat with modifiedAt := now, changedAt := now }
  | .accessed => { stat with accessedAt := now }
  | .mode mode =>
    { stat with mode := Mode.typeBits stat.mode ||| Mode.permissions mode, changedAt := now }
  | .times none => { stat with accessedAt := now, modifiedAt := now, changedAt := now }
  | .times (some (accessed, modified)) =>
    let fields := [(fun stat time => { stat with accessedAt := time }, accessed),
      (fun stat time => { stat with modifiedAt := time }, modified)]
    let (stat, changed) := fields.foldl (setTime now) (stat, false)
    if changed then { stat with changedAt := now } else stat

end StatRecord

end DocTree
