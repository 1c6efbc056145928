import DocTree.Document.Stat

namespace DocTree

-- The user and group that a call is made for. They are reported as the owner of every path.
structure Caller where
  uid : UInt32
  gid : UInt32
  deriving DecidableEq, Repr

-- Process 0 is the kernel itself: its requests are made for the user of this process.
def Caller.ofRequest (self requested : Caller) (pid : UInt32) : Caller :=
  if pid = 0 then self else requested

structure Attributes where
  stat : StatRecord
  owner : Caller
  deriving DecidableEq, Repr

structure FileAttr where
  ino : Nat
  size : UInt64
  -- The content in units of 512 bytes, rounded up.
  blocks : UInt64
  accessedAt : Instant
  modifiedAt : Instant
  changedAt : Instant
  createdAt : Instant
  kind : EntryKind
  permissions : UInt16
  links : UInt32
  owner : Caller
  device : UInt32
  blockSize : UInt32
  flags : UInt32

-- The attributes under inode number `ino`. There are none when a stored time lies past the last
-- instant.
def Attributes.fileAttr? (attributes : Attributes) (ino : Nat) (blockSize : UInt32) :
    Option FileAttr := do
  let stat := attributes.stat
  let accessedAt ← Instant.ofTimeSpec? stat.accessedAt
  let modifiedAt ← Instant.ofTimeSpec? stat.modifiedAt
  let changedAt ← Instant.ofTimeSpec? stat.changedAt
  return {
    ino
    size := stat.size
    blocks := (stat.size + 511) / 512
    accessedAt
    modifiedAt
    changedAt
    createdAt := Instant.epoch
    kind := stat.kind.entryKind
    permissions := stat.permissions.toUInt16
    links := if stat.isDirectory then 2 else 1
    owner := attributes.owner
    device := 0
    blockSize
    flags := 0 }

end DocTree
