import DocTree.Disk.Format
import DocTree.Kernel.Call
import DocTree.Store.Faults

namespace DocTree

-- The clock of a session stands still while a call runs.
instance : Coe TimeSpec Readings := ⟨fun time _ => time⟩

structure OpenStore where
  -- The path of the file that it is flushed to, if it has one.
  path : Option String
  maxSize : Nat
  store : FaultyStore
  -- Whether it was opened by itself.
  apart : Bool

-- At most one store is in use at a time. It was opened by itself or came with the filesystem that
-- was loaded from it.
structure Session where
  clock : Clock := .start
  disk : Disk := ∅
  store : Option OpenStore := none
  limits : Option Limits := none
  -- The inode numbers of the filesystem in use, if it is mounted.
  mounted : Option Mounted := none

namespace Session

def inMemory (limits : Limits) (maxSize : Nat) (rules : List FaultRule) : Session where
  store := some ⟨none, maxSize, ⟨Image.empty, rules⟩, true⟩
  limits := some limits

def now (session : Session) : TimeSpec := session.clock.now

def tick (session : Session) : Session := { session with clock := session.clock.advance }

def run {α : Type} (session : Session) (scope : String) (call : Call α) :
    Option (Outcome α × Session) :=
  session.store.map fun inUse =>
    -- A store that came with a filesystem knows one scope only.
    let scope := if inUse.apart then scope else defaultScope
    let (outcome, store) := call.run (FaultyStore.backend inUse.maxSize scope) inUse.store
    (outcome, { session with store := some { inUse with store } })

def setRules (session : Session) (rules : List FaultRule) : Session :=
  { session with store := session.store.map fun inUse =>
      { inUse with store := { inUse.store with rules } } }

-- Writes the store in use to its file; a store in memory has nothing to write.
def flush (session : Session) : Except VolumeError Unit × Session :=
  match session.store with
  | some ⟨some path, maxSize, store, apart⟩ =>
    let (result, volume, disk) := Volume.flush ⟨path, store.image⟩ session.now session.disk
    let store := { store with image := volume.image }
    (result, { session with disk, store := some ⟨some path, maxSize, store, apart⟩ })
  | _ => (.ok (), session)

-- Drops the store and the filesystem, unflushed.
def release (session : Session) : Session :=
  { session with store := none, limits := none, mounted := none }

def hold (session : Session) (volume : Volume) (maxSize : Nat) (apart : Bool) : Session :=
  { session with store := some ⟨some volume.path, maxSize, ⟨volume.image, []⟩, apart⟩ }

def load (session : Session) (path : String) : Except VolumeError Limits × Session :=
  let session := session.release
  match Volume.mount path session.now session.disk with
  | .error error => (.error error, session)
  | .ok (mounted, volume) =>
    (.ok mounted.limits, { session.hold volume maxDocumentSize false with
      limits := some mounted.limits, mounted := some mounted })

def createStore (session : Session) (path : String) (blockSize maxBlocks : UInt64) (maxSize : Nat) :
    Except VolumeError Header × Session :=
  let session := session.release
  let header := Header.new blockSize maxBlocks session.now
  match Volume.create path header session.now session.disk with
  | (.error error, disk) => (.error error, { session with disk })
  | (.ok volume, disk) => (.ok volume.image.header, { session with disk }.hold volume maxSize true)

def openStore (session : Session) (path : String) (maxSize : Nat) :
    Except VolumeError Header × Session :=
  let session := session.release
  match Volume.load path session.now session.disk with
  | .error error => (.error error, session)
  | .ok volume => (.ok volume.image.header, session.hold volume maxSize true)

def format (session : Session) (path : String) (blockSize maxBlocks : UInt64) :
    Except VolumeError Unit × Session :=
  let (result, disk) := Volume.format path blockSize maxBlocks session.now session.disk
  (result, { session with disk })

def mount (session : Session) (limits : Limits) : Option (Outcome Unit × Session) :=
  (session.run defaultScope (Mounted.new limits session.now)).map fun
    | (.done mounted, session) =>
      (.done (), { session with limits := some limits, mounted := some mounted })
    | (.failed error, session) => (.failed error, session)
    | (.crashed, session) => (.crashed, session)

def runMounted {α : Type} (session : Session) (call : Mounted → Call (α × Mounted)) :
    Option (Outcome α × Session) := do
  let mounted ← session.mounted
  let (outcome, session) ← session.run defaultScope (call mounted)
  match outcome with
  | .done (answer, mounted) => return (.done answer, { session with mounted := some mounted })
  | .failed error => return (.failed error, session)
  | .crashed => return (.crashed, session)

-- The session with the store and filesystem of another.
def withUseOf (session other : Session) : Session :=
  { session with store := other.store, limits := other.limits, mounted := other.mounted }

end Session

end DocTree
