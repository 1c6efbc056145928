import DocTree.Bytes.Word
import DocTree.Limits
import DocTree.Path
import DocTree.Tree.Metadata

namespace DocTree.Content

-- Content is a dense run of blocks: every block but the last has exactly the block size, and a
-- write past the end fills the gap with zeros. Offsets and lengths are 64-bit words: what a word
-- has to hold goes through `Word`, a cut into a block through `Bytes.slice?` or `Bytes.patch?`, and
-- a call crashes where one of them has no answer.

def fetch (path : String) (index : Nat) : Call (Option (Bytes × UInt64)) := do
  match ← (Document.get .blocks (Path.blockKey path index)).attempt with
  | .ok response => return some (response.value, response.version)
  | .error .notFound => return none
  | .error error => Call.fail error

-- A write that lost a race: the block has a new version, or came into being.
def isStale (error : FsError) : Bool := error = .conflict ∨ error = .alreadyExists

-- Reads a block, changes it and writes it back. A missing block counts as empty if `create` is set;
-- otherwise it is left alone, and the answer is `none`.
def modifyOnce {β : Type} (path : String) (index : Nat) (create : Bool)
    (change : Bytes → Option (Bytes × β)) : Call (Option (Option β)) := do
  let key := Path.blockKey path index
  match ← fetch path index with
  | some (block, version) =>
    let (block, answer) ← Call.ofOption (change block)
    let stored ← Document.stored isStale (Document.replace .blocks key block (some version))
    return if stored then some (some answer) else none
  | none =>
    if create then
      let (block, answer) ← Call.ofOption (change [])
      let stored ← Document.stored isStale (Document.insert .blocks key block)
      return if stored then some (some answer) else none
    else
      return some none

-- Changes a block; if another client changes it in between, from a fresh read again.
def modify {β : Type} (path : String) (index : Nat) (create : Bool)
    (change : Bytes → Option (Bytes × β)) : Call (Option β) :=
  Call.retry (fun _ => modifyOnce path index create change) maxAttempts

-- The part of a block from `position` up to `stop`, and the position behind it; nothing when the
-- block ends before `position`.
def cut? (block : Bytes) (start position stop : Nat) : Option (Option (Bytes × Nat)) := do
  let first ← Word.sub? position start
  if block.length ≤ first then
    return none
  else
    let last := min (← Word.sub? stop start) block.length
    return some (← block.slice? first last, ← Word.add? start last)

-- Reads from `position` up to `stop`. `parts` holds what was read before, last part first.
def readFrom (blockSize : Nat) (path : String) (stop position : Nat) (parts : List Bytes) :
    Call Bytes :=
  if position < stop then do
    let index := position / blockSize
    let start ← Call.ofOption (Word.mul? index blockSize)
    match ← fetch path index with
    | none => return parts.reverse.flatten
    | some (block, _) =>
      match ← Call.ofOption (cut? block start position stop) with
      | none => return parts.reverse.flatten
      | some (part, next) =>
        -- A short block is the last one.
        if block.length < blockSize then
          return (part :: parts).reverse.flatten
        else if position < next then
          readFrom blockSize path stop next (part :: parts)
        else
          Call.crash
  else
    return parts.reverse.flatten
termination_by stop - position

def read (limits : Limits) (path : String) (offset length : Nat) : Call Bytes :=
  readFrom limits.blockSize path (Word.addSat offset length) offset []

def fill (blockSize : Nat) (block : Bytes) : Option (Bytes × Unit) :=
  some (block.extend blockSize, ())

def isFull (blockSize : Nat) (path : String) (index : Nat) : Call Bool := do
  match ← fetch path index with
  | some (block, _) => return block.length = blockSize
  | none => return false

def fillBlock (blockSize : Nat) (path : String) (index : Nat) : Call Unit := do
  if ← isFull blockSize path index then
    return ()
  else
    let _ ← modify path index true (fill blockSize)

def fillBlocks (blockSize : Nat) (path : String) : List Nat → Call Unit
  | [] => return ()
  | index :: rest => do
    fillBlock blockSize path index
    fillBlocks blockSize path rest

-- Makes every block before `first` exist and be full.
def fillGap (blockSize : Nat) (path : String) (first : Nat) : Call Unit := do
  if first = 0 then
    return ()
  -- Blocks are dense: a full one means that every earlier one is full.
  else if ← isFull blockSize path (first - 1) then
    return ()
  else
    fillBlocks blockSize path (List.range first)

-- What a write does to one block: the range inside the block and the bytes for it.
structure Patch where
  first : Nat
  last : Nat
  source : Bytes

-- The part of `data`, which goes from `offset` up to `stop`, that falls into a block.
def patchOf? (blockSize offset stop : Nat) (data : Bytes) (index : Nat) : Option Patch := do
  let start ← Word.mul? index blockSize
  let first ← Word.sub? (max offset start) start
  let last ← Word.sub? (min stop (← Word.add? start blockSize)) start
  let position ← Word.sub? (← Word.add? start first) offset
  let source ← data.slice? position (← Word.add? position (← Word.sub? last first))
  return ⟨first, last, source⟩

-- Writes into a block, extended with zeros as far as needed, and tells whether it grew.
def Patch.apply (patch : Patch) (block : Bytes) : Option (Bytes × Bool) := do
  let changed ← (block.extend patch.last).patch? patch.first patch.last patch.source
  return (changed, decide (block.length < patch.last))

-- Writes `data` from `offset` up to `stop`, block by block. The answer is `stop` if the block grew
-- that the write ends in, block `last`: only that one can be short, so the content grew with it.
def writeBlocks (blockSize : Nat) (path : String) (offset stop : Nat) (data : Bytes) (last : Nat)
    (grownTo : Option Nat) : List Nat → Call (Option Nat)
  | [] => return grownTo
  | index :: rest => do
    let patch ← Call.ofOption (patchOf? blockSize offset stop data index)
    let grown ← modify path index true patch.apply
    let grownTo := if index = last ∧ grown = some true then some stop else grownTo
    writeBlocks blockSize path offset stop data last grownTo rest

def writeUpTo (blockSize : Nat) (path : String) (offset stop : Nat) (data : Bytes) :
    Call (Option Nat) := do
  let first := offset / blockSize
  let last := (← Call.ofOption (Word.sub? stop 1)) / blockSize
  fillGap blockSize path first
  writeBlocks blockSize path offset stop data last none (List.range' first (last + 1 - first))

-- Writes `data` at `offset`. The answer is the new length of the content if that grew.
def write (limits : Limits) (path : String) (offset : Nat) (data : Bytes) : Call (Option Nat) := do
  let stop ← Call.ofExcept ((Word.add? offset data.length).elim (.error .fileTooLarge) .ok)
  Call.check (stop ≤ limits.maxFileLen) .fileTooLarge
  if data = [] then return none else writeUpTo limits.blockSize path offset stop data

-- Removes up to `count` blocks from `index` on, up to the first that is missing.
def removeFrom (path : String) (index : Nat) : Nat → Call Unit
  | 0 => return ()
  | count + 1 => do
    match ← (Document.remove .blocks (Path.blockKey path index)).attempt with
    | .ok () => removeFrom path (index + 1) count
    | .error .notFound => return ()
    | .error error => Call.fail error

def remove (limits : Limits) (path : String) : Call Unit := removeFrom path 0 limits.maxBlocks

def trim (path : String) (index length : Nat) : Call Unit := do
  match ← fetch path index with
  | some (block, _) =>
    if block.length > length then
      let _ ← modify path index false fun block => some (block.take length, ())
    else
      return ()
  | none => return ()

def removeRest (limits : Limits) (path : String) (index : Nat) : Call Unit :=
  removeFrom path index (limits.maxBlocks - index)

-- Shrinks the content to `length` bytes; shorter content stays as it is.
def truncate (limits : Limits) (path : String) (length : Nat) : Call Unit := do
  let boundary := length / limits.blockSize
  let within := length % limits.blockSize
  if length = 0 then
    remove limits path
  else if within = 0 then
    removeRest limits path boundary
  else
    trim path boundary within
    removeRest limits path (← Call.ofOption (Word.add? boundary 1))

end DocTree.Content
