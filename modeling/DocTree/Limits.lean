import DocTree.Bytes.Layout
import DocTree.Bytes.Word
import DocTree.Error

namespace DocTree

-- The largest value that the store takes for one document: 20 MiB.
def maxDocumentSize : Nat := 20 * 1024 * 1024

-- The most blocks that one file may span.
def maxBlockCount : Nat := 65536

def defaultBlockCount : Nat := 64

-- The longest path, in bytes, that is accepted as a document key.
def maxKeyLength : Nat := 250

-- How often a version-checked change of a document is attempted.
def maxAttempts : Nat := 8

structure Limits where
  maxKeyLen : Nat := maxKeyLength
  blockSize : Nat := maxDocumentSize
  maxBlocks : Nat := defaultBlockCount
  deriving DecidableEq, Repr, Inhabited

namespace Limits

def maxFileLen (limits : Limits) : Nat := Word.mulSat limits.blockSize limits.maxBlocks

-- A block fits into one document, and no length is zero.
structure Valid (limits : Limits) : Prop where
  blockSize_pos : 0 < limits.blockSize
  blockSize_le : limits.blockSize ≤ maxDocumentSize
  maxBlocks_pos : 0 < limits.maxBlocks
  maxBlocks_le : limits.maxBlocks ≤ maxBlockCount
  maxKeyLen_pos : 0 < limits.maxKeyLen

def validate (limits : Limits) : Except FsError Unit :=
  if limits.blockSize = 0 ∨ limits.blockSize > maxDocumentSize ∨ limits.maxBlocks = 0 ∨
      limits.maxBlocks > maxBlockCount ∨ limits.maxKeyLen = 0 then
    .error .invalidArgument
  else
    .ok ()

theorem validate_eq_ok_iff (limits : Limits) : limits.validate = .ok () ↔ limits.Valid := by
  unfold validate
  constructor
  · intro h
    split at h
    · cases h
    · constructor <;> omega
  · intro h
    have h₁ := h.blockSize_pos
    have h₂ := h.blockSize_le
    have h₃ := h.maxBlocks_pos
    have h₄ := h.maxBlocks_le
    have h₅ := h.maxKeyLen_pos
    rw [if_neg (by omega)]

instance : Layout Limits where
  encode limits :=
    Layout.encode (UInt64.ofNat limits.maxKeyLen) ++
      Layout.encode (UInt64.ofNat limits.blockSize) ++
      Layout.encode (UInt64.ofNat limits.maxBlocks)
  decode bytes := do
    let (maxKeyLen, rest) ← Layout.decode (α := UInt64) bytes
    let (blockSize, rest) ← Layout.decode (α := UInt64) rest
    let (maxBlocks, rest) ← Layout.decode (α := UInt64) rest
    return (⟨maxKeyLen.toNat, blockSize.toNat, maxBlocks.toNat⟩, rest)

end Limits

end DocTree
