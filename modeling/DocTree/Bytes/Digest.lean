import DocTree.Bytes.LittleEndian

namespace DocTree

-- A BLAKE3 digest. The input is cut into chunks and each chunk into blocks, which go through
-- `compress` one after the other. The chunks are the leaves of a binary tree whose left subtrees
-- are full; a parent compresses the chaining values of its two children, and the digest is the
-- compression of the root, marked as such.
structure Digest where
  bytes : Bytes
  length_eq : bytes.length = 32
  deriving DecidableEq

namespace Digest

-- The digest field of an image before its digest is known.
def zero : Digest := ⟨Bytes.zeros 32, by decide⟩

instance : Inhabited Digest := ⟨zero⟩

abbrev Chaining := Vector UInt32 8
abbrev Block := Vector UInt32 16

-- The chaining value that every chunk starts from.
def start : Chaining :=
  #v[0x6a09e667, 0xbb67ae85, 0x3c6ef372, 0xa54ff53a, 0x510e527f, 0x9b05688c, 0x1f83d9ab, 0x5be0cd19]

-- Between rounds word `i` of the block is replaced by word `order[i]`.
def order : Vector (Fin 16) 16 := #v[2, 6, 3, 10, 7, 0, 4, 13, 1, 11, 12, 5, 9, 14, 15, 8]

def chunkStart : UInt32 := 1
def chunkEnd : UInt32 := 2
def parent : UInt32 := 4
def root : UInt32 := 8

def blockLength : Nat := 64
def chunkLength : Nat := 1024

def rotateRight (word count : UInt32) : UInt32 := (word >>> count) ||| (word <<< (32 - count))

-- Mixes two words of the block into a column or a diagonal of the state.
def mix (state : Block) (a b c d : Fin 16) (x y : UInt32) : Block :=
  let va := state[a] + state[b] + x
  let vd := rotateRight (state[d] ^^^ va) 16
  let vc := state[c] + vd
  let vb := rotateRight (state[b] ^^^ vc) 12
  let va := va + vb + y
  let vd := rotateRight (vd ^^^ va) 8
  let vc := vc + vd
  let vb := rotateRight (vb ^^^ vc) 7
  (((state.set a va).set b vb).set c vc).set d vd

-- The four columns, then the four diagonals.
def round (state block : Block) : Block :=
  let state := mix state 0 4 8 12 block[0] block[1]
  let state := mix state 1 5 9 13 block[2] block[3]
  let state := mix state 2 6 10 14 block[4] block[5]
  let state := mix state 3 7 11 15 block[6] block[7]
  let state := mix state 0 5 10 15 block[8] block[9]
  let state := mix state 1 6 11 12 block[10] block[11]
  let state := mix state 2 7 8 13 block[12] block[13]
  mix state 3 4 9 14 block[14] block[15]

def rounds : Nat → Block → Block → Block
  | 0, state, _ => state
  | n + 1, state, block => rounds n (round state block) (order.map fun i => block[i])

-- One compression before it is carried out. A chunk's last block and a parent's only block stay in
-- this form until it is known whether they are the root.
structure Node where
  chaining : Chaining
  block : Block
  counter : UInt64
  length : UInt32
  flags : UInt32

-- Seven rounds, folded into a chaining value.
def Node.compress (node : Node) : Chaining :=
  let state : Block :=
    (node.chaining ++ #v[0x6a09e667, 0xbb67ae85, 0x3c6ef372, 0xa54ff53a, node.counter.toUInt32,
      (node.counter >>> 32).toUInt32, node.length, node.flags]).cast (by decide)
  let state := rounds 7 state node.block
  Vector.ofFn fun i => state.get ⟨i.val, by omega⟩ ^^^ state.get ⟨i.val + 8, by omega⟩

-- The sixteen words of at most 64 bytes, with zeros at the end.
def wordsOf (bytes : Bytes) : Block :=
  Vector.ofFn fun i =>
    UInt32.ofNat (LittleEndian.decode ((bytes.drop (4 * i.val)).take 4))

-- The last block of a chunk, with all earlier ones compressed into its chaining value.
def chunkNode (counter : UInt64) (chaining : Chaining) (flags : UInt32) (bytes : Bytes) : Node :=
  if bytes.length ≤ blockLength then
    ⟨chaining, wordsOf bytes, counter, UInt32.ofNat bytes.length, flags ||| chunkEnd⟩
  else
    let block := ⟨chaining, wordsOf (bytes.take blockLength), counter, 64, flags⟩
    chunkNode counter (Node.compress block) 0 (bytes.drop blockLength)
termination_by bytes.length
decreasing_by simp only [List.length_drop, blockLength] at *; omega

-- The length of the left subtree: the largest power of two of chunks that leaves some bytes.
def leftLength (length : Nat) : Nat := chunkLength <<< ((length - 1) / chunkLength).log2

theorem leftLength_pos (length : Nat) : 0 < leftLength length := by
  rw [leftLength, Nat.shiftLeft_eq]
  exact Nat.mul_pos (by decide) (Nat.two_pow_pos _)

theorem leftLength_lt {length : Nat} (h : chunkLength < length) : leftLength length < length := by
  rw [leftLength, Nat.shiftLeft_eq]
  unfold chunkLength at *
  have hq : (length - 1) / 1024 ≠ 0 := by omega
  have hp := Nat.log2_self_le hq
  omega

-- The root of the tree over `bytes`, whose first chunk has number `first`.
def treeNode (first : Nat) (bytes : Bytes) : Node :=
  if bytes.length ≤ chunkLength then
    chunkNode (UInt64.ofNat first) start chunkStart bytes
  else
    let left := leftLength bytes.length
    let front := treeNode first (bytes.take left)
    let back := treeNode (first + left / chunkLength) (bytes.drop left)
    ⟨start, (front.compress ++ back.compress).cast (by decide), 0, 64, parent⟩
termination_by bytes.length
decreasing_by
  · have := @leftLength_lt bytes.length (by omega)
    simp only [List.length_take]
    omega
  · have := leftLength_pos bytes.length
    simp only [List.length_drop]
    unfold chunkLength at *
    omega

def ofChaining (chaining : Chaining) : Digest :=
  ⟨chaining.toList.flatMap fun word => LittleEndian.encode 4 word.toNat, by
    simp [List.length_flatMap, LittleEndian.length_encode, List.map_const']⟩

def ofBytes (bytes : Bytes) : Digest :=
  let node := treeNode 0 bytes
  ofChaining { node with flags := node.flags ||| root }.compress

end Digest

end DocTree
