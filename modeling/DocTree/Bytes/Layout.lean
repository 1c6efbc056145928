import DocTree.Bytes.Digest
import DocTree.Bytes.Utf8
import Std.Data.ExtTreeMap

namespace DocTree

-- How the values of a type are laid out as bytes: fixed-width little-endian integers, one byte in
-- front of an optional value, and a 64-bit count in front of texts, byte strings and maps. `decode`
-- takes one value off the front.
class Layout (α : Type) where
  encode : α → Bytes
  decode : Bytes → Option (α × Bytes)

namespace Layout

def takeNat (width : Nat) (bytes : Bytes) : Option (Nat × Bytes) := do
  let (digits, rest) ← Bytes.splitAt? width bytes
  return (LittleEndian.decode digits, rest)

instance : Layout UInt32 where
  encode word := LittleEndian.encode 4 word.toNat
  decode bytes := do
    let (n, rest) ← takeNat 4 bytes
    return (UInt32.ofNat n, rest)

instance : Layout UInt64 where
  encode word := LittleEndian.encode 8 word.toNat
  decode bytes := do
    let (n, rest) ← takeNat 8 bytes
    return (UInt64.ofNat n, rest)

instance : Layout Int64 where
  encode word := encode word.toUInt64
  decode bytes := do
    let (word, rest) ← decode (α := UInt64) bytes
    return (word.toInt64, rest)

instance : Layout Bool where
  encode flag := [if flag then 1 else 0]
  decode
    | 0 :: rest => some (false, rest)
    | 1 :: rest => some (true, rest)
    | _ => none

instance : Layout Bytes where
  encode bytes := encode (UInt64.ofNat bytes.length) ++ bytes
  decode bytes := do
    let (length, rest) ← decode (α := UInt64) bytes
    Bytes.splitAt? length.toNat rest

instance : Layout String where
  encode text := encode (Utf8.encode text)
  decode bytes := do
    let (content, rest) ← decode (α := Bytes) bytes
    let text ← Utf8.decode content
    return (text, rest)

instance {α : Type} [Layout α] : Layout (Option α) where
  encode
    | none => [0]
    | some value => 1 :: encode value
  decode
    | 0 :: rest => some (none, rest)
    | 1 :: rest => do
      let (value, rest) ← decode rest
      return (some value, rest)
    | _ => none

instance {α β : Type} [Layout α] [Layout β] : Layout (α × β) where
  encode pair := encode pair.1 ++ encode pair.2
  decode bytes := do
    let (first, rest) ← decode bytes
    let (second, rest) ← decode rest
    return ((first, second), rest)

-- A digest has no count in front: its length is fixed.
instance : Layout Digest where
  encode digest := digest.bytes
  decode bytes := do
    let (front, rest) ← Bytes.splitAt? 32 bytes
    if h : front.length = 32 then some (⟨front, h⟩, rest) else none

-- Reads `count` entries; of two with one key the later stays.
def takeEntries {α : Type} [Layout α] :
    Nat → Std.ExtTreeMap String α → Bytes → Option (Std.ExtTreeMap String α × Bytes)
  | 0, found, bytes => some (found, bytes)
  | count + 1, found, bytes => do
    let (key, rest) ← decode (α := String) bytes
    let (value, rest) ← decode (α := α) rest
    takeEntries count (found.insert key value) rest

-- The entries in the order of their keys.
instance {α : Type} [Layout α] : Layout (Std.ExtTreeMap String α) where
  encode map :=
    encode (UInt64.ofNat map.size) ++
      map.toList.flatMap fun (key, value) => encode key ++ encode value
  decode bytes := do
    let (count, rest) ← decode (α := UInt64) bytes
    takeEntries count.toNat ∅ rest

end Layout

-- The digest of a value is that of its layout.
def digest {α : Type} [Layout α] (value : α) : Digest := Digest.ofBytes (Layout.encode value)

end DocTree
