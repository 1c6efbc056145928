import DocTree.Bytes.Layout

-- Writing values to a sink, piece by piece and in the order of their layout. A sink counts the
-- bytes that are written to it.

namespace DocTree

structure Sink where
  -- What the sink holds, the last piece first.
  pieces : List Bytes
  written : Nat

namespace Sink

-- A sink that holds something already, before the first write.
def behind (content : Bytes) : Sink := ⟨[content], 0⟩

def content (sink : Sink) : Bytes := sink.pieces.reverse.flatten

def write (sink : Sink) (bytes : Bytes) : Sink :=
  ⟨bytes :: sink.pieces, sink.written + bytes.length⟩

end Sink

class Streamed (α : Type) where
  stream : Sink → α → Sink

namespace Streamed

instance : Streamed UInt32 where
  stream sink word := sink.write (LittleEndian.encode 4 word.toNat)

instance : Streamed UInt64 where
  stream sink word := sink.write (LittleEndian.encode 8 word.toNat)

instance : Streamed Bytes where
  stream sink bytes := (stream sink (UInt64.ofNat bytes.length)).write bytes

instance : Streamed String where
  stream sink text := stream sink (Utf8.encode text)

instance {α : Type} [Streamed α] : Streamed (Option α) where
  stream
    | sink, none => sink.write [0]
    | sink, some value => stream (sink.write [1]) value

instance : Streamed Digest where
  stream sink digest := sink.write digest.bytes

def streamEntries {α : Type} [Streamed α] (sink : Sink) : List (String × α) → Sink
  | [] => sink
  | (key, value) :: rest => streamEntries (stream (stream sink key) value) rest

-- The entries in the order of their keys.
instance {α : Type} [Streamed α] : Streamed (Std.ExtTreeMap String α) where
  stream sink map := streamEntries (stream sink (UInt64.ofNat map.size)) map.toList

end Streamed

end DocTree
