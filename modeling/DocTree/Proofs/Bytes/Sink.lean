import DocTree.Bytes.Sink
import DocTree.Time

namespace DocTree

namespace Sink

-- What a sink has become when some bytes were written to it.
structure Took (sink : Sink) (bytes : Bytes) (after : Sink) : Prop where
  content : after.content = sink.content ++ bytes
  written : after.written = sink.written + bytes.length

variable {sink mid after : Sink} {first second : Bytes}

theorem took_write (sink : Sink) (bytes : Bytes) : sink.Took bytes (sink.write bytes) where
  content := by simp [content, write]
  written := rfl

theorem Took.refl (sink : Sink) : sink.Took [] sink := ⟨(List.append_nil _).symm, rfl⟩

theorem Took.trans (h : sink.Took first mid) (hs : mid.Took second after) :
    sink.Took (first ++ second) after where
  content := by rw [hs.content, h.content, List.append_assoc]
  written := by rw [hs.written, h.written, List.length_append, Nat.add_assoc]

end Sink

open Layout Streamed

-- What is written piece by piece is the layout.
class LawfulStreamed (α : Type) [Layout α] [Streamed α] : Prop where
  took : ∀ (sink : Sink) (value : α), sink.Took (encode value) (stream sink value)

export LawfulStreamed (took)

namespace LawfulStreamed

instance : LawfulStreamed UInt32 := ⟨fun sink _ => sink.took_write _⟩

instance : LawfulStreamed UInt64 := ⟨fun sink _ => sink.took_write _⟩

instance : LawfulStreamed Digest := ⟨fun sink _ => sink.took_write _⟩

instance : LawfulStreamed Bytes :=
  ⟨fun sink bytes => (took sink (UInt64.ofNat bytes.length)).trans (Sink.took_write _ bytes)⟩

instance : LawfulStreamed String := ⟨fun sink text => took sink (Utf8.encode text)⟩

instance {α : Type} [Layout α] [Streamed α] [LawfulStreamed α] : LawfulStreamed (Option α) where
  took sink value := by
    cases value with
    | none => exact sink.took_write [0]
    | some value => exact (sink.took_write [1]).trans (took _ value)

instance : LawfulStreamed TimeSpec :=
  ⟨fun sink time => (took sink time.sec).trans (took _ time.nsec)⟩

variable {α : Type} [Layout α] [Streamed α] [LawfulStreamed α]

theorem took_entries (sink : Sink) (entries : List (String × α)) :
    sink.Took (entries.flatMap fun (key, value) => encode key ++ encode value)
      (streamEntries sink entries) := by
  induction entries generalizing sink with
  | nil => exact .refl sink
  | cons entry rest ih =>
    rw [List.flatMap_cons]
    exact ((took sink entry.1).trans (took _ entry.2)).trans (ih _)

instance : LawfulStreamed (Std.ExtTreeMap String α) :=
  ⟨fun sink map => (took sink (UInt64.ofNat map.size)).trans (took_entries _ map.toList)⟩

end LawfulStreamed

end DocTree
