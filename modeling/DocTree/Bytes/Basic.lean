namespace DocTree

abbrev Bytes := List UInt8

namespace Bytes

def zeros (count : Nat) : Bytes := List.replicate count 0

-- The bytes with zeros appended up to `length`; longer byte strings stay as they are.
def extend (bytes : Bytes) (length : Nat) : Bytes := bytes ++ zeros (length - bytes.length)

-- The bytes from position `first` up to `last`. There is no answer for bounds that are reversed or
-- reach past the end.
def slice? (bytes : Bytes) (first last : Nat) : Option Bytes :=
  if first ≤ last ∧ last ≤ bytes.length then some ((bytes.take last).drop first) else none

-- The bytes with the range from `first` up to `last` replaced by `source`, which has to have the
-- length of the range.
def patch? (bytes : Bytes) (first last : Nat) (source : Bytes) : Option Bytes :=
  if first ≤ last ∧ last ≤ bytes.length ∧ source.length = last - first then
    some (bytes.take first ++ source ++ bytes.drop last)
  else
    none

-- The first `count` bytes and the rest, if there are that many.
def splitAt? (count : Nat) (bytes : Bytes) : Option (Bytes × Bytes) :=
  go count [] bytes
where
  go : Nat → Bytes → Bytes → Option (Bytes × Bytes)
    | 0, taken, rest => some (taken.reverse, rest)
    | _ + 1, _, [] => none
    | n + 1, taken, byte :: rest => go n (byte :: taken) rest

theorem length_zeros (count : Nat) : (zeros count).length = count := List.length_replicate

theorem length_extend (bytes : Bytes) (length : Nat) :
    (bytes.extend length).length = max bytes.length length := by
  simp only [extend, List.length_append, length_zeros]
  omega

theorem slice?_eq_some {bytes : Bytes} {first last : Nat} (h : first ≤ last)
    (hl : last ≤ bytes.length) : bytes.slice? first last = some ((bytes.take last).drop first) :=
  if_pos ⟨h, hl⟩

theorem patch?_eq_some {bytes source : Bytes} {first last : Nat} (h : first ≤ last)
    (hl : last ≤ bytes.length) (hs : source.length = last - first) :
    bytes.patch? first last source = some (bytes.take first ++ source ++ bytes.drop last) :=
  if_pos ⟨h, hl, hs⟩

private theorem splitAt?_go (front rest taken : Bytes) :
    splitAt?.go front.length taken (front ++ rest) = some (taken.reverse ++ front, rest) := by
  induction front generalizing taken with
  | nil => simp [splitAt?.go]
  | cons byte front ih => simp [splitAt?.go, ih]

-- A front of known length comes off whole.
theorem splitAt?_append (front rest : Bytes) :
    splitAt? front.length (front ++ rest) = some (front, rest) := by
  simp [splitAt?, splitAt?_go]

end Bytes

end DocTree
