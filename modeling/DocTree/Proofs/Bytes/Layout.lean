import DocTree.Bytes.LittleEndian.Lemmas
import DocTree.Document.Stat

namespace DocTree

namespace Layout

class Lawful (α : Type) [Layout α] : Prop where
  decode_encode : ∀ (value : α) (rest : Bytes),
    Layout.decode (Layout.encode value ++ rest) = some (value, rest)

export Lawful (decode_encode)

theorem takeNat_encode (width n : Nat) (rest : Bytes) :
    takeNat width (LittleEndian.encode width n ++ rest) = some (n % 256 ^ width, rest) := by
  have h := Bytes.splitAt?_append (LittleEndian.encode width n) rest
  rw [LittleEndian.length_encode] at h
  simp [takeNat, h, LittleEndian.decode_encode]

instance : Lawful UInt32 where
  decode_encode word rest := by
    simp [Layout.decode, Layout.encode, takeNat_encode]

instance : Lawful UInt64 where
  decode_encode word rest := by
    simp [Layout.decode, Layout.encode, takeNat_encode]

instance : Lawful TimeSpec where
  decode_encode time rest := by
    simp only [Layout.decode, Layout.encode, List.append_assoc]
    simp [takeNat_encode]

instance : Lawful StatRecord where
  decode_encode stat rest := by
    simp only [Layout.decode, Layout.encode, List.append_assoc]
    simp [takeNat_encode]

end Layout

namespace StatRecord

theorem length_encode (stat : StatRecord) : stat.encode.length = width := by
  simp [encode, Layout.encode, LittleEndian.length_encode, width]

theorem decode_encode (stat : StatRecord) : decode stat.encode = .ok stat := by
  have h := Layout.decode_encode stat []
  rw [List.append_nil] at h
  have hl : ¬stat.encode.length ≠ width := fun h => h stat.length_encode
  unfold decode
  rw [if_neg hl]
  simp only [encode, h]

end StatRecord

end DocTree
