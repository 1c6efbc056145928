import DocTree.Proofs.Bytes.Layout

namespace DocTree.Layout

-- Values take `width` bytes, and any `width` bytes are those of a value, whatever follows them.
class Fixed (α : Type) [Layout α] (width : outParam Nat) : Prop where
  length_encode : ∀ value : α, (Layout.encode value).length = width
  exists_decode : ∀ front : Bytes, front.length = width →
    ∃ value : α, Layout.encode value = front ∧
      ∀ rest, Layout.decode (front ++ rest) = some (value, rest)

export Fixed (length_encode exists_decode)

-- Any digits are those of a number.
theorem exists_takeNat {width : Nat} {front : Bytes} (hf : front.length = width) :
    ∃ n < 256 ^ width, LittleEndian.encode width n = front ∧
      ∀ rest, takeNat width (front ++ rest) = some (n, rest) := by
  subst hf
  refine ⟨LittleEndian.decode front, LittleEndian.decode_lt front,
    LittleEndian.encode_decode front, fun rest => ?_⟩
  simp [takeNat, Bytes.splitAt?_append]

instance : Fixed UInt32 4 where
  length_encode word := LittleEndian.length_encode 4 word.toNat
  exists_decode front hf := by
    obtain ⟨n, hlt, he, ht⟩ := exists_takeNat hf
    refine ⟨UInt32.ofNat n, ?_, fun rest => ?_⟩
    · change LittleEndian.encode 4 (UInt32.ofNat n).toNat = front
      rw [UInt32.toNat_ofNat_of_lt' hlt, he]
    · change (takeNat 4 (front ++ rest)).bind _ = _
      rw [ht]
      rfl

instance : Fixed UInt64 8 where
  length_encode word := LittleEndian.length_encode 8 word.toNat
  exists_decode front hf := by
    obtain ⟨n, hlt, he, ht⟩ := exists_takeNat hf
    refine ⟨UInt64.ofNat n, ?_, fun rest => ?_⟩
    · change LittleEndian.encode 8 (UInt64.ofNat n).toNat = front
      rw [UInt64.toNat_ofNat_of_lt' hlt, he]
    · change (takeNat 8 (front ++ rest)).bind _ = _
      rw [ht]
      rfl

-- A reader that goes on behind the value at the front of longer bytes.
theorem exists_front (α : Type) [Layout α] {width : Nat} [Fixed α width] (front : Bytes)
    (h : width ≤ front.length) :
    ∃ value : α, encode value = front.take width ∧ ∀ rest {β : Type} (next : α × Bytes → Option β),
      (decode (front ++ rest) >>= next) = next (value, front.drop width ++ rest) := by
  obtain ⟨value, he, hd⟩ := exists_decode (α := α) (front.take width) (List.length_take_of_le h)
  refine ⟨value, he, fun rest β next => ?_⟩
  have hfront := hd (front.drop width ++ rest)
  rw [← List.append_assoc, List.take_append_drop] at hfront
  rw [hfront]
  rfl

instance : Fixed TimeSpec 12 where
  length_encode time := by
    simp [encode, LittleEndian.length_encode]
  exists_decode front hf := by
    obtain ⟨sec, hs, hsec⟩ := exists_front UInt64 front (by omega)
    obtain ⟨nsec, hn, hnsec⟩ := exists_decode (α := UInt32) (front.drop 8) (by simp [hf])
    refine ⟨⟨sec, nsec⟩, ?_, fun rest => ?_⟩
    · change encode sec ++ encode nsec = front
      rw [hs, hn, List.take_append_drop]
    · refine (hsec rest _).trans ?_
      dsimp only
      rw [hnsec]
      rfl

instance : Fixed StatRecord 48 where
  length_encode stat := stat.length_encode
  exists_decode front hf := by
    obtain ⟨mode, hm, hmode⟩ := exists_front UInt32 front (by omega)
    obtain ⟨accessedAt, ha, haccessed⟩ := exists_front TimeSpec (front.drop 4) (by simp [hf])
    obtain ⟨modifiedAt, ho, hmodified⟩ := exists_front TimeSpec ((front.drop 4).drop 12)
      (by simp [hf])
    obtain ⟨changedAt, hc, hchanged⟩ := exists_front TimeSpec (((front.drop 4).drop 12).drop 12)
      (by simp [hf])
    obtain ⟨size, hs, hsize⟩ := exists_decode (α := UInt64)
      ((((front.drop 4).drop 12).drop 12).drop 12) (by simp [hf])
    refine ⟨⟨mode, accessedAt, modifiedAt, changedAt, size⟩, ?_, fun rest => ?_⟩
    · change encode mode ++ encode accessedAt ++ encode modifiedAt ++ encode changedAt ++
        encode size = front
      simp only [hm, ha, ho, hc, hs, List.append_assoc, List.take_append_drop]
    · refine (hmode rest _).trans ?_
      refine (haccessed rest _).trans ?_
      refine (hmodified rest _).trans ?_
      refine (hchanged rest _).trans ?_
      dsimp only
      rw [hsize]
      rfl

end DocTree.Layout
