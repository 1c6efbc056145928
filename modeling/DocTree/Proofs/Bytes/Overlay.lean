import DocTree.Bytes.Basic
import Mathlib.Data.List.Basic

namespace DocTree.Bytes

-- The bytes with those from position `offset` on replaced by `data`, as far as that goes.
def overlay (bytes : Bytes) (offset : Nat) (data : Bytes) : Bytes :=
  (bytes.extend offset).take offset ++ data ++ bytes.drop (offset + data.length)

-- The bytes after a write: nothing to write fills no gap.
def write (bytes : Bytes) (offset : Nat) (data : Bytes) : Bytes :=
  if data = [] then bytes else bytes.overlay offset data

variable {bytes data more : Bytes} {offset length first last : Nat}

theorem extend_of_le (h : length ≤ bytes.length) : bytes.extend length = bytes := by
  simp [extend, zeros, Nat.sub_eq_zero_of_le h]

theorem getElem?_zeros (count i : Nat) : (zeros count)[i]? = if i < count then some 0 else none :=
  List.getElem?_replicate

theorem getElem?_extend (bytes : Bytes) (length i : Nat) : (bytes.extend length)[i]? =
    if i < bytes.length then bytes[i]? else if i < length then some 0 else none := by
  unfold extend
  by_cases hi : i < bytes.length
  · rw [List.getElem?_append_left hi, if_pos hi]
  · rw [List.getElem?_append_right (by omega), getElem?_zeros, if_neg hi]
    by_cases hl : i < length
    · rw [if_pos (by omega), if_pos hl]
    · rw [if_neg (by omega), if_neg hl]

theorem extend_extend (bytes : Bytes) (first last : Nat) :
    (bytes.extend first).extend last = bytes.extend (max first last) := by
  unfold extend zeros
  rw [List.append_assoc, List.length_append, List.length_replicate, List.replicate_append_replicate]
  congr 2
  omega

theorem take_extend (h : length ≤ bytes.length) : (bytes.extend last).take length =
    bytes.take length := List.take_append_of_le_length h

theorem length_overlay (bytes : Bytes) (offset : Nat) (data : Bytes) :
    (bytes.overlay offset data).length = max bytes.length (offset + data.length) := by
  simp only [overlay, List.length_append, List.length_take, length_extend, List.length_drop]
  omega

theorem getElem?_overlay (bytes : Bytes) (offset : Nat) (data : Bytes) (i : Nat) :
    (bytes.overlay offset data)[i]? =
      if i < offset then (bytes.extend offset)[i]?
      else if i < offset + data.length then data[i - offset]?
      else bytes[i]? := by
  have hl : ((bytes.extend offset).take offset).length = offset := by
    rw [List.length_take, length_extend]
    omega
  unfold overlay
  by_cases hi : i < offset
  · rw [if_pos hi, List.append_assoc, List.getElem?_append_left (by omega),
      List.getElem?_take_of_lt hi]
  · rw [if_neg hi]
    by_cases hd : i < offset + data.length
    · rw [if_pos hd, List.getElem?_append_left (by rw [List.length_append]; omega),
        List.getElem?_append_right (by omega), hl]
    · rw [if_neg hd, List.getElem?_append_right (by rw [List.length_append]; omega),
        List.length_append, hl, List.getElem?_drop]
      congr 1
      omega

theorem overlay_nil (bytes : Bytes) (offset : Nat) : bytes.overlay offset [] =
    bytes.extend offset := by
  refine List.ext_getElem? fun i => ?_
  rw [getElem?_overlay, getElem?_extend]
  simp only [List.length_nil, Nat.add_zero]
  by_cases hi : i < offset
  · rw [if_pos hi]
  · rw [if_neg hi, if_neg hi, if_neg hi]
    by_cases hb : i < bytes.length
    · rw [if_pos hb]
    · rw [if_neg hb, List.getElem?_eq_none (by omega)]

theorem overlay_append (bytes : Bytes) (offset : Nat) (data more : Bytes) :
    bytes.overlay offset (data ++ more) =
      (bytes.overlay offset data).overlay (offset + data.length) more := by
  have hl : offset + data.length ≤ (bytes.overlay offset data).length := by
    rw [length_overlay]
    omega
  refine List.ext_getElem? fun i => ?_
  rw [getElem?_overlay, getElem?_overlay _ (offset + data.length), extend_of_le hl,
    getElem?_overlay, List.length_append, List.getElem?_append]
  by_cases ho : i < offset
  · rw [if_pos ho, if_pos (by omega), if_pos ho]
  by_cases hd : i < offset + data.length
  · rw [if_neg ho, if_pos (by omega), if_pos (by omega), if_pos hd, if_neg ho, if_pos hd]
  by_cases hm : i < offset + data.length + more.length
  · rw [if_neg ho, if_pos (by omega), if_neg (by omega), if_neg hd, if_pos hm]
    congr 1
    omega
  · rw [if_neg ho, if_neg (by omega), if_neg hd, if_neg hm, if_neg ho, if_neg hd]

-- Zeros that are appended up to the front of the data are there already.
theorem overlay_extend (h : length ≤ offset) :
    (bytes.extend length).overlay offset data = bytes.overlay offset data := by
  refine List.ext_getElem? fun i => ?_
  rw [getElem?_overlay, getElem?_overlay, extend_extend, Nat.max_eq_right h]
  by_cases ho : i < offset
  · rw [if_pos ho, if_pos ho]
  · rw [if_neg ho, if_neg ho, getElem?_extend bytes length, if_neg (show ¬i < length by omega)]
    by_cases hb : i < bytes.length
    · rw [if_pos hb]
    · rw [if_neg hb, List.getElem?_eq_none (l := bytes) (by omega)]

theorem overlay_zeros (h : bytes.length = offset) (count : Nat) :
    bytes.overlay offset (zeros count) = bytes.extend (offset + count) := by
  unfold overlay
  rw [extend_of_le (by omega), List.take_of_length_le (by omega), List.drop_of_length_le (by omega),
    List.append_nil]
  unfold extend
  congr 2
  omega

-- What follows the range of the data is not touched.
theorem overlay_append_left (h : offset + data.length ≤ bytes.length) :
    (bytes ++ more).overlay offset data = bytes.overlay offset data ++ more := by
  unfold overlay
  rw [extend_of_le (by rw [List.length_append]; omega), extend_of_le (by omega),
    List.take_append_of_le_length (by omega), List.drop_append_of_le_length h,
    List.append_assoc, List.append_assoc, List.append_assoc]

-- What is laid over the bytes stands there.
theorem take_drop_overlay (bytes : Bytes) (offset : Nat) (data : Bytes) :
    ((bytes.overlay offset data).drop offset).take data.length = data := by
  have hl : ((bytes.extend offset).take offset).length = offset := by
    rw [List.length_take, length_extend]
    omega
  unfold overlay
  rw [List.append_assoc, List.drop_left' hl, List.take_left]

-- A window of the bytes that holds the data sees it laid over the window.
theorem window_overlay {size : Nat} (ho : first ≤ offset)
    (hd : offset + data.length ≤ first + size) :
    ((bytes.overlay offset data).drop first).take size =
      overlay ((bytes.drop first).take size) (offset - first) data := by
  refine List.ext_getElem? fun i => ?_
  rw [getElem?_overlay, getElem?_extend, List.length_take, List.length_drop]
  simp only [List.getElem?_take, List.getElem?_drop]
  rw [getElem?_overlay, getElem?_extend]
  by_cases hs : i < size
  · simp only [hs, ite_true]
    by_cases h₁ : first + i < offset
    · rw [if_pos h₁, if_pos (show i < offset - first by omega)]
      by_cases h₂ : first + i < bytes.length
      · rw [if_pos h₂, if_pos (by omega)]
      · rw [if_neg h₂, if_pos h₁, if_neg (by omega), if_pos (by omega)]
    · rw [if_neg h₁, if_neg (show ¬i < offset - first by omega)]
      by_cases h₂ : first + i < offset + data.length
      · rw [if_pos h₂, if_pos (by omega)]
        congr 1
        omega
      · rw [if_neg h₂, if_neg (by omega)]
  · rw [if_neg hs, if_neg (show ¬i < offset - first by omega),
      if_neg (show ¬i < offset - first + data.length by omega), if_neg hs]

-- A change inside a block that is first extended to hold it.
theorem patch?_extend (h : first ≤ last) (hd : data.length = last - first) :
    (bytes.extend last).patch? first last data = some (bytes.overlay first data) := by
  have hl : first + data.length = last := by omega
  have ht : (bytes.extend last).take first = (bytes.extend first).take first := by
    refine List.ext_getElem? fun i => ?_
    simp only [List.getElem?_take, getElem?_extend]
    by_cases hi : i < first
    · simp [hi, show i < last by omega]
    · simp [hi]
  have hr : (bytes.extend last).drop last = bytes.drop last := by
    unfold extend
    rw [List.drop_append, List.drop_of_length_le (l := zeros _) (Nat.le_of_eq (length_zeros _)),
      List.append_nil]
  rw [patch?_eq_some h (by rw [length_extend]; omega) hd, ht, hr]
  unfold overlay
  rw [hl]

theorem write_nil (bytes : Bytes) (offset : Nat) : bytes.write offset [] = bytes := if_pos rfl

theorem write_of_ne (h : data ≠ []) : bytes.write offset data = bytes.overlay offset data :=
  if_neg h

theorem length_write_of_ne (h : data ≠ []) :
    (bytes.write offset data).length = max bytes.length (offset + data.length) := by
  rw [write_of_ne h, length_overlay]

theorem length_le_length_write : bytes.length ≤ (bytes.write offset data).length := by
  unfold write
  split
  · exact Nat.le_refl _
  · rw [length_overlay]
    exact Nat.le_max_left ..

theorem length_write_of_le (h : offset + data.length ≤ bytes.length) :
    (bytes.write offset data).length = bytes.length := by
  unfold write
  split
  · rfl
  · rw [length_overlay, Nat.max_eq_left h]

theorem write_append (h : data ≠ []) : bytes.write offset (data ++ more) =
    (bytes.overlay offset data).write (offset + data.length) more := by
  rw [write_of_ne (List.append_ne_nil_of_left_ne_nil h more), overlay_append]
  by_cases hm : more = []
  · subst hm
    rw [write_nil, overlay_nil, extend_of_le]
    rw [length_overlay]
    exact Nat.le_max_right ..
  · rw [write_of_ne hm]

-- What a write makes of the bytes in front of it and of those that it covers.
theorem getElem?_write {i : Nat} (hi : i < bytes.length) : (bytes.write offset data)[i]? =
    if offset ≤ i ∧ i < offset + data.length then data[i - offset]? else bytes[i]? := by
  unfold write
  by_cases hd : data = []
  · subst hd
    rw [if_pos rfl, if_neg (by simp only [List.length_nil]; omega)]
  rw [if_neg hd, getElem?_overlay, getElem?_extend]
  by_cases ho : i < offset
  · rw [if_pos ho, if_pos hi, if_neg (by omega)]
  · rw [if_neg ho]
    by_cases hl : i < offset + data.length
    · rw [if_pos hl, if_pos ⟨by omega, hl⟩]
    · rw [if_neg hl, if_neg (by omega)]

end DocTree.Bytes
