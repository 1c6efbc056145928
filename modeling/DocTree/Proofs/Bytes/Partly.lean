import DocTree.Proofs.Bytes.Overlay

namespace DocTree.Bytes

-- The first bytes, with zeros behind them up to the length.
def resize (bytes : Bytes) (length : Nat) : Bytes := extend (bytes.take length) length

-- What a write that fails may leave: as many bytes as before, each of them old, or new where the
-- write was to change it.
structure Partly (bytes : Bytes) (offset : Nat) (data after : Bytes) : Prop where
  length_eq : after.length = bytes.length
  byte : ∀ position, after[position]? = bytes[position]? ∨
    offset ≤ position ∧ position < offset + data.length ∧
      after[position]? = data[position - offset]?

variable {bytes data : Bytes} {offset length : Nat}

theorem length_resize (bytes : Bytes) (length : Nat) : (bytes.resize length).length = length := by
  rw [resize, length_extend, List.length_take]
  omega

theorem resize_of_le (h : length ≤ bytes.length) : bytes.resize length = bytes.take length := by
  unfold resize
  rw [extend_of_le]
  rw [List.length_take]
  omega

theorem resize_of_ge (h : bytes.length ≤ length) : bytes.resize length = bytes.extend length := by
  rw [resize, List.take_of_length_le h]

theorem getElem?_resize (bytes : Bytes) (length position : Nat) : (bytes.resize length)[position]? =
    if position < length then some (bytes[position]?.getD 0) else none := by
  unfold resize
  rw [getElem?_extend, List.length_take, List.getElem?_take]
  by_cases hl : position < length
  · by_cases hb : position < bytes.length
    · rw [if_pos (by omega), if_pos hl, if_pos hl, List.getElem?_eq_getElem hb, Option.getD_some]
    · rw [if_neg (by omega), if_pos hl, if_pos hl, List.getElem?_eq_none (by omega),
        Option.getD_none]
  · rw [if_neg (by omega), if_neg hl, if_neg hl]

-- A position past the end counts as zero: a write changes those that it covers only.
theorem getD_write (bytes : Bytes) (offset : Nat) (data : Bytes) (position : Nat) :
    (bytes.write offset data)[position]?.getD 0 =
      if offset ≤ position ∧ position < offset + data.length then data[position - offset]?.getD 0
      else bytes[position]?.getD 0 := by
  by_cases hd : data = []
  · subst hd
    rw [write_nil, if_neg (by simp only [List.length_nil]; omega)]
  rw [write_of_ne hd, getElem?_overlay, getElem?_extend]
  by_cases ho : position < offset
  · have hn : ¬(offset ≤ position ∧ position < offset + data.length) := by omega
    simp only [ho, hn, ite_true, ite_false]
    split
    · rfl
    · rw [List.getElem?_eq_none (by omega)]
      rfl
  · rw [if_neg ho]
    by_cases hl : position < offset + data.length
    · rw [if_pos hl, if_pos ⟨by omega, hl⟩]
    · rw [if_neg hl, if_neg (by omega)]

theorem getD_resize (bytes : Bytes) (length position : Nat) :
    (bytes.resize length)[position]?.getD 0 =
      if position < length then bytes[position]?.getD 0 else 0 := by
  rw [getElem?_resize]
  split <;> rfl

theorem Partly.refl : Partly bytes offset data bytes := ⟨rfl, fun _ => .inl rfl⟩

-- What stands at the old positions after some zeros and some of the data.
theorem partly_take_write (bytes data : Bytes) (offset length count : Nat) :
    Partly bytes offset data
      (((bytes.extend length).write offset (data.take count)).take bytes.length) := by
  have hle : bytes.length ≤ (bytes.extend length).length := by
    rw [length_extend]
    omega
  have hw : (bytes.extend length).length ≤
      ((bytes.extend length).write offset (data.take count)).length := length_le_length_write
  constructor
  · rw [List.length_take]
    omega
  intro position
  by_cases hp : position < bytes.length
  · rw [List.getElem?_take_of_lt hp, getElem?_write (by omega)]
    split
    · next hr =>
      rw [List.length_take] at hr
      right
      refine ⟨hr.1, by omega, ?_⟩
      rw [List.getElem?_take_of_lt (by omega)]
    · left
      rw [getElem?_extend, if_pos hp]
  · left
    rw [List.getElem?_eq_none (l := bytes) (by omega), List.getElem?_eq_none]
    rw [List.length_take]
    omega

theorem partly_write (count : Nat) (h : offset + data.length ≤ bytes.length) :
    Partly bytes offset data (bytes.write offset (data.take count)) := by
  have hp : Partly bytes offset data (((bytes.extend 0).write offset (data.take count)).take
    bytes.length) := partly_take_write bytes data offset 0 count
  have hc : (data.take count).length ≤ data.length := by
    rw [List.length_take]
    omega
  have hl : (bytes.write offset (data.take count)).length ≤ bytes.length :=
    Nat.le_of_eq (length_write_of_le (by omega))
  rwa [extend_of_le (Nat.zero_le _), List.take_of_length_le hl] at hp

end DocTree.Bytes
