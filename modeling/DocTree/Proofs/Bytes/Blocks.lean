import DocTree.Proofs.Bytes.Overlay
import Mathlib.Logic.Function.Basic

namespace DocTree

abbrev Blocks := Nat → Option Bytes

namespace Blocks

def chunk (size : Nat) (bytes : Bytes) (index : Nat) : Bytes :=
  (bytes.drop (index * size)).take size

-- A dense run of blocks: each but the last is full, and none is empty.
def of (size : Nat) (bytes : Bytes) : Blocks := fun index =>
  if index * size < bytes.length then some (chunk size bytes index) else none

-- The same blocks with more behind the end of the bytes: `rest` has what goes on in the last block,
-- and whole blocks past it.
def laid (size : Nat) (bytes : Bytes) (rest : Blocks) : Blocks := fun index =>
  if index * size < bytes.length then some (chunk size bytes index ++ (rest index).getD [])
  else rest index

-- A block that the bytes fill has no room for more.
def Behind (size : Nat) (bytes : Bytes) (rest : Blocks) : Prop :=
  ∀ index, rest index ≠ none → bytes.length < (index + 1) * size

-- No block is missing in front of another, and there are at most `most`.
structure Solid (most : Nat) (blocks : Blocks) : Prop where
  solid : ∀ index, blocks (index + 1) ≠ none → blocks index ≠ none
  bounded : ∀ index, most ≤ index → blocks index = none

-- The blocks from `first` up to `last` taken out.
def cleared (blocks : Blocks) (first last : Nat) : Blocks := fun index =>
  if first ≤ index ∧ index < last then none else blocks index

-- The length of the content that up to `many` blocks from `index` on end: they are dense up to the
-- first that is short or missing.
def extent (size : Nat) (blocks : Blocks) (index : Nat) : Nat → Nat
  | 0 => index * size
  | many + 1 =>
    match blocks index with
    | none => index * size
    | some block =>
      if block.length < size then index * size + block.length
      else extent size blocks (index + 1) many

-- How many blocks a number of bytes takes.
def count (size length : Nat) : Nat := (length + size - 1) / size

-- The last of the blocks that `length` bytes take, cut to its part of them.
def trimmed (size : Nat) (blocks : Blocks) (length : Nat) : Blocks :=
  if length % size = 0 then blocks
  else Function.update blocks (length / size)
    ((blocks (length / size)).map (List.take (length % size)))

-- The bytes at the positions before `length`, as far as there are any.
def below (size : Nat) (blocks : Blocks) (length : Nat) : Bytes :=
  (List.range length).filterMap fun position => do (← blocks (position / size))[position % size]?

variable {size most first last index offset length : Nat} {bytes data : Bytes}
  {blocks rest : Blocks}

theorem length_chunk (size : Nat) (bytes : Bytes) (index : Nat) :
    (chunk size bytes index).length = min size (bytes.length - index * size) := by
  simp [chunk]

theorem getElem?_chunk (size : Nat) (bytes : Bytes) (index i : Nat) :
    (chunk size bytes index)[i]? = if i < size then bytes[index * size + i]? else none := by
  simp [chunk, List.getElem?_take]

theorem laid_none (size : Nat) (bytes : Bytes) : laid size bytes (fun _ => none) = of size bytes :=
  by
  funext index
  simp [laid, of]

theorem behind_none : Behind size bytes fun _ => none := fun _ h => absurd rfl h

theorem laid_of_full (hr : Behind size bytes rest) (hf : (index + 1) * size ≤ bytes.length)
    (hs : 0 < size) : laid size bytes rest index = some (chunk size bytes index) := by
  have hn : rest index = none := by
    by_contra h
    exact absurd (hr index h) (by omega)
  have hl : index * size < bytes.length := by
    rw [Nat.add_mul] at hf
    omega
  rw [laid, if_pos hl, hn, Option.getD_none, List.append_nil]

theorem length_chunk_of_full (hf : (index + 1) * size ≤ bytes.length) :
    (chunk size bytes index).length = size := by
  rw [Nat.add_mul] at hf
  rw [length_chunk]
  omega

theorem chunk_overlay (ho : index * size ≤ offset)
    (hd : offset + data.length ≤ (index + 1) * size) :
    chunk size (bytes.overlay offset data) index =
      (chunk size bytes index).overlay (offset - index * size) data := by
  rw [Nat.add_mul, Nat.one_mul] at hd
  exact Bytes.window_overlay ho hd

theorem chunk_overlay_of_le (ho : (index + 1) * size ≤ offset)
    (hb : (index + 1) * size ≤ bytes.length) :
    chunk size (bytes.overlay offset data) index = chunk size bytes index := by
  rw [Nat.add_mul] at ho hb
  refine List.ext_getElem? fun i => ?_
  rw [getElem?_chunk, getElem?_chunk]
  by_cases hi : i < size
  · rw [if_pos hi, if_pos hi, Bytes.getElem?_overlay, if_pos (by omega), Bytes.getElem?_extend,
      if_pos (by omega)]
  · rw [if_neg hi, if_neg hi]

theorem chunk_overlay_of_ge (hd : offset + data.length ≤ index * size) :
    chunk size (bytes.overlay offset data) index = chunk size bytes index := by
  refine List.ext_getElem? fun i => ?_
  rw [getElem?_chunk, getElem?_chunk]
  by_cases hi : i < size
  · rw [if_pos hi, if_pos hi, Bytes.getElem?_overlay, if_neg (by omega), if_neg (by omega)]
  · rw [if_neg hi, if_neg hi]

theorem overlay_laid (ho : index * size ≤ offset) (hn : index * size < offset + data.length)
    (hd : offset + data.length ≤ (index + 1) * size) (hb : index * size ≤ bytes.length)
    (hr : rest = (fun _ => none) ∨ offset + data.length ≤ bytes.length) :
    Bytes.overlay ((laid size bytes rest index).getD []) (offset - index * size) data =
      chunk size (bytes.overlay offset data) index ++ (rest index).getD [] := by
  rw [chunk_overlay ho hd]
  rcases hr with rfl | hl
  · rw [laid_none, of, Option.getD_none, List.append_nil]
    by_cases hi : index * size < bytes.length
    · rw [if_pos hi, Option.getD_some]
    · have he : chunk size bytes index = [] := by
        rw [← List.length_eq_zero_iff, length_chunk]
        omega
      rw [if_neg hi, he, Option.getD_none]
  · rw [Nat.add_mul] at hd
    rw [laid, if_pos (by omega), Option.getD_some, Bytes.overlay_append_left]
    rw [length_chunk]
    omega

-- Bytes that fall into one block, which does not start past the end.
theorem update_laid (bytes data : Bytes) (rest : Blocks) (ho : index * size ≤ offset)
    (hn : index * size < offset + data.length)
    (hd : offset + data.length ≤ (index + 1) * size) (hb : index * size ≤ bytes.length)
    (hr : rest = (fun _ => none) ∨ offset + data.length ≤ bytes.length) :
    Function.update (laid size bytes rest) index (some (Bytes.overlay
      ((laid size bytes rest index).getD []) (offset - index * size) data)) =
      laid size (bytes.overlay offset data) rest := by
  have hs : 0 < size := by
    rw [Nat.add_mul] at hd
    omega
  funext other
  rcases Nat.lt_trichotomy other index with hlt | heq | hgt
  · have hm : (other + 1) * size ≤ index * size := Nat.mul_le_mul_right _ hlt
    rw [Function.update_of_ne (by omega), laid, laid, Bytes.length_overlay,
      chunk_overlay_of_le (by omega) (by omega)]
    rw [Nat.add_mul] at hm
    by_cases hl : other * size < bytes.length
    · rw [if_pos hl, if_pos (by omega)]
    · rw [if_neg hl, if_neg (by omega)]
  · subst heq
    rw [Function.update_self, overlay_laid ho hn hd hb hr, laid, Bytes.length_overlay,
      if_pos (by omega)]
  · have hm : (index + 1) * size ≤ other * size := Nat.mul_le_mul_right _ hgt
    rw [Function.update_of_ne (by omega), laid, laid, Bytes.length_overlay,
      chunk_overlay_of_ge (by omega)]
    by_cases hl : other * size < bytes.length
    · rw [if_pos hl, if_pos (by omega)]
    · rw [if_neg hl, if_neg (by omega)]

-- The length of a byte string shows in its blocks.
theorem extent_of {many : Nat} (hi : index * size ≤ bytes.length)
    (hl : bytes.length ≤ (index + many) * size) :
    extent size (of size bytes) index many = bytes.length := by
  induction many generalizing index with
  | zero => exact Nat.le_antisymm hi hl
  | succ many ih =>
    unfold extent of
    by_cases hn : index * size < bytes.length
    · have hc := length_chunk size bytes index
      simp only [hn, ite_true]
      split
      · omega
      · apply ih
        · rw [Nat.add_mul]
          omega
        · rwa [Nat.add_right_comm]
    · simp only [hn, ite_false]
      omega

theorem cleared_self (blocks : Blocks) (first : Nat) : blocks.cleared first first = blocks := by
  funext index
  rw [cleared, if_neg (by omega)]

theorem cleared_update (h : first < last) :
    cleared (Function.update blocks first none) (first + 1) last = blocks.cleared first last := by
  funext index
  rw [cleared, cleared]
  by_cases hi : index = first
  · subst hi
    rw [Function.update_self, ite_self, if_pos (by omega)]
  · rw [Function.update_of_ne hi]
    by_cases hc : first ≤ index ∧ index < last
    · rw [if_pos hc, if_pos (by omega)]
    · rw [if_neg hc, if_neg (by omega)]

namespace Solid

theorem none_of_le (h : Solid most blocks) (hn : blocks first = none) (hl : first ≤ index) :
    blocks index = none := by
  obtain ⟨more, rfl⟩ := Nat.exists_eq_add_of_le hl
  induction more with
  | zero => exact hn
  | succ more ih =>
    by_contra hs
    exact h.solid (first + more) hs (ih (Nat.le_add_right ..))

-- Taken out up to the first that is missing, none is left.
theorem cleared_eq (h : Solid most blocks) (hl : last < most → blocks last = none) :
    blocks.cleared first last = fun index => if first ≤ index then none else blocks index := by
  have hn : blocks last = none := by
    by_cases hc : last < most
    · exact hl hc
    · exact h.bounded last (by omega)
  funext index
  rw [cleared]
  by_cases hi : first ≤ index
  · rw [if_pos hi]
    by_cases hm : index < last
    · rw [if_pos ⟨hi, hm⟩]
    · rw [if_neg (by omega), h.none_of_le hn (by omega)]
  · rw [if_neg hi, if_neg (by omega)]

end Solid

theorem solid_of (h : bytes.length ≤ most * size) : Solid most (of size bytes) := by
  constructor
  · intro index hn
    unfold of at hn ⊢
    rw [Nat.add_mul] at hn
    by_cases hi : index * size < bytes.length
    · simp [hi]
    · rw [if_neg (by omega)] at hn
      exact absurd rfl hn
  · intro index hc
    have hm : most * size ≤ index * size := Nat.mul_le_mul_right _ hc
    rw [of, if_neg (by omega)]

theorem chunk_take (hl : (index + 1) * size ≤ first) :
    chunk size (bytes.take first) index = chunk size bytes index := by
  rw [Nat.add_mul] at hl
  refine List.ext_getElem? fun i => ?_
  rw [getElem?_chunk, getElem?_chunk]
  by_cases hi : i < size
  · rw [if_pos hi, if_pos hi, List.getElem?_take_of_lt (by omega)]
  · rw [if_neg hi, if_neg hi]

theorem chunk_take_last (h : first < (index + 1) * size) :
    chunk size (bytes.take first) index = (chunk size bytes index).take (first - index * size) := by
  rw [Nat.add_mul] at h
  refine List.ext_getElem? fun i => ?_
  rw [List.getElem?_take, getElem?_chunk, getElem?_chunk, List.getElem?_take]
  by_cases hi : i < first - index * size
  · rw [if_pos hi, if_pos (show i < size by omega), if_pos (by omega), if_pos (by omega)]
  · rw [if_neg hi, if_neg (show ¬index * size + i < first by omega), ite_self]

-- From `position` on, `count` bytes fall into the block at hand: up to `stop`, or up to its end.
theorem exists_front {position stop : Nat} (hs : 0 < size) (hp : position < stop) :
    ∃ count, 0 < count ∧ position + count ≤ stop ∧
      position + count ≤ position / size * size + size ∧
        (position + count = stop ∨ position + count = position / size * size + size) := by
  have hn := Nat.lt_div_mul_add (a := position) hs
  rcases Nat.le_total stop (position / size * size + size) with hle | hle
  · exact ⟨stop - position, by omega⟩
  · exact ⟨position / size * size + size - position, by omega⟩

-- The end of a block is where the next one starts.
theorem div_of_end {position next : Nat} (hs : 0 < size)
    (h : next = position / size * size + size) : next / size = position / size + 1 := by
  rw [h, ← Nat.succ_mul, Nat.mul_div_cancel _ hs]

theorem lt_count_iff (hs : 0 < size) : index < count size length ↔ index * size < length := by
  rw [count, Nat.lt_div_iff_mul_lt hs]
  omega

theorem count_of_dvd (hs : 0 < size) (h : length % size = 0) :
    count size length = length / size := by
  refine (Nat.div_eq_of_lt_le ?_ ?_ : (length + size - 1) / size = length / size)
  · have := Nat.div_mul_cancel (Nat.dvd_of_mod_eq_zero h)
    omega
  · have := Nat.div_mul_cancel (Nat.dvd_of_mod_eq_zero h)
    rw [Nat.add_mul]
    omega

theorem count_of_not_dvd (hs : 0 < size) (h : length % size ≠ 0) :
    count size length = length / size + 1 := by
  have hm := Nat.div_add_mod' length size
  have hl := Nat.mod_lt length hs
  refine (Nat.div_eq_of_lt_le ?_ ?_ : (length + size - 1) / size = length / size + 1)
  · rw [Nat.add_mul]
    omega
  · rw [Nat.add_mul, Nat.add_mul]
    omega

theorem trimmed_eq_none_iff : trimmed size blocks length index = none ↔ blocks index = none := by
  unfold trimmed
  split
  · rfl
  · by_cases hi : index = length / size
    · subst hi
      rw [Function.update_self, Option.map_eq_none_iff]
    · rw [Function.update_of_ne hi]

theorem Solid.trimmed (h : Solid most blocks) : Solid most (blocks.trimmed size length) := by
  constructor
  · intro index hn
    rw [ne_eq, trimmed_eq_none_iff] at hn ⊢
    exact h.solid index hn
  · intro index hc
    rw [trimmed_eq_none_iff]
    exact h.bounded index hc

-- Cutting the last block and dropping those behind it cuts the bytes.
theorem of_take (hr : Behind size bytes rest) (hs : 0 < size) (hl : length ≤ bytes.length) :
    (fun index => if count size length ≤ index then none
      else trimmed size (laid size bytes rest) length index) = of size (bytes.take length) := by
  have hm := Nat.div_add_mod' length size
  have hw := Nat.mod_lt length hs
  funext index
  by_cases hc : count size length ≤ index
  · rw [if_pos hc, of, if_neg]
    rw [List.length_take, Nat.min_eq_left hl, ← lt_count_iff hs]
    omega
  have hi : index * size < length := (lt_count_iff hs).mp (by omega)
  rw [if_neg hc, of, List.length_take, Nat.min_eq_left hl, if_pos hi]
  by_cases hf : (index + 1) * size ≤ length
  · have hn : trimmed size (laid size bytes rest) length index = laid size bytes rest index := by
      unfold trimmed
      split
      · rfl
      · refine Function.update_of_ne ?_ _ _
        rintro rfl
        rw [Nat.add_mul] at hf
        omega
    rw [hn, laid_of_full hr (by omega) hs, chunk_take hf]
  · have he : index = length / size := by
      refine (Nat.div_eq_of_lt_le ?_ ?_).symm <;> omega
    rw [Nat.add_mul] at hf
    subst he
    rw [trimmed, if_neg (by omega), Function.update_self, laid, if_pos (by omega), Option.map_some,
      chunk_take_last (by rw [Nat.add_mul]; omega), List.take_append_of_le_length]
    · congr 2
      omega
    · rw [length_chunk]
      omega

end Blocks

end DocTree
