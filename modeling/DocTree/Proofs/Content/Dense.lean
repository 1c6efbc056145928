import DocTree.Proofs.Content.Read
import DocTree.Proofs.Content.Shrink
import DocTree.Proofs.Content.Write

namespace DocTree

namespace Blocks

-- Parts that a byte string can be cut into: each but the last is full, and the last is not empty.
structure Packed (size : Nat) (parts : List Bytes) : Prop where
  full : ∀ part ∈ parts.dropLast, part.length = size
  last : ∀ part ∈ parts.getLast?, part ≠ [] ∧ part.length ≤ size

-- The blocks are the parts of the bytes, numbered from zero on, and there are at most `most`.
def Dense (size most : Nat) (blocks : Blocks) (bytes : Bytes) : Prop :=
  ∃ parts : List Bytes, blocks = (fun index => parts[index]?) ∧ parts.length ≤ most ∧
    Packed size parts ∧ parts.flatten = bytes

variable {size most : Nat} {bytes part next : Bytes} {parts : List Bytes} {blocks : Blocks}

theorem packed_nil : Packed size [] := ⟨nofun, nofun⟩

theorem packed_singleton : Packed size [part] ↔ part ≠ [] ∧ part.length ≤ size :=
  ⟨fun h => h.last part rfl, fun h => ⟨nofun, fun _ he => Option.some.inj he ▸ h⟩⟩

theorem packed_cons_cons :
    Packed size (part :: next :: parts) ↔ part.length = size ∧ Packed size (next :: parts) := by
  constructor
  · intro h
    refine ⟨h.full part List.mem_cons_self, fun other ho => h.full other ?_, fun other ho => ?_⟩
    · exact List.mem_cons_of_mem _ ho
    · exact h.last other (by rwa [List.getLast?_cons_cons])
  · rintro ⟨hp, h⟩
    refine ⟨fun other ho => ?_, fun other ho => ?_⟩
    · rcases List.mem_cons.mp ho with rfl | ho
      · exact hp
      · exact h.full other ho
    · rw [List.getLast?_cons_cons] at ho
      exact h.last other ho

theorem of_append_zero (hs : 0 < size) (hp : part.length = size) :
    of size (part ++ bytes) 0 = some part := by
  rw [of, if_pos (by rw [List.length_append]; omega), chunk, Nat.zero_mul, List.drop_zero,
    List.take_append_of_le_length (by omega), List.take_of_length_le (by omega)]

theorem of_append_succ (hp : part.length = size) (index : Nat) :
    of size (part ++ bytes) (index + 1) = of size bytes index := by
  have hchunk : chunk size (part ++ bytes) (index + 1) = chunk size bytes index := by
    rw [chunk, chunk, Nat.add_mul, Nat.one_mul, Nat.add_comm, ← List.drop_drop, ← hp,
      List.drop_left]
  unfold of
  rw [hchunk, List.length_append, Nat.add_mul]
  by_cases hi : index * size < bytes.length
  · rw [if_pos hi, if_pos (by omega)]
  · rw [if_neg hi, if_neg (by omega)]

theorem of_short (hp : part ≠ []) (hl : part.length ≤ size) :
    of size part = fun index => [part][index]? := by
  have hpos := List.length_pos_of_ne_nil hp
  funext index
  cases index with
  | zero =>
    rw [of, if_pos (by omega), chunk, Nat.zero_mul, List.drop_zero, List.take_of_length_le hl]
    rfl
  | succ index =>
    rw [of, if_neg (by rw [Nat.add_mul]; omega)]
    rfl

theorem Packed.eq_of (h : Packed size parts) (hs : 0 < size) :
    (fun index => parts[index]?) = of size parts.flatten := by
  induction parts with
  | nil => exact funext fun index => (if_neg (Nat.not_lt_zero _)).symm
  | cons part rest ih =>
    cases rest with
    | nil =>
      obtain ⟨hp, hl⟩ := packed_singleton.mp h
      rw [List.flatten_singleton, of_short hp hl]
    | cons next parts =>
      obtain ⟨hp, h⟩ := packed_cons_cons.mp h
      funext index
      rw [List.flatten_cons]
      cases index with
      | zero => exact (of_append_zero hs hp).symm
      | succ index => exact (congrFun (ih h) index).trans (of_append_succ hp index).symm

theorem Packed.length_flatten_le (h : Packed size parts) :
    parts.flatten.length ≤ parts.length * size := by
  induction parts with
  | nil => exact Nat.zero_le _
  | cons part rest ih =>
    cases rest with
    | nil =>
      rw [List.flatten_singleton, List.length_singleton, Nat.one_mul]
      exact (packed_singleton.mp h).2
    | cons next parts =>
      obtain ⟨hp, h⟩ := packed_cons_cons.mp h
      have hrest := ih h
      rw [List.flatten_cons, List.length_append, List.length_cons, Nat.add_mul]
      omega

theorem exists_packed (hl : bytes.length ≤ most * size) :
    ∃ parts, parts.length ≤ most ∧ Packed size parts ∧ parts.flatten = bytes := by
  induction most generalizing bytes with
  | zero =>
    obtain rfl : bytes = [] := List.length_eq_zero_iff.mp (by omega)
    exact ⟨[], Nat.zero_le _, packed_nil, rfl⟩
  | succ most ih =>
    by_cases hb : bytes = []
    · exact ⟨[], Nat.zero_le _, packed_nil, hb.symm⟩
    by_cases hshort : bytes.length ≤ size
    · exact ⟨[bytes], Nat.succ_le_succ (Nat.zero_le _), packed_singleton.mpr ⟨hb, hshort⟩,
        List.flatten_singleton⟩
    -- The first part is full, and there are others.
    have hdrop : (bytes.drop size).length ≤ most * size := by
      rw [Nat.add_mul] at hl
      rw [List.length_drop]
      omega
    have htake : (bytes.take size).length = size := by
      rw [List.length_take]
      omega
    obtain ⟨parts, hmost, hpacked, hparts⟩ := ih hdrop
    cases parts with
    | nil =>
      have hlength := congrArg List.length hparts
      rw [List.length_drop] at hlength
      have : 0 = bytes.length - size := hlength
      omega
    | cons next parts =>
      refine ⟨bytes.take size :: next :: parts, Nat.succ_le_succ hmost,
        packed_cons_cons.mpr ⟨htake, hpacked⟩, ?_⟩
      rw [List.flatten_cons, hparts, List.take_append_drop]

theorem dense_iff (hs : 0 < size) :
    Dense size most blocks bytes ↔ blocks = of size bytes ∧ bytes.length ≤ most * size := by
  constructor
  · rintro ⟨parts, rfl, hl, h, rfl⟩
    exact ⟨h.eq_of hs, Nat.le_trans h.length_flatten_le (Nat.mul_le_mul_right _ hl)⟩
  · rintro ⟨rfl, hl⟩
    obtain ⟨parts, hmost, h, rfl⟩ := exists_packed hl
    exact ⟨parts, (h.eq_of hs).symm, hmost, h, rfl⟩

end Blocks

namespace Content

open Blocks Call

variable {limits : Limits} {scope path : String} {image : Image} {docs : Docs} {bytes data : Bytes}
  {offset length : Nat}

-- The content at a path is this byte string, cut into blocks.
def Shows (limits : Limits) (scope path : String) (image : Image) (bytes : Bytes) : Prop :=
  Dense limits.blockSize limits.maxBlocks ((image.docs scope).blocks path) bytes

-- The operations on content where it is the byte string `bytes`.
structure ActsAsList (limits : Limits) (scope path : String) (image : Image) (bytes : Bytes) :
    Prop where
  -- The length is reported if it grew, and only then.
  write : ∀ (offset : UInt64) (data : Bytes), offset.toNat + data.length ≤ limits.maxFileLen →
    ∃ after, (Content.write limits path offset.toNat data).run (Image.unlimited scope) image =
        (.done (if data ≠ [] ∧ bytes.length < offset.toNat + data.length then
          some (offset.toNat + data.length) else none), after) ∧
      Shows limits scope path after (bytes.write offset.toNat data)
  -- The call asks for nothing.
  tooLarge : ∀ (offset : UInt64) (data : Bytes), limits.maxFileLen < offset.toNat + data.length →
    Content.write limits path offset.toNat data = Call.fail .fileTooLarge
  truncate : ∀ length : UInt64, ∃ after,
    (Content.truncate limits path length.toNat).run (Image.unlimited scope) image =
        (.done (), after) ∧
      Shows limits scope path after (bytes.take length.toNat)
  remove : ∃ after, (Content.remove limits path).run (Image.unlimited scope) image =
      (.done (), after) ∧
    ∀ index, (after.docs scope).blocks path index = none
  read : ∀ offset length : UInt64, ∃ after,
    (Content.read limits path offset.toNat length.toNat).run (Image.unlimited scope) image =
        (.done ((bytes.drop offset.toNat).take length.toNat), after) ∧
      after.docs scope = image.docs scope

theorem shows_iff (hv : limits.Valid) : Shows limits scope path image bytes ↔
    (image.docs scope).blocks path = of limits.blockSize bytes ∧
      bytes.length ≤ limits.maxFileLen := by
  unfold Shows
  rw [dense_iff hv.blockSize_pos, hv.maxFileLen_eq.1, Nat.mul_comm]

-- Past the end of the bytes there is nothing to cut off.
theorem ensures_truncate_of (hv : limits.Valid)
    (hb : docs.blocks path = of limits.blockSize bytes) (hmax : bytes.length ≤ limits.maxFileLen)
    (hl : length < Word.limit) :
    (truncate limits path length).Ensures (fun _ => False)
      (fun _ after => after.blocks path = of limits.blockSize (bytes.take length))
      (fun _ _ => False) docs := by
  have hs := hv.blockSize_pos
  rw [hv.maxFileLen_eq.1, Nat.mul_comm] at hmax
  apply (ensures_truncate hv hl).mono
  · intro _ after hpost
    obtain ⟨last, hm, ha⟩ := hpost
    rw [ha, hb]
    rw [hb] at hm
    by_cases hle : length ≤ bytes.length
    · exact cutUpTo_eq_of hs hm (covered_of hmax) hle
    · rw [cutUpTo_of_le hs (by omega), List.take_of_length_le (by omega)]
  · exact fun _ _ hpost => hpost.1.choose_spec

theorem ensures_remove_of (hb : docs.blocks path = of limits.blockSize bytes)
    (hmax : bytes.length ≤ limits.maxBlocks * limits.blockSize) :
    (remove limits path).Ensures (fun _ => False)
      (fun _ after => ∀ index, after.blocks path index = none) (fun _ _ => False) docs := by
  apply (ensures_removeFrom 0 limits.maxBlocks).mono
  · intro _ after hpost index
    obtain ⟨last, ⟨-, -, hmissing⟩, ha⟩ := hpost
    rw [hb] at ha hmissing
    rw [ha, (solid_of hmax).cleared_eq fun hl => hmissing (by omega)]
    exact if_pos (Nat.zero_le _)
  · exact fun _ _ hpost => hpost.1.choose_spec

-- For all offsets and lengths that a word can hold, on a store that answers every request and takes
-- documents of any size.
theorem dense_content_acts_as_list (hv : limits.validate = .ok ()) (scope path : String)
    {image : Image} {bytes : Bytes} (h : Shows limits scope path image bytes) :
    ActsAsList limits scope path image bytes := by
  have hv := limits.validate_eq_ok_iff.mp hv
  obtain ⟨hmax, hw⟩ := hv.maxFileLen_eq
  obtain ⟨hb, hlen⟩ := (shows_iff hv).mp h
  have hlaid := hb
  rw [← laid_none] at hlaid
  constructor
  case write =>
    intro offset data hl
    obtain ⟨grown, after, hrun, hafter, rfl⟩ :=
      (ensures_write hv hl hlaid behind_none fun _ => .inl rfl).exists_run
        fun _ _ he => he.1.choose_spec
    refine ⟨after, hrun, (shows_iff hv).mpr ⟨hafter.trans (laid_none ..), ?_⟩⟩
    by_cases hd : data = []
    · rw [hd, Bytes.write_nil]
      exact hlen
    · rw [Bytes.length_write_of_ne hd]
      omega
  case tooLarge => exact fun offset data hl => write_eq_fail (Nat.not_le.mpr hl)
  case truncate =>
    intro length
    obtain ⟨_, after, hrun, hafter⟩ :=
      (ensures_truncate_of hv hb hlen length.toNat_lt).exists_run fun _ _ he => he
    refine ⟨after, hrun, (shows_iff hv).mpr ⟨hafter, ?_⟩⟩
    exact Nat.le_trans (List.length_take_le' ..) hlen
  case remove =>
    rw [hmax, Nat.mul_comm] at hlen
    obtain ⟨_, after, hrun, hafter⟩ := (ensures_remove_of hb hlen).exists_run fun _ _ he => he
    exact ⟨after, hrun, hafter⟩
  case read =>
    intro offset length
    obtain ⟨_, after, hrun, hafter, rfl⟩ :=
      (ensures_read hv hlaid behind_none (.inl rfl) (by omega)).exists_run
        fun _ _ he => he.2.choose_spec
    exact ⟨after, hrun, hafter⟩

namespace Sample

def small : Limits := ⟨64, 4, 8⟩

-- Four bytes, two bytes past the end of an empty file.
def gapped : Outcome (Option Nat) × Image :=
  (write Sample.small "/f" 2 [97, 98, 99, 100]).run (Image.unlimited defaultScope)
    (Image.new default)

end Sample

theorem sample_dense_content_acts_as_list :
    Sample.small.validate = .ok () ∧
      Shows Sample.small defaultScope "/f" (Image.new default) [] ∧
      Sample.gapped.1 = .done (some 6) ∧
      Shows Sample.small defaultScope "/f" Sample.gapped.2 [0, 0, 97, 98, 99, 100] ∧
      ((read Sample.small "/f" 1 9).run (Image.unlimited defaultScope) Sample.gapped.2).1 =
        .done [0, 97, 98, 99, 100] := by
  have hv : Sample.small.validate = .ok () := by decide
  have hempty : Shows Sample.small defaultScope "/f" (Image.new default) [] := by
    refine ⟨[], funext fun index => ?_, Nat.zero_le _, Blocks.packed_nil, rfl⟩
    rw [Image.docs_new]
    rfl
  obtain ⟨after, hrun, hafter⟩ :=
    (dense_content_acts_as_list hv defaultScope "/f" hempty).write 2 [97, 98, 99, 100] (by decide)
  have hgapped : Sample.gapped = (.done (some 6), after) := hrun
  rw [hgapped]
  obtain ⟨last, hread, -⟩ := (dense_content_acts_as_list hv defaultScope "/f" hafter).read 1 9
  exact ⟨hv, hempty, rfl, hafter, congrArg Prod.fst hread⟩

end Content

end DocTree
