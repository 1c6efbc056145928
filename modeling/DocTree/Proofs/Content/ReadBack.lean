import DocTree.Proofs.Content.Bounded
import DocTree.Proofs.Content.Dense
import DocTree.Proofs.Content.Solid

namespace DocTree

namespace Blocks

-- Each byte of the data stands in its place in the blocks from `position` on, and none of these is
-- too long.
def Spans (size : Nat) (blocks : Blocks) (position : Nat) (data : Bytes) : Prop :=
  ∀ i byte, data[i]? = some byte → ∃ block, blocks ((position + i) / size) = some block ∧
    block.length ≤ size ∧ block[(position + i) % size]? = some byte

-- None of the blocks that `length` bytes from `position` on touch is too long.
def Fits (size : Nat) (blocks : Blocks) (position length : Nat) : Prop :=
  ∀ i < length, ∀ block, blocks ((position + i) / size) = some block → block.length ≤ size

variable {size position index : Nat} {front data : Bytes} {block : Bytes} {blocks : Blocks}

theorem div_mod_of_within (hi : index * size ≤ position) (hn : position < index * size + size) :
    position / size = index ∧ position % size = position - index * size := by
  have hdiv : position / size = index := by
    apply Nat.div_eq_of_lt_le hi
    rw [Nat.add_mul, Nat.one_mul]
    exact hn
  have hmod := Nat.div_add_mod' position size
  rw [hdiv] at hmod
  exact ⟨hdiv, by omega⟩

theorem spans_nil : Spans size blocks position [] := nofun

theorem spans_append : Spans size blocks position (front ++ data) ↔
    Spans size blocks position front ∧ Spans size blocks (position + front.length) data := by
  constructor
  · intro h
    refine ⟨fun i byte hb => h i byte ?_, fun i byte hb => ?_⟩
    · obtain ⟨hl, -⟩ := List.getElem?_eq_some_iff.mp hb
      rwa [List.getElem?_append_left hl]
    · rw [Nat.add_assoc]
      apply h
      rwa [List.getElem?_append_right (Nat.le_add_right ..), Nat.add_sub_cancel_left]
  · rintro ⟨hf, hd⟩ i byte hb
    by_cases hi : i < front.length
    · rw [List.getElem?_append_left hi] at hb
      exact hf i byte hb
    · rw [List.getElem?_append_right (Nat.not_lt.mp hi)] at hb
      have h := hd _ byte hb
      rwa [Nat.add_assoc, Nat.add_sub_of_le (Nat.not_lt.mp hi)] at h

-- Data in one block.
theorem spans_iff_of_within (hd : data ≠ []) (hi : index * size ≤ position)
    (hn : position + data.length ≤ index * size + size) :
    Spans size blocks position data ↔ ∃ block, blocks index = some block ∧ block.length ≤ size ∧
      (block.drop (position - index * size)).take data.length = data := by
  have hplace : ∀ i < data.length, (position + i) / size = index ∧
      (position + i) % size = position - index * size + i := by
    intro i hlt
    have hin : index * size ≤ position + i := by omega
    obtain ⟨hdiv, hmod⟩ := div_mod_of_within hin (by omega)
    exact ⟨hdiv, by omega⟩
  constructor
  · intro h
    obtain ⟨first, rest, rfl⟩ := List.exists_cons_of_ne_nil hd
    obtain ⟨block, hb, hl, -⟩ := h 0 first rfl
    rw [(hplace 0 (Nat.succ_pos _)).1] at hb
    refine ⟨block, hb, hl, List.ext_getElem? fun i => ?_⟩
    rw [List.getElem?_take, List.getElem?_drop]
    split
    · next hlt =>
      obtain ⟨found, hf, -, hbyte⟩ := h i _ (List.getElem?_eq_getElem hlt)
      obtain ⟨hdiv, hmod⟩ := hplace i hlt
      rw [hdiv, hb] at hf
      obtain rfl := Option.some.inj hf
      rw [← hmod, hbyte, List.getElem?_eq_getElem hlt]
    · next hge => exact (List.getElem?_eq_none (Nat.not_lt.mp hge)).symm
  · rintro ⟨block, hb, hl, he⟩ i byte hbyte
    obtain ⟨hlt, -⟩ := List.getElem?_eq_some_iff.mp hbyte
    obtain ⟨hdiv, hmod⟩ := hplace i hlt
    refine ⟨block, by rw [hdiv, hb], hl, ?_⟩
    rw [← he, List.getElem?_take, if_pos hlt, List.getElem?_drop] at hbyte
    rw [hmod, hbyte]

-- The block at hand has the front of the data, and the rest follows.
theorem Spans.exists_front {count : Nat} (h : Spans size blocks position data) (hpos : 0 < count)
    (hc : count ≤ data.length) (hn : position + count ≤ position / size * size + size) :
    ∃ block, blocks (position / size) = some block ∧ block.length ≤ size ∧
      position - position / size * size + count ≤ block.length ∧
      (block.drop (position - position / size * size)).take count = data.take count ∧
      Spans size blocks (position + count) (data.drop count) := by
  have hm := Nat.div_mul_le_self position size
  have hcount : (data.take count).length = count := List.length_take_of_le hc
  have hne : data.take count ≠ [] := by
    rw [← List.length_pos_iff]
    omega
  rw [← List.take_append_drop count data, spans_append, hcount] at h
  obtain ⟨hfront, hrest⟩ := h
  obtain ⟨block, hb, hl, hpart⟩ := (spans_iff_of_within hne hm (by omega)).mp hfront
  rw [hcount] at hpart
  refine ⟨block, hb, hl, ?_, hpart, hrest⟩
  have hlength := congrArg List.length hpart
  rw [hcount, List.length_take, List.length_drop] at hlength
  omega

end Blocks

namespace Content

open Call Blocks

variable {maxSize : Nat} {docs : Docs} {path : String} {size position stop offset : Nat}
  {data : Bytes} {limits : Limits}

-- The data may end in a short block.
theorem upholds_readFrom_of_spans (hs : 0 < size) (hw : stop < Word.limit) (position : Nat)
    (parts : List Bytes) (data : Bytes) (hl : data.length = stop - position)
    (h : Spans size (docs.blocks path) position data) :
    (readFrom size path stop position parts).Upholds maxSize (fun _ => True)
      (fun bytes _ => bytes = parts.reverse.flatten ++ data) (fun _ _ => False) docs := by
  by_cases hp : position < stop
  case neg =>
    obtain rfl : data = [] := List.length_eq_zero_iff.mp (by omega)
    rw [readFrom, if_neg hp]
    exact (List.append_nil _).symm
  have hm := Nat.div_mul_le_self position size
  obtain ⟨count, hpos, hstop, hin, hend⟩ := exists_front hs hp
  obtain ⟨block, hb, hlen, hreach, hpart, hrest⟩ := h.exists_front hpos (by omega) hin
  rw [readFrom_eq hw hp]
  refine upholds_bind.mpr (upholds_fetch trivial (fun found _ hf => ?_) fun hf => ?_)
  case refine_2 =>
    rw [hf] at hb
    cases hb
  obtain rfl := Option.some.inj (hf.symm.trans hb)
  have htaken : (found.value.take (stop - position / size * size)).drop
      (position - position / size * size) = data.take count := by
    rw [← hpart, List.drop_take, List.take_eq_take_iff, List.length_drop]
    omega
  have hnext : position / size * size + min (stop - position / size * size) found.value.length =
      position + count := by omega
  dsimp only
  rw [htaken, hnext, if_neg (by omega)]
  split
  · have hall : data.take count = data := List.take_of_length_le (by omega)
    rw [hall, upholds_pure, List.reverse_cons, List.flatten_concat]
  · refine (upholds_readFrom_of_spans hs hw _ _ _ ?_ hrest).mono ?_ fun _ _ he => he
    · rw [List.length_drop]
      omega
    · rintro bytes _ rfl
      rw [List.reverse_cons, List.flatten_concat, List.append_assoc, List.take_append_drop]
termination_by stop - position

theorem upholds_read_of_spans (maxSize : Nat) (hs : 0 < limits.blockSize)
    (hw : offset + data.length < Word.limit)
    (h : Spans limits.blockSize (docs.blocks path) offset data) :
    (read limits path offset data.length).Upholds maxSize (fun _ => True)
      (fun bytes _ => bytes = data) (fun _ _ => False) docs := by
  have hstop : Word.addSat offset data.length = offset + data.length := by
    unfold Word.addSat
    omega
  unfold read
  rw [hstop]
  exact upholds_readFrom_of_spans hs hw offset [] data (Nat.add_sub_cancel_left ..).symm h

-- The gap is filled in front of the data.
theorem upholds_fillGap (first : Nat) :
    (fillGap size path first).Upholds maxSize (fun _ => True)
      (fun _ after => ∀ index, first ≤ index → after.blocks path index = docs.blocks path index)
      (fun _ _ => True) docs := by
  let kept : Docs → Prop := fun after =>
    ∀ index, first ≤ index → after.blocks path index = docs.blocks path index
  have ho : (fillGap size path first).Only fun collection request =>
      collection = .blocks ∧ ∃ index < first, request.key = Path.blockKey path index :=
    only_fillGap size (fun index request hi hk => ⟨rfl, index, hi, hk⟩) (Nat.le_refl _)
  have hkept : (fillGap size path first).Upholds maxSize kept (fun _ => kept) (fun _ => kept)
      docs := by
    refine ho.upholds ?_ fun index _ => rfl
    rintro found version collection request ⟨rfl, gap, hg, hk⟩ hi index hf
    rw [← hi index hf]
    unfold Docs.blocks Docs.value
    rw [Docs.answerWithin_of_ne]
    rintro ⟨-, he⟩
    have := Path.blockKey_index_inj (he.trans hk)
    omega
  exact (hkept.mono_inv fun _ _ => trivial).mono (fun _ _ hp => hp) fun _ _ _ => trivial

-- The part of a write that falls into one block.
theorem upholds_modify_lay (hin : position + data.length ≤ position / size * size + size)
    (hf : ∀ block, docs.blocks path (position / size) = some block → block.length ≤ size) :
    (modify path (position / size) true (lay size position data)).Upholds maxSize (fun _ => True)
      (fun _ after => ∃ block,
        after.blocks path = Function.update (docs.blocks path) (position / size) (some block) ∧
          block.length ≤ size ∧
          (block.drop (position - position / size * size)).take data.length = data)
      (fun _ _ => True) docs := by
  have hm := Nat.div_mul_le_self position size
  have hold : ((docs.blocks path (position / size)).getD []).length ≤ size := by
    cases hb : docs.blocks path (position / size) with
    | none => exact Nat.zero_le _
    | some block => exact hf block hb
  refine upholds_modify trivial (.inl rfl) (fun _ => Option.some_ne_none _)
    (fun block answer after he ha => ?_) trivial
  rw [lay, Option.some_inj, Prod.mk.injEq] at he
  obtain ⟨rfl, rfl⟩ := he
  refine ⟨trivial, _, ha.blocks, ?_, Bytes.take_drop_overlay ..⟩
  rw [Bytes.length_overlay]
  omega

-- The blocks in front of the data are left alone.
theorem upholds_writeFrom_spans (hs : 0 < size) (position : Nat) (data : Bytes)
    (hp : position < stop) (hl : data.length = stop - position) {docs : Docs}
    (hf : Fits size (docs.blocks path) position data.length) :
    (writeFrom size path stop position data).Upholds maxSize (fun _ => True)
      (fun _ after => Spans size (after.blocks path) position data ∧
        ∀ index < position / size, after.blocks path index = docs.blocks path index)
      (fun _ _ => True) docs := by
  have hm := Nat.div_mul_le_self position size
  obtain ⟨count, hpos, hstop, hin, hend⟩ := exists_front hs hp
  have hcount : (data.take count).length = count := List.length_take_of_le (by omega)
  have hne : data.take count ≠ [] := by
    rw [← List.length_pos_iff]
    omega
  have hfits : ∀ block, docs.blocks path (position / size) = some block → block.length ≤ size :=
    hf 0 (by omega)
  rw [writeFrom_eq hpos hstop hin hend]
  refine (upholds_modify_lay (by omega) hfits).bind ?_ fun _ _ he => he
  rintro grown after ⟨block, hb, hlen, hpart⟩
  have hfront : ∀ later : Docs, later.blocks path (position / size) = some block →
      Spans size (later.blocks path) position (data.take count) := fun later hl =>
    (spans_iff_of_within hne hm (by omega)).mpr ⟨block, hl, hlen, hpart⟩
  have hself : after.blocks path (position / size) = some block := by
    rw [hb, Function.update_self]
  have hother : ∀ index, index ≠ position / size →
      after.blocks path index = docs.blocks path index := fun index hi => by
    rw [hb, Function.update_of_ne hi]
  split
  · have hall : data.take count = data := List.take_of_length_le (by omega)
    exact ⟨hall ▸ hfront after hself, fun index hi => hother index (Nat.ne_of_lt hi)⟩
  next hlast =>
  have hnext := div_of_end hs (hend.resolve_left hlast)
  refine (upholds_writeFrom_spans hs _ _ (by omega) ?_ ?_).mono ?_ fun _ _ he => he
  · rw [List.length_drop]
    omega
  · intro i hi found hfound
    rw [List.length_drop] at hi
    have hlater : position / size + 1 ≤ (position + count + i) / size :=
      hnext ▸ Nat.div_le_div_right (Nat.le_add_right ..)
    rw [hother _ (by omega), Nat.add_assoc] at hfound
    exact hf (count + i) (by omega) found hfound
  · rintro _ later ⟨hrest, hkept⟩
    rw [hnext] at hkept
    constructor
    · rw [← List.take_append_drop count data, spans_append, hcount]
      exact ⟨hfront later ((hkept _ (Nat.lt_succ_self _)).trans hself), hrest⟩
    · intro index hi
      rw [hkept index (by omega), hother index (Nat.ne_of_lt hi)]
termination_by stop - position

theorem upholds_write_spans (maxSize : Nat) (hv : limits.Valid)
    (hf : Fits limits.blockSize (docs.blocks path) offset data.length) :
    (write limits path offset data).Upholds maxSize (fun _ => True)
      (fun _ after => offset + data.length ≤ limits.maxFileLen ∧
        Spans limits.blockSize (after.blocks path) offset data)
      (fun _ _ => True) docs := by
  have hs := hv.blockSize_pos
  have hw := hv.maxFileLen_eq.2
  by_cases hl : offset + data.length ≤ limits.maxFileLen
  case neg =>
    rw [write_eq_fail hl]
    trivial
  rw [write_eq hv hl]
  split
  · next hd => exact ⟨hl, hd ▸ spans_nil⟩
  next hd =>
  have hpos := List.length_pos_of_ne_nil hd
  refine Upholds.bind (upholds_fillGap _) (fun _ mid hkept => ?_) fun _ _ he => he
  have hfits : Fits limits.blockSize (mid.blocks path) offset data.length := by
    intro i hi block hb
    rw [hkept _ (Nat.div_le_div_right (Nat.le_add_right ..))] at hb
    exact hf i hi block hb
  refine Upholds.bind (upholds_writeFrom_spans hs offset data (by omega) (by omega) hfits) ?_
    fun _ _ he => he
  exact fun _ _ hpost => ⟨hl, hpost.1⟩

-- The operations on content end after a bounded number of requests, and none of them crashes: every
-- cut into a block is in range, and every sum, difference and product fits into a word.
structure Safe {σ : Type} (limits : Limits) (path : String) (backend : Backend σ) (state : σ) :
    Prop where
  read : ∀ offset length : UInt64, (Content.read limits path offset.toNat length.toNat).Ends
    (count limits.blockSize (offset.toNat + length.toNat) - offset.toNat / limits.blockSize)
    (fun bytes => bytes.length ≤ length.toNat) backend state
  write : ∀ (offset : UInt64) (data : Bytes), (Content.write limits path offset.toNat data).Ends
    (writeRequests limits) (fun _ => True) backend state
  truncate : ∀ length : UInt64, (Content.truncate limits path length.toNat).Ends
    (1 + modifyRequests + limits.maxBlocks) (fun _ => True) backend state
  remove : (Content.remove limits path).Ends limits.maxBlocks (fun _ => True) backend state

-- Whatever a store answers, and in particular one that only its own requests change, with any
-- documents in it.
theorem safe_on_any_blocks (hv : limits.validate = .ok ()) (path : String) :
    (∀ {σ : Type} (backend : Backend σ) (state : σ), Safe limits path backend state) ∧
      ∀ (maxSize : Nat) (scope : String) (image after : Image) (offset : UInt64) (data : Bytes)
        (grown : Option Nat),
        Fits limits.blockSize ((image.docs scope).blocks path) offset.toNat data.length →
        (write limits path offset.toNat data).run (Image.backend maxSize scope) image =
          (.done grown, after) →
        ((read limits path offset.toNat data.length).run (Image.backend maxSize scope) after).1 =
          .done data := by
  have hv := limits.validate_eq_ok_iff.mp hv
  refine ⟨fun backend state => ⟨?_, ?_, ?_, ?_⟩, ?_⟩
  · exact fun offset length => (bounded_read hv.blockSize_pos path _ _).ends backend state
  · exact fun offset data => (bounded_write hv path _ data).ends backend state
  · exact fun length => (bounded_truncate length.toNat_lt).ends backend state
  · exact (bounded_removeFrom 0 limits.maxBlocks).ends backend state
  · intro maxSize scope image after offset data grown hf hrun
    have hwritten : (Outcome.done grown).Meets _ (fun _ _ => True) (after.docs scope) :=
      hrun ▸ (upholds_write_spans maxSize hv hf).run
    obtain ⟨hl, hspans⟩ := hwritten
    have hw := hv.maxFileLen_eq.2
    obtain ⟨_, hread, rfl⟩ :=
      (upholds_read_of_spans maxSize hv.blockSize_pos (by omega) hspans).run.exists_done
    exact hread

namespace Sample

def ragged : Image :=
  let long := ((Image.new default).put defaultScope .blocks (Path.blockKey "/f" 0)
    [1, 2, 3, 4, 5, 6] 0).1
  (long.put defaultScope .blocks (Path.blockKey "/f" 2) [7] 0).1

def mended : Outcome (Option Nat) × Image :=
  (write small "/f" 5 [10, 11, 12, 13, 14, 15, 16, 17]).run (Image.backend 64 defaultScope) ragged

end Sample

theorem sample_safe_on_ragged_blocks :
    Sample.small.validate = .ok () ∧
      Safe Sample.small "/f" (Image.backend 64 defaultScope) Sample.ragged ∧
      Fits 4 ((Sample.ragged.docs defaultScope).blocks "/f") 5 8 ∧
      Sample.mended.1 = .done (some 13) ∧
      ((read Sample.small "/f" 5 8).run (Image.backend 64 defaultScope) Sample.mended.2).1 =
        .done [10, 11, 12, 13, 14, 15, 16, 17] := by
  have hv : Sample.small.validate = .ok () := by decide
  have hfits : Fits 4 ((Sample.ragged.docs defaultScope).blocks "/f") 5 8 := by
    have hall : ∀ i < 8, ((Sample.ragged.docs defaultScope).blocks "/f" ((5 + i) / 4)).all
        (·.length ≤ 4) := by decide +kernel
    intro i hi block hb
    have hblock := hall i hi
    rw [hb, Option.all_some] at hblock
    exact of_decide_eq_true hblock
  have hdone : Sample.mended.1 = .done (some 13) := by decide +kernel
  obtain ⟨hsafe, hback⟩ := safe_on_any_blocks hv "/f"
  exact ⟨hv, hsafe _ _, hfits, hdone, hback 64 defaultScope Sample.ragged Sample.mended.2 5
    [10, 11, 12, 13, 14, 15, 16, 17] (some 13) hfits (Prod.ext hdone rfl)⟩

end Content

end DocTree
