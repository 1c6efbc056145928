import DocTree.Proofs.Content.Block

namespace DocTree.Content

open Call Blocks

variable {faulty : Request → Prop} {docs : Docs} {path : String}
  {size offset position stop first : Nat} {bytes data : Bytes} {rest : Blocks}

variable {allowed : Collection → Request → Prop} {most : Nat}

theorem only_isFull (size : Nat) {index : Nat} (ha : Permits allowed path most)
    (hi : index < most) : (isFull size path index).Only allowed :=
  only_bind (only_fetch (ha _ _ hi rfl)) fun found => by split <;> trivial

theorem only_fillBlock (size : Nat) {index : Nat} (ha : Permits allowed path most)
    (hi : index < most) : (fillBlock size path index).Only allowed := by
  refine only_bind (only_isFull size ha hi) fun full => ?_
  split
  · trivial
  · exact only_bind (only_modify (fun request => ha index request hi) fun block h => nomatch h)
      fun _ => trivial

theorem only_fillBlocks (size : Nat) {indices : List Nat} (ha : Permits allowed path most)
    (hi : ∀ index ∈ indices, index < most) : (fillBlocks size path indices).Only allowed := by
  induction indices with
  | nil => trivial
  | cons index rest ih =>
    obtain ⟨hfirst, hrest⟩ := List.forall_mem_cons.mp hi
    exact only_bind (only_fillBlock size ha hfirst) fun _ => ih hrest

theorem only_fillGap (size : Nat) {first : Nat} (ha : Permits allowed path most)
    (hf : first ≤ most) : (fillGap size path first).Only allowed := by
  unfold fillGap
  split
  · trivial
  · refine only_bind (only_isFull size ha (by omega)) fun full => ?_
    split
    · trivial
    · refine only_fillBlocks size ha fun index hm => ?_
      have := List.mem_range.mp hm
      omega

theorem length_le_of_full {block : Bytes} {index : Nat}
    (hb : of size bytes index = some block) (hf : block.length = size) :
    (index + 1) * size ≤ bytes.length := by
  unfold of at hb
  split at hb
  · rw [Option.some_inj] at hb
    rw [← hb, length_chunk] at hf
    rw [Nat.add_mul]
    omega
  · cases hb

theorem ensures_fillBlock {index : Nat} (hs : 0 < size) (hb : docs.blocks path = of size bytes)
    (hi : index * size ≤ bytes.length) :
    (fillBlock size path index).Ensures faulty
      (fun _ after => after.blocks path = of size (bytes.extend ((index + 1) * size)))
      (fun _ after => (∃ request, faulty request) ∧ (after.blocks path = of size bytes ∨
        after.blocks path = of size (bytes.extend ((index + 1) * size)))) docs := by
  have hf : Function.update (of size bytes) index
      (some (Bytes.extend ((of size bytes index).getD []) size)) =
      of size (bytes.extend ((index + 1) * size)) := by
    have hm : index * size ≤ (index + 1) * size := Nat.mul_le_mul_right _ (Nat.le_succ _)
    have hn : index * size < (index + 1) * size + List.length ([] : Bytes) := by
      rw [Nat.add_mul]
      omega
    have h := update_laid bytes [] (fun _ => none) hm hn (Nat.le_refl _) hi (.inl rfl)
    have hd : (index + 1) * size - index * size = size := by
      rw [Nat.add_mul]
      omega
    rw [Bytes.overlay_nil, Bytes.overlay_nil, laid_none, laid_none, hd] at h
    exact h
  unfold fillBlock
  refine ensures_bind.mpr (ensures_isFull ?_ fun h _ => ⟨h, .inl hb⟩)
  by_cases hk : ∃ block, docs.blocks path index = some block ∧ block.length = size
  · obtain ⟨block, hk, hl⟩ := id hk
    rw [hb] at hk
    rw [if_pos (by simpa), ensures_pure, Bytes.extend_of_le (length_le_of_full hk hl)]
    exact hb
  · rw [if_neg (by simpa using hk)]
    apply ensures_bind.mpr
    apply ensures_modify (.inl rfl) rfl
    · intro after ha
      rw [ensures_pure, ha.blocks, hb, hf]
    · intro h text
      refine ⟨⟨h, .inl hb⟩, fun after ha => ⟨h, .inr ?_⟩⟩
      rw [ha.blocks, hb, hf]

theorem ensures_fillBlocks (hs : 0 < size) (many : Nat) {docs : Docs} {bytes : Bytes}
    (hb : docs.blocks path = of size bytes) (hi : first * size ≤ bytes.length) :
    (fillBlocks size path (List.range' first many)).Ensures faulty
      (fun _ after => after.blocks path = of size (bytes.extend ((first + many) * size)))
      (fun _ after => (∃ request, faulty request) ∧ ∃ length ≤ (first + many) * size,
        after.blocks path = of size (bytes.extend length)) docs := by
  induction many generalizing first docs bytes with
  | zero =>
    refine ?_
    rw [List.range'_zero, fillBlocks, ensures_pure, Nat.add_zero, Bytes.extend_of_le hi]
    exact hb
  | succ many ih =>
    have hm : (first + 1) * size ≤ (first + (many + 1)) * size :=
      Nat.mul_le_mul_right _ (by omega)
    rw [List.range'_succ, fillBlocks]
    apply (ensures_fillBlock hs hb hi).bind
    · intro _ after ha
      have hl : (first + 1) * size ≤ (bytes.extend ((first + 1) * size)).length := by
        rw [Bytes.length_extend]
        omega
      have hadd : first + 1 + many = first + (many + 1) := by omega
      apply (ih ha hl).mono
      · intro _ later hp
        rw [hp, Bytes.extend_extend, hadd, Nat.max_eq_right hm]
      · intro _ later hpost
        obtain ⟨h, length, hle, hp⟩ := hpost
        rw [hadd] at hle
        refine ⟨h, max ((first + 1) * size) length, by omega, ?_⟩
        rw [hp, Bytes.extend_extend]
    · intro _ after hpost
      obtain ⟨h, ha | ha⟩ := hpost
      · refine ⟨h, 0, Nat.zero_le _, ?_⟩
        rw [ha, Bytes.extend_of_le (Nat.zero_le _)]
      · exact ⟨h, _, hm, ha⟩

-- A gap is filled only where nothing stands behind the bytes.
theorem ensures_fillGap (hs : 0 < size) (hb : docs.blocks path = laid size bytes rest)
    (hr : Behind size bytes rest)
    (hg : rest = (fun _ => none) ∨ first * size ≤ bytes.length) :
    (fillGap size path first).Ensures faulty
      (fun _ after => after.blocks path = laid size (bytes.extend (first * size)) rest)
      (fun _ after => (∃ request, faulty request) ∧ ∃ length ≤ first * size,
        after.blocks path = laid size (bytes.extend length) rest) docs := by
  unfold fillGap
  split
  · next hz =>
    rw [ensures_pure, hz, Nat.zero_mul, Bytes.extend_of_le (Nat.zero_le _)]
    exact hb
  next hz =>
  have hf : first - 1 + 1 = first := by omega
  refine ensures_bind.mpr (ensures_isFull ?_ fun h _ => ⟨h, 0, Nat.zero_le _, ?_⟩)
  · by_cases hk : ∃ block, docs.blocks path (first - 1) = some block ∧ block.length = size
    · have hl : first * size ≤ bytes.length := by
        rcases hg with rfl | hl
        · obtain ⟨block, hk, hl⟩ := hk
          rw [hb, laid_none] at hk
          have := length_le_of_full hk hl
          rwa [hf] at this
        · exact hl
      rw [if_pos (by simpa using hk), ensures_pure, Bytes.extend_of_le hl]
      exact hb
    · rw [if_neg (by simpa using hk)]
      have hn : rest = fun _ => none := by
        rcases hg with hn | hl
        · exact hn
        · rw [← hf] at hl
          refine absurd ⟨chunk size bytes (first - 1), ?_, length_chunk_of_full hl⟩ hk
          rw [hb, laid_of_full hr hl hs]
      subst hn
      simp only [laid_none] at hb ⊢
      rw [List.range_eq_range']
      have hz : 0 * size ≤ bytes.length := by omega
      apply (ensures_fillBlocks hs first hb hz).mono
      · intro _ after ha
        rwa [Nat.zero_add] at ha
      · intro _ after hpost
        obtain ⟨h, length, hle, ha⟩ := hpost
        rw [Nat.zero_add] at hle
        exact ⟨h, length, hle, ha⟩
  · rw [hb, Bytes.extend_of_le (Nat.zero_le _)]

-- The change of a block by the data that falls into it, and whether the block grows.
def lay (size position : Nat) (data block : Bytes) : Option (Bytes × Bool) :=
  let first := position - position / size * size
  some (block.overlay first data, decide (block.length < first + data.length))

-- The blocks of a write with a position that moves on and the data that is left from there. The
-- answer tells whether the block grew that the write ends in.
def writeFrom (size : Nat) (path : String) (stop position : Nat) (data : Bytes) : Call Bool := do
  let count := min stop (position / size * size + size) - position
  let grown ← modify path (position / size) true (lay size position (data.take count))
  if 0 < count ∧ position + count < stop then
    writeFrom size path stop (position + count) (data.drop count)
  else
    return grown = some true
termination_by stop - position

-- One block of a write. It gets on, so that it is not caught in a block.
theorem writeFrom_eq {count : Nat} (hpos : 0 < count) (hstop : position + count ≤ stop)
    (hin : position + count ≤ position / size * size + size)
    (hend : position + count = stop ∨ position + count = position / size * size + size) :
    writeFrom size path stop position data =
      modify path (position / size) true (lay size position (data.take count)) >>= fun grown =>
        if position + count = stop then pure (decide (grown = some true))
        else writeFrom size path stop (position + count) (data.drop count) := by
  have hcount : min stop (position / size * size + size) - position = count := by omega
  rw [writeFrom]
  simp only [hcount]
  congr 1
  funext grown
  by_cases hlast : position + count = stop
  · rw [if_neg (by omega), if_pos hlast]
  · rw [if_pos (by omega), if_neg hlast]

-- What falls into a block starts at its start or where the whole write does, and goes up to its end
-- or to that of the write. Nothing on the way there leaves the range of a word or of the data.
theorem patchOf?_eq {count : Nat} (hw : stop + size < Word.limit) (ho : offset ≤ position)
    (hstart : position = offset ∨ position = position / size * size)
    (hstop : position + count ≤ stop) (hin : position + count ≤ position / size * size + size)
    (hend : position + count = stop ∨ position + count = position / size * size + size)
    (hl : data.length = stop - offset) :
    patchOf? size offset stop data (position / size) =
      some ⟨position - position / size * size, position + count - position / size * size,
        (data.drop (position - offset)).take count⟩ := by
  have hm := Nat.div_mul_le_self position size
  have hfirst : max offset (position / size * size) = position := by omega
  have hlast : min stop (position / size * size + size) = position + count := by omega
  have hwidth : position + count - position / size * size - (position - position / size * size) =
      count := by omega
  have hslice : data.slice? (position - offset) (position - offset + count) =
      some ((data.drop (position - offset)).take count) := by
    rw [Bytes.slice?_eq_some (by omega) (by omega), List.drop_take, Nat.add_sub_cancel_left]
  simp only [patchOf?, Word.mul?_eq_some (show position / size * size < Word.limit by omega),
    Word.add?_eq_some (show position / size * size + size < Word.limit by omega), hfirst, hlast,
    Word.sub?_eq_some hm,
    Word.sub?_eq_some (show position / size * size ≤ position + count by omega),
    Word.sub?_eq_some ho, Word.sub?_eq_some (show position - position / size * size ≤
      position + count - position / size * size by omega), hwidth,
    Word.add?_eq_some (show position / size * size + (position - position / size * size) <
      Word.limit by omega), Nat.add_sub_cancel' hm,
    Word.add?_eq_some (show position - offset + count < Word.limit by omega), hslice,
    Option.bind_eq_bind, Option.bind_some]
  rfl

theorem apply_eq_lay {source : Bytes} :
    (Patch.mk (position - position / size * size)
      (position + source.length - position / size * size) source).apply =
      lay size position source := by
  have hm := Nat.div_mul_le_self position size
  funext block
  have hlast : position + source.length - position / size * size =
      position - position / size * size + source.length := by omega
  simp only [Patch.apply, lay, hlast]
  rw [Bytes.patch?_extend (by omega) (by omega)]
  rfl

-- The blocks of a write, taken one after the other, are those that a moving position comes to.
theorem writeBlocks_eq (hs : 0 < size) (hw : stop + size < Word.limit) (position : Nat)
    (ho : offset ≤ position) (hp : position < stop)
    (hstart : position = offset ∨ position = position / size * size)
    (hl : data.length = stop - offset) :
    writeBlocks size path offset stop data ((stop - 1) / size) none
        (List.range' (position / size) ((stop - 1) / size + 1 - position / size)) =
      (fun grown => if grown then some stop else none) <$>
        writeFrom size path stop position (data.drop (position - offset)) := by
  have hm := Nat.div_mul_le_self position size
  obtain ⟨count, hpos, hstop, hin, hend⟩ := exists_front hs hp
  have hlength : ((data.drop (position - offset)).take count).length = count := by
    rw [List.length_take, List.length_drop]
    omega
  have hle : position / size ≤ (stop - 1) / size := Nat.div_le_div_right (by omega)
  have hmany : (stop - 1) / size + 1 - position / size =
      (stop - 1) / size - position / size + 1 := by omega
  rw [hmany, List.range'_succ, writeBlocks, patchOf?_eq hw ho hstart hstop hin hend hl,
    ofOption_some_bind, writeFrom_eq hpos hstop hin hend, map_bind]
  have happly : (Patch.mk (position - position / size * size)
      (position + count - position / size * size)
      ((data.drop (position - offset)).take count)).apply =
      lay size position ((data.drop (position - offset)).take count) := by
    rw [← apply_eq_lay, hlength]
  rw [happly]
  congr 1
  funext grown
  -- Only in the last block there may be room left behind the data.
  by_cases hlast : position + count = stop
  · have hindex : position / size = (stop - 1) / size :=
      (Nat.div_eq_of_lt_le (by omega) (by rw [Nat.succ_mul]; omega)).symm
    rw [if_pos hlast, ← hindex, Nat.sub_self, List.range'_zero, writeBlocks]
    simp
  · have hnext := div_of_end hs (hend.resolve_left hlast)
    have hindex : position / size ≠ (stop - 1) / size := by
      have := Nat.div_le_div_right (c := size) (show position + count ≤ stop - 1 by omega)
      omega
    have hmore : (stop - 1) / size - position / size = (stop - 1) / size + 1 -
        (position + count) / size := by omega
    have hdrop : position + count - offset = position - offset + count := by omega
    simp only [hindex, false_and, if_false]
    rw [if_neg hlast, hmore, ← hnext, writeBlocks_eq hs hw (position + count) (by omega) (by omega)
      (.inr (by rw [hnext, Nat.succ_mul]; omega)) hl, List.drop_drop, hdrop]
termination_by stop - position

theorem only_writeFrom (hs : 0 < size) (ha : Permits allowed path most) (hc : stop ≤ size * most)
    (position : Nat) (data : Bytes) (hp : position < stop) :
    (writeFrom size path stop position data).Only allowed := by
  have hi : position / size < most := Nat.div_lt_of_lt_mul (by omega)
  obtain ⟨count, hpos, hstop, hin, hend⟩ := exists_front hs hp
  rw [writeFrom_eq hpos hstop hin hend]
  refine only_bind (only_modify (fun request => ha _ request hi) fun _ => Option.some_ne_none _)
    fun grown => ?_
  split
  · trivial
  · exact only_writeFrom hs ha hc _ _ (by omega)
termination_by stop - position

-- Only the last block can be short, so it tells whether the bytes end before `stop`.
theorem length_laid_lt_iff {index : Nat} (hg : index * size ≤ bytes.length)
    (hd : stop ≤ (index + 1) * size) (hp : index * size < stop)
    (hr : rest = (fun _ => none) ∨ stop ≤ bytes.length) :
    List.length ((laid size bytes rest index).getD []) < stop - index * size ↔
      bytes.length < stop := by
  rw [Nat.add_mul] at hd
  rcases hr with rfl | hl
  · rw [laid_none, of]
    by_cases hi : index * size < bytes.length
    · rw [if_pos hi, Option.getD_some, length_chunk]
      omega
    · rw [if_neg hi, Option.getD_none, List.length_nil]
      omega
  · rw [laid, if_pos (by omega), Option.getD_some, List.length_append, length_chunk]
    omega

-- Data that starts in a block up to which there is no gap.
theorem ensures_writeFrom (hs : 0 < size) (position : Nat) (data : Bytes) (hp : position < stop)
    (hl : data.length = stop - position) {docs : Docs}
    {bytes : Bytes} (hb : docs.blocks path = laid size bytes rest)
    (hg : position / size * size ≤ bytes.length)
    (hr : rest = (fun _ => none) ∨ stop ≤ bytes.length) :
    (writeFrom size path stop position data).Ensures faulty
      (fun grown after => after.blocks path = laid size (bytes.overlay position data) rest ∧
        grown = decide (bytes.length < stop))
      (fun _ after => (∃ request, faulty request) ∧ ∃ count ≤ data.length,
        after.blocks path = laid size (bytes.write position (data.take count)) rest) docs := by
  have hm := Nat.div_mul_le_self position size
  have hblock : (position / size + 1) * size = position / size * size + size := Nat.succ_mul ..
  obtain ⟨count, hpos, hstop, hin, hend⟩ := exists_front hs hp
  have hc : (data.take count).length = count := List.length_take_of_le (by omega)
  have hne : data.take count ≠ [] := by
    rw [← List.length_pos_iff]
    omega
  have hupd := update_laid bytes (data.take count) rest hm (by omega)
    (by omega) hg (hr.imp_right fun h => by omega)
  rw [writeFrom_eq hpos hstop hin hend]
  refine ensures_bind.mpr (ensures_modify (.inl rfl) rfl ?_ ?_)
  · intro after ha
    have hblocks : after.blocks path =
        laid size (bytes.overlay position (data.take count)) rest := by
      rw [ha.blocks, hb]
      exact hupd
    split
    · next he =>
      have hall : data.take count = data := List.take_of_length_le (by omega)
      rw [hall] at hblocks
      refine ⟨hblocks, ?_⟩
      have hfirst : position - position / size * size + count = stop - position / size * size := by
        omega
      rw [hc, hfirst, hb]
      simp only [Option.some_inj, decide_eq_true_eq]
      exact decide_eq_decide.mpr (length_laid_lt_iff hg (by omega) (by omega) hr)
    · next he =>
      have hgrow := Bytes.length_overlay bytes position (data.take count)
      have hstart := Nat.div_mul_le_self (position + count) size
      have hdrop : (data.drop count).length = stop - (position + count) := by
        rw [List.length_drop]
        omega
      refine (ensures_writeFrom hs _ _ (by omega) hdrop hblocks (by omega)
        (hr.imp_right fun h => by omega)).mono ?_ ?_
      · intro grown later hpost
        obtain ⟨ha, rfl⟩ := hpost
        constructor
        · rw [ha]
          nth_rewrite 3 [← List.take_append_drop count data]
          rw [Bytes.overlay_append, hc]
        · rw [decide_eq_decide, hgrow]
          omega
      · intro _ later hpost
        obtain ⟨h, more, hle, ha⟩ := hpost
        refine ⟨h, count + more, by omega, ?_⟩
        rw [ha, List.take_add, Bytes.write_append hne, hc]
  · intro h text
    refine ⟨⟨h, 0, Nat.zero_le _, ?_⟩, fun after ha => ⟨h, count, by omega, ?_⟩⟩
    · rw [List.take_zero, Bytes.write_nil, hb]
    · rw [Bytes.write_of_ne hne, ha.blocks, hb]
      exact hupd
termination_by stop - position

variable {limits : Limits} {offset : Nat}

theorem write_eq (hv : limits.Valid) (hl : offset + data.length ≤ limits.maxFileLen) :
    write limits path offset data =
      if data = [] then pure none
      else fillGap limits.blockSize path (offset / limits.blockSize) >>= fun _ =>
        (fun grown => if grown then some (offset + data.length) else none) <$>
          writeFrom limits.blockSize path (offset + data.length) offset data := by
  have hw := hv.maxFileLen_eq.2
  unfold write
  rw [Word.add?_eq_some (by omega)]
  simp only [Option.elim_some, ofExcept_ok_bind, check, if_pos hl]
  change ite _ _ _ = _
  split
  · rfl
  next hd =>
  have hpos := List.length_pos_of_ne_nil hd
  rw [writeUpTo, Word.sub?_eq_some (by omega), ofOption_some_bind]
  dsimp only
  rw [writeBlocks_eq hv.blockSize_pos (by omega) offset (Nat.le_refl _) (by omega) (.inl rfl)
    (Nat.add_sub_cancel_left ..).symm, Nat.sub_self, List.drop_zero]

-- A write that would end too far out, or past the largest word, asks the store for nothing.
theorem write_eq_fail (hl : ¬offset + data.length ≤ limits.maxFileLen) :
    write limits path offset data = Call.fail .fileTooLarge := by
  unfold write
  rw [Word.add?]
  by_cases ha : offset + data.length < Word.limit
  · simp only [if_pos ha, Option.elim_some, ofExcept_ok_bind, check, if_neg hl]
    rfl
  · simp only [if_neg ha, Option.elim_none, ofExcept_error_bind]

-- Whatever is answered, the length that a write reports is the one where it ends.
theorem exists_write_eq_map (hv : limits.Valid) (ha : Permits allowed path limits.maxBlocks)
    (offset : Nat) (data : Bytes) :
    ∃ call : Call Bool, call.Only allowed ∧ write limits path offset data =
      (fun grown => if grown then some (offset + data.length) else none) <$> call := by
  obtain ⟨hmax, hw⟩ := hv.maxFileLen_eq
  by_cases hl : offset + data.length ≤ limits.maxFileLen
  case neg => exact ⟨Call.fail .fileTooLarge, trivial, write_eq_fail hl⟩
  rw [write_eq hv hl]
  split
  · exact ⟨pure false, trivial, rfl⟩
  next hd =>
  have hpos := List.length_pos_of_ne_nil hd
  have hfirst : offset / limits.blockSize < limits.maxBlocks := Nat.div_lt_of_lt_mul (by omega)
  refine ⟨fillGap limits.blockSize path (offset / limits.blockSize) >>= fun _ =>
    writeFrom limits.blockSize path (offset + data.length) offset data, ?_, ?_⟩
  · exact only_bind (only_fillGap _ ha (by omega)) fun _ =>
      only_writeFrom hv.blockSize_pos ha (by omega) offset data (by omega)
  · rw [map_bind]

theorem only_write (hv : limits.Valid) (ha : Permits allowed path limits.maxBlocks) :
    (write limits path offset data).Only allowed := by
  obtain ⟨call, ho, he⟩ := exists_write_eq_map hv ha offset data
  rw [he]
  exact only_bind ho fun _ => trivial

-- A write that leaves the range of what stands behind the bytes alone, or before anything stands
-- there.
theorem ensures_write (hv : limits.Valid) (hl : offset + data.length ≤ limits.maxFileLen)
    (hb : docs.blocks path = laid limits.blockSize bytes rest)
    (hbehind : Behind limits.blockSize bytes rest)
    (hr : data ≠ [] → rest = (fun _ => none) ∨ offset + data.length ≤ bytes.length) :
    (write limits path offset data).Ensures faulty
      (fun grown after => after.blocks path = laid limits.blockSize (bytes.write offset data) rest ∧
        grown = if data ≠ [] ∧ bytes.length < offset + data.length
          then some (offset + data.length) else none)
      (fun _ after => (∃ request, faulty request) ∧ data ≠ [] ∧
        ∃ length ≤ offset, ∃ count ≤ data.length, after.blocks path =
          laid limits.blockSize ((bytes.extend length).write offset (data.take count)) rest)
      docs := by
  have hs := hv.blockSize_pos
  have hw := hv.maxFileLen_eq.2
  have hm := Nat.div_mul_le_self offset limits.blockSize
  rw [write_eq hv hl]
  by_cases hd : data = []
  · subst hd
    rw [if_pos rfl, ensures_pure]
    exact ⟨hb, by simp⟩
  have hpos := List.length_pos_of_ne_nil hd
  have hr := hr hd
  rw [if_neg hd]
  apply (ensures_fillGap hs hb hbehind (hr.imp_right fun h => by omega)).bind
  · intro _ after ha
    have he := Bytes.length_extend bytes (offset / limits.blockSize * limits.blockSize)
    apply (ensures_writeFrom hs offset data (by omega) (by omega) ha (by omega)
      (hr.imp_right fun h => by omega)).bind
    · intro grown later hpost
      obtain ⟨hl, rfl⟩ := hpost
      refine ⟨?_, ?_⟩
      · rw [hl, Bytes.overlay_extend hm, Bytes.write_of_ne hd]
      · simp only [decide_eq_true_eq, he]
        congr 1
        simp only [eq_iff_iff]
        constructor
        · intro h
          exact ⟨hd, by omega⟩
        · intro hc
          obtain ⟨-, h⟩ := hc
          omega
    · intro _ later hpost
      obtain ⟨h, count, hle, hk⟩ := hpost
      exact ⟨h, hd, _, hm, count, hle, hk⟩
  · intro _ after hpost
    obtain ⟨h, length, hle, ha⟩ := hpost
    refine ⟨h, hd, length, by omega, 0, Nat.zero_le _, ?_⟩
    rw [List.take_zero, Bytes.write_nil, ha]

end DocTree.Content
