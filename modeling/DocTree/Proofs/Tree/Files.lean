import DocTree.Proofs.Bytes.Covered
import DocTree.Proofs.Bytes.Partly
import DocTree.Proofs.Tree.FileCalls

namespace DocTree

open Call Content Blocks

-- A file with these bytes: the size is recorded, and the blocks begin with them.
structure Docs.Holds (limits : Limits) (path : String) (bytes : Bytes) (docs : Docs) : Prop where
  stat : ∃ stat, docs.StatAt path (some stat) ∧ stat.isRegularFile ∧
    stat.size.toNat = bytes.length
  blocks : Covered limits.blockSize limits.maxBlocks bytes (docs.blocks path)
  length_le : bytes.length ≤ limits.maxFileLen

-- A record that a call changed as it does when it goes through.
def Docs.Recorded (docs : Docs) (operation : Operation) (now : Readings) (path : String)
    (after : Docs) : Prop :=
  ∃ stat change, docs.StatAt path (some stat) ∧ Catalog.Updates operation path change ∧
    after.StatAt path (some (stat.apply change (now 0)))

namespace Tree

variable {faulty : Request → Prop} {docs : Docs} {limits : Limits} {path : String}
  {stat : StatRecord} {now : Readings} {bytes data : Bytes}

theorem ensures_readContent (hv : limits.Valid) (hsize : stat.size.toNat = bytes.length)
    (hc : Covered limits.blockSize limits.maxBlocks bytes (docs.blocks path)) {offset : UInt64}
    {size : UInt32} :
    (readContent limits path stat offset size).Ensures faulty
      (fun data after => after = docs ∧ data = (bytes.drop offset.toNat).take size.toNat)
      (fun _ after => after = docs ∧ ∃ request, faulty request) docs := by
  have hword : stat.size.toNat < Word.limit := stat.size.toNat_lt
  unfold readContent
  rw [hsize]
  split
  · next hz =>
    refine ⟨rfl, ?_⟩
    rw [eq_comm, ← List.length_eq_zero_iff, List.length_take, List.length_drop]
    exact hz
  · next hz =>
    have hlaid := hc.eq_laid hv.blockSize_pos
    refine (ensures_read hv hlaid behind_beyond (.inr (by omega)) (by omega)).mono ?_ fun _ _ h => h
    intro data after hpost
    obtain ⟨ha, rfl⟩ := hpost
    refine ⟨ha, ?_⟩
    rw [List.take_eq_take_iff, List.length_drop]
    omega

-- Dropping what stands behind the recorded size leaves the bytes in any case, and nothing else if
-- it goes through.
theorem ensures_dropUnrecordedTail (hv : limits.Valid) (hsize : stat.size.toNat = bytes.length)
    (hc : Covered limits.blockSize limits.maxBlocks bytes (docs.blocks path))
    (hl : bytes.length ≤ limits.maxFileLen) (hrem : ∀ key, ¬faulty (.remove key)) :
    (dropUnrecordedTail limits path stat).Ensures faulty
      (fun _ after => after.blocks path = of limits.blockSize bytes)
      (fun _ after => (∃ request, faulty request) ∧
        Covered limits.blockSize limits.maxBlocks bytes (after.blocks path)) docs := by
  have hs := hv.blockSize_pos
  have hw := hv.maxFileLen_eq.2
  unfold dropUnrecordedTail
  rw [hsize]
  apply (ensures_truncate hv (by omega)).mono
  · intro _ after hpost
    obtain ⟨last, hm, ha⟩ := hpost
    rw [ha, cutUpTo_eq_of hs hm hc (Nat.le_refl _), List.take_length]
  · intro _ after hpost
    obtain ⟨h, ha | ⟨last, hcut, hk | hk⟩⟩ := hpost
    · exact ⟨h, ha ▸ hc⟩
    · exact absurd hk.choose_spec (hrem _)
    · refine ⟨h, ?_⟩
      rw [hcut, hk, cutUpTo, cleared_self]
      exact hc.trimmed hs

-- The content after a write that went through, and the change of the record that goes with it.
structure WriteDone (limits : Limits) (path : String) (stat : StatRecord) (bytes : Bytes)
    (offset : Nat) (data : Bytes) (docs : Docs) (change : StatChange) (after : Docs) : Prop where
  kind : change = .modified ∨ ∃ size, change = .size size
  size : (change.sizeAfter stat.size).toNat = (bytes.write offset data).length
  blocks : Covered limits.blockSize limits.maxBlocks (bytes.write offset data) (after.blocks path)
  dense : docs.blocks path = of limits.blockSize bytes →
    after.blocks path = of limits.blockSize (bytes.write offset data)

-- The content after a write that failed.
def WriteCutShort (limits : Limits) (path : String) (bytes : Bytes) (offset : Nat) (data : Bytes)
    (after : Docs) : Prop :=
  ∃ left, bytes.Partly offset data left ∧
    Covered limits.blockSize limits.maxBlocks left (after.blocks path)

theorem ensures_writeContent_growing (hv : limits.Valid) (hsize : stat.size.toNat = bytes.length)
    (hc : Covered limits.blockSize limits.maxBlocks bytes (docs.blocks path))
    (hl : bytes.length ≤ limits.maxFileLen) (hrem : ∀ key, ¬faulty (.remove key)) {offset : Nat}
    (hstop : offset + data.length ≤ limits.maxFileLen) (hne : data ≠ [])
    (hgrow : bytes.length < offset + data.length) :
    (writeContent limits path stat offset (offset + data.length) data).Ensures faulty
      (WriteDone limits path stat bytes offset data docs)
      (fun _ after => (∃ request, faulty request) ∧
        WriteCutShort limits path bytes offset data after) docs := by
  obtain ⟨hmax, hw⟩ := hv.maxFileLen_eq
  rw [Nat.mul_comm] at hmax
  have hlen : (bytes.write offset data).length = offset + data.length := by
    rw [Bytes.length_write_of_ne hne]
    omega
  unfold writeContent
  rw [hsize, if_pos ⟨hne, hgrow⟩]
  apply (ensures_dropUnrecordedTail hv hsize hc hl hrem).bind
  · intro _ mid hmid
    rw [← laid_none] at hmid
    apply (ensures_write hv hstop hmid behind_none fun _ => .inl rfl).bind
    · intro grown after hpost
      obtain ⟨ha, hgrown⟩ := hpost
      rw [laid_none] at ha
      rw [hgrown, if_pos ⟨hne, hgrow⟩, ensures_pure, Option.getD_some]
      constructor
      case kind => exact .inr ⟨_, rfl⟩
      case size =>
        have hword : UInt64.size = Word.limit := rfl
        have hlt : offset + data.length < UInt64.size := by omega
        rw [StatChange.sizeAfter, UInt64.toNat_ofNat_of_lt' hlt, hlen]
      case blocks =>
        rw [ha]
        exact covered_of (by omega)
      case dense => exact fun _ => ha
    · intro _ after hpost
      obtain ⟨h, -, length, hle, count, hcount, ha⟩ := hpost
      have he := Bytes.length_extend bytes length
      have hfits : ((bytes.extend length).write offset (data.take count)).length ≤
          limits.maxFileLen := by
        by_cases hz : data.take count = []
        · rw [hz, Bytes.write_nil, he]
          omega
        · rw [Bytes.length_write_of_ne hz, he, List.length_take]
          omega
      have hkept : bytes.length ≤ ((bytes.extend length).write offset (data.take count)).length :=
        Nat.le_trans (he ▸ Nat.le_max_left ..) Bytes.length_le_length_write
      refine ⟨h, _, Bytes.partly_take_write bytes data offset length count, ?_⟩
      rw [ha, laid_none]
      exact (covered_of (hmax ▸ hfits)).take hkept
  · intro _ after hpost
    obtain ⟨h, ha⟩ := hpost
    exact ⟨h, bytes, .refl, ha⟩

theorem ensures_writeContent_within (hv : limits.Valid) (hsize : stat.size.toNat = bytes.length)
    (hc : Covered limits.blockSize limits.maxBlocks bytes (docs.blocks path)) {offset : Nat}
    (hstop : offset + data.length ≤ limits.maxFileLen)
    (hin : data ≠ [] → offset + data.length ≤ bytes.length) :
    (writeContent limits path stat offset (offset + data.length) data).Ensures faulty
      (WriteDone limits path stat bytes offset data docs)
      (fun _ after => (∃ request, faulty request) ∧
        WriteCutShort limits path bytes offset data after) docs := by
  obtain ⟨rest, hlaid, hbehind, hdense⟩ := hc.exists_laid hv.blockSize_pos
  have hsame : ∀ other : Bytes, other.length = bytes.length →
      Covered limits.blockSize limits.maxBlocks other (laid limits.blockSize other rest) := by
    intro other ho
    have hsolid := hc.solid
    rw [hlaid] at hsolid
    exact covered_laid (hbehind.of_length ho) (hsolid.laid_of_length ho)
  have hlen : (bytes.write offset data).length = bytes.length := by
    by_cases hd : data = []
    · rw [hd, Bytes.write_nil]
    · exact Bytes.length_write_of_le (hin hd)
  have hgrow : ¬(data ≠ [] ∧ bytes.length < offset + data.length) := by
    intro hc
    have hfits := hin hc.1
    omega
  unfold writeContent
  rw [hsize, if_neg hgrow]
  apply (ensures_write hv hstop hlaid hbehind fun hd => .inr (hin hd)).bind
  · intro _ after hpost
    obtain ⟨ha, -⟩ := hpost
    constructor
    case kind => exact .inl rfl
    case size =>
      rw [hlen, ← hsize]
      rfl
    case blocks =>
      rw [ha]
      exact hsame _ hlen
    case dense =>
      intro hd
      rw [ha, hdense hd, laid_none]
  · intro _ after hpost
    obtain ⟨h, hd, length, hle, count, hcount, ha⟩ := hpost
    have hpos := List.length_pos_of_ne_nil hd
    have hfits := hin hd
    rw [Bytes.extend_of_le (by omega)] at ha
    refine ⟨h, _, Bytes.partly_write count hfits, ?_⟩
    rw [ha]
    apply hsame _ (Bytes.length_write_of_le ?_)
    rw [List.length_take]
    omega

theorem ensures_writeContent (hv : limits.Valid) (hsize : stat.size.toNat = bytes.length)
    (hc : Covered limits.blockSize limits.maxBlocks bytes (docs.blocks path))
    (hl : bytes.length ≤ limits.maxFileLen) (hrem : ∀ key, ¬faulty (.remove key)) {offset : Nat}
    (hstop : offset + data.length ≤ limits.maxFileLen) :
    (writeContent limits path stat offset (offset + data.length) data).Ensures faulty
      (WriteDone limits path stat bytes offset data docs)
      (fun _ after => (∃ request, faulty request) ∧
        WriteCutShort limits path bytes offset data after) docs := by
  by_cases hgrow : data ≠ [] ∧ bytes.length < offset + data.length
  · exact ensures_writeContent_growing hv hsize hc hl hrem hstop hgrow.1 hgrow.2
  · apply ensures_writeContent_within hv hsize hc hstop
    intro hd
    by_contra hlt
    exact hgrow ⟨hd, by omega⟩

-- Zeros at the end, chunk by chunk.
theorem ensures_growTo (hv : limits.Valid) {chunk size : Nat} (hchunk : 0 < chunk)
    (hsize : size ≤ limits.maxFileLen) (position : Nat) {docs : Docs} {bytes : Bytes}
    (hp : bytes.length = position) (hle : position ≤ size)
    (hb : docs.blocks path = of limits.blockSize bytes) :
    (growTo limits path chunk size position).Ensures faulty
      (fun _ after => after.blocks path = of limits.blockSize (bytes.extend size))
      (fun _ after => (∃ request, faulty request) ∧ ∃ length ≤ size,
        after.blocks path = of limits.blockSize (bytes.extend length)) docs := by
  rw [growTo]
  split
  swap
  · next hge =>
    rw [ensures_pure, Bytes.extend_of_le (by omega)]
    exact hb
  next hlt =>
  dsimp only
  rw [if_pos (by omega)]
  generalize hn : min chunk (size - position) = many
  have hzeros := Bytes.length_zeros many
  have hne : Bytes.zeros many ≠ [] := by
    rw [← List.length_pos_iff, hzeros]
    omega
  have hb' := hb
  rw [← laid_none] at hb'
  apply (ensures_write hv (by omega) hb' behind_none fun _ => .inl rfl).bind
  · intro _ mid hpost
    obtain ⟨hmid, -⟩ := hpost
    rw [laid_none, Bytes.write_of_ne hne, Bytes.overlay_zeros hp] at hmid
    have hlen : (bytes.extend (position + many)).length = position + many := by
      rw [Bytes.length_extend]
      omega
    apply (ensures_growTo hv hchunk hsize _ hlen (by omega) hmid).mono
    · intro _ after ha
      rw [ha, Bytes.extend_extend]
      congr 2
      omega
    · intro _ after hpost
      obtain ⟨h, length, hle', ha⟩ := hpost
      refine ⟨h, max (position + many) length, by omega, ?_⟩
      rw [ha, Bytes.extend_extend]
  · intro _ after hpost
    obtain ⟨h, -, length, hlength, count, hcount, ha⟩ := hpost
    have htake : (Bytes.zeros many).take count = Bytes.zeros count := by
      unfold Bytes.zeros
      rw [List.take_replicate]
      congr 1
      omega
    rw [laid_none, Bytes.extend_of_le (by omega), htake] at ha
    refine ⟨h, if count = 0 then 0 else position + count, by split <;> omega, ?_⟩
    rw [ha]
    by_cases hz : count = 0
    · subst hz
      rw [if_pos rfl, Bytes.extend_of_le (Nat.zero_le _)]
      exact congrArg _ (Bytes.write_nil bytes position)
    · have hcne : Bytes.zeros count ≠ [] := by
        rw [← List.length_pos_iff, Bytes.length_zeros]
        omega
      rw [if_neg hz, Bytes.write_of_ne hcne, Bytes.overlay_zeros hp]
termination_by size - position

theorem ensures_resizeContent_growing (hv : limits.Valid) (hsize : stat.size.toNat = bytes.length)
    (hc : Covered limits.blockSize limits.maxBlocks bytes (docs.blocks path))
    (hl : bytes.length ≤ limits.maxFileLen) (hrem : ∀ key, ¬faulty (.remove key)) {size : Nat}
    (hmax : size ≤ limits.maxFileLen) (hgrow : bytes.length < size) :
    (resizeContent limits path stat size).Ensures faulty
      (fun _ after => after.blocks path = of limits.blockSize (bytes.resize size))
      (fun _ after => (∃ request, faulty request) ∧
        Covered limits.blockSize limits.maxBlocks bytes (after.blocks path)) docs := by
  have hs := hv.blockSize_pos
  obtain ⟨hprod, hw⟩ := hv.maxFileLen_eq
  rw [Nat.mul_comm] at hprod
  unfold resizeContent
  dsimp only
  rw [hsize, if_neg (by omega), if_pos hgrow, Bytes.resize_of_ge (by omega)]
  apply (ensures_dropUnrecordedTail hv hsize hc hl hrem).bind ?_ fun _ _ h => h
  intro _ mid hmid
  apply (ensures_growTo hv (by omega) hmax _ rfl (by omega) hmid).mono fun _ _ h => h
  intro _ after hpost
  obtain ⟨h, length, hle, ha⟩ := hpost
  refine ⟨h, ?_⟩
  have hlen := Bytes.length_extend bytes length
  have htake : (bytes.extend length).take bytes.length = bytes := by
    rw [Bytes.take_extend (Nat.le_refl _), List.take_length]
  have hcov : Covered limits.blockSize limits.maxBlocks
      ((bytes.extend length).take bytes.length) (of limits.blockSize (bytes.extend length)) := by
    apply (covered_of ?_).take ?_
    · omega
    · omega
  rwa [htake, ← ha] at hcov

theorem ensures_resizeContent (hv : limits.Valid) (hsize : stat.size.toNat = bytes.length)
    (hc : Covered limits.blockSize limits.maxBlocks bytes (docs.blocks path))
    (hl : bytes.length ≤ limits.maxFileLen) (hrem : ∀ key, ¬faulty (.remove key)) {size : Nat}
    (hmax : size ≤ limits.maxFileLen) :
    (resizeContent limits path stat size).Ensures faulty
      (fun _ after => Covered limits.blockSize limits.maxBlocks (bytes.resize size)
          (after.blocks path) ∧
        (docs.blocks path = of limits.blockSize bytes →
          after.blocks path = of limits.blockSize (bytes.resize size)))
      (fun _ after => (∃ request, faulty request) ∧ (bytes.length ≤ size →
        Covered limits.blockSize limits.maxBlocks bytes (after.blocks path))) docs := by
  have hs := hv.blockSize_pos
  obtain ⟨hprod, hw⟩ := hv.maxFileLen_eq
  rw [Nat.mul_comm] at hprod
  have hlen := Bytes.length_resize bytes size
  have hof : Covered limits.blockSize limits.maxBlocks (bytes.resize size)
      (of limits.blockSize (bytes.resize size)) := covered_of (by omega)
  rcases Nat.lt_trichotomy size bytes.length with hlt | heq | hgt
  · unfold resizeContent
    dsimp only
    rw [hsize, if_pos hlt]
    apply (ensures_truncate hv (by omega)).mono
    · intro _ after hpost
      obtain ⟨last, hm, ha⟩ := hpost
      rw [cutUpTo_eq_of hs hm hc (by omega), ← Bytes.resize_of_le (by omega)] at ha
      rw [ha]
      exact ⟨hof, fun _ => rfl⟩
    · intro _ after hpost
      obtain ⟨h, -⟩ := hpost
      exact ⟨h, fun hle => absurd hle (by omega)⟩
  · have hsame : bytes.resize size = bytes := by
      rw [Bytes.resize_of_le (by omega), List.take_of_length_le (by omega)]
    unfold resizeContent
    dsimp only
    rw [hsize, if_neg (by omega), if_neg (by omega), ensures_pure, hsame]
    exact ⟨hc, id⟩
  · apply (ensures_resizeContent_growing hv hsize hc hl hrem hmax hgt).mono
    · intro _ after ha
      rw [ha]
      exact ⟨hof, fun _ => rfl⟩
    · intro _ after hpost
      obtain ⟨h, hcov⟩ := hpost
      exact ⟨h, fun _ => hcov⟩

-- The change of the record that a write asks for, from the record that it read.
def writeChange (stat : StatRecord) (stop : Nat) (data : Bytes) : StatChange :=
  if data ≠ [] ∧ stat.size.toNat < stop then .size (UInt64.ofNat stop) else .modified

-- Whatever is answered to the requests on blocks.
theorem exists_writeContent_eq_map {allowed : Collection → Request → Prop} (hv : limits.Valid)
    (ha : Permits allowed path limits.maxBlocks) (stat : StatRecord) {offset : Nat}
    (hs : offset + data.length ≤ limits.maxFileLen) :
    ∃ call : Call Unit, call.Only allowed ∧
      writeContent limits path stat offset (offset + data.length) data =
        (fun _ => writeChange stat (offset + data.length) data) <$> call := by
  obtain ⟨call, ho, he⟩ := exists_write_eq_map hv ha offset data
  unfold writeContent writeChange
  rw [he]
  split
  · refine ⟨dropUnrecordedTail limits path stat >>= fun _ => call >>= fun _ => pure (), ?_, ?_⟩
    · exact only_bind (only_truncate hv ha (by omega)) fun _ => only_bind ho fun _ => trivial
    · simp only [map_bind, bind_map_left, map_pure]
      refine congrArg _ (funext fun _ => congrArg _ (funext fun grown => ?_))
      cases grown <;> rfl
  · refine ⟨call >>= fun _ => pure (), only_bind ho fun _ => trivial, ?_⟩
    simp only [map_bind, bind_map_left, map_pure]

theorem only_writeContent {allowed : Collection → Request → Prop} (hv : limits.Valid)
    (ha : Permits allowed path limits.maxBlocks) {offset : Nat}
    (hs : offset + data.length ≤ limits.maxFileLen) :
    (writeContent limits path stat offset (offset + data.length) data).Only allowed := by
  obtain ⟨call, ho, he⟩ := exists_writeContent_eq_map hv ha stat hs
  rw [he]
  exact only_bind ho fun _ => trivial

-- A record of a changed size, where the blocks are right.
theorem holds_of_put {between after : Docs} {other : StatRecord} {later : Bytes}
    (hc : Covered limits.blockSize limits.maxBlocks later (between.blocks path))
    (hl : later.length ≤ limits.maxFileLen) (hr : other.isRegularFile)
    (hz : other.size.toNat = later.length) (ha : between.Put .stats path other.encode after) :
    after.Holds limits path later := by
  refine ⟨⟨other, ha.statAt, hr, hz⟩, ?_, hl⟩
  rw [(ha.sameBlocks nofun).blocks path]
  exact hc

theorem ensures_read_file (hv : limits.Valid) (h : docs.Holds limits path bytes) {offset : UInt64}
    {size : UInt32} :
    (read limits path offset size now).Ensures faulty
      (fun data after => data = (bytes.drop offset.toNat).take size.toNat ∧
        after.Holds limits path bytes ∧ after.blocks path = docs.blocks path ∧
        docs.SameOthers path after)
      (fun _ after => after.Holds limits path bytes ∧
        (after .stats path = docs .stats path ∨
          docs.Recorded (.read path offset size) now path after) ∧
        (limits.maxKeyLen < path.utf8ByteSize ∨ ∃ request, faulty request)) docs := by
  obtain ⟨stat, hstat, hreg, hsize⟩ := h.stat
  have hdir := StatRecord.not_isDirectory_of_isRegularFile hreg
  rw [read_eq]
  apply (ensures_fileStat_file hstat hdir).bind
  swap
  · intro _ after hpost
    obtain ⟨ha, hor⟩ := hpost
    rw [ha]
    exact ⟨h, .inl rfl, hor⟩
  intro found mid hpost
  obtain ⟨hfound, hmid⟩ := hpost
  rw [hfound, hmid]
  have hput : ∀ after, docs.Put .stats path (stat.apply .accessed (now 0)).encode after →
      after.Holds limits path bytes := by
    intro after ha
    apply holds_of_put h.blocks h.length_le ?_ ?_ ha
    · rw [StatRecord.isRegularFile_apply, hreg]
    · rw [StatRecord.size_apply]
      exact hsize
  apply ensures_then_update stat ((ensures_readContent hv hsize h.blocks).mono (fun _ _ h => h) ?_)
  · intro _ after hpost
    obtain ⟨rfl, -⟩ := hpost
    exact hstat
  · intro data between after hpost ha
    obtain ⟨rfl, rfl⟩ := hpost
    have hb := ha.sameBlocks nofun
    exact ⟨rfl, hput after ha, hb.blocks path, hb.sameOthers⟩
  · intro hfault data between hpost text
    obtain ⟨rfl, -⟩ := hpost
    refine ⟨⟨h, .inl rfl, .inr hfault⟩, fun after ha => ⟨hput after ha, .inr ?_, .inr hfault⟩⟩
    exact ⟨stat, _, hstat, .read, ha.statAt⟩
  · intro _ after hpost
    obtain ⟨rfl, hfault⟩ := hpost
    exact ⟨h, .inl rfl, .inr hfault⟩

-- A write changes the bytes in full, or, if it fails, in part or in full.
theorem ensures_write_file (hv : limits.Valid) (h : docs.Holds limits path bytes)
    (hrem : ∀ key, ¬faulty (.remove key)) {offset : UInt64} :
    (write limits path offset data now).Ensures faulty
      (fun count after => count = data.length ∧ offset.toNat + data.length ≤ limits.maxFileLen ∧
        after.Holds limits path (bytes.write offset.toNat data) ∧ docs.SameOthers path after ∧
        (docs.blocks path = of limits.blockSize bytes →
          after.blocks path = of limits.blockSize (bytes.write offset.toNat data)))
      (fun _ after => after = docs ∧ (limits.maxKeyLen < path.utf8ByteSize ∨
          limits.maxFileLen < offset.toNat + data.length) ∨
        (∃ request, faulty request) ∧
          (docs.Recorded (.write path offset data) now path after ∧
              after.Holds limits path (bytes.write offset.toNat data) ∨
            after .stats path = docs .stats path ∧
              ∃ left, bytes.Partly offset.toNat data left ∧ after.Holds limits path left))
      docs := by
  obtain ⟨stat, hstat, hreg, hsize⟩ := h.stat
  have hdir := StatRecord.not_isDirectory_of_isRegularFile hreg
  have hkept : bytes.Partly offset.toNat data bytes := .refl
  unfold write
  apply (ensures_fileStat_file hstat hdir).bind
  swap
  · intro _ after hpost
    obtain ⟨ha, hlong | hfault⟩ := hpost
    · exact .inl ⟨ha, .inl hlong⟩
    · rw [ha]
      exact .inr ⟨hfault, .inr ⟨rfl, bytes, hkept, h⟩⟩
  intro found mid hpost
  obtain ⟨hfound, hmid⟩ := hpost
  rw [hfound, hmid]
  dsimp only
  rw [ensures_bind, ensures_check]
  split
  swap
  · next hlong => exact .inl ⟨rfl, .inr (by omega)⟩
  next hstop =>
  have hfits : (bytes.write offset.toNat data).length ≤ limits.maxFileLen := by
    have hl := h.length_le
    by_cases hd : data = []
    · rwa [hd, Bytes.write_nil]
    · rw [Bytes.length_write_of_ne hd]
      omega
  have hput : ∀ change between after, WriteDone limits path stat bytes offset.toNat data docs change
      between → between.Put .stats path (stat.apply change (now 0)).encode after →
      after.Holds limits path (bytes.write offset.toNat data) := by
    intro change between after hw ha
    apply holds_of_put hw.blocks hfits ?_ ?_ ha
    · rw [StatRecord.isRegularFile_apply, hreg]
    · rw [StatRecord.size_apply, hw.size]
  -- Where the record is the old one, what lies past the old size stays unseen.
  have hold : ∀ between : Docs, docs.SameBut (OnBlocks path) between → ∀ left,
      bytes.Partly offset.toNat data left →
      Covered limits.blockSize limits.maxBlocks left (between.blocks path) →
      between.Holds limits path left := by
    intro between hsame left hpart hcov
    refine ⟨⟨stat, hsame.statAt hstat, hreg, ?_⟩, hcov, ?_⟩
    · rw [hsize, hpart.length_eq]
    · rw [hpart.length_eq]
      exact h.length_le
  apply ensures_then_update stat
    (((ensures_writeContent hv hsize h.blocks h.length_le hrem hstop).frame
      (only_writeContent hv (permits_onBlocks _ _) hstop)).mono (fun _ _ h => h) ?_)
  · intro change between hpost
    obtain ⟨-, hsame⟩ := hpost
    exact hsame.statAt hstat
  · intro change between after hpost ha
    obtain ⟨hw, hsame⟩ := hpost
    have hb := ha.sameBlocks nofun
    refine ⟨rfl, hstop, hput change between after hw ha, hsame.sameOthers.trans hb.sameOthers, ?_⟩
    intro hd
    rw [hb.blocks path]
    exact hw.dense hd
  · intro hfault change between hpost text
    obtain ⟨hw, hsame⟩ := hpost
    have hupd : Catalog.Updates (.write path offset data) path change := by
      rcases hw.kind with hm | hg
      · rw [hm]
        exact .write
      · obtain ⟨size, hz⟩ := hg
        rw [hz]
        exact .grow
    have hpart := Bytes.partly_take_write bytes data offset.toNat 0 data.length
    rw [Bytes.extend_of_le (Nat.zero_le _), List.take_length] at hpart
    constructor
    · refine .inr ⟨hfault, .inr ⟨hsame.stats_eq path, _, hpart, ?_⟩⟩
      exact hold between hsame _ hpart (hw.blocks.take Bytes.length_le_length_write)
    · intro after ha
      refine .inr ⟨hfault, .inl ⟨⟨stat, change, hstat, hupd, ha.statAt⟩, ?_⟩⟩
      exact hput change between after hw ha
  · intro _ after hpost
    obtain ⟨⟨hfault, left, hpart, hcov⟩, hsame⟩ := hpost
    refine .inr ⟨hfault, .inr ⟨hsame.stats_eq path, left, hpart, ?_⟩⟩
    exact hold after hsame left hpart hcov

-- So does a change of the length that cuts nothing off.
theorem ensures_truncate_file (hv : limits.Valid) (h : docs.Holds limits path bytes)
    (hrem : ∀ key, ¬faulty (.remove key)) {size : UInt64} :
    (truncate limits path size now).Ensures faulty
      (fun stat after => stat.size = size ∧ size.toNat ≤ limits.maxFileLen ∧
        after.Holds limits path (bytes.resize size.toNat) ∧ docs.SameOthers path after ∧
        (docs.blocks path = of limits.blockSize bytes →
          after.blocks path = of limits.blockSize (bytes.resize size.toNat)))
      (fun _ after => after = docs ∧ (limits.maxKeyLen < path.utf8ByteSize ∨
          limits.maxFileLen < size.toNat) ∨
        (∃ request, faulty request) ∧ (bytes.length ≤ size.toNat →
          docs.Recorded (.truncate path size) now path after ∧
              after.Holds limits path (bytes.resize size.toNat) ∨
            after .stats path = docs .stats path ∧ after.Holds limits path bytes)) docs := by
  obtain ⟨stat, hstat, hreg, hsize⟩ := h.stat
  have hdir := StatRecord.not_isDirectory_of_isRegularFile hreg
  unfold truncate
  apply (ensures_fileStat_file hstat hdir).bind
  swap
  · intro _ after hpost
    obtain ⟨ha, hlong | hfault⟩ := hpost
    · exact .inl ⟨ha, .inl hlong⟩
    · rw [ha]
      exact .inr ⟨hfault, fun _ => .inr ⟨rfl, h⟩⟩
  intro found mid hpost
  obtain ⟨hfound, hmid⟩ := hpost
  rw [hfound, hmid]
  rw [ensures_bind, ensures_check]
  split
  swap
  · next hlong => exact .inl ⟨rfl, .inr (by omega)⟩
  next hfits =>
  have hresized := Bytes.length_resize bytes size.toNat
  have hput : ∀ between after : Docs, Covered limits.blockSize limits.maxBlocks
      (bytes.resize size.toNat) (between.blocks path) →
      between.Put .stats path (stat.apply (.size size) (now 0)).encode after →
      after.Holds limits path (bytes.resize size.toNat) := by
    intro between after hcov ha
    apply holds_of_put hcov (by omega) ?_ ?_ ha
    · rw [StatRecord.isRegularFile_apply, hreg]
    · rw [StatRecord.size_apply, hresized]
      rfl
  rw [← bind_pure (Metadata.update path (.size size) now)]
  have hold : ∀ between : Docs, docs.SameBut (OnBlocks path) between →
      Covered limits.blockSize limits.maxBlocks bytes (between.blocks path) →
      between.Holds limits path bytes := by
    intro between hsame hcov
    exact ⟨⟨stat, hsame.statAt hstat, hreg, hsize⟩, hcov, h.length_le⟩
  apply ensures_then_update stat
    (((ensures_resizeContent hv hsize h.blocks h.length_le hrem hfits).frame
      (only_resizeContent hv (permits_onBlocks _ _) hfits)).mono (fun _ _ h => h) ?_)
  · intro _ between hpost
    obtain ⟨-, hsame⟩ := hpost
    exact hsame.statAt hstat
  · intro _ between after hpost ha
    obtain ⟨⟨hcov, hdense⟩, hsame⟩ := hpost
    have hb := ha.sameBlocks nofun
    refine ⟨StatRecord.size_apply .., hfits, hput between after hcov ha,
      hsame.sameOthers.trans hb.sameOthers, fun hd => ?_⟩
    rw [hb.blocks path]
    exact hdense hd
  · intro hfault _ between hpost text
    obtain ⟨⟨hcov, -⟩, hsame⟩ := hpost
    constructor
    · refine .inr ⟨hfault, fun hle => .inr ⟨hsame.stats_eq path, hold between hsame ?_⟩⟩
      have htake : (bytes.resize size.toNat).take bytes.length = bytes := by
        rw [Bytes.resize_of_ge hle, Bytes.take_extend (Nat.le_refl _), List.take_length]
      have hcut := hcov.take (hresized ▸ hle)
      rwa [htake] at hcut
    · intro after ha
      refine .inr ⟨hfault, fun _ => .inl ⟨⟨stat, _, hstat, .truncate, ha.statAt⟩, ?_⟩⟩
      exact hput between after hcov ha
  · intro _ after hpost
    obtain ⟨⟨hfault, hcov⟩, hsame⟩ := hpost
    exact .inr ⟨hfault, fun hle => .inr ⟨hsame.stats_eq path, hold after hsame (hcov hle)⟩⟩

-- Where there is no file, nothing happens.
theorem ensures_no_file {record : Option StatRecord} (hp : docs.StatAt path record)
    (hn : ∀ stat, record = some stat → stat.isDirectory = true) {α : Type}
    {rest : StatRecord → Call α} :
    (fileStat limits path >>= rest).Ensures (fun _ => False) (fun _ _ => False)
      (fun _ after => after = docs) docs := by
  refine ensures_bind.mpr (ensures_fileStat hp ?_ fun _ _ => rfl)
  intro stat hs hdir _
  rw [hn stat hs] at hdir
  cases hdir

end Tree

end DocTree
