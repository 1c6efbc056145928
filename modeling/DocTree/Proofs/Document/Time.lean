import DocTree.Document.Attributes
import DocTree.Proofs.Content.Block
import DocTree.Proofs.Document.Stat

namespace DocTree

-- A time that is an instant: a true fraction of a second, and seconds of at most 63 bits.
structure TimeSpec.Normal (time : TimeSpec) : Prop where
  nsec_lt : time.nsec.toNat < nanosPerSecond
  sec_lt : (time.sec.toNat : Int) < Instant.limit

namespace Instant

variable {instant : Instant} {time : TimeSpec}

-- What the clock reads at an instant.
def reading (instant : Instant) : TimeSpec := Clock.now ⟨instant.sec, instant.nsec⟩

theorem ofTimeSpec?_of_normal (h : time.Normal) :
    ∃ instant, ofTimeSpec? time = some instant ∧ instant.sec = time.sec.toNat ∧
      instant.nsec = time.nsec.toNat := by
  obtain ⟨hn, hs⟩ := h
  have hwhole : (time.sec.toNat : Int) + (time.nsec.toNat / nanosPerSecond : Nat) =
      time.sec.toNat := by
    rw [Nat.div_eq_of_lt hn]
    simp
  have hlow : -limit ≤ (time.sec.toNat : Int) := by
    unfold limit
    omega
  unfold ofTimeSpec? after? ofParts?
  dsimp only
  rw [dif_pos (by rw [hwhole]; exact ⟨hlow, hs⟩)]
  exact ⟨_, rfl, hwhole, Nat.mod_eq_of_lt hn⟩

-- What is stored of an instant is no other.
theorem toTimeSpec?_eq_some (h : instant.toTimeSpec? = some time) :
    (time.sec.toNat : Int) = instant.sec ∧ time.nsec.toNat = instant.nsec := by
  unfold toTimeSpec? at h
  split at h
  · next hs =>
    cases h
    have hsec := instant.sec_lt
    have hnsec := instant.nsec_lt
    unfold limit at hsec
    unfold nanosPerSecond at hnsec
    constructor
    · dsimp only
      rw [UInt64.toNat_ofNat_of_lt' (by unfold UInt64.size; omega)]
      omega
    · exact UInt32.toNat_ofNat_of_lt' (by unfold UInt32.size; omega)
  · cases h

theorem normal_of_toTimeSpec? (h : instant.toTimeSpec? = some time) : time.Normal := by
  obtain ⟨hs, hn⟩ := toTimeSpec?_eq_some h
  exact ⟨hn ▸ instant.nsec_lt, hs ▸ instant.sec_lt⟩

theorem ofTimeSpec?_toTimeSpec? (h : instant.toTimeSpec? = some time) :
    ofTimeSpec? time = some instant := by
  obtain ⟨hs, hn⟩ := toTimeSpec?_eq_some h
  obtain ⟨back, hb, hsec, hnsec⟩ := ofTimeSpec?_of_normal (normal_of_toTimeSpec? h)
  rw [hb, Option.some_inj]
  cases back
  cases instant
  simp only [mk.injEq]
  exact ⟨hsec.trans hs, hnsec.trans hn⟩

theorem toTimeSpec?_eq_none (h : instant.sec < 0) : instant.toTimeSpec? = none :=
  if_neg (Int.not_le.mpr h)

theorem normal_reading (instant : Instant) : instant.reading.Normal := by
  unfold reading Clock.now
  split
  · exact ⟨by decide, by decide⟩
  · next hs =>
    have htime : instant.toTimeSpec? = some _ := if_pos (Int.not_lt.mp hs)
    exact normal_of_toTimeSpec? htime

end Instant

theorem Readings.after_zero (now : Readings) (count : Nat) : now.after count 0 = now count :=
  congrArg now (Nat.zero_add count)

def Readings.Normal (now : Readings) : Prop := ∀ count, (now count).Normal

theorem Readings.Normal.after {now : Readings} (h : now.Normal) (count : Nat) :
    (now.after count).Normal := fun later => h (later + count)

-- A record that can be reported to the kernel.
structure StatRecord.Sound (limits : Limits) (stat : StatRecord) : Prop where
  accessedAt : stat.accessedAt.Normal
  modifiedAt : stat.modifiedAt.Normal
  changedAt : stat.changedAt.Normal
  size_le : stat.size.toNat ≤ limits.maxFileLen

def TimeUpdate.Sound : TimeUpdate → Prop
  | .at time => time.Normal
  | _ => True

-- A change that brings in such times and sizes only.
def StatChange.Sound (limits : Limits) : StatChange → Prop
  | .size length => length.toNat ≤ limits.maxFileLen
  | .times (some (first, second)) => first.Sound ∧ second.Sound
  | _ => True

variable {limits : Limits} {stat : StatRecord} {now time : TimeSpec}

theorem TimeUpdate.normal_apply {update : TimeUpdate} (hu : update.Sound) (hn : now.Normal)
    (ho : time.Normal) : (update.apply time now).Normal := by
  cases update with
  | now => exact hn
  | «omit» => exact ho
  | «at» time => exact hu

theorem TimeUpdate.sound_ofWish {wish : TimeUpdate.Wish} {update : TimeUpdate}
    (h : TimeUpdate.ofWish wish = .ok update) : update.Sound := by
  cases wish with
  | «omit» => cases h; trivial
  | now => cases h; trivial
  | «at» instant =>
    unfold ofWish at h
    dsimp only at h
    split at h
    · next time ht =>
      cases h
      exact Instant.normal_of_toTimeSpec? ht
    · cases h

namespace StatRecord

theorem sound_new (limits : Limits) (mode : UInt32) (hn : now.Normal) :
    (StatRecord.new mode now).Sound limits := ⟨hn, hn, hn, Nat.zero_le _⟩

theorem Sound.apply {change : StatChange} (h : stat.Sound limits) (hc : change.Sound limits)
    (hn : now.Normal) : (stat.apply change now).Sound limits := by
  cases change with
  | size length => exact ⟨h.accessedAt, hn, hn, hc⟩
  | modified => exact ⟨h.accessedAt, hn, hn, h.size_le⟩
  | accessed => exact ⟨hn, h.modifiedAt, h.changedAt, h.size_le⟩
  | mode mode => exact ⟨h.accessedAt, h.modifiedAt, hn, h.size_le⟩
  | times times =>
    rcases times with _ | ⟨accessed, modified⟩
    · exact ⟨hn, hn, hn, h.size_le⟩
    · rw [apply_times]
      refine ⟨TimeUpdate.normal_apply hc.1 hn h.accessedAt,
        TimeUpdate.normal_apply hc.2 hn h.modifiedAt, ?_, h.size_le⟩
      dsimp only
      split
      · exact h.changedAt
      · exact hn

-- Counting in units of 512 bytes does not overflow.
theorem Sound.size_lt (h : stat.Sound limits) (hv : limits.Valid) :
    stat.size.toNat + 511 < UInt64.size := by
  have hlen := hv.maxFileLen_eq.1
  have hle := h.size_le
  have hmul := Nat.mul_le_mul hv.blockSize_le hv.maxBlocks_le
  unfold maxDocumentSize maxBlockCount at hmul
  unfold UInt64.size
  omega

end StatRecord

namespace Attributes

variable {attributes : Attributes} {ino : Nat} {blockSize : UInt32} {attr : FileAttr}

theorem of_fileAttr? (h : attributes.fileAttr? ino blockSize = some attr) :
    attr.ino = ino ∧ attr.kind = attributes.stat.kind.entryKind ∧
      Instant.ofTimeSpec? attributes.stat.accessedAt = some attr.accessedAt ∧
      Instant.ofTimeSpec? attributes.stat.modifiedAt = some attr.modifiedAt ∧
      attr.blocks = (attributes.stat.size + 511) / 512 := by
  unfold fileAttr? at h
  simp only [Option.bind_eq_bind, Option.bind_eq_some_iff, Option.pure_def, Option.some_inj] at h
  obtain ⟨accessed, ha, modified, hm, changed, -, rfl⟩ := h
  exact ⟨rfl, rfl, ha, hm, rfl⟩

theorem exists_fileAttr (hs : attributes.stat.Sound limits) (ino : Nat) (blockSize : UInt32) :
    ∃ attr, attributes.fileAttr? ino blockSize = some attr := by
  obtain ⟨accessed, ha, -⟩ := Instant.ofTimeSpec?_of_normal hs.accessedAt
  obtain ⟨modified, hm, -⟩ := Instant.ofTimeSpec?_of_normal hs.modifiedAt
  obtain ⟨changed, hc, -⟩ := Instant.ofTimeSpec?_of_normal hs.changedAt
  unfold fileAttr?
  dsimp only
  rw [ha, hm, hc]
  exact ⟨_, rfl⟩

end Attributes

end DocTree
