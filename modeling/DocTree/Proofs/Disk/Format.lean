import DocTree.Proofs.Disk.Volume

namespace DocTree

-- The image of a new filesystem.
def Image.rooted (header : Header) (now : TimeSpec) : Image :=
  let recorded := ((Image.new header).put defaultScope .stats Path.root
    (StatRecord.new Mode.root now).encode 0).1
  (recorded.put defaultScope .dentries Path.root (Dentry.new Path.root Path.root).encode 0).1

namespace Image

variable {image : Image} {scope key : String} {collection : Collection} {value : Bytes}
  {flags : UInt32}

theorem Fits.documents (h : image.Fits) : (image.documents scope collection).Fits := by
  unfold Image.documents
  rw [Std.ExtTreeMap.getD_eq_getD_getElem?]
  cases hs : image.namespaces[namespaceOf scope collection]? with
  | none => exact Documents.fits_empty
  | some documents => exact (h.entries _ documents hs).2

theorem Fits.put (h : image.Fits) (hs : image.namespaces.size + 1 < Word.limit)
    (hd : (image.documents scope collection).size + 1 < Word.limit)
    (hn : (namespaceOf scope collection).utf8ByteSize < Word.limit)
    (hk : key.utf8ByteSize < Word.limit) (hv : value.length < Word.limit) :
    (image.put scope collection key value flags).1.Fits := by
  have hv' : (Document.mk value (image.lastVersion + 1) flags).value.length < Word.limit := hv
  have hset := h.setDocuments hs hn (h.documents.insert hd hk hv')
  exact ⟨hset.size, hset.entries⟩

-- What a bootstrap makes of an image without documents.
theorem run_bootstrap_new (header : Header) (now : TimeSpec) :
    (Tree.bootstrap now).run (Image.backend maxDocumentSize defaultScope) (Image.new header) =
      (.done (), Image.rooted header now) := rfl

theorem put_docs (image : Image) (scope : String) (collection : Collection) (key : String)
    (value : Bytes) (flags : UInt32) :
    (image.docs scope).Put collection key value
      ((image.put scope collection key value flags).1.docs scope) := ⟨_, _, docs_put⟩

theorem rooted_shows (header : Header) (now : TimeSpec) :
    ((rooted header now).docs defaultScope).Shows (Catalog.rooted now) := by
  have hnone : ((Image.new header).docs defaultScope).Shows Catalog.empty := by
    rw [docs_new]
    exact ⟨fun _ => rfl, fun _ => rfl⟩
  have hstat := (put_docs (new header) defaultScope .stats Path.root
    (StatRecord.new Mode.root now).encode 0).shows_stat hnone
  exact (put_docs _ _ _ _ _ _).shows_dentry hstat

theorem rooted_fits (header : Header) (now : TimeSpec) : (rooted header now).Fits := by
  have hl : (StatRecord.new Mode.root now).encode.length < Word.limit := by
    rw [StatRecord.length_encode]
    decide
  have h₀ : 0 + 1 < Word.limit := by decide
  have h₁ : 1 + 1 < Word.limit := by decide
  refine ((fits_new header).put h₀ h₀ ?_ ?_ hl).put h₁ h₀ ?_ ?_ ?_ <;> decide

end Image

namespace Volume

variable {blockSize maxBlocks : UInt64}

-- The disk does not take the file of a new filesystem: not its first content, which is an image
-- without documents, or not the second, which has the root in it.
def RefusesFile (path : String) (disk : Disk) (error : DiskError) : Prop :=
  ∃ made first, disk.createNew path = .ok made ∧
    (made.swapIn path first = .error error ∨
      ∃ written second, made.swapIn path first = .ok written ∧
        written.swapIn path second = .error error)

theorem create_cases (path : String) (header : Header) (now : TimeSpec) (disk : Disk) :
    (∃ error, disk.createNew path = .error error ∧
        (create path header now disk).1 = .error (.cannotCreate path error)) ∨
      (∃ error made content, disk.createNew path = .ok made ∧
        made.swapIn path content = .error error ∧
        (create path header now disk).1 = .error (.disk error)) ∨
      ∃ made content written, disk.createNew path = .ok made ∧
        made.swapIn path content = .ok written ∧
        create path header now disk =
          (.ok ⟨path, Image.new { header with modifiedAt := some now }⟩, written) := by
  unfold create
  cases disk.createNew path with
  | error error => exact .inl ⟨error, rfl, rfl⟩
  | ok made =>
    right
    dsimp only
    have hflush := flush_cases ⟨path, Image.new header⟩ now made
    generalize flush ⟨path, Image.new header⟩ now made = result at hflush
    obtain ⟨answer, flushed, written⟩ := result
    obtain ⟨error, hs, he⟩ | ⟨after, hs, hf⟩ := hflush
    · cases he
      exact .inl ⟨error, made, _, rfl, hs, rfl⟩
    · cases hf
      exact .inr ⟨made, _, _, rfl, hs, rfl⟩

-- Sizes that a format accepts.
structure Accepts (blockSize maxBlocks : UInt64) : Prop where
  blockSize_pos : 0 < blockSize.toNat
  blockSize_le : blockSize.toNat ≤ maxDocumentSize
  maxBlocks_pos : 0 < maxBlocks.toNat
  maxBlocks_le : maxBlocks.toNat ≤ maxBlockCount

theorem accepts_iff : Accepts blockSize maxBlocks ↔
    ¬(blockSize = 0 ∨ maxDocumentSize < blockSize.toNat) ∧
      ¬(maxBlocks = 0 ∨ maxBlockCount < maxBlocks.toNat) := by
  have hzero : ∀ word : UInt64, word = 0 ↔ ¬0 < word.toNat := by
    intro word
    rw [Nat.not_lt, Nat.le_zero, ← UInt64.toNat_inj]
    rfl
  rw [hzero blockSize, hzero maxBlocks]
  constructor
  · intro h
    obtain ⟨hb, hs, hm, hc⟩ := h
    omega
  · intro h
    constructor <;> omega

-- Other sizes are refused before the disk is touched.
theorem format_of_not_accepts (h : ¬Accepts blockSize maxBlocks) (path : String) (now : Readings)
    (disk : Disk) :
    format path blockSize maxBlocks now disk = (.error (.badBlockSize blockSize), disk) ∨
      format path blockSize maxBlocks now disk = (.error (.badBlockCount maxBlocks), disk) := by
  unfold format
  split
  · exact .inl rfl
  · next hb =>
    rw [if_pos]
    · exact .inr rfl
    · by_contra hc
      exact h (accepts_iff.mpr ⟨hb, hc⟩)

theorem Accepts.valid (h : Accepts blockSize maxBlocks) :
    Limits.Valid ⟨maxKeyLength, blockSize.toNat, maxBlocks.toNat⟩ :=
  ⟨h.blockSize_pos, h.blockSize_le, h.maxBlocks_pos, h.maxBlocks_le,
    show 0 < maxKeyLength by decide⟩

theorem mountable_rooted (path : String) (header : Header) (now : TimeSpec)
    (hm : header.magic = Header.magicNumber) (ha : Accepts header.blockSize header.maxBlocks) :
    Mountable ⟨path, Image.rooted header now⟩ where
  magic := hm
  limits := (Limits.validate_eq_ok_iff _).mpr ha.valid
  root := (Image.rooted_shows header now).hasRoot (Catalog.rooted_wellFormed default now)

theorem run_new_rooted (path : String) (header : Header) (now : TimeSpec)
    (ha : Accepts header.blockSize header.maxBlocks) :
    run ⟨path, Image.new header⟩ (Mounted.new (limits ⟨path, Image.new header⟩) now) =
      (.ok ⟨limits ⟨path, Image.new header⟩, Inodes.new⟩, ⟨path, Image.rooted header now⟩) := by
  have hv : (limits ⟨path, Image.new header⟩).validate = .ok () :=
    (Limits.validate_eq_ok_iff _).mpr ha.valid
  have hrun : (Mounted.new (limits ⟨path, Image.new header⟩) now).run
      (Image.backend maxDocumentSize defaultScope) (Image.new header) =
      (.done ⟨limits ⟨path, Image.new header⟩, Inodes.new⟩, Image.rooted header now) := by
    unfold Mounted.new
    rw [hv, Call.ofExcept_ok_bind]
    change (Call.bind _ _).run _ _ = _
    rw [Call.run_bind, Image.run_bootstrap_new]
    rfl
  unfold run
  rw [Call.run_volume, hrun]
  rfl

-- What becomes of such sizes.
theorem format_cases (ha : Accepts blockSize maxBlocks) (path : String) (now : Readings)
    (disk : Disk) :
    (∃ error, disk.createNew path = .error error ∧
        (format path blockSize maxBlocks now disk).1 = .error (.cannotCreate path error)) ∨
      (∃ error, RefusesFile path disk error ∧
        (format path blockSize maxBlocks now disk).1 = .error (.disk error)) ∨
      (format path blockSize maxBlocks now disk).1 = .ok () ∧
        ∀ later, mount path later (format path blockSize maxBlocks now disk).2 =
          .ok (⟨⟨maxKeyLength, blockSize.toNat, maxBlocks.toNat⟩, Inodes.new⟩,
            remounted ⟨path, Image.rooted (Header.new blockSize maxBlocks (now 0)) (now 2)⟩ (now 3)
              (later 0)) := by
  obtain ⟨hb, hc⟩ := accepts_iff.mp ha
  unfold format
  rw [if_neg hb, if_neg hc]
  have hcreate := create_cases path (Header.new blockSize maxBlocks (now 0)) (now 1) disk
  generalize create path (Header.new blockSize maxBlocks (now 0)) (now 1) disk = result at hcreate
  obtain ⟨answer, written⟩ := result
  obtain ⟨error, hc, he⟩ | ⟨error, made, content, hc, hs, he⟩ |
    ⟨made, content, first, hc, hs, he⟩ := hcreate
  · cases he
    exact .inl ⟨error, hc, rfl⟩
  · cases he
    exact .inr (.inl ⟨error, ⟨made, content, hc, .inl hs⟩, rfl⟩)
  · cases he
    right
    dsimp only
    rw [run_new_rooted path _ (now 2) ha]
    dsimp only
    set volume : Volume :=
      ⟨path, Image.rooted
        { Header.new blockSize maxBlocks (now 0) with modifiedAt := some (now 1) } (now 2)⟩
      with hvolume
    have hmount : volume.Mountable := mountable_rooted path _ (now 2) rfl ha
    have hflush := flush_cases volume (now 3) written
    generalize hf : volume.flush (now 3) written = result at hflush
    obtain ⟨answer, flushed, last⟩ := result
    obtain ⟨error, hs', he⟩ | ⟨after, -, he⟩ := hflush
    · cases he
      exact .inl ⟨error, ⟨made, content, hc, .inr ⟨written, _, hs, hs'⟩⟩, rfl⟩
    · cases he
      refine .inr ⟨rfl, fun later => ?_⟩
      exact mount_flushed hmount (Image.rooted_fits _ (now 2)) hf later

end Volume

end DocTree
