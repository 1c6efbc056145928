import DocTree.Proofs.Disk.Format

namespace DocTree

open Call

namespace Tree

-- Listing a directory takes looks only, so it is answered whatever values the store refuses.
theorem run_readdir {limits : Limits} {maxSize : Nat} {scope directory : String} {image : Image}
    {catalog : Catalog} {dentry : Dentry} (hd : (image.docs scope).Shows catalog)
    (hw : catalog.WellFormed limits) (hm : 0 < limits.maxKeyLen)
    (hc : catalog.dentries directory = some dentry) (now : Readings) (offset : UInt64) :
    (Step.run limits (Image.backend maxSize scope) ⟨now, .readdir directory offset⟩ image).1 =
      .done (.names ("." :: ".." :: dentry.children.drop offset.toNat)) := by
  have hp : catalog.HasDirectory directory := by
    rw [← hw.documented, hc]
    exact Option.some_ne_none _
  have hlooks : (Operation.call limits now (.readdir directory offset)).Only
      fun _ request => ∃ key, request = .get key :=
    only_map (only_readdir ⟨_, rfl⟩ ⟨_, rfl⟩)
  have hcall : (Operation.call limits now (.readdir directory offset)).Ensures (fun _ => False)
      (fun answer _ => answer = .names ("." :: ".." :: dentry.children.drop offset.toNat))
      (fun _ _ => False) (image.docs scope) := by
    refine ensures_map.mpr ((ensures_names hd hw hm hp).mono ?_ fun _ _ he => he)
    intro names after hpost
    obtain ⟨found, hf, rfl⟩ := hpost
    rw [hc, Option.some_inj] at hf
    rw [hf]
  have hupholds := hcall.upholds hlooks fun _ request hr => by
    obtain ⟨key, rfl⟩ := hr
    exact Nat.zero_le maxSize
  obtain ⟨answer, ha, rfl⟩ := hupholds.run.exists_done
  exact ha

end Tree

namespace Volume

-- What is mounted first of a new filesystem: it has the size that it was made with, and all that
-- is in it is the root, a directory without children.
structure IsNew (blockSize maxBlocks : UInt64) (madeAt : TimeSpec) (mounted : Mounted)
    (volume : Volume) : Prop where
  limits : mounted.limits = ⟨maxKeyLength, blockSize.toNat, maxBlocks.toNat⟩
  shows : (volume.image.docs defaultScope).Shows (Catalog.rooted madeAt)
  names : ∀ now offset,
    (Step.run mounted.limits (backend maxDocumentSize defaultScope) ⟨now, .readdir Path.root offset⟩
      volume).1 = .done (.names [".", ".."])

theorem isNew_rooted {blockSize maxBlocks : UInt64} (path : String) (header : Header)
    (madeAt flushedAt mountedAt : TimeSpec) :
    IsNew blockSize maxBlocks madeAt
      ⟨⟨maxKeyLength, blockSize.toNat, maxBlocks.toNat⟩, Inodes.new⟩
      (remounted ⟨path, Image.rooted header madeAt⟩ flushedAt mountedAt) where
  limits := rfl
  shows := Image.rooted_shows _ madeAt
  names := by
    intro now offset
    unfold Step.run
    rw [Call.run_volume]
    have hroot : (Catalog.rooted madeAt).dentries Path.root =
        some (Dentry.new Path.root Path.root) := by
      rw [Catalog.dentries_rooted, if_pos rfl]
    refine (Tree.run_readdir (Image.rooted_shows _ madeAt) (Catalog.rooted_wellFormed _ madeAt)
      (show 0 < maxKeyLength by decide) hroot now offset).trans ?_
    rw [show (Dentry.new Path.root Path.root).children = [] from rfl, List.drop_nil]

end Volume

open Volume in
-- A format that the disk does not refuse makes what `IsNew` says. A flush that it does not refuse
-- and another mount, at any point of a run, leave the documents and the counter of versions as they
-- are, and with them the answers of all later calls. An image that could not be counted in 64-bit
-- words fits into no memory; see `Image.Fits`.
theorem remount_is_invisible (path : String) :
    (∀ blockSize maxBlocks, Accepts blockSize maxBlocks → ∀ now disk,
      (∃ error, disk.createNew path = .error error ∧
        (format path blockSize maxBlocks now disk).1 = .error (.cannotCreate path error)) ∨
      (∃ error, RefusesFile path disk error ∧
        (format path blockSize maxBlocks now disk).1 = .error (.disk error)) ∨
      (format path blockSize maxBlocks now disk).1 = .ok () ∧
        ∀ later, ∃ mounted volume,
          mount path later (format path blockSize maxBlocks now disk).2 = .ok (mounted, volume) ∧
          IsNew blockSize maxBlocks (now 2) mounted volume) ∧
    ∀ now disk mounted volume, mount path now disk = .ok (mounted, volume) → ∀ before,
      let running :=
        afterSteps mounted.limits (backend maxDocumentSize defaultScope) before volume
      running.image.Fits → ∀ flushedAt onto,
        (∃ content error, onto.swapIn path content = .error error ∧
          (running.flush flushedAt onto).1 = .error (.disk error)) ∨
        ∃ flushed written, running.flush flushedAt onto = (.ok (), flushed, written) ∧
          ∀ later, ∃ again back, mount path later written = .ok (again, back) ∧
            again.limits = mounted.limits ∧
            back.image.lastVersion = running.image.lastVersion ∧
            back.image.namespaces = running.image.namespaces ∧
            ∀ after, outcomes again.limits (backend maxDocumentSize defaultScope) after back =
              outcomes mounted.limits (backend maxDocumentSize defaultScope) after running := by
  constructor
  · intro blockSize maxBlocks ha now disk
    obtain he | he | ⟨hf, hmount⟩ := format_cases ha path now disk
    · exact .inl he
    · exact .inr (.inl he)
    · exact .inr (.inr ⟨hf, fun later => ⟨_, _, hmount later, isNew_rooted path _ _ _ _⟩⟩)
  · intro now disk mounted volume hmount before running hfits flushedAt onto
    obtain ⟨hpath, hlimits, hm⟩ := of_mount hmount
    obtain ⟨hsame, hl, hrunning⟩ := hm.afterSteps before
    rw [← hlimits] at hsame hl hrunning
    obtain ⟨error, hs, he⟩ | ⟨written, -, hw⟩ := flush_cases running flushedAt onto
    · rw [hsame, hpath] at hs
      exact .inl ⟨_, error, hs, he⟩
    · refine .inr ⟨_, written, hw, fun later => ?_⟩
      have hagain := mount_flushed hrunning hfits hw later
      rw [hsame, hpath] at hagain
      refine ⟨_, _, hagain, hl, rfl, rfl, fun after => ?_⟩
      rw [hl]
      exact outcomes_remounted running flushedAt (later 0) after

namespace Sample

-- What is mounted first of a new image file, and what a call makes of it.
def limited : Limits := ⟨maxKeyLength, 4096, 16⟩

def made : Volume :=
  Volume.remounted ⟨"img", Image.rooted (Header.new 4096 16 (now 0)) (now 2)⟩ (now 3) (now 0)

def grown : Volume :=
  afterSteps limited (Volume.backend maxDocumentSize defaultScope) [⟨now, .mkdir "/d" 0o755⟩] made

theorem accepts : Volume.Accepts 4096 16 := ⟨by decide, by decide, by decide, by decide⟩

theorem format_ok : (Volume.format "img" 4096 16 now ∅).1 = .ok () := by decide +kernel

theorem mount_made :
    Volume.mount "img" now (Volume.format "img" 4096 16 now ∅).2 =
      .ok (⟨limited, Inodes.new⟩, made) := by
  obtain ⟨error, -, he⟩ | ⟨error, -, he⟩ | ⟨-, hmount⟩ := Volume.format_cases accepts "img" now ∅
  · cases he.symm.trans format_ok
  · cases he.symm.trans format_ok
  · exact hmount now

theorem grown_fits : grown.image.Fits := by decide +kernel

theorem flush_grown : (grown.flush (now 4) ∅).1 = .ok () := by decide +kernel

end Sample

-- A directory that was made before is still listed.
theorem sample_remount_is_invisible :
    Volume.Accepts 4096 16 ∧
      (∀ later, ∃ mounted volume,
        Volume.mount "img" later (Volume.format "img" 4096 16 Sample.now ∅).2 =
          .ok (mounted, volume) ∧
        Volume.IsNew 4096 16 (Sample.now 2) mounted volume) ∧
      Sample.grown.image.Fits ∧
      ∃ flushed written again back,
        Sample.grown.flush (Sample.now 4) ∅ = (.ok (), flushed, written) ∧
        Volume.mount "img" Sample.now written = .ok (again, back) ∧
        outcomes again.limits (Volume.backend maxDocumentSize defaultScope)
          [⟨Sample.now, .readdir "/" 0⟩] back =
            [(.readdir "/" 0, .done (.names [".", "..", "d"]))] := by
  obtain ⟨hnew, hagain⟩ := remount_is_invisible "img"
  refine ⟨Sample.accepts, ?_, Sample.grown_fits, ?_⟩
  · obtain ⟨error, -, he⟩ | ⟨error, -, he⟩ | ⟨-, hmount⟩ := hnew 4096 16 Sample.accepts Sample.now ∅
    · cases he.symm.trans Sample.format_ok
    · cases he.symm.trans Sample.format_ok
    · exact hmount
  · obtain ⟨content, error, -, he⟩ | ⟨flushed, written, hflush, hmount⟩ :=
      hagain Sample.now _ _ _ Sample.mount_made [⟨Sample.now, .mkdir "/d" 0o755⟩] Sample.grown_fits
        (Sample.now 4) ∅
    · cases he.symm.trans Sample.flush_grown
    · obtain ⟨again, back, hback, -, -, -, hsame⟩ := hmount Sample.now
      exact ⟨flushed, written, again, back, hflush, hback,
        (hsame [⟨Sample.now, .readdir "/" 0⟩]).trans (by decide +kernel)⟩

end DocTree
