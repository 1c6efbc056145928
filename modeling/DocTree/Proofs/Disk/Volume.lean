import DocTree.Disk.Format
import DocTree.Proofs.Disk.Files
import DocTree.Proofs.Run.Steps
import DocTree.Proofs.Store.Sealed
import DocTree.Proofs.Tree.Rooted

namespace DocTree

open Call

variable {limits : Limits} {maxSize : Nat} {scope : String}

-- No request looks at the header, and none changes it.
theorem Image.apply_header (image : Image) (header : Header) (maxSize : Nat) (scope : String)
    (collection : Collection) (request : Request) :
    Image.apply { image with header } maxSize scope collection request =
      ({ (image.apply maxSize scope collection request).1 with header },
        (image.apply maxSize scope collection request).2) := by
  have hd : ∀ made : Image, Image.document? { made with header } scope collection request.key =
    made.document? scope collection request.key := fun _ => rfl
  have hm : Image.setDocuments { image with header } scope collection
      (Image.documents { image with header } scope collection) =
      { image.setDocuments scope collection (image.documents scope collection) with header } := rfl
  unfold apply
  rw [hm]
  generalize image.setDocuments scope collection (image.documents scope collection) = made
  dsimp only
  rw [hd made]
  split
  · rfl
  · rfl
  · split
    · rfl
    · split <;> rfl
  · split
    · rfl
    · split
      · rfl
      · split <;> rfl
  · rfl
  · rfl

-- A volume with this image, but for the header.
def Volume.ofImage (path : String) (header : Header) (image : Image) : Volume :=
  ⟨path, { image with header }⟩

theorem Volume.carries (maxSize : Nat) (scope path : String) (header : Header) :
    Backend.Carries (ofImage path header) (Image.backend maxSize scope)
      (backend maxSize scope) := by
  intro collection request image
  unfold backend ofImage Image.backend
  dsimp only
  rw [Image.apply_header]

theorem Call.run_volume {α : Type} (call : Call α) (volume : Volume) :
    call.run (Volume.backend maxSize scope) volume =
      ((call.run (Image.backend maxSize scope) volume.image).1,
        .ofImage volume.path volume.image.header
          (call.run (Image.backend maxSize scope) volume.image).2) :=
  (Volume.carries maxSize scope volume.path volume.image.header).run call volume.image

-- What holds of the volume of a mounted filesystem.
structure Volume.Mountable (volume : Volume) : Prop where
  magic : volume.image.header.magic = Header.magicNumber
  limits : volume.limits.validate = .ok ()
  root : (volume.image.docs defaultScope).HasRoot

namespace Mounted

theorem upholds_new (limits : Limits) (maxSize : Nat) (docs : Docs) (now : TimeSpec) :
    (Mounted.new limits now).Upholds maxSize (fun _ => True)
      (fun mounted after => mounted.limits = limits ∧ limits.validate = .ok () ∧ after.HasRoot)
      (fun _ _ => True) docs := by
  unfold Mounted.new
  cases hv : limits.validate with
  | error error => trivial
  | ok _ =>
  rw [ofExcept_ok_bind]
  refine (Tree.upholds_bootstrap docs now).bind (fun _ after ha => ?_) fun _ _ he => he
  exact ⟨rfl, rfl, ha⟩

theorem run_new {image : Image} (hv : limits.validate = .ok ())
    (h : (image.docs scope).HasRoot) (now : TimeSpec) :
    (Mounted.new limits now).run (Image.backend maxDocumentSize scope) image =
      (.done ⟨limits, Inodes.new⟩, image) := by
  unfold Mounted.new
  rw [hv, ofExcept_ok_bind]
  change (Call.bind _ _).run _ image = _
  rw [run_bind, Tree.run_bootstrap h (by decide)]
  rfl

end Mounted

namespace Volume

variable {path : String} {loadedAt flushedAt : TimeSpec} {now : Readings} {disk written : Disk}
  {mounted : Mounted} {volume flushed : Volume} {image : Image}

theorem of_load (h : load path loadedAt disk = .ok volume) :
    volume.path = path ∧ volume.image.header.magic = Header.magicNumber := by
  unfold load at h
  split at h
  · cases h
  · cases h
  · split at h
    · cases h
    · dsimp only at h
      split at h
      · cases h
      · next hm =>
        cases h
        exact ⟨rfl, not_not.mp hm⟩

theorem mount_of_load (hl : load path (now 0) disk = .ok volume) :
    mount path now disk =
      match (Mounted.new volume.limits (now 1)).run (backend maxDocumentSize defaultScope)
        volume with
      | (.done mounted, after) => .ok (mounted, after)
      | (.failed error, _) => .error (.call error)
      | (.crashed, _) => .error .crashed := by
  unfold mount run
  rw [hl]
  simp only [Bind.bind, Except.bind]
  generalize (Mounted.new volume.limits (now 1)).run (backend maxDocumentSize defaultScope)
    volume = result
  obtain ⟨outcome, after⟩ := result
  cases outcome <;> rfl

theorem of_mount (h : mount path now disk = .ok (mounted, volume)) :
    volume.path = path ∧ mounted.limits = volume.limits ∧ volume.Mountable := by
  obtain ⟨loaded, hl, -⟩ := Disk.bind_eq_ok.mp h
  obtain ⟨hp, hm⟩ := of_load hl
  have hnew := (Mounted.upholds_new loaded.limits maxDocumentSize
    (loaded.image.docs defaultScope) (now 1)).run
  rw [mount_of_load hl, Call.run_volume] at h
  generalize (Mounted.new loaded.limits (now 1)).run (Image.backend maxDocumentSize defaultScope)
    loaded.image = result at h hnew
  obtain ⟨outcome, after⟩ := result
  cases outcome with
  | done value =>
    cases h
    obtain ⟨hlimits, hv, hr⟩ := hnew
    exact ⟨hp, hlimits, ⟨hm, hv, hr⟩⟩
  | failed error => cases h
  | crashed => cases h

theorem mount_of_mountable (hl : load path (now 0) disk = .ok volume) (h : volume.Mountable) :
    mount path now disk = .ok (⟨volume.limits, Inodes.new⟩, volume) := by
  rw [mount_of_load hl, Call.run_volume, Mounted.run_new h.limits h.root]
  rfl

theorem Mountable.afterSteps (h : volume.Mountable) (history : List Step) :
    (afterSteps volume.limits (backend maxDocumentSize defaultScope) history volume).path =
        volume.path ∧
      (afterSteps volume.limits (backend maxDocumentSize defaultScope) history volume).limits =
        volume.limits ∧
      (afterSteps volume.limits (backend maxDocumentSize defaultScope) history
        volume).Mountable := by
  have hv := volume.limits.validate_eq_ok_iff.mp h.limits
  have hsame : DocTree.afterSteps volume.limits (backend maxDocumentSize defaultScope) history
      volume = ofImage volume.path volume.image.header _ :=
    (carries _ _ volume.path volume.image.header).afterSteps volume.limits history volume.image
  rw [hsame]
  exact ⟨rfl, rfl, ⟨h.magic, h.limits, hasRoot_afterSteps hv maxDocumentSize history h.root⟩⟩

-- The volume that notes when it is flushed.
def noted (volume : Volume) (now : TimeSpec) : Volume :=
  { volume with
    image :=
      { volume.image with header := { volume.image.header with modifiedAt := some now } } }

-- The volume as a mount finds it that follows a flush.
def remounted (volume : Volume) (flushedAt mountedAt : TimeSpec) : Volume :=
  { volume with
    image :=
      { volume.image with
        header :=
          { volume.image.header with
            modifiedAt := some flushedAt, lastMountedAt := some mountedAt } } }

-- A flush fails only where the disk does.
theorem flush_cases (volume : Volume) (now : TimeSpec) (disk : Disk) :
    (∃ error, disk.swapIn volume.path (volume.noted now).image.serialize = .error error ∧
        (volume.flush now disk).1 = .error (.disk error)) ∨
      ∃ written, disk.swapIn volume.path (volume.noted now).image.serialize = .ok written ∧
        volume.flush now disk = (.ok (), volume.noted now, written) := by
  unfold flush Disk.swapIn noted
  simp only [Image.writeTo_eq, List.nil_append]
  -- What is written plays no part in this.
  generalize Image.serialize _ = content
  cases disk.write (stagingPath volume.path) content with
  | error error => exact .inl ⟨error, rfl, rfl⟩
  | ok staged =>
    simp only [Bind.bind, Except.bind]
    cases staged.rename (stagingPath volume.path) volume.path with
    | error error => exact .inl ⟨error, rfl, rfl⟩
    | ok written => exact .inr ⟨written, rfl, rfl⟩

theorem of_flush (h : volume.flush flushedAt disk = (.ok (), flushed, written)) :
    flushed = volume.noted flushedAt ∧ written.map volume.path = .ok flushed.image.serialize := by
  obtain ⟨error, -, he⟩ | ⟨after, hs, hf⟩ := flush_cases volume flushedAt disk
  · rw [h] at he
    cases he
  · rw [h] at hf
    cases hf
    exact ⟨rfl, Disk.map_of_swapIn hs⟩

theorem load_of_map (hm : disk.map path = .ok image.serialize) (hf : image.Fits)
    (hmagic : image.header.magic = Header.magicNumber) (now : TimeSpec) :
    load path now disk =
      .ok ⟨path, { image with header := { image.header with lastMountedAt := some now } }⟩ := by
  have hd := Image.deserialize_append hf []
  rw [List.append_nil] at hd
  unfold load
  simp only [hm, hd, Sealed.ofImage, hmagic]
  rfl

theorem mount_flushed (h : volume.Mountable) (hf : volume.image.Fits)
    (hw : volume.flush flushedAt disk = (.ok (), flushed, written)) (later : Readings) :
    mount volume.path later written =
      .ok (⟨volume.limits, Inodes.new⟩, volume.remounted flushedAt (later 0)) := by
  obtain ⟨rfl, hm⟩ := of_flush hw
  have hl := load_of_map hm ⟨hf.size, hf.entries⟩ h.magic (later 0)
  exact mount_of_mountable hl ⟨h.magic, h.limits, h.root⟩

-- Calls do not tell the volume that was mounted again from the one that was flushed.
theorem outcomes_remounted (volume : Volume) (flushedAt mountedAt : TimeSpec)
    (history : List Step) :
    outcomes limits (backend maxSize scope) history (volume.remounted flushedAt mountedAt) =
      outcomes limits (backend maxSize scope) history volume := by
  have hsame := fun header => (carries maxSize scope volume.path header).outcomes limits history
    volume.image
  exact (hsame _).trans (hsame volume.image.header).symm

end Volume

end DocTree
