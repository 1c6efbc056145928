import DocTree.Proofs.Disk.Format

namespace DocTree

namespace Disk

variable {disk after : Disk} {path source target : String} {place staged : Place}
  {content : Bytes}

theorem Open.of_look_none (h : disk.look place = .ok none) : disk.Open place := ⟨none, h, nofun⟩

theorem Open.getElem?_eq_none_iff (h : disk.Open place) :
    disk[place]? = none ↔ disk.look place = .ok none := by
  rw [h.look_eq disk, Except.ok.injEq]

theorem createNew_eq_ok (h : disk.createNew path = .ok after) :
    ∃ place, disk.spot path = .ok (.name place) ∧ disk.look place = .ok none ∧
      after = disk.insert place (.file []) := by
  obtain ⟨spot, hs, h⟩ := bind_eq_ok.mp h
  match spot, hs, h with
  | .name place, hs, h =>
    obtain ⟨entry, hl, h⟩ := bind_eq_ok.mp h
    cases entry with
    | some entry => cases h
    | none => exact ⟨place, hs, hl, (Except.ok.inj h).symm⟩

theorem write_eq_ok_iff : disk.write path content = .ok after ↔
    ∃ place, disk.spot path = .ok (.name place) ∧ disk.Open place ∧
      after = disk.insert place (.file content) := by
  constructor
  · intro h
    obtain ⟨spot, hs, h⟩ := bind_eq_ok.mp h
    match spot, hs, h with
    | .name place, hs, h =>
      obtain ⟨entry, hl, h⟩ := bind_eq_ok.mp h
      split at h
      · cases h
      · next hf => exact ⟨place, hs, ⟨entry, hl, hf⟩, (Except.ok.inj h).symm⟩
  · rintro ⟨place, hs, ⟨entry, hl, hf⟩, rfl⟩
    refine bind_eq_ok.mpr ⟨_, hs, bind_eq_ok.mpr ⟨_, hl, ?_⟩⟩
    rw [if_neg hf]
    rfl

theorem rename_eq_ok (hs : disk.spot source = .ok (.name staged))
    (ht : disk.spot target = .ok (.name place))
    (hl : disk.look staged = .ok (some (.file content))) (ho : disk.Open place) :
    disk.rename source target = .ok ((disk.erase staged).insert place (.file content)) := by
  obtain ⟨entry, hc, hf⟩ := ho
  refine bind_eq_ok.mpr ⟨_, hs, bind_eq_ok.mpr ⟨_, ht, ?_⟩⟩
  refine bind_eq_ok.mpr ⟨_, hl, bind_eq_ok.mpr ⟨_, hc, ?_⟩⟩
  match entry, hf with
  | none, _ => rfl
  | some (.file _), _ => rfl

theorem Open.after_insert_file (h : disk.Open place) (other : Place) (content : Bytes) :
    Open (disk.insert other (.file content)) place := by
  refine h.of_getElem? ?_
  rw [Std.ExtTreeMap.getElem?_insert]
  split
  · exact nofun
  · exact h.ne_folder

-- A file that comes to such a place makes no folder either.
theorem Open.insert_file_keepsFolders (h : disk.Open place) (content : Bytes) :
    KeepsFolders (disk.insert place (.file content)) disk := by
  refine (h.after_insert_file place content).keepsFolders fun other hne => ?_
  rw [Std.ExtTreeMap.getElem?_insert, if_neg (mt Std.LawfulEqCmp.eq_of_compare hne)]

theorem Open.of_keepsFolders (h : after.Open place) (hk : disk.KeepsFolders after) :
    disk.Open place := by
  refine h.of_getElem? fun hf => h.ne_folder ?_
  have hl := hk place ((h.look_eq disk).trans (congrArg _ hf))
  exact Except.ok.inj ((h.look_eq after).symm.trans hl)

-- The path leads to a place for a file, and so does its staging path.
structure Stages (disk : Disk) (path : String) (staged place : Place) : Prop where
  staging : disk.spot (stagingPath path) = .ok (.name staged)
  staged_open : disk.Open staged
  target : disk.spot path = .ok (.name place)
  place_open : disk.Open place

namespace Stages

variable (h : disk.Stages path staged place)

include h

theorem insert_file {other : Place} (ho : disk.Open other) (content : Bytes) :
    Stages (disk.insert other (.file content)) path staged place where
  staging := spot_of_keepsFolders (ho.insert _).1 h.staging
  staged_open := h.staged_open.after_insert_file other content
  target := spot_of_keepsFolders (ho.insert _).1 h.target
  place_open := h.place_open.after_insert_file other content

theorem erase {other : Place} (ho : disk.Open other) : Stages (disk.erase other) path staged place
    where
  staging := spot_of_keepsFolders ho.erase h.staging
  staged_open := h.staged_open.after_erase other
  target := spot_of_keepsFolders ho.erase h.target
  place_open := h.place_open.after_erase other

-- The disk after a file was put in place: nothing is left at the staging place.
theorem swapped (content : Bytes) :
    Stages ((disk.erase staged).insert place (.file content)) path staged place :=
  (h.erase h.staged_open).insert_file (h.place_open.after_erase staged) content

theorem swapIn_eq (content : Bytes) :
    disk.swapIn path content = .ok ((disk.erase staged).insert place (.file content)) := by
  refine bind_eq_ok.mpr ⟨_, write_eq_ok_iff.mpr ⟨staged, h.staging, h.staged_open, rfl⟩, ?_⟩
  have hw := h.insert_file h.staged_open content
  rw [rename_eq_ok hw.staging hw.target (h.staged_open.insert _).2 hw.place_open]
  congr 2
  ext1 other
  rw [Std.ExtTreeMap.getElem?_erase, Std.ExtTreeMap.getElem?_erase, Std.ExtTreeMap.getElem?_insert]
  split <;> rfl

end Stages

-- Erasing the staging place again changes nothing.
theorem erase_insert_erase (staged place : Place) (first second : DiskEntry) :
    (((disk.erase staged).insert place first).erase staged).insert place second =
      (disk.erase staged).insert place second := by
  ext1 other
  simp only [Std.ExtTreeMap.getElem?_insert, Std.ExtTreeMap.getElem?_erase]
  split
  · rfl
  · split <;> rfl

end Disk

namespace Volume

open Disk (Stages)

variable {blockSize maxBlocks : UInt64} {disk made : Disk} {path : String} {staged place : Place}

theorem flush_eq (volume : Volume) (now : TimeSpec) (h : disk.Stages volume.path staged place) :
    volume.flush now disk = (.ok (), volume.noted now,
      (disk.erase staged).insert place (.file (volume.noted now).image.serialize)) := by
  have hs := h.swapIn_eq (volume.noted now).image.serialize
  obtain ⟨error, he, -⟩ | ⟨written, hw, hf⟩ := flush_cases volume now disk
  · rw [hs] at he
    cases he
  · rw [hs] at hw
    cases hw
    exact hf

-- A flush that gets no staging file leaves the disk alone.
theorem flush_of_unstaged (volume : Volume) (now : TimeSpec)
    (h : ∀ staged, disk.spot (stagingPath volume.path) = .ok (.name staged) → ¬disk.Open staged) :
    ∃ error, volume.flush now disk = (.error (.disk error), volume.noted now, disk) := by
  unfold flush noted
  dsimp only
  generalize (Image.writeTo _ _).1 = content
  cases hw : disk.write (stagingPath volume.path) content with
  | error error => exact ⟨error, rfl⟩
  | ok written =>
    obtain ⟨staged, hs, ho, -⟩ := Disk.write_eq_ok_iff.mp hw
    exact absurd ho (h staged hs)

theorem create_of_stages (hc : disk.createNew path = .ok made)
    (h : made.Stages path staged place) (header : Header) (now : TimeSpec) :
    ∃ content, create path header now disk =
      (.ok ⟨path, Image.new { header with modifiedAt := some now }⟩,
        (made.erase staged).insert place (.file content)) := by
  unfold create
  rw [hc]
  dsimp only
  rw [flush_eq ⟨path, Image.new header⟩ now h]
  exact ⟨_, rfl⟩

theorem format_of_stages (ha : Accepts blockSize maxBlocks) (hc : disk.createNew path = .ok made)
    (h : made.Stages path staged place) (now : Readings) :
    ∃ content, format path blockSize maxBlocks now disk =
      (.ok (), (made.erase staged).insert place (.file content)) := by
  obtain ⟨hb, hm⟩ := accepts_iff.mp ha
  obtain ⟨first, hcreate⟩ := create_of_stages hc h (Header.new blockSize maxBlocks (now 0)) (now 1)
  unfold format
  rw [if_neg hb, if_neg hm, hcreate]
  dsimp only
  rw [run_new_rooted path _ (now 2) ha]
  dsimp only
  -- The second flush finds its places as the first one left them.
  rw [flush_eq _ (now 3) (h.swapped first), Disk.erase_insert_erase]
  exact ⟨_, rfl⟩

theorem format_of_unstaged (ha : Accepts blockSize maxBlocks)
    (hc : disk.createNew path = .ok made)
    (h : ∀ staged, made.spot (stagingPath path) = .ok (.name staged) → ¬made.Open staged)
    (now : Readings) :
    ∃ error, format path blockSize maxBlocks now disk = (.error (.disk error), made) := by
  obtain ⟨hb, hm⟩ := accepts_iff.mp ha
  obtain ⟨error, hf⟩ :=
    flush_of_unstaged ⟨path, Image.new (Header.new blockSize maxBlocks (now 0))⟩ (now 1) h
  unfold format create
  rw [if_neg hb, if_neg hm, hc]
  dsimp only
  rw [hf]
  exact ⟨error, rfl⟩

-- What a format should come to: nothing if it fails, and else one file that was not there.
def AllOrNothing (path : String) (disk : Disk) : Except VolumeError Unit × Disk → Prop
  | (.error _, after) => after = disk
  | (.ok (), after) => ∃ place content, disk.spot path = .ok (.name place) ∧
      disk.look place = .ok none ∧ after = disk.insert place (.file content)

theorem AllOrNothing.eq_of_error {result : Except VolumeError Unit × Disk} {error : VolumeError}
    (h : AllOrNothing path disk result) (he : result.1 = .error error) : result.2 = disk := by
  obtain ⟨answer, after⟩ := result
  cases he
  exact h

theorem AllOrNothing.keeps {result : Except VolumeError Unit × Disk} {other : Place}
    {entry : DiskEntry} (h : AllOrNothing path disk result)
    (he : disk.look other = .ok (some entry)) : result.2.look other = .ok (some entry) := by
  obtain ⟨answer | answer, after⟩ := result
  · exact (congrArg (Disk.look · other) h).trans he
  · obtain ⟨place, content, -, hn, rfl⟩ := h
    rw [← he]
    refine Disk.look_congr ?_
    rw [Std.ExtTreeMap.getElem?_insert, if_neg]
    intro hc
    rw [Std.LawfulEqCmp.eq_of_compare hc, he] at hn
    cases hn

-- The new file is the only difference if there was nothing at the staging place.
theorem allOrNothing_staged_iff (h : disk.Stages path staged place)
    (hn : disk.look place = .ok none) (content : Bytes) :
    AllOrNothing path disk
        (.ok (), ((disk.insert place (.file [])).erase staged).insert place (.file content)) ↔
      disk.look staged = .ok none := by
  rw [← h.staged_open.getElem?_eq_none_iff]
  constructor
  · rintro ⟨other, last, ht, -, he⟩
    obtain rfl : place = other := Spot.name.inj (Except.ok.inj (h.target.symm.trans ht))
    by_cases hsame : place = staged
    · rw [← hsame]
      exact h.place_open.getElem?_eq_none_iff.mpr hn
    · have hne : compare place staged ≠ .eq := mt Std.LawfulEqCmp.eq_of_compare hsame
      have hget : (((disk.insert place (.file [])).erase staged).insert place
          (.file content))[staged]? = (disk.insert place (.file last))[staged]? := by rw [he]
      rw [Std.ExtTreeMap.getElem?_insert, if_neg hne, Std.ExtTreeMap.getElem?_erase_self,
        Std.ExtTreeMap.getElem?_insert, if_neg hne] at hget
      exact hget.symm
  · intro hl
    refine ⟨place, content, h.target, hn, ?_⟩
    ext1 other
    simp only [Std.ExtTreeMap.getElem?_insert, Std.ExtTreeMap.getElem?_erase]
    split
    · rfl
    · split
      · next hc => rw [← Std.LawfulEqCmp.eq_of_compare hc, hl]
      · rfl

-- Sizes that are not accepted and names that are taken change nothing. Past that, the one thing to
-- look at is the staging path: it has to be a name that is free.
theorem format_allOrNothing_iff (path : String) (blockSize maxBlocks : UInt64) (now : Readings)
    (disk : Disk) :
    AllOrNothing path disk (format path blockSize maxBlocks now disk) ↔
      ¬Accepts blockSize maxBlocks ∨ (∃ error, disk.createNew path = .error error) ∨
        ∃ staged, disk.spot (stagingPath path) = .ok (.name staged) ∧
          disk.look staged = .ok none := by
  by_cases ha : Accepts blockSize maxBlocks
  case neg =>
    refine iff_of_true ?_ (.inl ha)
    obtain h | h := format_of_not_accepts ha path now disk <;>
      · rw [h]
        exact rfl
  case pos =>
  cases hc : disk.createNew path with
  | error error =>
    refine iff_of_true ?_ (.inr (.inl ⟨error, rfl⟩))
    obtain ⟨hb, hm⟩ := accepts_iff.mp ha
    unfold format create
    rw [if_neg hb, if_neg hm, hc]
    exact rfl
  | ok made =>
    obtain ⟨place, ht, hnone, rfl⟩ := Disk.createNew_eq_ok hc
    have hopen := Disk.Open.of_look_none hnone
    have hplace : disk[place]? = none := hopen.getElem?_eq_none_iff.mpr hnone
    refine Iff.trans ?_ (or_iff_right (not_not_intro ha)).symm
    refine Iff.trans ?_ (or_iff_right nofun).symm
    by_cases hs : ∃ staged, disk.spot (stagingPath path) = .ok (.name staged) ∧ disk.Open staged
    · obtain ⟨staged, hs, ho⟩ := hs
      have hstages : disk.Stages path staged place := ⟨hs, ho, ht, hopen⟩
      obtain ⟨content, hf⟩ := format_of_stages ha hc (hstages.insert_file hopen []) now
      rw [hf, allOrNothing_staged_iff hstages hnone]
      constructor
      · exact fun hl => ⟨staged, hs, hl⟩
      · rintro ⟨other, ho, hl⟩
        rw [hs] at ho
        cases ho
        exact hl
    · obtain ⟨error, hf⟩ := format_of_unstaged ha hc (fun staged hm ho => hs ⟨staged,
        Disk.spot_of_keepsFolders (hopen.insert_file_keepsFolders []) hm,
        ho.of_keepsFolders (hopen.insert _).1⟩) now
      rw [hf]
      refine iff_of_false (fun he => ?_) fun ⟨staged, hm, hl⟩ => hs ⟨staged, hm, .of_look_none hl⟩
      have hmade : (disk.insert place (.file []))[place]? = disk[place]? := by rw [he]
      rw [Std.ExtTreeMap.getElem?_insert_self, hplace] at hmade
      cases hmade

namespace Sample

-- A folder at one staging path, and a file at another one.
def shelf : Disk :=
  ((∅ : Disk).insert ["a.staging"] .folder).insert ["b.staging"] (.file [1, 2, 3])

def formatted (path : String) : Except VolumeError Unit × Disk :=
  format path 8 4 DocTree.Sample.now shelf

end Sample

-- One format fails and leaves an empty file behind; the other one succeeds, and a file is gone.
theorem sample_format_is_not_allOrNothing :
    ((Sample.formatted "a.img").1 = .error (.disk .isDirectory) ∧
        Sample.shelf.look ["a.img"] = .ok none ∧
        (Sample.formatted "a.img").2.look ["a.img"] = .ok (some (.file [])) ∧
        ¬AllOrNothing "a.img" Sample.shelf (Sample.formatted "a.img")) ∧
      (Sample.formatted "b.img").1 = .ok () ∧
        Sample.shelf.look ["b.staging"] = .ok (some (.file [1, 2, 3])) ∧
        (Sample.formatted "b.img").2.look ["b.staging"] = .ok none ∧
        ¬AllOrNothing "b.img" Sample.shelf (Sample.formatted "b.img") := by
  have hfail : (Sample.formatted "a.img").1 = .error (.disk .isDirectory) := by decide +kernel
  have hfree : Sample.shelf.look ["a.img"] = .ok none := by decide +kernel
  have hleft : (Sample.formatted "a.img").2.look ["a.img"] = .ok (some (.file [])) := by
    decide +kernel
  have hheld : Sample.shelf.look ["b.staging"] = .ok (some (.file [1, 2, 3])) := by decide +kernel
  have hgone : (Sample.formatted "b.img").2.look ["b.staging"] = .ok none := by decide +kernel
  refine ⟨⟨hfail, hfree, hleft, fun h => ?_⟩, by decide +kernel, hheld, hgone, fun h => ?_⟩
  · rw [h.eq_of_error hfail, hfree] at hleft
    cases hleft
  · rw [h.keeps hheld] at hgone
    cases hgone

end Volume

end DocTree
