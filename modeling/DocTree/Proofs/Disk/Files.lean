import DocTree.Disk.Files

namespace DocTree.Disk

theorem bind_eq_ok {α β ε : Type} {result : Except ε α} {next : α → Except ε β} {value : β} :
    (result >>= next) = .ok value ↔ ∃ found, result = .ok found ∧ next found = .ok value := by
  cases result with
  | error error => exact iff_of_false nofun nofun
  | ok found =>
    constructor
    · exact fun h => ⟨found, rfl, h⟩
    · rintro ⟨other, ho, h⟩
      cases ho
      exact h

-- Whatever was a folder still is one.
def KeepsFolders (disk after : Disk) : Prop :=
  ∀ place, disk.look place = .ok (some .folder) → after.look place = .ok (some .folder)

variable {disk after last written : Disk} {path source target : String} {place : Place}
  {spot : Spot} {content : Bytes}

theorem KeepsFolders.trans (h : disk.KeepsFolders after) (hl : after.KeepsFolders last) :
    disk.KeepsFolders last := fun place hp => hl place (h place hp)

theorem enter_of_keepsFolders (h : disk.KeepsFolders after) {name : String} {next : Place}
    (he : disk.enter place name = .ok next) : after.enter place name = .ok next := by
  unfold enter at he ⊢
  split
  · next hn => rwa [if_pos hn] at he
  · next hn =>
    rw [if_neg hn] at he
    split
    · next hu => rwa [if_pos hu] at he
    · next hu =>
      rw [if_neg hu] at he
      obtain ⟨entry, hl, hn⟩ := bind_eq_ok.mp he
      match entry, hn with
      | some .folder, hn => exact bind_eq_ok.mpr ⟨some .folder, h _ hl, hn⟩

theorem foldlM_enter_of_keepsFolders (h : disk.KeepsFolders after) {names : List String}
    {next : Place} (he : names.foldlM disk.enter place = .ok next) :
    names.foldlM after.enter place = .ok next := by
  induction names generalizing place with
  | nil => exact he
  | cons name names ih =>
    obtain ⟨middle, hm, hn⟩ := bind_eq_ok.mp he
    exact bind_eq_ok.mpr ⟨middle, enter_of_keepsFolders h hm, ih hn⟩

theorem spot_of_keepsFolders (h : disk.KeepsFolders after) (hs : disk.spot path = .ok spot) :
    after.spot path = .ok spot := by
  unfold Disk.spot at hs ⊢
  obtain ⟨_, hc, hs⟩ := bind_eq_ok.mp hs
  refine bind_eq_ok.mpr ⟨_, hc, ?_⟩
  dsimp only at hs ⊢
  split at hs
  · exact hs
  · obtain ⟨place, hp, hs⟩ := bind_eq_ok.mp hs
    exact bind_eq_ok.mpr ⟨place, foldlM_enter_of_keepsFolders h hp, hs⟩

theorem look_congr (h : after[place]? = disk[place]?) : after.look place = disk.look place := by
  unfold look
  rw [h]

-- A place for a file: no folder is there.
def Open (disk : Disk) (place : Place) : Prop :=
  ∃ entry, disk.look place = .ok entry ∧ entry ≠ some .folder

-- Such a place is below the working folder, and its names are not too long.
theorem Open.look_eq (h : disk.Open place) (after : Disk) :
    after.look place = .ok after[place]? := by
  obtain ⟨entry, hl, hf⟩ := h
  unfold look at hl ⊢
  split at hl
  · cases hl
    exact absurd rfl hf
  · next ha =>
    rw [if_neg ha]
    split at hl
    · cases hl
    · next hn => rw [if_neg hn]

theorem Open.ne_folder (h : disk.Open place) : disk[place]? ≠ some .folder := by
  obtain ⟨entry, hl, hf⟩ := id h
  rw [h.look_eq disk] at hl
  cases hl
  exact hf

theorem Open.of_getElem? (h : disk.Open place) (hn : after[place]? ≠ some .folder) :
    after.Open place := ⟨_, h.look_eq after, hn⟩

-- No folder is lost by what happens at such a place.
theorem Open.keepsFolders (h : disk.Open place)
    (ha : ∀ other, place ≠ other → after[other]? = disk[other]?) : disk.KeepsFolders after := by
  intro other ho
  rw [← ho]
  refine look_congr (ha other ?_)
  rintro rfl
  rw [h.look_eq disk] at ho
  exact h.ne_folder (Except.ok.inj ho)

theorem Open.insert (h : disk.Open place) (made : DiskEntry) :
    disk.KeepsFolders (disk.insert place made) ∧
      look (disk.insert place made) place = .ok (some made) := by
  constructor
  · refine h.keepsFolders fun other hne => ?_
    rw [Std.ExtTreeMap.getElem?_insert, if_neg (mt Std.LawfulEqCmp.eq_of_compare hne)]
  · rw [h.look_eq, Std.ExtTreeMap.getElem?_insert_self]

theorem Open.erase (h : disk.Open place) : disk.KeepsFolders (disk.erase place) := by
  refine h.keepsFolders fun other hne => ?_
  rw [Std.ExtTreeMap.getElem?_erase, if_neg (mt Std.LawfulEqCmp.eq_of_compare hne)]

theorem Open.after_erase (h : disk.Open place) (other : Place) :
    Open (disk.erase other) place := by
  refine h.of_getElem? ?_
  rw [Std.ExtTreeMap.getElem?_erase]
  split
  · exact nofun
  · exact h.ne_folder

-- What a path leads to after a file was written there.
theorem of_write (h : disk.write path content = .ok after) :
    ∃ place, after.spot path = .ok (.name place) ∧
      after.look place = .ok (some (.file content)) := by
  unfold write at h
  obtain ⟨spot, hs, h⟩ := bind_eq_ok.mp h
  match spot, hs, h with
  | .name place, hs, h =>
    obtain ⟨entry, hl, h⟩ := bind_eq_ok.mp h
    split at h
    · cases h
    · next hf =>
      cases h
      obtain ⟨hk, hp⟩ := Open.insert ⟨entry, hl, hf⟩ (.file content)
      exact ⟨place, spot_of_keepsFolders hk hs, hp⟩

-- The content of a file moves with it.
theorem of_rename (h : disk.rename source target = .ok after)
    (hs : disk.spot source = .ok (.name place))
    (hl : disk.look place = .ok (some (.file content))) :
    ∃ other, after.spot target = .ok (.name other) ∧
      after.look other = .ok (some (.file content)) := by
  unfold rename at h
  obtain ⟨spot, hspot, h⟩ := bind_eq_ok.mp h
  rw [hs] at hspot
  cases hspot
  obtain ⟨spot, ht, h⟩ := bind_eq_ok.mp h
  match spot, ht, h with
  | .name other, ht, h =>
    obtain ⟨entry, he, h⟩ := bind_eq_ok.mp h
    rw [hl] at he
    cases he
    obtain ⟨covered, hc, h⟩ := bind_eq_ok.mp h
    have hmoved : covered ≠ some .folder ∧
        (disk.erase place).insert other (.file content) = after := by
      match covered, h with
      | none, h => exact ⟨nofun, Except.ok.inj h⟩
      | some (.file _), h => exact ⟨nofun, Except.ok.inj h⟩
    obtain ⟨hf, rfl⟩ := hmoved
    have hfrom : disk.Open place := ⟨_, hl, nofun⟩
    have hto : disk.Open other := ⟨covered, hc, hf⟩
    obtain ⟨hk, hlast⟩ := (hto.after_erase place).insert (.file content)
    exact ⟨other, spot_of_keepsFolders (hfrom.erase.trans hk) ht, hlast⟩

theorem map_of_look (hs : disk.spot path = .ok (.name place))
    (hl : disk.look place = .ok (some (.file content))) : disk.map path = .ok content := by
  unfold map find
  rw [hs]
  simp only [bind, Except.bind, hl]
  rfl

-- What a volume does to replace a file: it writes another one, and moves that over it.
def swapIn (disk : Disk) (path : String) (content : Bytes) : Except DiskError Disk := do
  (← disk.write (stagingPath path) content).rename (stagingPath path) path

theorem map_of_swapIn (h : disk.swapIn path content = .ok after) :
    after.map path = .ok content := by
  obtain ⟨written, hw, hr⟩ := bind_eq_ok.mp h
  obtain ⟨place, hs, hl⟩ := of_write hw
  obtain ⟨other, ht, ho⟩ := of_rename hr hs hl
  exact map_of_look ht ho

end DocTree.Disk
