import DocTree.Proofs.Tree.Changed
import DocTree.Proofs.Tree.Orderly
import DocTree.Proofs.Tree.Withstood

namespace DocTree

open Call

namespace Dentry

variable {dentry : Dentry} {name : String}

theorem removeChild_of_not_mem (h : name ∉ dentry.children) : dentry.removeChild name = dentry := by
  unfold removeChild
  rw [List.filter_eq_self.mpr]
  intro child hm
  exact decide_eq_true fun he => h (he ▸ hm)

theorem removeChild_addChild (h : name ∉ dentry.children) :
    (dentry.addChild name).removeChild name = dentry := by
  have hr := removeChild_of_not_mem h
  unfold removeChild at hr ⊢
  unfold addChild
  simpa using hr

end Dentry

namespace Catalog

-- A place in the tree that nothing stands at, and that no directory has listed.
structure Vacant (limits : Limits) (catalog : Catalog) (path parent leaf : String) : Prop where
  split : Path.split path limits.maxKeyLen = .ok (parent, leaf)
  stat : catalog.stats path = none
  dentry : catalog.dentries path = none
  unlisted : ∀ dentry, catalog.dentries parent = some dentry → leaf ∉ dentry.children

-- How far the making of a path may have come: nothing, its record, and for a file its place in the
-- parent; for a directory first a document of its own.
inductive Begun (catalog : Catalog) (path parent leaf : String) (stat : StatRecord) :
    Catalog → Prop where
  | nothing : Begun catalog path parent leaf stat catalog
  | recorded : Begun catalog path parent leaf stat (catalog.setStat path (some stat))
  | file (h : stat.isDirectory = false) :
      Begun catalog path parent leaf stat (catalog.addFile path parent leaf stat)
  | documented (h : stat.isDirectory) :
      Begun catalog path parent leaf stat
        ((catalog.setStat path (some stat)).setDentry path (some (Dentry.new path parent)))
  | directory (h : stat.isDirectory) :
      Begun catalog path parent leaf stat (catalog.addDirectory path parent leaf stat)

variable {limits : Limits} {maxSize : Nat} {catalog begun : Catalog} {path parent leaf : String}
  {stat : StatRecord}

theorem Grounded.vacant (h : catalog.Grounded limits maxSize)
    (hs : Path.split path limits.maxKeyLen = .ok (parent, leaf)) (hn : catalog.stats path = none) :
    catalog.Vacant limits path parent leaf := by
  refine ⟨hs, hn, ?_, fun dentry hd hm => ?_⟩
  · by_contra hne
    exact not_hasDirectory_of_none hn (h.documented path hne)
  · apply (h.listed parent dentry hd leaf hm).2
    rw [Path.join_of_split hs, hn]

namespace Begun

variable (hb : catalog.Begun path parent leaf stat begun)

include hb

theorem stats_of_ne {other : String} (hne : other ≠ path) :
    begun.stats other = catalog.stats other := by
  have hset : (catalog.setStat path (some stat)).stats other = catalog.stats other := by
    rw [stats_setStat, if_neg hne]
  cases hb with
  | nothing => rfl
  | recorded => exact hset
  | file _ => exact hset
  | documented _ => exact hset
  | directory _ => exact hset

theorem stats_self : begun = catalog ∨ begun.stats path = some stat := by
  have hset : (catalog.setStat path (some stat)).stats path = some stat := by
    rw [stats_setStat, if_pos rfl]
  cases hb with
  | nothing => exact .inl rfl
  | recorded => exact .inr hset
  | file _ => exact .inr hset
  | documented _ => exact .inr hset
  | directory _ => exact .inr hset

variable (hv : catalog.Vacant limits path parent leaf)

include hv

theorem dentries_self : begun.dentries path = none ∨
    stat.isDirectory ∧ begun.dentries path = some (Dentry.new path parent) := by
  have hne := (Path.parent_ne_of_split hv.split).symm
  cases hb with
  | nothing => exact .inl hv.dentry
  | recorded => exact .inl hv.dentry
  | file _ =>
    left
    rw [addFile, dentries_modifyDentry, if_neg hne]
    exact hv.dentry
  | documented h =>
    right
    rw [dentries_setDentry, if_pos rfl]
    exact ⟨h, rfl⟩
  | directory h =>
    right
    rw [addDirectory, dentries_modifyDentry, if_neg hne, dentries_setDentry, if_pos rfl]
    exact ⟨h, rfl⟩

omit hv in
theorem dentries_of_ne {other : String} (hne : other ≠ path) (hp : other ≠ parent) :
    begun.dentries other = catalog.dentries other := by
  cases hb with
  | nothing => rfl
  | recorded => rfl
  | file _ => rw [addFile, dentries_modifyDentry, if_neg hp, dentries_setStat]
  | documented _ => rw [dentries_setDentry, if_neg hne, dentries_setStat]
  | directory _ =>
    rw [addDirectory, dentries_modifyDentry, if_neg hp, dentries_setDentry, if_neg hne,
      dentries_setStat]

-- The name is in the list once at most, and not of old.
theorem dentries_parent : (begun.dentries parent).map (·.removeChild leaf) =
    catalog.dentries parent := by
  have hne := Path.parent_ne_of_split hv.split
  have hold : (catalog.dentries parent).map (·.removeChild leaf) = catalog.dentries parent := by
    cases hd : catalog.dentries parent with
    | none => rfl
    | some dentry => exact congrArg some (Dentry.removeChild_of_not_mem (hv.unlisted dentry hd))
  have hnew : ((catalog.dentries parent).map (·.addChild leaf)).map (·.removeChild leaf) =
      catalog.dentries parent := by
    cases hd : catalog.dentries parent with
    | none => rfl
    | some dentry => exact congrArg some (Dentry.removeChild_addChild (hv.unlisted dentry hd))
  cases hb with
  | nothing => exact hold
  | recorded => exact hold
  | file _ =>
    rw [addFile, dentries_modifyDentry, if_pos rfl]
    exact hnew
  | documented _ =>
    rw [dentries_setDentry, if_neg hne]
    exact hold
  | directory _ =>
    rw [addDirectory, dentries_modifyDentry, if_pos rfl, dentries_setDentry, if_neg hne]
    exact hnew

-- Removed as a directory is, what was begun is gone.
theorem removeDirectory_eq : begun.removeDirectory path parent leaf = catalog := by
  have hne := Path.parent_ne_of_split hv.split
  have hstats : (begun.removeDirectory path parent leaf).stats = catalog.stats := by
    funext other
    rw [removeDirectory, removeFile, stats_setStat]
    split
    · next he => rw [he, hv.stat]
    · next he => exact hb.stats_of_ne he
  have hdentries : (begun.removeDirectory path parent leaf).dentries = catalog.dentries := by
    funext other
    rw [removeDirectory, removeFile, dentries_setStat, dentries_modifyDentry]
    split
    · next he =>
      rw [dentries_setDentry, if_neg hne, hb.dentries_parent hv, he]
    · next hp =>
      rw [dentries_setDentry]
      split
      · next he => rw [he, hv.dentry]
      · next he => exact hb.dentries_of_ne he hp
  exact congrArg₂ Catalog.mk hstats hdentries

end Begun

end Catalog

-- The documents after the making of a file or of a directory that perhaps broke off. The blocks are
-- as they were.
def Docs.Begins (docs : Docs) (catalog : Catalog) (path parent leaf : String) (directory : Bool)
    (after : Docs) : Prop :=
  ∃ stat begun, stat.isDirectory = directory ∧ catalog.Begun path parent leaf stat begun ∧
    after.Shows begun ∧ docs.SameBlocks after

namespace Tree

variable {limits : Limits} {maxSize : Nat} {docs : Docs} {catalog begun : Catalog}
  {path parent leaf directory : String} {stat : StatRecord} {now : Readings}

theorem withstands_listChild {keeps : Docs → Prop} (hd : docs.Shows catalog) (hk : keeps docs)
    (hs : ∀ after, after.Shows (catalog.modifyDentry directory (·.addChild leaf)) →
      docs.SameBlocks after → keeps after) :
    (listChild directory leaf).Withstands (fun _ => keeps) (fun _ => keeps) docs := by
  unfold listChild
  refine withstands_bind.mpr (Directory.withstands_get hd (fun dentry hc => ?_) fun _ => hk)
  split
  · exact hk
  · refine withstands_bind.mpr (Directory.withstands_modify hd (fun found after hf ha => ?_)
      fun _ => hk)
    have hafter := hs after (Docs.Put.shows_modify (·.addChild leaf) ha hd hf) (ha.sameBlocks nofun)
    exact ⟨hafter, fun _ => hafter⟩

theorem withstands_create {mode : UInt32} {now : TimeSpec} (hd : docs.Shows catalog)
    (hs : Path.split path limits.maxKeyLen = .ok (parent, leaf)) :
    (create limits path mode now).Withstands (fun _ => docs.Begins catalog path parent leaf false)
      (fun _ => docs.Begins catalog path parent leaf false) docs := by
  have hplain : (StatRecord.new Mode.regularFile now).isDirectory = false :=
    StatRecord.not_isDirectory_of_isRegularFile (StatRecord.isRegularFile_new (by decide) now)
  have hnothing : docs.Begins catalog path parent leaf false docs :=
    ⟨_, catalog, hplain, .nothing, hd, .refl⟩
  unfold create
  rw [hs, ofExcept_ok_bind]
  refine withstands_bind.mpr (withstands_check.mpr ?_)
  split
  swap
  · exact hnothing
  next hm =>
  have hfile : (StatRecord.new mode now).isDirectory = false :=
    StatRecord.not_isDirectory_of_isRegularFile (StatRecord.isRegularFile_new hm now)
  refine ((only_requireDirectory ⟨_, rfl⟩).withstands_looks docs).bind
    (fun _ after ha => ?_) fun _ after ha => ha ▸ hnothing
  subst ha
  refine withstands_bind.mpr (Metadata.withstands_insert (fun _ mid hmid => ?_)
    fun _ => hnothing)
  have hshows := hmid.shows_stat hd
  have hrecorded : after.Begins catalog path parent leaf false mid :=
    ⟨_, _, hfile, .recorded, hshows, hmid.sameBlocks nofun⟩
  refine ⟨?_, fun _ => hrecorded⟩
  refine withstands_bind.mpr (withstands_listChild hshows hrecorded fun last hl hb => ?_)
  exact ⟨_, _, hfile, .file hfile, hl, (hmid.sameBlocks nofun).trans hb⟩

theorem withstands_mkdir {mode : UInt32} {now : TimeSpec} (hd : docs.Shows catalog)
    (hs : Path.split path limits.maxKeyLen = .ok (parent, leaf)) :
    (mkdir limits path mode now).Withstands (fun _ => docs.Begins catalog path parent leaf true)
      (fun _ => docs.Begins catalog path parent leaf true) docs := by
  have hdir := StatRecord.isDirectory_new mode now
  have hnothing : docs.Begins catalog path parent leaf true docs :=
    ⟨_, catalog, hdir, .nothing, hd, .refl⟩
  unfold mkdir
  rw [hs, ofExcept_ok_bind]
  refine ((only_requireDirectory ⟨_, rfl⟩).withstands_looks docs).bind
    (fun _ after ha => ?_) fun _ after ha => ha ▸ hnothing
  subst ha
  refine withstands_bind.mpr (Metadata.withstands_insert (fun _ mid hmid => ?_)
    fun _ => hnothing)
  have hshows := hmid.shows_stat hd
  have hrecorded : after.Begins catalog path parent leaf true mid :=
    ⟨_, _, hdir, .recorded, hshows, hmid.sameBlocks nofun⟩
  refine ⟨?_, fun _ => hrecorded⟩
  refine withstands_bind.mpr (Directory.withstands_create (fun _ own hown => ?_)
    fun _ => hrecorded)
  have hblocks := (hmid.sameBlocks nofun).trans (hown.sameBlocks nofun)
  have hdocumented : after.Begins catalog path parent leaf true own :=
    ⟨_, _, hdir, .documented hdir, hown.shows_dentry hshows, hblocks⟩
  refine ⟨?_, fun _ => hdocumented⟩
  refine withstands_bind.mpr (withstands_listChild (hown.shows_dentry hshows) hdocumented
    fun last hl hb => ?_)
  exact ⟨_, _, hdir, .directory hdir, hl, hblocks.trans hb⟩

-- The documents after a removal: those of a tree, with the blocks as they were.
def LeavesTree (docs : Docs) (catalog : Catalog) (after : Docs) : Prop :=
  after.Shows catalog ∧ docs.SameBlocks after

theorem upholds_removeEntry (path : String) (hd : docs.Shows catalog)
    (hf : ∀ dentry, catalog.dentries parent = some dentry →
      (dentry.removeChild leaf).encode.length ≤ maxSize) :
    (do bestEffort (Directory.removeChild parent leaf)
        Metadata.remove path).Upholds maxSize (fun _ => True)
      (fun _ => LeavesTree docs (catalog.removeFile path parent leaf))
      (fun error after => error = FsError.notFound ∧
        LeavesTree docs (catalog.removeFile path parent leaf) after) docs := by
  -- The name is taken out where it stands, and where there is no list there is no name in it.
  have hchild : (bestEffort (Directory.removeChild parent leaf)).Upholds maxSize (fun _ => True)
      (fun _ => LeavesTree docs (catalog.modifyDentry parent (·.removeChild leaf)))
      (fun _ _ => False) docs := by
    refine upholds_bestEffort.mpr (Directory.upholds_modify trivial hd ?_ ?_ ?_)
    · intro dentry after hc _ ha
      exact ⟨trivial, Docs.Put.shows_modify (·.removeChild leaf) ha hd hc, ha.sameBlocks nofun⟩
    · intro hn
      refine ⟨?_, .refl⟩
      unfold Catalog.modifyDentry
      rw [hn, Option.map_none, Catalog.setDentry_self hn]
      exact hd
    · intro dentry hc hl
      exact absurd (hf dentry hc) (Nat.not_le.mpr hl)
  refine hchild.bind (fun _ mid hmid => ?_) fun _ _ h => h.elim
  obtain ⟨hshows, hblocks⟩ := hmid
  refine upholds_remove trivial (fun _ => ⟨trivial, hshows.removeStat,
    hblocks.trans (Docs.sameBlocks_set nofun)⟩) fun hn => ⟨rfl, ?_, hblocks⟩
  have hat : Docs.StatAt _ path none := Docs.value_eq_none_iff.mpr hn
  have hnone := hshows.stats_eq hat
  rw [Catalog.removeFile, Catalog.setStat_self hnone]
  exact hshows

-- A file without a first block has none to remove.
theorem upholds_removeNoContent (hn : docs .blocks path = none) :
    (Content.remove limits path).Upholds maxSize (fun _ => True) (fun _ after => after = docs)
      (fun _ _ => False) docs := by
  unfold Content.remove
  cases limits.maxBlocks with
  | zero => exact rfl
  | succ count =>
    have hkey : Path.blockKey path 0 = path := rfl
    unfold Content.removeFrom
    rw [hkey]
    refine upholds_bind.mpr (upholds_attempt.mpr (upholds_remove trivial (fun hs => ?_)
      fun _ => rfl))
    exact absurd hn hs

section

variable (hv : catalog.Vacant limits path parent leaf)
  (hb : catalog.Begun path parent leaf stat begun) (hd : docs.Shows begun)

include hv hb hd

theorem upholds_refuseDirectory_begun (hfile : stat.isDirectory = false) :
    (refuseDirectory path).Upholds maxSize (fun _ => True) (fun _ after => after = docs)
      (fun _ _ => False) docs := by
  unfold refuseDirectory
  refine upholds_bind.mpr (upholds_attempt.mpr (Metadata.upholds_get trivial hd ?_ fun _ => rfl))
  intro found _ hc _
  rcases hb.stats_self with rfl | hs
  · rw [hv.stat] at hc
    cases hc
  · rw [hs, Option.some_inj] at hc
    refine upholds_check.mpr ?_
    rw [if_pos (by rw [← hc, hfile]; decide)]

theorem upholds_requireDirectory_begun (hdir : stat.isDirectory) :
    (requireDirectory path).Upholds maxSize (fun _ => True) (fun _ after => after = docs)
      (fun error after => error = FsError.notFound ∧ LeavesTree docs catalog after) docs := by
  unfold requireDirectory
  refine upholds_bind.mpr (Metadata.upholds_get trivial hd (fun found _ hc _ => ?_) fun hc => ?_)
  · rcases hb.stats_self with rfl | hs
    · rw [hv.stat] at hc
      cases hc
    · rw [hs, Option.some_inj] at hc
      refine upholds_check.mpr ?_
      rw [← hc, if_pos hdir]
  · rcases hb.stats_self with rfl | hs
    · exact ⟨rfl, hd, .refl⟩
    · rw [hs] at hc
      cases hc

-- A directory that was begun has no children yet, if it has a document at all.
theorem upholds_dropDentry_begun :
    (dropDentry path).Upholds maxSize (fun _ => True)
      (fun _ => LeavesTree docs (begun.setDentry path none)) (fun _ _ => False) docs := by
  have hself : begun.dentries path = none → LeavesTree docs (begun.setDentry path none) docs :=
    fun hn => ⟨by rw [Catalog.setDentry_self hn]; exact hd, .refl⟩
  unfold dropDentry
  refine upholds_bind.mpr (upholds_attempt.mpr (Directory.upholds_get trivial hd ?_ hself))
  intro dentry hc
  rcases hb.dentries_self hv with hnone | ⟨-, hnew⟩
  · rw [hnone] at hc
    cases hc
  · rw [hnew, Option.some_inj] at hc
    subst hc
    have hempty : (Dentry.new path parent).children = [] := rfl
    refine upholds_bind.mpr (upholds_check.mpr ?_)
    rw [if_pos hempty]
    refine upholds_bestEffort.mpr (upholds_remove trivial (fun _ => ?_) fun hn => ?_)
    · exact ⟨trivial, hd.removeDentry, Docs.sameBlocks_set nofun⟩
    · obtain ⟨found, ho, -⟩ := Directory.found_of_value (hd.dentries path) hnew
      rw [hn] at ho
      cases ho

variable (hf : ∀ dentry, catalog.dentries parent = some dentry → dentry.encode.length ≤ maxSize)

include hf

omit hd in
theorem length_removeChild_le (dentry : Dentry) (hc : begun.dentries parent = some dentry) :
    (dentry.removeChild leaf).encode.length ≤ maxSize := by
  have hold := hb.dentries_parent hv
  rw [hc] at hold
  exact hf _ hold.symm

theorem upholds_unlink_begun (hfile : stat.isDirectory = false) (hn : docs .blocks path = none) :
    (unlink limits path).Upholds maxSize (fun _ => True) (fun _ => LeavesTree docs catalog)
      (fun error after => error = FsError.notFound ∧ LeavesTree docs catalog after) docs := by
  have hgone : begun.removeFile path parent leaf = catalog := by
    have hnone := (hb.dentries_self hv).resolve_right fun h => by rw [hfile] at h; cases h.1
    have heq := hb.removeDirectory_eq hv
    rwa [Catalog.removeDirectory, Catalog.setDentry_self hnone] at heq
  unfold unlink
  rw [hv.split, ofExcept_ok_bind]
  refine (upholds_refuseDirectory_begun hv hb hd hfile).bind (fun _ after ha => ?_)
    fun _ _ h => h.elim
  subst ha
  refine upholds_bind.mpr (upholds_bestEffort.mpr ((upholds_removeNoContent hn).mono
    (fun _ mid hmid => ?_) fun _ _ h => h.elim))
  subst hmid
  have hrest := upholds_removeEntry path hd (length_removeChild_le hv hb hf)
  rwa [hgone] at hrest

theorem upholds_rmdir_begun (hdir : stat.isDirectory) :
    (rmdir limits path).Upholds maxSize (fun _ => True) (fun _ => LeavesTree docs catalog)
      (fun error after => error = FsError.notFound ∧ LeavesTree docs catalog after) docs := by
  unfold rmdir
  rw [hv.split, ofExcept_ok_bind]
  refine (upholds_requireDirectory_begun hv hb hd hdir).bind (fun _ after ha => ?_) fun _ _ h => h
  subst ha
  refine (upholds_dropDentry_begun hv hb hd).bind (fun _ mid hmid => ?_) fun _ _ h => h.elim
  obtain ⟨hshows, hblocks⟩ := hmid
  have hne := Path.parent_ne_of_split hv.split
  have hsmall : ∀ dentry, (begun.setDentry path none).dentries parent = some dentry →
      (dentry.removeChild leaf).encode.length ≤ maxSize := by
    intro dentry hc
    rw [Catalog.dentries_setDentry, if_neg hne] at hc
    exact length_removeChild_le hv hb hf dentry hc
  have hrest := upholds_removeEntry path hshows hsmall
  have heq : (begun.setDentry path none).removeFile path parent leaf = catalog :=
    hb.removeDirectory_eq hv
  rw [heq] at hrest
  exact hrest.mono (fun _ _ h => ⟨h.1, hblocks.trans h.2⟩)
    fun _ _ h => ⟨h.1, h.2.1, hblocks.trans h.2.2⟩

end

end Tree

end DocTree
