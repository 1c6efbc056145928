import DocTree.Proofs.Store.Sized
import DocTree.Proofs.Tree.FileCalls

namespace DocTree

open Blocks

-- A record of a kind at a path.
def Docs.HasStat (docs : Docs) (path : String) (kind : StatRecord → Bool) : Prop :=
  ∃ document stat, docs .stats path = some document ∧
    StatRecord.decode document.value = .ok stat ∧ kind stat

-- Nothing is there without the record that it needs: the document of a directory that of its path,
-- a listed name that of the child, and a block that of its file.
structure Docs.StatFirst (docs : Docs) : Prop where
  dentries : ∀ directory, docs .dentries directory ≠ none →
    docs.HasStat directory StatRecord.isDirectory
  children : ∀ directory document, docs .dentries directory = some document →
    ∃ dentry, Dentry.decode document.value = .ok dentry ∧
      ∀ name ∈ dentry.children, docs.HasStat (Path.join directory name) fun _ => true
  blocks : ∀ key, docs .blocks key ≠ none → ∃ path index, Path.NulFree path ∧
    key = Path.blockKey path index ∧ docs.HasStat path StatRecord.isRegularFile

namespace Catalog

-- The key of a block that a regular file can have.
def Owns (catalog : Catalog) (key : String) : Prop :=
  ∃ path index stat, Path.NulFree path ∧ key = Path.blockKey path index ∧
    catalog.stats path = some stat ∧ stat.isRegularFile

-- What stays of a well-formed tree while calls are under way, or after some that ran out of room: a
-- record may lack its document, and its place in the parent, but not the other way round.
structure Grounded (limits : Limits) (maxSize : Nat) (catalog : Catalog) : Prop where
  kinds : ∀ path stat, catalog.stats path = some stat → stat.isRegularFile ∨ stat.isDirectory
  documented : ∀ directory, catalog.dentries directory ≠ none → catalog.HasDirectory directory
  listed : ∀ directory dentry, catalog.dentries directory = some dentry →
    ∀ name ∈ dentry.children,
      Path.split (Path.join directory name) limits.maxKeyLen = .ok (directory, name) ∧
        catalog.stats (Path.join directory name) ≠ none
  fits : ∀ directory dentry, catalog.dentries directory = some dentry →
    dentry.encode.length ≤ maxSize

variable {limits : Limits} {maxSize : Nat} {catalog : Catalog} {path directory key : String}
  {stat : StatRecord} {dentry : Dentry}

namespace Grounded

theorem setStat (h : catalog.Grounded limits maxSize)
    (hk : stat.isRegularFile ∨ stat.isDirectory)
    (hd : catalog.HasDirectory path → stat.isDirectory) :
    (catalog.setStat path (some stat)).Grounded limits maxSize := by
  constructor
  case kinds =>
    intro other found hf
    rw [stats_setStat] at hf
    split at hf
    · exact Option.some_inj.mp hf ▸ hk
    · exact h.kinds other found hf
  case documented =>
    intro other hn
    have ho := h.documented other hn
    unfold HasDirectory
    rw [stats_setStat]
    split
    · next he => exact ⟨stat, rfl, hd (he ▸ ho)⟩
    · exact ho
  case listed =>
    intro other found hf name hm
    obtain ⟨hs, hn⟩ := h.listed other found hf name hm
    refine ⟨hs, ?_⟩
    rw [stats_setStat]
    split
    · exact Option.some_ne_none _
    · exact hn
  case fits => exact h.fits

theorem setDentry (h : catalog.Grounded limits maxSize) (hd : catalog.HasDirectory directory)
    (hl : ∀ name ∈ dentry.children,
      Path.split (Path.join directory name) limits.maxKeyLen = .ok (directory, name) ∧
        catalog.stats (Path.join directory name) ≠ none)
    (hf : dentry.encode.length ≤ maxSize) :
    (catalog.setDentry directory (some dentry)).Grounded limits maxSize := by
  constructor
  case kinds => exact h.kinds
  case documented =>
    intro other hn
    rw [dentries_setDentry] at hn
    split at hn
    · next he => exact he ▸ hd
    · exact h.documented other hn
  case listed =>
    intro other found ho
    rw [dentries_setDentry] at ho
    split at ho
    · next he =>
      obtain rfl := Option.some_inj.mp ho
      subst he
      exact hl
    · exact h.listed other found ho
  case fits =>
    intro other found ho
    rw [dentries_setDentry] at ho
    split at ho
    · exact Option.some_inj.mp ho ▸ hf
    · exact h.fits other found ho

theorem dropDentry (h : catalog.Grounded limits maxSize) :
    (catalog.setDentry directory none).Grounded limits maxSize := by
  have hold : ∀ other found, (catalog.setDentry directory none).dentries other = some found →
      catalog.dentries other = some found := by
    intro other found ho
    rw [dentries_setDentry] at ho
    split at ho
    · cases ho
    · exact ho
  constructor
  case kinds => exact h.kinds
  case documented =>
    intro other hn
    obtain ⟨found, hf⟩ := Option.ne_none_iff_exists'.mp hn
    exact h.documented other (by rw [hold other found hf]; exact Option.some_ne_none _)
  case listed => exact fun other found ho => h.listed other found (hold other found ho)
  case fits => exact fun other found ho => h.fits other found (hold other found ho)

theorem dropStat (h : catalog.Grounded limits maxSize) (hd : catalog.dentries path = none)
    (hl : ∀ directory dentry, catalog.dentries directory = some dentry →
      ∀ name ∈ dentry.children, Path.join directory name ≠ path) :
    (catalog.setStat path none).Grounded limits maxSize := by
  constructor
  case kinds =>
    intro other found hf
    rw [stats_setStat] at hf
    split at hf
    · cases hf
    · exact h.kinds other found hf
  case documented =>
    intro other hn
    have hne : other ≠ path := by
      rintro rfl
      exact hn hd
    unfold HasDirectory
    rw [stats_setStat, if_neg hne]
    exact h.documented other hn
  case listed =>
    intro other found hf name hm
    rw [stats_setStat, if_neg (hl other found hf name hm)]
    exact h.listed other found hf name hm
  case fits => exact h.fits

-- A listed name names its place, so a path is out of every directory once it is out of its parent.
theorem unlisted {parent leaf : String} (h : catalog.Grounded limits maxSize)
    (hs : Path.split path limits.maxKeyLen = .ok (parent, leaf)) :
    ∀ directory dentry, (catalog.modifyDentry parent (·.removeChild leaf)).dentries directory =
      some dentry → ∀ name ∈ dentry.children, Path.join directory name ≠ path := by
  have hplace : ∀ directory dentry, catalog.dentries directory = some dentry →
      ∀ name ∈ dentry.children, Path.join directory name = path →
        directory = parent ∧ name = leaf := by
    intro directory dentry hc name hm hj
    have hsplit := (h.listed directory dentry hc name hm).1
    rw [hj, hs] at hsplit
    obtain ⟨hd, hn⟩ := Prod.mk.inj (Except.ok.inj hsplit)
    exact ⟨hd.symm, hn.symm⟩
  intro directory dentry hc name hm hj
  rw [dentries_modifyDentry] at hc
  split at hc
  · next he =>
    obtain ⟨found, hf, rfl⟩ := Option.map_eq_some_iff.mp hc
    obtain ⟨hm, hne⟩ := List.mem_filter.mp hm
    exact of_decide_eq_true hne (hplace directory found (he ▸ hf) name hm hj).2
  · next he => exact he (hplace directory dentry hc name hm hj).1

end Grounded

theorem Owns.setStat (h : catalog.Owns key)
    (hr : ∀ old, catalog.stats path = some old → old.isRegularFile → stat.isRegularFile) :
    (catalog.setStat path (some stat)).Owns key := by
  obtain ⟨owner, index, old, hn, hk, ho, hreg⟩ := h
  by_cases he : owner = path
  · subst he
    refine ⟨owner, index, stat, hn, hk, ?_, hr old ho hreg⟩
    rw [stats_setStat, if_pos rfl]
  · refine ⟨owner, index, old, hn, hk, ?_, hreg⟩
    rw [stats_setStat, if_neg he]
    exact ho

end Catalog

-- A store whose records and directory documents are those of such a tree, and whose blocks are
-- those of its files.
structure Docs.Grounded (limits : Limits) (maxSize : Nat) (catalog : Catalog) (docs : Docs) :
    Prop where
  shows : docs.Shows catalog
  tree : catalog.Grounded limits maxSize
  owned : ∀ key, docs.value .blocks key ≠ none → catalog.Owns key

-- One in which no call is under way: the blocks of each file are dense.
structure Docs.Settled (limits : Limits) (maxSize : Nat) (catalog : Catalog) (docs : Docs) :
    Prop extends Docs.Grounded limits maxSize catalog docs where
  solid : ∀ path, Path.NulFree path → Solid limits.maxBlocks (docs.blocks path)

namespace Docs

variable {limits : Limits} {maxSize : Nat} {catalog later : Catalog} {docs after : Docs}
  {path directory : String} {stat old : StatRecord} {dentry : Dentry}

theorem Shows.hasStat (h : docs.Shows catalog) {kind : StatRecord → Bool}
    (hs : catalog.stats path = some stat) (hk : kind stat) : docs.HasStat path kind := by
  obtain ⟨document, hd, hv⟩ := Metadata.found_of_value (h.stats path) hs
  exact ⟨document, stat, hd, hv ▸ stat.decode_encode, hk⟩

theorem Shows.exists_stat (h : docs.Shows catalog) {document : Document}
    (hd : docs .stats path = some document) :
    ∃ stat, catalog.stats path = some stat ∧ StatRecord.decode document.value = .ok stat := by
  cases hc : catalog.stats path with
  | none =>
    have hn := Metadata.none_of_value (h.stats path) hc
    rw [hd] at hn
    cases hn
  | some stat =>
    obtain ⟨other, ho, hv⟩ := Metadata.found_of_value (h.stats path) hc
    rw [hd, Option.some_inj] at ho
    exact ⟨stat, rfl, ho ▸ hv ▸ stat.decode_encode⟩

theorem Shows.exists_dentry (h : docs.Shows catalog) {document : Document}
    (hd : docs .dentries directory = some document) :
    ∃ dentry, catalog.dentries directory = some dentry ∧
      Dentry.decode document.value = .ok dentry := by
  cases hc : catalog.dentries directory with
  | none =>
    have hn := Directory.none_of_value (h.dentries directory) hc
    rw [hd] at hn
    cases hn
  | some dentry =>
    obtain ⟨other, ho, hv⟩ := Directory.found_of_value (h.dentries directory) hc
    rw [hd, Option.some_inj] at ho
    exact ⟨dentry, rfl, ho ▸ hv ▸ dentry.decode_encode⟩

theorem Grounded.statFirst (h : docs.Grounded limits maxSize catalog) : docs.StatFirst := by
  constructor
  case dentries =>
    intro directory hn
    obtain ⟨document, hd⟩ := Option.ne_none_iff_exists'.mp hn
    obtain ⟨dentry, hc, -⟩ := h.shows.exists_dentry hd
    obtain ⟨stat, hs, hdir⟩ :=
      h.tree.documented directory (by rw [hc]; exact Option.some_ne_none _)
    exact h.shows.hasStat hs hdir
  case children =>
    intro directory document hd
    obtain ⟨dentry, hc, he⟩ := h.shows.exists_dentry hd
    refine ⟨dentry, he, fun name hm => ?_⟩
    obtain ⟨stat, hs⟩ := Option.ne_none_iff_exists'.mp (h.tree.listed directory dentry hc name hm).2
    exact h.shows.hasStat hs rfl
  case blocks =>
    intro key hk
    obtain ⟨path, index, stat, hn, rfl, hs, hr⟩ :=
      h.owned key fun hv => hk (Docs.value_eq_none_iff.mp hv)
    exact ⟨path, index, hn, rfl, h.shows.hasStat hs hr⟩

theorem Settled.of_sameBlocks (h : docs.Settled limits maxSize catalog) (hb : docs.SameBlocks after)
    (hs : after.Shows later) (ht : later.Grounded limits maxSize)
    (ho : ∀ key, docs.value .blocks key ≠ none → later.Owns key) :
    after.Settled limits maxSize later := by
  refine ⟨⟨hs, ht, fun key hk => ho key (hb key ▸ hk)⟩, fun path hn => ?_⟩
  rw [hb.blocks path]
  exact h.solid path hn

theorem Settled.newStat (h : docs.Settled limits maxSize catalog)
    (ha : docs.Put .stats path stat.encode after) (hn : catalog.stats path = none)
    (hk : stat.isRegularFile ∨ stat.isDirectory) :
    after.Settled limits maxSize (catalog.setStat path (some stat)) := by
  refine h.of_sameBlocks (ha.sameBlocks nofun) (ha.shows_stat h.shows)
    (h.tree.setStat hk fun hd => ?_) fun key hb => (h.owned key hb).setStat fun old ho _ => ?_
  · exact absurd hd (Catalog.not_hasDirectory_of_none hn)
  · rw [hn] at ho
    cases ho

theorem Settled.updateStat (h : docs.Settled limits maxSize catalog) {change : StatChange}
    {now : TimeSpec} (ho : catalog.stats path = some old)
    (ha : docs.Put .stats path (old.apply change now).encode after) :
    after.Settled limits maxSize (catalog.setStat path (some (old.apply change now))) := by
  have hreg := old.isRegularFile_apply change now
  have hdir := old.isDirectory_apply change now
  refine h.of_sameBlocks (ha.sameBlocks nofun) (ha.shows_stat h.shows) (h.tree.setStat ?_ ?_)
    fun key hb => (h.owned key hb).setStat fun found hf hr => ?_
  · rw [hreg, hdir]
    exact h.tree.kinds path old ho
  · intro hd
    obtain ⟨found, hf, hfd⟩ := hd
    rw [ho, Option.some_inj] at hf
    rw [hdir, hf, hfd]
  · rw [ho, Option.some_inj] at hf
    rw [hreg, hf, hr]

theorem Settled.putDentry (h : docs.Settled limits maxSize catalog)
    (ha : docs.Put .dentries directory dentry.encode after)
    (hd : catalog.HasDirectory directory)
    (hl : ∀ name ∈ dentry.children,
      Path.split (Path.join directory name) limits.maxKeyLen = .ok (directory, name) ∧
        catalog.stats (Path.join directory name) ≠ none)
    (hf : dentry.encode.length ≤ maxSize) :
    after.Settled limits maxSize (catalog.setDentry directory (some dentry)) :=
  h.of_sameBlocks (ha.sameBlocks nofun) (ha.shows_dentry h.shows) (h.tree.setDentry hd hl hf)
    h.owned

theorem Settled.dropDentry (h : docs.Settled limits maxSize catalog) :
    (docs.set .dentries directory none).Settled limits maxSize (catalog.setDentry directory none) :=
  h.of_sameBlocks (sameBlocks_set nofun) h.shows.removeDentry h.tree.dropDentry h.owned

theorem Settled.dropStat (h : docs.Settled limits maxSize catalog)
    (hd : catalog.dentries path = none)
    (hl : ∀ directory dentry, catalog.dentries directory = some dentry →
      ∀ name ∈ dentry.children, Path.join directory name ≠ path)
    (hb : ∀ stat, catalog.stats path = some stat → stat.isRegularFile →
      ∀ index, docs.blocks path index = none) :
    (docs.set .stats path none).Settled limits maxSize (catalog.setStat path none) := by
  refine h.of_sameBlocks (sameBlocks_set nofun) h.shows.removeStat (h.tree.dropStat hd hl) ?_
  intro key hk
  obtain ⟨owner, index, stat, hn, rfl, ho, hr⟩ := h.owned key hk
  have hne : owner ≠ path := by
    rintro rfl
    exact hk (hb stat ho hr index)
  refine ⟨owner, index, stat, hn, rfl, ?_, hr⟩
  rw [Catalog.stats_setStat, if_neg hne]
  exact ho

-- A block is only made where there is a file for it.
theorem Grounded.answerWithin {version : UInt64} {collection : Collection} {request : Request}
    (h : docs.Grounded limits maxSize catalog) (hc : collection = .blocks)
    (hm : ∀ key value, request = .insert key value → catalog.Owns key) :
    (docs.answerWithin maxSize version collection request).2.Grounded limits maxSize catalog := by
  have hsame : ∀ other, other ≠ .blocks → ∀ key,
      (docs.answerWithin maxSize version collection request).2.value other key =
        docs.value other key := by
    intro other ho key
    unfold value
    rw [answerWithin_of_ne fun he => ho (he.1.trans hc)]
  constructor
  case shows => exact h.shows.of_value (hsame .stats nofun) (hsame .dentries nofun)
  case tree => exact h.tree
  case owned =>
    intro key hk
    by_cases hold : docs .blocks key = none
    · obtain ⟨-, value, hr⟩ := eq_insert_of_made hold fun hn => hk (value_eq_none_iff.mpr hn)
      exact hm key value hr
    · exact h.owned key fun hn => hold (value_eq_none_iff.mp hn)

theorem SameOthers.answerWithin {version : UInt64} {collection : Collection} {request : Request}
    (h : docs.SameOthers path after) (hr : Content.OnBlocks path collection request) :
    docs.SameOthers path (after.answerWithin maxSize version collection request).2 := by
  intro key hk
  obtain ⟨-, index, hi⟩ := hr
  unfold value
  rw [answerWithin_of_ne fun he => hk index (he.2.trans hi)]
  exact h key hk

-- Only the blocks of one file were not dense, and now they are.
theorem Grounded.settled (h : after.Grounded limits maxSize catalog)
    (hd : docs.Settled limits maxSize catalog) (hp : Path.NulFree path)
    (ho : docs.SameOthers path after) (hs : Solid limits.maxBlocks (after.blocks path)) :
    after.Settled limits maxSize catalog := by
  refine ⟨h, fun other hn => ?_⟩
  by_cases he : other = path
  · exact he ▸ hs
  · rw [ho.blocks hp hn he]
    exact hd.solid other hn

end Docs

end DocTree
