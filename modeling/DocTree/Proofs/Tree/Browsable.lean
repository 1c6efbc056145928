import DocTree.Proofs.Tree.Orderly
import DocTree.Proofs.Tree.Revises
import Mathlib.Data.List.Nodup

namespace DocTree

open Call

-- A store with room for the document of every empty directory.
def Limits.HasRoom (limits : Limits) (maxSize : Nat) : Prop :=
  ∀ directory parent : String, directory.utf8ByteSize ≤ limits.maxKeyLen →
    parent.utf8ByteSize ≤ limits.maxKeyLen → (Dentry.new directory parent).encode.length ≤ maxSize

-- The two paths in such a document are at most six times as long as they are.
theorem Limits.hasRoom {limits : Limits} {maxSize : Nat}
    (h : 12 * limits.maxKeyLen + 25 ≤ maxSize) : limits.HasRoom maxSize := by
  intro directory parent hd hp
  have hdirectory := Dentry.length_quote_le directory
  have hparent := Dentry.length_quote_le parent
  rw [Dentry.length_encode_new]
  omega

namespace Catalog

-- With room for it, only a directory that is `lacking` has no document.
structure Browsable (limits : Limits) (maxSize : Nat) (lacking : String → Prop)
    (catalog : Catalog) : Prop extends Catalog.Grounded limits maxSize catalog where
  short : ∀ path, catalog.stats path ≠ none → path.utf8ByteSize ≤ limits.maxKeyLen
  distinct : ∀ directory dentry, catalog.dentries directory = some dentry → dentry.children.Nodup
  complete : limits.HasRoom maxSize → ∀ path, catalog.HasDirectory path →
    catalog.dentries path = none → lacking path

variable {limits : Limits} {maxSize : Nat} {lacking still : String → Prop} {catalog : Catalog}
  {path directory : String} {stat : StatRecord} {dentry : Dentry}

namespace Browsable

variable (h : catalog.Browsable limits maxSize lacking)

include h

theorem mono (hs : limits.HasRoom maxSize → ∀ path, catalog.HasDirectory path →
      catalog.dentries path = none → lacking path → still path) :
    catalog.Browsable limits maxSize still :=
  ⟨h.toGrounded, h.short, h.distinct, fun hr path hd hn =>
    hs hr path hd hn (h.complete hr path hd hn)⟩

theorem setStat (hk : stat.isRegularFile ∨ stat.isDirectory)
    (hd : catalog.HasDirectory path → stat.isDirectory)
    (hl : path.utf8ByteSize ≤ limits.maxKeyLen)
    (hs : stat.isDirectory → catalog.HasDirectory path ∨ lacking path) :
    (catalog.setStat path (some stat)).Browsable limits maxSize lacking := by
  refine ⟨h.toGrounded.setStat hk hd, fun other hn => ?_, h.distinct, fun hr other ho hn => ?_⟩
  · rw [stats_setStat] at hn
    split at hn
    · next he => exact he ▸ hl
    · exact h.short other hn
  · by_cases he : other = path
    · subst he
      obtain ⟨found, hf, hfd⟩ := ho
      rw [stats_setStat, if_pos rfl, Option.some_inj] at hf
      rcases hs (hf ▸ hfd) with hold | hlack
      · exact h.complete hr other hold hn
      · exact hlack
    · unfold HasDirectory at ho
      rw [stats_setStat, if_neg he] at ho
      exact h.complete hr other ho hn

theorem setDentry (hd : catalog.HasDirectory directory)
    (hl : ∀ name ∈ dentry.children,
      Path.split (Path.join directory name) limits.maxKeyLen = .ok (directory, name) ∧
        catalog.stats (Path.join directory name) ≠ none)
    (hf : dentry.encode.length ≤ maxSize) (hn : dentry.children.Nodup)
    (hs : ∀ other, other ≠ directory → lacking other → still other) :
    (catalog.setDentry directory (some dentry)).Browsable limits maxSize still := by
  refine ⟨h.toGrounded.setDentry hd hl hf, h.short, fun other found ho => ?_,
    fun hr other ho hnone => ?_⟩
  · rw [dentries_setDentry] at ho
    split at ho
    · exact Option.some_inj.mp ho ▸ hn
    · exact h.distinct other found ho
  · rw [dentries_setDentry] at hnone
    split at hnone
    · cases hnone
    · next he => exact hs other he (h.complete hr other ho hnone)

theorem dropDentry (hs : ∀ other, other = directory ∨ lacking other → still other) :
    (catalog.setDentry directory none).Browsable limits maxSize still := by
  refine ⟨h.toGrounded.dropDentry, h.short, fun other found ho => ?_, fun hr other ho hnone => ?_⟩
  · rw [dentries_setDentry] at ho
    split at ho
    · cases ho
    · exact h.distinct other found ho
  · rw [dentries_setDentry] at hnone
    split at hnone
    · next he => exact hs other (.inl he)
    · exact hs other (.inr (h.complete hr other ho hnone))

theorem dropStat (hd : catalog.dentries path = none)
    (hl : ∀ directory dentry, catalog.dentries directory = some dentry →
      ∀ name ∈ dentry.children, Path.join directory name ≠ path)
    (hs : ∀ other, other ≠ path → lacking other → still other) :
    (catalog.setStat path none).Browsable limits maxSize still := by
  refine ⟨h.toGrounded.dropStat hd hl, fun other hn => ?_, h.distinct, fun hr other ho hnone => ?_⟩
  · rw [stats_setStat] at hn
    split at hn
    · exact absurd rfl hn
    · exact h.short other hn
  · obtain ⟨found, hf, hk⟩ := ho
    rw [stats_setStat] at hf
    split at hf
    · cases hf
    · next he => exact hs other he (h.complete hr other ⟨found, hf, hk⟩ hnone)

end Browsable

end Catalog

structure Docs.Browses (limits : Limits) (maxSize : Nat) (lacking : String → Prop)
    (catalog : Catalog) (docs : Docs) : Prop where
  shows : docs.Shows catalog
  tree : catalog.Browsable limits maxSize lacking

def Docs.Browsable (limits : Limits) (maxSize : Nat) (docs : Docs) : Prop :=
  ∃ catalog, docs.Browses limits maxSize (fun _ => False) catalog

-- A call that leaves a browsable store browsable, whether or not it succeeds.
def Call.KeepsBrowsable {α : Type} (limits : Limits) (maxSize : Nat) (call : Call α) : Prop :=
  ∀ docs : Docs, docs.Browsable limits maxSize → call.Upholds maxSize (fun _ => True)
    (fun _ after => after.Browsable limits maxSize)
    (fun _ after => after.Browsable limits maxSize) docs

namespace Call.KeepsBrowsable

variable {α β : Type} {limits : Limits} {maxSize : Nat} {call : Call α} {next : α → Call β}

theorem bind (h : call.KeepsBrowsable limits maxSize)
    (hn : ∀ value, (next value).KeepsBrowsable limits maxSize) :
    (call >>= next).KeepsBrowsable limits maxSize :=
  fun docs hd => (h docs hd).bind (fun value after ha => hn value after ha) fun _ _ ha => ha

theorem of_map {f : α → β} (h : (f <$> call).KeepsBrowsable limits maxSize) :
    call.KeepsBrowsable limits maxSize :=
  fun docs hd => upholds_map.mp (h docs hd)

end Call.KeepsBrowsable

variable {limits : Limits} {maxSize : Nat} {lacking : String → Prop} {catalog : Catalog}
  {docs after : Docs} {path parent leaf : String} {now : Readings}

theorem Docs.Browses.browsable (h : docs.Browses limits maxSize (fun _ => False) catalog) :
    docs.Browsable limits maxSize := ⟨catalog, h⟩

theorem Docs.Browses.mono {still : String → Prop} (h : docs.Browses limits maxSize lacking catalog)
    (hs : ∀ path, lacking path → still path) : docs.Browses limits maxSize still catalog :=
  ⟨h.shows, h.tree.mono fun _ path _ _ => hs path⟩

theorem Docs.Browses.newStat {stat : StatRecord} (h : docs.Browses limits maxSize lacking catalog)
    (ha : docs.Put .stats path stat.encode after) (hn : catalog.stats path = none)
    (hk : stat.isRegularFile ∨ stat.isDirectory) (hl : path.utf8ByteSize ≤ limits.maxKeyLen)
    (hs : stat.isDirectory → lacking path) :
    after.Browses limits maxSize lacking (catalog.setStat path (some stat)) :=
  ⟨ha.shows_stat h.shows, h.tree.setStat hk
    (fun hd => absurd hd (Catalog.not_hasDirectory_of_none hn)) hl fun hd => .inr (hs hd)⟩

theorem Image.browsable_new (limits : Limits) (maxSize : Nat) (scope : String) (header : Header) :
    ((Image.new header).docs scope).Browsable limits maxSize := by
  have hground : Catalog.empty.Grounded limits maxSize := by constructor <;> exact nofun
  refine ⟨Catalog.empty, ⟨Image.value_new _, Image.value_new _⟩, hground,
    fun _ hn => absurd rfl hn, nofun, fun _ path hd => ?_⟩
  obtain ⟨stat, hs, -⟩ := hd
  cases hs

theorem Metadata.keepsBrowsable_update {change : StatChange} :
    (update path change now).KeepsBrowsable limits maxSize := by
  rintro docs ⟨catalog, hd, h⟩
  refine upholds_update trivial hd (fun stat after hc ha => ⟨trivial, ?_⟩) fun _ => ⟨catalog, hd, h⟩
  have hreg := stat.isRegularFile_apply change (now 0)
  have hdir := stat.isDirectory_apply change (now 0)
  have hsame : catalog.HasDirectory path ↔ stat.isDirectory :=
    ⟨fun ⟨found, hf, hk⟩ => by rw [hc, Option.some_inj] at hf; exact hf ▸ hk,
      fun hk => ⟨stat, hc, hk⟩⟩
  refine ⟨_, ha.shows_stat hd, h.setStat ?_ (fun hk => ?_) ?_ fun hk => .inl ?_⟩
  · rw [hreg, hdir]
    exact h.kinds path stat hc
  · rw [hdir]
    exact hsame.mp hk
  · exact h.short path (by rw [hc]; exact Option.some_ne_none _)
  · exact hsame.mpr (by rwa [hdir] at hk)

-- Blocks are no part of the tree.
theorem Call.Only.upholds_browses {α : Type} {call : Call α} (ho : call.Only Aside)
    (h : docs.Browses limits maxSize lacking catalog) :
    call.Upholds maxSize (fun _ => True)
      (fun _ after => after.Browses limits maxSize lacking catalog)
      (fun _ after => after.Browses limits maxSize lacking catalog) docs := by
  refine (ho.upholds (fun found version collection request hr hf => ⟨?_, hf.tree⟩) h).mono_inv
    fun _ _ => trivial
  rcases hr with rfl | hget
  · have hsame : ∀ other, other ≠ .blocks → ∀ key,
        (found.answerWithin maxSize version .blocks request).2.value other key =
          found.value other key := by
      intro other ho key
      unfold Docs.value
      rw [Docs.answerWithin_of_ne fun he => ho he.1]
    exact hf.shows.of_value (hsame .stats nofun) (hsame .dentries nofun)
  · rw [Docs.answerWithin_eq_self (.inr hget)]
    exact hf.shows

theorem Call.Only.keepsBrowsable {α : Type} {call : Call α} (ho : call.Only Aside) :
    call.KeepsBrowsable limits maxSize := by
  rintro docs ⟨catalog, h⟩
  exact (ho.upholds_browses h).mono (fun _ _ ha => ha.browsable) fun _ _ ha => ha.browsable

theorem Call.Revises.keepsBrowsable {α : Type} {call : Call α} (h : call.Revises limits now) :
    call.KeepsBrowsable limits maxSize := by
  induction h with
  | aside ho => exact ho.keepsBrowsable
  | update path hc => exact Metadata.keepsBrowsable_update
  | bind _ _ ih ihn => exact ih.bind ihn
  | check _ ih =>
    intro docs hd
    refine upholds_bind.mpr (upholds_check.mpr ?_)
    split
    · next hp => exact ih hp docs hd
    · exact hd

namespace Tree

section

variable (h : docs.Browses limits maxSize lacking catalog)

include h

theorem upholds_listChild_browses (hs : Path.split path limits.maxKeyLen = .ok (parent, leaf))
    (hp : catalog.stats path ≠ none) (hn : ∀ path, ¬lacking path) :
    (listChild parent leaf).Upholds maxSize (fun _ => True)
      (fun _ after => after.Browsable limits maxSize)
      (fun _ after => after.Browsable limits maxSize) docs := by
  have hself : docs.Browsable limits maxSize := (h.mono fun path hl => hn path hl).browsable
  unfold listChild
  refine upholds_bind.mpr (Directory.upholds_get trivial h.shows (fun dentry hc => ?_)
    fun _ => hself)
  split
  · exact hself
  next hnew =>
  refine upholds_bind.mpr (Directory.upholds_modify trivial h.shows (fun found after hf hl ha => ?_)
    (fun _ => hself) fun _ _ _ => hself)
  rw [hc, Option.some_inj] at hf
  subst hf
  have hdir := h.tree.documented parent (by rw [hc]; exact Option.some_ne_none _)
  refine ⟨trivial, _, ha.shows_dentry h.shows,
    h.tree.setDentry hdir (fun name hm => ?_) hl ?_ fun path _ hl => hn path hl⟩
  · rcases List.mem_append.mp hm with hm | hm
    · exact h.tree.listed parent dentry hc name hm
    · obtain rfl := List.mem_singleton.mp hm
      rw [Path.join_of_split hs]
      exact ⟨hs, hp⟩
  · have hnot : leaf ∉ dentry.children := fun hm => hnew (List.contains_iff_mem.mpr hm)
    exact List.Nodup.append (h.tree.distinct parent dentry hc) (List.nodup_singleton leaf)
      (List.disjoint_singleton.mpr hnot)

-- A directory whose record is there gets its document, unless there is no room for any.
theorem upholds_createDentry_browses {directory : String} (hd : catalog.HasDirectory directory)
    (hp : parent.utf8ByteSize ≤ limits.maxKeyLen) (hn : ∀ path, lacking path → path = directory) :
    (Directory.create directory parent).Upholds maxSize (fun _ => True)
      (fun _ after => after.Browses limits maxSize (fun _ => False)
        (catalog.setDentry directory (some (Dentry.new directory parent))))
      (fun _ after => after.Browsable limits maxSize) docs := by
  obtain ⟨stat, hs, -⟩ := id hd
  have hshort := h.tree.short directory (by rw [hs]; exact Option.some_ne_none _)
  unfold Directory.create
  refine upholds_bind.mpr (Call.upholds_insert trivial (fun _ hl _ after ha => ⟨trivial, ?_⟩)
    (fun hk _ => ⟨catalog, h.shows, h.tree.mono fun _ path _ hnone hl => ?_⟩)
    fun hl => ⟨catalog, h.shows, h.tree.mono fun hr _ _ _ _ => ?_⟩)
  · exact ⟨ha.shows_dentry h.shows,
      h.tree.setDentry hd nofun hl List.nodup_nil fun path he hl => he (hn path hl)⟩
  · obtain rfl := hn path hl
    exact hk (Directory.none_of_value (h.shows.dentries path) hnone)
  · exact absurd (hr directory parent hshort hp) (Nat.not_le.mpr hl)

end

theorem keepsBrowsable_create {mode : UInt32} {now : TimeSpec} :
    (create limits path mode now).KeepsBrowsable limits maxSize := by
  intro docs hd
  obtain ⟨catalog, h⟩ := id hd
  unfold create
  cases hs : Path.split path limits.maxKeyLen with
  | error error => exact hd
  | ok parts =>
  obtain ⟨parent, leaf⟩ := parts
  rw [ofExcept_ok_bind]
  refine upholds_bind.mpr (upholds_check.mpr ?_)
  split
  swap
  · exact hd
  next hm =>
  refine (upholds_requireDirectory trivial h.shows fun _ => hd).bind (fun _ after hpost => ?_)
    fun _ _ he => he
  obtain ⟨rfl, -⟩ := hpost
  refine upholds_bind.mpr (Metadata.upholds_insert trivial (fun hz mid ha => ⟨trivial, ?_⟩)
    fun _ => hd)
  have hk : (StatRecord.new mode now).isRegularFile := decide_eq_true (Mode.kind_regularFile hm)
  have hmid := h.newStat ha (h.shows.stats_eq (Docs.value_eq_none_iff.mpr hz)) (.inl hk)
    (Path.split_eq_ok hs).1 fun hdir => ?_
  · refine (upholds_listChild_browses hmid hs ?_ fun _ => id).bind (fun _ _ he => he)
      fun _ _ he => he
    rw [Catalog.stats_setStat, if_pos rfl]
    exact Option.some_ne_none _
  · rw [StatRecord.not_isRegularFile_of_isDirectory hdir] at hk
    cases hk

theorem keepsBrowsable_mkdir {mode : UInt32} {now : TimeSpec} :
    (mkdir limits path mode now).KeepsBrowsable limits maxSize := by
  intro docs hd
  obtain ⟨catalog, h⟩ := id hd
  unfold mkdir
  cases hs : Path.split path limits.maxKeyLen with
  | error error => exact hd
  | ok parts =>
  obtain ⟨parent, leaf⟩ := parts
  rw [ofExcept_ok_bind]
  refine (upholds_requireDirectory trivial h.shows fun _ => hd).bind (fun _ after hpost => ?_)
    fun _ _ he => he
  obtain ⟨rfl, found, hf, -⟩ := hpost
  have hparent := h.tree.short parent (by rw [hf]; exact Option.some_ne_none _)
  refine upholds_bind.mpr (Metadata.upholds_insert trivial (fun hz mid ha => ⟨trivial, ?_⟩)
    fun _ => hd)
  have hk : (StatRecord.new (Mode.directory ||| Mode.permissions mode) now).isDirectory :=
    decide_eq_true (Mode.kind_directory_or mode)
  -- Until its document is there, the new directory is the one that lacks it.
  have hlacking : after.Browses limits maxSize (· = path) catalog := h.mono fun _ => False.elim
  have hmid := hlacking.newStat ha (h.shows.stats_eq (Docs.value_eq_none_iff.mpr hz)) (.inr hk)
    (Path.split_eq_ok hs).1 fun _ => rfl
  have hstat : (catalog.setStat path (some (StatRecord.new
      (Mode.directory ||| Mode.permissions mode) now))).stats path =
      some (StatRecord.new (Mode.directory ||| Mode.permissions mode) now) := by
    rw [Catalog.stats_setStat, if_pos rfl]
  refine (upholds_createDentry_browses hmid ⟨_, hstat, hk⟩ hparent fun _ => id).bind
    (fun _ last hlast => ?_) fun _ _ he => he
  refine (upholds_listChild_browses hlast hs ?_ fun _ => id).bind (fun _ _ he => he)
    fun _ _ he => he
  rw [Catalog.stats_setDentry, hstat]
  exact Option.some_ne_none _

theorem keepsBrowsable_bootstrap {now : TimeSpec} (hv : limits.Valid) :
    (bootstrap now).KeepsBrowsable limits maxSize := by
  intro docs hd
  obtain ⟨catalog, h⟩ := id hd
  have hroot : Path.root.utf8ByteSize ≤ limits.maxKeyLen := hv.maxKeyLen_pos
  have hdentry : ∀ {docs catalog}, Docs.Browses limits maxSize (· = Path.root) catalog docs →
      catalog.HasDirectory Path.root → ensureRootDentry.Upholds maxSize (fun _ => True)
        (fun _ after => after.Browsable limits maxSize)
        (fun _ after => after.Browsable limits maxSize) docs := by
    intro docs catalog h hd
    refine upholds_bind.mpr (upholds_attempt.mpr
      ((upholds_createDentry_browses h hd hroot fun _ => id).mono ?_ ?_))
    · exact fun _ _ hpost => hpost.browsable
    · intro error after ha
      refine upholds_check.mpr ?_
      split <;> exact ha
  have hlacking : docs.Browses limits maxSize (· = Path.root) catalog := h.mono fun _ => False.elim
  have hkind := Catalog.isDirectory_root now
  unfold bootstrap ensureRootStat
  refine upholds_bind.mpr (upholds_bind.mpr (upholds_attempt.mpr
    (Metadata.upholds_get trivial h.shows ?_ fun hn => ?_)))
  · intro stat _ hc _
    rw [upholds_check]
    split
    · next hdir => exact hdentry hlacking ⟨stat, hc, hdir⟩
    · exact hd
  · refine upholds_bind.mpr (Metadata.upholds_insert trivial (fun _ after ha => ⟨trivial, ?_⟩)
      fun _ => hd)
    refine hdentry (hlacking.newStat ha hn (.inr hkind) hroot fun _ => rfl) ⟨_, ?_, hkind⟩
    rw [Catalog.stats_setStat, if_pos rfl]

-- The name goes from the list of the parent, and then the record.
theorem upholds_removeRecord_browses (h : docs.Browses limits maxSize lacking catalog)
    (hs : Path.split path limits.maxKeyLen = .ok (parent, leaf))
    (hd : catalog.dentries path = none) (hn : ∀ other, lacking other → other = path) :
    (do bestEffort (Directory.removeChild parent leaf)
        Metadata.remove path).Upholds maxSize (fun _ => True)
      (fun _ after => after.Browsable limits maxSize)
      (fun _ after => after.Browsable limits maxSize) docs := by
  have hunlisted : (bestEffort (Directory.removeChild parent leaf)).Upholds maxSize (fun _ => True)
      (fun _ after => after.Browses limits maxSize lacking
        (catalog.modifyDentry parent (·.removeChild leaf))) (fun _ _ => False) docs := by
    unfold Catalog.modifyDentry
    refine upholds_bestEffort.mpr (Directory.upholds_modify trivial h.shows ?_ ?_ ?_)
    · intro dentry after hc hl ha
      have hdir := h.tree.documented parent (by rw [hc]; exact Option.some_ne_none _)
      rw [hc]
      refine ⟨trivial, ha.shows_dentry h.shows,
        h.tree.setDentry hdir (fun name hm => ?_) hl ?_ fun _ _ => id⟩
      · exact h.tree.listed parent dentry hc name (List.mem_of_mem_filter hm)
      · exact (h.tree.distinct parent dentry hc).filter _
    · intro hnone
      rw [hnone, Option.map_none, Catalog.setDentry_self hnone]
      exact h
    · intro dentry hc hl
      -- A shorter list always has room.
      have hle := dentry.length_encode_removeChild_le leaf
      have hfits := h.tree.fits parent dentry hc
      omega
  refine hunlisted.bind (fun _ mid hmid => ?_) fun _ _ he => he.elim
  refine upholds_remove trivial (fun _ => ⟨trivial, _, hmid.shows.removeStat, ?_⟩) fun hk => ?_
  · refine hmid.tree.dropStat ?_ (h.tree.unlisted hs) fun other he hl => he (hn other hl)
    rw [Catalog.dentries_modifyDentry, if_neg (Path.parent_ne_of_split hs).symm]
    exact hd
  · refine ⟨_, hmid.shows, hmid.tree.mono fun _ other ho _ hl => ?_⟩
    obtain ⟨stat, hstat, -⟩ := ho
    have hat : mid.StatAt path none := Docs.value_eq_none_iff.mpr hk
    rw [hn other hl, hmid.shows.stats_eq hat] at hstat
    cases hstat

theorem keepsBrowsable_unlink : (unlink limits path).KeepsBrowsable limits maxSize := by
  intro docs hd
  obtain ⟨catalog, h⟩ := id hd
  unfold unlink
  cases hs : Path.split path limits.maxKeyLen with
  | error error => exact hd
  | ok parts =>
  obtain ⟨parent, leaf⟩ := parts
  rw [ofExcept_ok_bind]
  refine (upholds_refuseDirectory trivial h.shows fun _ => hd).bind (fun _ after hpost => ?_)
    fun _ _ he => he
  obtain ⟨rfl, hdir⟩ := hpost
  have hremove :=
    (Content.only_removeRest (permits_aside path limits.maxBlocks) 0).upholds_browses h
  refine upholds_bind.mpr (upholds_bestEffort.mpr (hremove.mono (fun _ mid hmid => ?_)
    fun _ mid hmid => ?_))
  all_goals
    refine upholds_removeRecord_browses hmid hs ?_ fun _ => False.elim
    by_contra hn
    exact hdir (hmid.tree.documented path hn)

theorem keepsBrowsable_rmdir : (rmdir limits path).KeepsBrowsable limits maxSize := by
  intro docs hd
  obtain ⟨catalog, h⟩ := id hd
  unfold rmdir
  cases hs : Path.split path limits.maxKeyLen with
  | error error => exact hd
  | ok parts =>
  obtain ⟨parent, leaf⟩ := parts
  rw [ofExcept_ok_bind]
  refine (upholds_requireDirectory trivial h.shows fun _ => hd).bind (fun _ after hpost => ?_)
    fun _ _ he => he
  obtain ⟨rfl, -⟩ := hpost
  have hdrop : (dropDentry path).Upholds maxSize (fun _ => True)
      (fun _ mid => mid.Browses limits maxSize (· = path) (catalog.setDentry path none))
      (fun _ mid => mid.Browsable limits maxSize) after := by
    unfold dropDentry
    refine upholds_bind.mpr (upholds_attempt.mpr (Directory.upholds_get trivial h.shows ?_ ?_))
    · intro dentry hc
      refine upholds_bind.mpr (upholds_check.mpr ?_)
      split
      · refine upholds_bestEffort.mpr (upholds_remove trivial (fun _ => ⟨trivial, ?_⟩) fun hn => ?_)
        · exact ⟨h.shows.removeDentry, h.tree.dropDentry fun _ ho => ho.resolve_right id⟩
        · obtain ⟨found, hf, -⟩ := Directory.found_of_value (h.shows.dentries path) hc
          rw [hn] at hf
          cases hf
      · exact hd
    · intro hn
      rw [Catalog.setDentry_self hn]
      exact h.mono fun _ => False.elim
  refine hdrop.bind (fun _ mid hmid => ?_) fun _ _ he => he
  refine upholds_removeRecord_browses hmid hs ?_ fun _ => id
  rw [Catalog.dentries_setDentry, if_pos rfl]

end Tree

open DocTree.Tree in
theorem Operation.keepsBrowsable (hv : limits.Valid) (operation : Operation)
    (ht : operation.Timely) : (operation.call limits now).KeepsBrowsable limits maxSize := by
  have hrevises : operation.Revising → (operation.call limits now).KeepsBrowsable limits maxSize :=
    fun hr => (operation.revises hv hr ht).keepsBrowsable
  cases operation with
  | bootstrap => exact (keepsBrowsable_bootstrap hv).bind fun _ _ hd => hd
  | create path mode => exact keepsBrowsable_create.bind fun _ _ hd => hd
  | mkdir path mode => exact keepsBrowsable_mkdir.bind fun _ _ hd => hd
  | unlink path => exact keepsBrowsable_unlink.bind fun _ _ hd => hd
  | rmdir path => exact keepsBrowsable_rmdir.bind fun _ _ hd => hd
  | _ => exact hrevises trivial

end DocTree
