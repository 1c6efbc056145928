import DocTree.Proofs.Call.Only
import DocTree.Proofs.Content.Solid
import DocTree.Proofs.Tree.Files
import DocTree.Proofs.Tree.Grounded

namespace DocTree

open Call Content Blocks

variable {limits : Limits} {maxSize : Nat} {inv : Docs → Prop} {err : FsError → Docs → Prop}
  {catalog : Catalog} {docs : Docs} {path directory : String} {now : Readings}

namespace Metadata

-- Whatever the documents are.
theorem upholds_find {post : StatRecord × UInt64 → Docs → Prop} (hi : inv docs)
    (hs : ∀ stat found, docs .stats path = some found → StatRecord.decode found.value = .ok stat →
      post (stat, found.version) docs)
    (hn : docs .stats path = none → err .notFound docs)
    (he : ∀ found error, docs .stats path = some found →
      StatRecord.decode found.value = .error error → err error docs) :
    (get path).Upholds maxSize inv post err docs := by
  unfold get
  refine upholds_bind.mpr (Call.upholds_get hi (fun found hk => ?_) hn)
  dsimp only
  cases hd : StatRecord.decode found.value with
  | ok stat => exact hs stat found hk hd
  | error error => exact he found error hk hd

theorem upholds_get {post : StatRecord × UInt64 → Docs → Prop} (hi : inv docs)
    (hd : docs.Shows catalog)
    (hs : ∀ stat found, catalog.stats path = some stat → docs .stats path = some found →
      post (stat, found.version) docs)
    (hn : catalog.stats path = none → err .notFound docs) :
    (get path).Upholds maxSize inv post err docs := by
  refine upholds_find hi (fun stat found hk he => ?_)
    (fun hk => hn (hd.stats_eq (Docs.value_eq_none_iff.mpr hk))) fun found error hk he => ?_
  · obtain ⟨other, hc, ho⟩ := hd.exists_stat hk
    rw [he] at ho
    cases ho
    exact hs stat found hc hk
  · obtain ⟨other, hc, ho⟩ := hd.exists_stat hk
    rw [he] at ho
    cases ho

theorem upholds_insert {post : StatRecord → Docs → Prop} {mode : UInt32} {now : TimeSpec}
    (hi : inv docs)
    (hs : docs .stats path = none → ∀ after,
      docs.Put .stats path (StatRecord.new mode now).encode after →
      inv after ∧ post (StatRecord.new mode now) after)
    (he : ∀ error, err error docs) :
    (insert path mode now).Upholds maxSize inv post err docs := by
  unfold insert
  refine upholds_bind.mpr (Call.upholds_insert hi ?_ (fun _ _ => he _) fun _ => he _)
  exact fun hn _ _ after ha => hs hn after ha

theorem upholds_change {post : StatRecord → Docs → Prop} {change : StatChange} (hi : inv docs)
    (hs : ∀ stat found after, docs .stats path = some found →
      StatRecord.decode found.value = .ok stat →
      docs.Put .stats path (stat.apply change (now 0)).encode after →
      inv after ∧ post (stat.apply change (now 0)) after)
    (he : ∀ error, err error docs) :
    (update path change now).Upholds maxSize inv post err docs := by
  unfold update
  apply upholds_retry
  unfold updateOnce
  refine upholds_bind.mpr (upholds_find hi ?_ (fun _ => he _) fun _ _ _ _ => he _)
  intro stat found hk hd
  refine upholds_bind.mpr (upholds_stored (upholds_replace hk hi ?_ fun _ => he _))
  intro _ version after ha
  obtain ⟨hi', hp⟩ := hs stat found after hk hd ha
  exact ⟨hi', _, rfl, hp⟩

theorem upholds_update {post : StatRecord → Docs → Prop} {change : StatChange} (hi : inv docs)
    (hd : docs.Shows catalog)
    (hs : ∀ stat after, catalog.stats path = some stat →
      docs.Put .stats path (stat.apply change (now 0)).encode after →
      inv after ∧ post (stat.apply change (now 0)) after)
    (he : ∀ error, err error docs) :
    (update path change now).Upholds maxSize inv post err docs := by
  refine upholds_change hi (fun stat found after hk hv ha => ?_) he
  obtain ⟨other, hc, ho⟩ := hd.exists_stat hk
  rw [hv] at ho
  cases ho
  exact hs stat after hc ha

end Metadata

namespace Directory

theorem upholds_getVersioned {post : Dentry × UInt64 → Docs → Prop} (hi : inv docs)
    (hd : docs.Shows catalog)
    (hs : ∀ dentry found, catalog.dentries directory = some dentry →
      docs .dentries directory = some found → post (dentry, found.version) docs)
    (hn : catalog.dentries directory = none → err .notFound docs) :
    (getVersioned directory).Upholds maxSize inv post err docs := by
  unfold getVersioned
  refine upholds_bind.mpr (Call.upholds_get hi ?_ ?_)
  · intro found hk
    obtain ⟨dentry, hc, he⟩ := hd.exists_dentry hk
    rw [he, ofExcept_ok_bind]
    exact hs dentry found hc hk
  · intro hk
    cases hc : catalog.dentries directory with
    | none => exact hn hc
    | some dentry =>
      obtain ⟨other, ho, -⟩ := found_of_value (hd.dentries directory) hc
      rw [hk] at ho
      cases ho

theorem upholds_get {post : Dentry → Docs → Prop} (hi : inv docs) (hd : docs.Shows catalog)
    (hs : ∀ dentry, catalog.dentries directory = some dentry → post dentry docs)
    (hn : catalog.dentries directory = none → err .notFound docs) :
    (get directory).Upholds maxSize inv post err docs := by
  unfold get
  refine upholds_bind.mpr (upholds_getVersioned hi hd ?_ hn)
  exact fun dentry _ hc _ => hs dentry hc

theorem upholds_create {post : Dentry → Docs → Prop} {parent : String} (hi : inv docs)
    (hs : (Dentry.new directory parent).encode.length ≤ maxSize → ∀ after,
      docs.Put .dentries directory (Dentry.new directory parent).encode after →
      inv after ∧ post (Dentry.new directory parent) after)
    (he : ∀ error, err error docs) :
    (create directory parent).Upholds maxSize inv post err docs := by
  unfold create
  refine upholds_bind.mpr (Call.upholds_insert hi ?_ (fun _ _ => he _) fun _ => he _)
  exact fun _ hl _ after ha => hs hl after ha

theorem upholds_modify {post : Dentry → Docs → Prop} {change : Dentry → Dentry} (hi : inv docs)
    (hd : docs.Shows catalog)
    (hs : ∀ dentry after, catalog.dentries directory = some dentry →
      (change dentry).encode.length ≤ maxSize →
      docs.Put .dentries directory (change dentry).encode after →
      inv after ∧ post (change dentry) after)
    (hn : catalog.dentries directory = none → err .notFound docs)
    (hb : ∀ dentry, catalog.dentries directory = some dentry →
      maxSize < (change dentry).encode.length → err .fileTooLarge docs) :
    (modify directory change).Upholds maxSize inv post err docs := by
  unfold modify
  apply upholds_retry
  unfold modifyOnce
  refine upholds_bind.mpr (upholds_getVersioned hi hd ?_ hn)
  intro dentry found hc hk
  refine upholds_bind.mpr (upholds_stored (upholds_replace hk hi ?_ (hb dentry hc)))
  intro hl version after ha
  obtain ⟨hi', hp⟩ := hs dentry after hc hl ha
  exact ⟨hi', _, rfl, hp⟩

end Directory

-- While a call is under way.
def Docs.Standing (limits : Limits) (maxSize : Nat) (docs : Docs) : Prop :=
  ∃ catalog, docs.Grounded limits maxSize catalog

-- Between two calls.
def Docs.AtRest (limits : Limits) (maxSize : Nat) (docs : Docs) : Prop :=
  ∃ catalog, docs.Settled limits maxSize catalog

def Call.Orderly {α : Type} (limits : Limits) (maxSize : Nat) (call : Call α) (docs : Docs) :
    Prop :=
  call.Upholds maxSize (Docs.Standing limits maxSize)
    (fun _ after => after.AtRest limits maxSize) (fun _ after => after.AtRest limits maxSize) docs

theorem Docs.Settled.standing (h : docs.Settled limits maxSize catalog) :
    docs.Standing limits maxSize := ⟨catalog, h.toGrounded⟩

theorem Docs.Settled.atRest (h : docs.Settled limits maxSize catalog) :
    docs.AtRest limits maxSize := ⟨catalog, h⟩

theorem Call.Orderly.bind {α β : Type} {call : Call α} {next : α → Call β}
    {mid : α → Docs → Prop} (h : call.Upholds maxSize (Docs.Standing limits maxSize) mid
      (fun _ after => after.AtRest limits maxSize) docs)
    (hn : ∀ value after, mid value after → (next value).Orderly limits maxSize after) :
    (call >>= next).Orderly limits maxSize docs :=
  Upholds.bind h hn fun _ _ he => he

namespace Tree

variable {α β γ : Type} {parent leaf : String} {stat : StatRecord}

theorem upholds_requireDirectory (hi : inv docs) (hd : docs.Shows catalog)
    (he : ∀ error, err error docs) :
    (requireDirectory path).Upholds maxSize inv
      (fun _ after => after = docs ∧ catalog.HasDirectory path) err docs := by
  unfold requireDirectory
  refine upholds_bind.mpr (Metadata.upholds_get hi hd ?_ fun _ => he _)
  intro stat _ hc _
  rw [upholds_check]
  split
  · next hdir => exact ⟨rfl, stat, hc, hdir⟩
  · exact he _

theorem upholds_refuseDirectory (hi : inv docs) (hd : docs.Shows catalog)
    (he : ∀ error, err error docs) :
    (refuseDirectory path).Upholds maxSize inv
      (fun _ after => after = docs ∧ ¬catalog.HasDirectory path) err docs := by
  unfold refuseDirectory
  refine upholds_bind.mpr (upholds_attempt.mpr (Metadata.upholds_get hi hd ?_ ?_))
  · intro stat _ hc _
    rw [upholds_check]
    split
    · next hdir => exact ⟨rfl, Catalog.not_hasDirectory_of_stat hc (by simpa using hdir)⟩
    · exact he _
  · exact fun hn => ⟨rfl, Catalog.not_hasDirectory_of_none hn⟩

section

variable (h : docs.Settled limits maxSize catalog)

include h

-- Calls that look leave everything as it is.
theorem orderly_of_looks {call : Call α}
    (ho : call.Only fun _ request => ∃ key, request = .get key) :
    call.Orderly limits maxSize docs := by
  refine ((ho.upholds_looks docs).mono_inv fun after ha => ?_).mono ?_ ?_
  · exact ha ▸ h.standing
  · exact fun _ after ha => ha ▸ h.atRest
  · exact fun _ after ha => ha ▸ h.atRest

theorem orderly_update {change : StatChange} :
    (Metadata.update path change now).Orderly limits maxSize docs := by
  refine Metadata.upholds_update h.standing h.shows (fun stat after hc ha => ?_) fun _ => h.atRest
  have hafter := h.updateStat hc ha
  exact ⟨hafter.standing, hafter.atRest⟩

-- Whatever a directory comes to list has its record already.
theorem orderly_listChild (hs : Path.split path limits.maxKeyLen = .ok (parent, leaf))
    (hp : catalog.stats path ≠ none) : (listChild parent leaf).Orderly limits maxSize docs := by
  unfold listChild
  refine Orderly.bind (Directory.upholds_get h.standing h.shows (fun dentry hc => ?_)
    fun _ => h.atRest) fun _ _ hpost => hpost
  split
  · exact h.atRest
  refine Orderly.bind (Directory.upholds_modify h.standing h.shows (fun found after hf hl ha => ?_)
    (fun _ => h.atRest) fun _ _ _ => h.atRest) fun _ _ hpost => hpost
  have hdir := h.tree.documented parent (by rw [hf]; exact Option.some_ne_none _)
  have hafter := h.putDentry ha hdir (fun name hm => ?_) hl
  · exact ⟨hafter.standing, hafter.atRest⟩
  · rcases List.mem_append.mp hm with hm | hm
    · exact h.tree.listed parent found hf name hm
    · obtain rfl := List.mem_singleton.mp hm
      rw [Path.join_of_split hs]
      exact ⟨hs, hp⟩

-- A new record, and then what may be there since it is.
theorem orderly_insert {mode : UInt32} {now : TimeSpec} {next : StatRecord → Call α}
    (hk : (StatRecord.new mode now).isRegularFile ∨ (StatRecord.new mode now).isDirectory)
    (hn : ∀ after, after.Settled limits maxSize
      (catalog.setStat path (some (StatRecord.new mode now))) →
      (next (StatRecord.new mode now)).Orderly limits maxSize after) :
    (Metadata.insert path mode now >>= next).Orderly limits maxSize docs := by
  refine upholds_bind.mpr (Metadata.upholds_insert h.standing (fun hz after ha => ?_)
    fun _ => h.atRest)
  have hafter := h.newStat ha (h.shows.stats_eq (Docs.value_eq_none_iff.mpr hz)) hk
  exact ⟨hafter.standing, hn after hafter⟩

theorem orderly_create {mode : UInt32} {now : TimeSpec} :
    (create limits path mode now).Orderly limits maxSize docs := by
  unfold create
  cases hs : Path.split path limits.maxKeyLen with
  | error error => exact h.atRest
  | ok parts =>
  obtain ⟨parent, leaf⟩ := parts
  rw [ofExcept_ok_bind]
  refine upholds_bind.mpr (upholds_check.mpr ?_)
  split
  swap
  · exact h.atRest
  next hm =>
  refine Orderly.bind (upholds_requireDirectory h.standing h.shows fun _ => h.atRest)
    fun _ after hpost => ?_
  obtain ⟨rfl, -⟩ := hpost
  have hk : (StatRecord.new mode now).isRegularFile :=
    decide_eq_true (Mode.kind_regularFile hm)
  refine orderly_insert h (.inl hk) fun mid hmid => ?_
  refine Orderly.bind (orderly_listChild hmid hs ?_) fun _ _ hpost => hpost
  rw [Catalog.stats_setStat, if_pos rfl]
  exact Option.some_ne_none _

-- A new document for a directory that has its record.
theorem upholds_createDentry (hd : catalog.HasDirectory directory) :
    (Directory.create directory parent).Upholds maxSize (Docs.Standing limits maxSize)
      (fun _ after => after.Settled limits maxSize
        (catalog.setDentry directory (some (Dentry.new directory parent))))
      (fun _ after => after.AtRest limits maxSize) docs := by
  refine Directory.upholds_create h.standing (fun hl after ha => ?_) fun _ => h.atRest
  have hafter := h.putDentry ha hd nofun hl
  exact ⟨hafter.standing, hafter⟩

theorem orderly_mkdir {mode : UInt32} {now : TimeSpec} :
    (mkdir limits path mode now).Orderly limits maxSize docs := by
  unfold mkdir
  cases hs : Path.split path limits.maxKeyLen with
  | error error => exact h.atRest
  | ok parts =>
  obtain ⟨parent, leaf⟩ := parts
  rw [ofExcept_ok_bind]
  refine Orderly.bind (upholds_requireDirectory h.standing h.shows fun _ => h.atRest)
    fun _ after hpost => ?_
  obtain ⟨rfl, -⟩ := hpost
  have hk : (StatRecord.new (Mode.directory ||| Mode.permissions mode) now).isDirectory :=
    decide_eq_true (Mode.kind_directory_or mode)
  refine orderly_insert h (.inr hk) fun mid hmid => ?_
  have hstat : (catalog.setStat path (some (StatRecord.new
      (Mode.directory ||| Mode.permissions mode) now))).stats path =
      some (StatRecord.new (Mode.directory ||| Mode.permissions mode) now) := by
    rw [Catalog.stats_setStat, if_pos rfl]
  refine Orderly.bind (upholds_createDentry hmid ⟨_, hstat, hk⟩) fun _ last hlast => ?_
  refine Orderly.bind (orderly_listChild hlast hs ?_) fun _ _ hpost => hpost
  rw [Catalog.stats_setDentry, hstat]
  exact Option.some_ne_none _

theorem orderly_bootstrap {now : TimeSpec} : (bootstrap now).Orderly limits maxSize docs := by
  have hdentry : ∀ docs catalog, Docs.Settled limits maxSize catalog docs →
      catalog.HasDirectory Path.root → ensureRootDentry.Orderly limits maxSize docs := by
    intro docs catalog h hd
    refine upholds_bind.mpr (upholds_attempt.mpr ((upholds_createDentry h hd).mono ?_ ?_))
    · exact fun _ _ hpost => hpost.atRest
    · intro error after ha
      refine upholds_check.mpr ?_
      split <;> exact ha
  have hkind : (StatRecord.new Mode.root now).isDirectory  :=
    decide_eq_true (show Mode.kind Mode.root = .directory by decide)
  unfold bootstrap ensureRootStat
  refine upholds_bind.mpr (upholds_bind.mpr (upholds_attempt.mpr
    (Metadata.upholds_get h.standing h.shows ?_ fun hn => ?_)))
  · intro stat _ hc _
    rw [upholds_check]
    split
    · next hdir => exact hdentry docs catalog h ⟨stat, hc, hdir⟩
    · exact h.atRest
  · refine upholds_bind.mpr (Metadata.upholds_insert h.standing (fun _ after ha => ?_)
      fun _ => h.atRest)
    have hafter := h.newStat ha hn (.inr hkind)
    refine ⟨hafter.standing, hdentry after _ hafter ⟨_, ?_, hkind⟩⟩
    rw [Catalog.stats_setStat, if_pos rfl]

-- A call on the blocks of one file that makes none without a record, and leaves them dense.
theorem upholds_blocks {call : Call α} {allowed : Collection → Request → Prop}
    (hp : Path.NulFree path) (ho : call.Only allowed)
    (ha : ∀ collection request, allowed collection request → OnBlocks path collection request)
    (hm : ∀ key value, allowed .blocks (.insert key value) → catalog.Owns key)
    (hl : LeavesSolid maxSize limits.maxBlocks path call) :
    call.Upholds maxSize (Docs.Standing limits maxSize)
      (fun _ after => after.Settled limits maxSize catalog)
      (fun _ after => after.Settled limits maxSize catalog) docs := by
  have hkept : call.Upholds maxSize
      (fun after => after.Grounded limits maxSize catalog ∧ docs.SameOthers path after)
      (fun _ after => after.Grounded limits maxSize catalog ∧ docs.SameOthers path after)
      (fun _ after => after.Grounded limits maxSize catalog ∧ docs.SameOthers path after) docs := by
    have hothers : docs.SameOthers path docs := fun _ _ => rfl
    refine ho.upholds (fun found version collection request hr hf => ?_) ⟨h.toGrounded, hothers⟩
    obtain ⟨hground, hothers⟩ := hf
    have hon := ha collection request hr
    refine ⟨hground.answerWithin hon.1 fun key value he => ?_, hothers.answerWithin hon⟩
    exact hm key value (by rw [← he, ← hon.1]; exact hr)
  have hboth := hkept.and (hl docs (h.solid path hp))
  refine (hboth.mono_inv fun after hpost => ⟨catalog, hpost.1⟩).mono ?_ ?_
  · exact fun _ after hpost => hpost.1.1.settled h hp hpost.1.2 hpost.2
  · exact fun _ after hpost => hpost.1.1.settled h hp hpost.1.2 hpost.2

theorem upholds_content {call : Call α} (hp : Path.NulFree path)
    (hs : catalog.stats path = some stat) (hr : stat.isRegularFile) (ho : call.Only (OnBlocks path))
    (hl : LeavesSolid maxSize limits.maxBlocks path call) :
    call.Upholds maxSize (Docs.Standing limits maxSize)
      (fun _ after => after.Settled limits maxSize catalog)
      (fun _ after => after.Settled limits maxSize catalog) docs := by
  refine upholds_blocks h hp ho (fun _ _ hon => hon) (fun key value hon => ?_) hl
  obtain ⟨-, index, rfl⟩ := hon
  exact ⟨path, index, stat, hp, rfl, hs, hr⟩

-- A removal makes no block, so it needs no record.
theorem upholds_removeContent (hp : Path.NulFree path) :
    (bestEffort (Content.remove limits path)).Upholds maxSize (Docs.Standing limits maxSize)
      (fun _ after => after.Settled limits maxSize catalog ∧
        after.blocks path = fun _ => none)
      (fun _ after => after.AtRest limits maxSize) docs := by
  have honly : (Content.remove limits path).Only fun collection request =>
      OnBlocks path collection request ∧ ∃ key, request = .remove key :=
    only_removeFrom _ _ fun index _ _ => ⟨⟨rfl, index, rfl⟩, _, rfl⟩
  have hkept := upholds_blocks h hp honly (fun _ _ hr => hr.1) (fun _ _ hr => nomatch hr.2)
    (leavesSolid_removeRest 0)
  refine upholds_bestEffort.mpr ((hkept.and (upholds_remove (h.solid path hp))).mono ?_ ?_)
  · exact fun _ _ hpost => hpost
  · exact fun _ _ hpost => hpost.2.elim

-- A call on the content of a file ends in the change of its record.
theorem orderly_then_update {call : Call α} {change : α → StatChange} {answer : α → StatRecord → β}
    (hp : Path.NulFree path) (hs : catalog.stats path = some stat) (hr : stat.isRegularFile)
    (ho : call.Only (OnBlocks path)) (hl : LeavesSolid maxSize limits.maxBlocks path call) :
    (do let value ← call
        let changed ← Metadata.update path (change value) now
        return answer value changed).Orderly limits maxSize docs := by
  have hcontent := (upholds_content h hp hs hr ho hl).mono (fun _ _ hpost => hpost)
    fun _ _ hpost => hpost.atRest
  refine Orderly.bind hcontent fun _ after hafter => ?_
  exact Orderly.bind (orderly_update hafter) fun _ _ hpost => hpost

-- A shorter listing always has room.
theorem upholds_removeChild :
    (bestEffort (Directory.removeChild parent leaf)).Upholds maxSize (Docs.Standing limits maxSize)
      (fun _ after => docs.SameBlocks after ∧
        after.Settled limits maxSize (catalog.modifyDentry parent (·.removeChild leaf)))
      (fun _ after => after.AtRest limits maxSize) docs := by
  unfold Catalog.modifyDentry
  refine upholds_bestEffort.mpr (Directory.upholds_modify h.standing h.shows ?_ ?_ ?_)
  · intro dentry after hc hl ha
    have hdir := h.tree.documented parent (by rw [hc]; exact Option.some_ne_none _)
    have hafter := h.putDentry ha hdir (fun name hm => ?_) hl
    · rw [hc]
      exact ⟨hafter.standing, ha.sameBlocks nofun, hafter⟩
    · exact h.tree.listed parent dentry hc name (List.mem_of_mem_filter hm)
  · intro hn
    rw [hn, Option.map_none, Catalog.setDentry_self hn]
    exact ⟨.refl, h⟩
  · intro dentry hc hl
    have hle := dentry.length_encode_removeChild_le leaf
    have hfits := h.tree.fits parent dentry hc
    omega

-- The record goes last.
theorem orderly_removeRecord (hs : Path.split path limits.maxKeyLen = .ok (parent, leaf))
    (hd : catalog.dentries path = none)
    (hb : ∀ stat, catalog.stats path = some stat → stat.isRegularFile →
      docs.blocks path = fun _ => none) :
    (do bestEffort (Directory.removeChild parent leaf)
        Metadata.remove path).Orderly limits maxSize docs := by
  refine Orderly.bind (upholds_removeChild h) fun _ after hpost => ?_
  obtain ⟨hsame, hafter⟩ := hpost
  refine upholds_remove hafter.standing (fun _ => ?_) fun _ => hafter.atRest
  have hgone := hafter.dropStat ?_ (h.tree.unlisted hs) fun stat hstat hr index => ?_
  · exact ⟨hgone.standing, hgone.atRest⟩
  · rw [Catalog.dentries_modifyDentry, if_neg (Path.parent_ne_of_split hs).symm]
    exact hd
  · rw [hsame.blocks path, hb stat hstat hr]

theorem orderly_unlink (hp : Path.NulFree path) :
    (unlink limits path).Orderly limits maxSize docs := by
  unfold unlink
  cases hs : Path.split path limits.maxKeyLen with
  | error error => exact h.atRest
  | ok parts =>
  obtain ⟨parent, leaf⟩ := parts
  rw [ofExcept_ok_bind]
  refine Orderly.bind (upholds_refuseDirectory h.standing h.shows fun _ => h.atRest)
    fun _ after hpost => ?_
  obtain ⟨rfl, hdir⟩ := hpost
  refine Orderly.bind (upholds_removeContent h hp) fun _ mid hpost => ?_
  obtain ⟨hmid, hnone⟩ := hpost
  refine orderly_removeRecord hmid hs ?_ fun _ _ _ => hnone
  by_contra hn
  exact hdir (h.tree.documented path hn)

theorem upholds_dropDentry :
    (dropDentry path).Upholds maxSize (Docs.Standing limits maxSize)
      (fun _ after => docs.SameBlocks after ∧
        after.Settled limits maxSize (catalog.setDentry path none))
      (fun _ after => after.AtRest limits maxSize) docs := by
  have hself : catalog.dentries path = none →
      docs.Settled limits maxSize (catalog.setDentry path none) := by
    intro hn
    rw [Catalog.setDentry_self hn]
    exact h
  unfold dropDentry
  refine upholds_bind.mpr (upholds_attempt.mpr (Directory.upholds_get h.standing h.shows ?_ ?_))
  · intro dentry hc
    refine upholds_bind.mpr (upholds_check.mpr ?_)
    split
    · refine upholds_bestEffort.mpr (upholds_remove h.standing (fun _ => ?_) fun hn => ?_)
      · exact ⟨h.dropDentry.standing, Docs.sameBlocks_set nofun, h.dropDentry⟩
      · obtain ⟨found, hf, -⟩ := Directory.found_of_value (h.shows.dentries path) hc
        rw [hn] at hf
        cases hf
    · exact h.atRest
  · exact fun hn => ⟨.refl, hself hn⟩

theorem orderly_rmdir : (rmdir limits path).Orderly limits maxSize docs := by
  unfold rmdir
  cases hs : Path.split path limits.maxKeyLen with
  | error error => exact h.atRest
  | ok parts =>
  obtain ⟨parent, leaf⟩ := parts
  rw [ofExcept_ok_bind]
  refine Orderly.bind (upholds_requireDirectory h.standing h.shows fun _ => h.atRest)
    fun _ after hpost => ?_
  obtain ⟨rfl, dir, hdir, hkind⟩ := hpost
  refine Orderly.bind (upholds_dropDentry h) fun _ mid hpost => ?_
  obtain ⟨hsame, hmid⟩ := hpost
  refine orderly_removeRecord hmid hs ?_ fun stat hstat hr => ?_
  · rw [Catalog.dentries_setDentry, if_pos rfl]
  · rw [Catalog.stats_setDentry, hdir, Option.some_inj] at hstat
    rw [← hstat, StatRecord.not_isRegularFile_of_isDirectory hkind] at hr
    cases hr

theorem upholds_fileStat :
    (fileStat limits path).Upholds maxSize (Docs.Standing limits maxSize)
      (fun stat after => after = docs ∧ catalog.stats path = some stat ∧ stat.isRegularFile)
      (fun _ after => after.AtRest limits maxSize) docs := by
  unfold fileStat
  cases Path.checkLength path limits.maxKeyLen with
  | error error => exact h.atRest
  | ok _ =>
  rw [ofExcept_ok_bind]
  refine upholds_bind.mpr (Metadata.upholds_get h.standing h.shows ?_ fun _ => h.atRest)
  intro stat _ hc _
  refine upholds_bind.mpr (upholds_check.mpr ?_)
  split
  · next hdir => exact ⟨rfl, hc, (h.tree.kinds path stat hc).resolve_right hdir⟩
  · exact h.atRest

theorem orderly_read (hp : Path.NulFree path) {offset : UInt64} {size : UInt32} :
    (read limits path offset size now).Orderly limits maxSize docs := by
  rw [read_eq]
  refine Orderly.bind (upholds_fileStat h) fun stat after hpost => ?_
  obtain ⟨rfl, hs, hr⟩ := hpost
  refine orderly_then_update h hp hs hr ?_ (leavesSolid_of_looks ?_)
  · unfold readContent
    split
    · trivial
    · exact only_read fun index _ => ⟨rfl, index, rfl⟩
  · unfold readContent
    split
    · trivial
    · exact only_read fun index _ => ⟨_, rfl⟩

theorem orderly_write (hv : limits.Valid) (hp : Path.NulFree path) {offset : UInt64}
    {data : Bytes} : (write limits path offset data now).Orderly limits maxSize docs := by
  unfold write
  refine Orderly.bind (upholds_fileStat h) fun stat after hpost => ?_
  obtain ⟨rfl, hs, hr⟩ := hpost
  refine upholds_bind.mpr (upholds_check.mpr ?_)
  split
  · next hl =>
    exact orderly_then_update h hp hs hr (only_writeContent hv (permits_onBlocks _ _) hl)
      (leavesSolid_writeContent hv hl)
  · exact h.atRest

theorem orderly_truncate (hv : limits.Valid) (hp : Path.NulFree path) {size : UInt64} :
    (truncate limits path size now).Orderly limits maxSize docs := by
  unfold truncate
  refine Orderly.bind (upholds_fileStat h) fun stat after hpost => ?_
  obtain ⟨rfl, hs, hr⟩ := hpost
  refine upholds_bind.mpr (upholds_check.mpr ?_)
  split
  · next hl =>
    rw [← bind_pure (Metadata.update path (.size size) now)]
    exact orderly_then_update h hp hs hr (only_resizeContent hv (permits_onBlocks _ _) hl)
      (leavesSolid_resizeContent hv hl)
  · exact h.atRest

-- Changing the mode and changing the times.
theorem orderly_changeRecord {change : StatChange} :
    (do Call.ofExcept (Path.checkLength path limits.maxKeyLen)
        Metadata.update path change now).Orderly limits maxSize docs := by
  cases Path.checkLength path limits.maxKeyLen with
  | error error => exact h.atRest
  | ok _ =>
    rw [ofExcept_ok_bind]
    exact orderly_update h

end

end Tree

end DocTree
