import DocTree.Proofs.Tree.Changed

namespace DocTree

open Call

namespace Tree

variable {faulty : Request → Prop} {docs : Docs} {catalog : Catalog} {limits : Limits}
  {path : String} {now : Readings} {record : Option StatRecord} {err : FsError → Docs → Prop}

-- Why a call on a file cannot begin.
def NoFile (faulty : Request → Prop) (limits : Limits) (path : String)
    (record : Option StatRecord) : Prop :=
  limits.maxKeyLen < path.utf8ByteSize ∨ (∀ stat, record = some stat → stat.isDirectory = true) ∨
    ∃ request, faulty request

theorem ensures_fileStat {post : StatRecord → Docs → Prop} (hp : docs.StatAt path record)
    (hs : ∀ stat, record = some stat → stat.isDirectory = false →
      path.utf8ByteSize ≤ limits.maxKeyLen → post stat docs)
    (he : NoFile faulty limits path record → ∀ error, err error docs) :
    (fileStat limits path).Ensures faulty post err docs := by
  unfold fileStat
  by_cases hl : path.utf8ByteSize ≤ limits.maxKeyLen
  · rw [Path.checkLength_eq_ok.mpr hl, ofExcept_ok_bind]
    apply ensures_bind.mpr
    apply Metadata.ensures_get hp
    · intro stat found hr hk
      rw [ensures_bind, ensures_check]
      by_cases hd : stat.isDirectory = true
      · rw [if_neg (by simpa using hd)]
        refine he (.inr (.inl fun other ho => ?_)) _
        rw [hr, Option.some_inj] at ho
        exact ho ▸ hd
      · rw [if_pos (by simpa using hd)]
        exact hs stat hr (by simpa using hd) hl
    · intro hn
      refine he (.inr (.inl fun other ho => ?_)) _
      rw [hn] at ho
      cases ho
    · exact fun h text => he (.inr (.inr ⟨_, h⟩)) _
  · unfold Path.checkLength
    rw [if_pos (by omega), ofExcept_error_bind]
    exact he (.inl (by omega)) _

-- On a file, it answers the record.
theorem ensures_fileStat_file {stat : StatRecord} (hp : docs.StatAt path (some stat))
    (hdir : stat.isDirectory = false) :
    (fileStat limits path).Ensures faulty (fun found after => found = stat ∧ after = docs)
      (fun _ after => after = docs ∧
        (limits.maxKeyLen < path.utf8ByteSize ∨ ∃ request, faulty request)) docs := by
  apply ensures_fileStat hp
  · intro found hf _ _
    rw [Option.some_inj] at hf
    exact ⟨hf.symm, rfl⟩
  · intro hno error
    refine ⟨rfl, ?_⟩
    rcases hno with hlong | hall | hfault
    · exact .inl hlong
    · rw [hall stat rfl] at hdir
      cases hdir
    · exact .inr hfault

theorem ensures_requireDirectory {post : Unit → Docs → Prop} (hd : docs.Shows catalog)
    (hs : catalog.HasDirectory path → post () docs)
    (he : ¬catalog.HasDirectory path → ∀ error, err error docs) :
    (requireDirectory path).Ensures (fun _ => False) post err docs := by
  unfold requireDirectory
  refine ensures_bind.mpr (Metadata.ensures_get (hd.stats path) ?_ ?_ fun h => h.elim)
  · intro stat found hr hk
    rw [ensures_check]
    split
    · next hdir => exact hs ⟨stat, hr, hdir⟩
    · next hdir =>
      exact he (Catalog.not_hasDirectory_of_stat hr (by simpa using hdir)) _
  · exact fun hn => he (Catalog.not_hasDirectory_of_none hn) _

theorem ensures_refuseDirectory {post : Unit → Docs → Prop} (hp : docs.StatAt path record)
    (hs : (∃ request, faulty request) ∨ (∀ stat, record = some stat → stat.isDirectory = false) →
      post () docs)
    (he : (∃ stat, record = some stat ∧ stat.isDirectory = true) → err .isDirectory docs) :
    (refuseDirectory path).Ensures faulty post err docs := by
  unfold refuseDirectory
  apply ensures_bind.mpr
  apply ensures_attempt.mpr
  apply Metadata.ensures_get hp
  · intro stat found hr hk
    rw [ensures_check]
    split
    · next hdir =>
      refine hs (.inr fun other ho => ?_)
      rw [hr, Option.some_inj] at ho
      exact ho ▸ by simpa using hdir
    · next hdir => exact he ⟨stat, hr, by simpa using hdir⟩
  · intro hn
    refine hs (.inr fun other ho => ?_)
    rw [hn] at ho
    cases ho
  · exact fun h text => hs (.inl ⟨_, h⟩)

theorem ensures_listChild {directory name : String} {dentry : Dentry} {post : Unit → Docs → Prop}
    (hd : docs.Shows catalog) (hp : catalog.dentries directory = some dentry)
    (hn : name ∉ dentry.children)
    (hs : ∀ after, after.Shows (catalog.modifyDentry directory (·.addChild name)) →
      docs.SameBlocks after → post () after) :
    (listChild directory name).Ensures (fun _ => False) post err docs := by
  have hc : dentry.contains name = false := by simpa [Dentry.contains] using hn
  unfold listChild
  apply ensures_bind.mpr
  apply Directory.ensures_get (hd.dentries directory)
  · intro found hf
    rw [hp, Option.some_inj] at hf
    subst hf
    rw [if_neg (by simp [hc])]
    apply ensures_bind.mpr
    apply Directory.ensures_modify (hd.dentries directory)
    · intro other after ho ha
      rw [hp, Option.some_inj] at ho
      subst ho
      exact hs after (Docs.Put.shows_modify (·.addChild name) ha hd hp) (ha.sameBlocks nofun)
    · intro hz
      rw [hp] at hz
      cases hz
    · exact fun h => h.choose_spec.elim
  · intro hz
    rw [hp] at hz
    cases hz
  · exact fun h => h.choose_spec.elim

variable (hd : docs.Shows catalog)

include hd

theorem ensures_getattr {owner : Caller} : (getattr limits path owner).Ensures (fun _ => False)
    (fun _ after => after = docs) (fun _ after => after = docs) docs := by
  unfold getattr
  cases Path.checkLength path limits.maxKeyLen with
  | error error => exact rfl
  | ok _ =>
    rw [ofExcept_ok_bind]
    refine ensures_bind.mpr (Metadata.ensures_get (hd.stats path) ?_ (fun _ => rfl) fun h => h.elim)
    intro stat found hr hk
    rfl

theorem ensures_openFile {flags : Int32} : (openFile limits path flags).Ensures (fun _ => False)
    (fun _ after => after = docs) (fun _ after => after = docs) docs := by
  unfold openFile
  cases Path.checkLength path limits.maxKeyLen with
  | error error => exact rfl
  | ok _ =>
    rw [ofExcept_ok_bind]
    refine ensures_bind.mpr (Metadata.ensures_get (hd.stats path) ?_ (fun _ => rfl) fun h => h.elim)
    intro stat found hr hk
    cases accessMode? flags with
    | none => exact rfl
    | some mode =>
      simp only [Option.elim_some, ofExcept_ok_bind]
      rw [ensures_bind, ensures_check]
      split
      · rw [ensures_bind, ensures_check]
        split <;> rfl
      · rfl

theorem ensures_readdir (hw : catalog.WellFormed limits) {offset : UInt64} :
    (readdir limits path offset).Ensures (fun _ => False)
      (fun names after => after = docs ∧
        Operation.Allowed limits catalog.kindOf (.readdir path offset) ∧
        ∃ dentry, catalog.dentries path = some dentry ∧
          names = "." :: ".." :: dentry.children.drop offset.toNat)
      (fun _ after => after = docs ∧
        ¬Operation.Allowed limits catalog.kindOf (.readdir path offset)) docs := by
  unfold readdir
  by_cases hl : path.utf8ByteSize ≤ limits.maxKeyLen
  · rw [Path.checkLength_eq_ok.mpr hl, ofExcept_ok_bind]
    refine ensures_bind.mpr (ensures_requireDirectory hd ?_ fun hn _ =>
      ⟨rfl, fun ha => hn (Catalog.hasDirectory_iff.mpr ha.2)⟩)
    intro hp
    obtain ⟨dentry, hdentry⟩ := hw.dentry_of_hasDirectory hp
    refine ensures_bind.mpr (Directory.ensures_get (hd.dentries path) ?_ ?_ ?_)
    · intro found hf
      exact ⟨rfl, ⟨hl, Catalog.hasDirectory_iff.mp hp⟩, found, hf, rfl⟩
    · intro hz
      rw [hdentry] at hz
      cases hz
    · exact fun h => h.choose_spec.elim
  · unfold Path.checkLength
    rw [if_pos (by omega), ofExcept_error_bind]
    exact ⟨rfl, fun ha => hl ha.1⟩

-- A directory that is there is always listed.
theorem ensures_names (hw : catalog.WellFormed limits) (hm : 0 < limits.maxKeyLen)
    (hp : catalog.HasDirectory path) {offset : UInt64} :
    (readdir limits path offset).Ensures (fun _ => False)
      (fun names _ => ∃ dentry, catalog.dentries path = some dentry ∧
        names = "." :: ".." :: dentry.children.drop offset.toNat)
      (fun _ _ => False) docs := by
  refine (ensures_readdir hd hw).mono ?_ ?_
  · intro names _ hpost
    obtain ⟨-, -, hn⟩ := hpost
    exact hn
  · intro _ _ hpost
    obtain ⟨stat, hs, -⟩ := id hp
    exact hpost.2 ⟨hw.length_le_of_exists hm hs, Catalog.hasDirectory_iff.mp hp⟩

theorem ensures_bootstrap (hw : catalog.WellFormed limits) {time : TimeSpec} :
    (bootstrap time).Ensures (fun _ => False) (fun _ after => after = docs)
      (fun _ after => after = docs) docs := by
  obtain ⟨root, hr, hdir⟩ := hw.root
  obtain ⟨dentry, hdentry⟩ := hw.dentry_of_hasDirectory hw.root
  unfold bootstrap ensureRootStat ensureRootDentry
  refine ensures_bind.mpr (ensures_bind.mpr (ensures_attempt.mpr
    (Metadata.ensures_get (hd.stats Path.root) ?_ ?_ fun h => h.elim)))
  · intro stat found hf hk
    rw [hr, Option.some_inj] at hf
    subst hf
    rw [ensures_check, if_pos hdir]
    apply ensures_bind.mpr
    apply ensures_attempt.mpr
    apply Directory.ensures_create
    · intro hn
      obtain ⟨other, ho, -⟩ := Directory.found_of_value (hd.dentries Path.root) hdentry
      rw [hn] at ho
      cases ho
    · intro _
      rw [ensures_check, if_pos rfl]
    · exact fun h => h.choose_spec.elim
  · intro hn
    rw [hr] at hn
    cases hn

omit hd in
-- A call on a file ends in the change of its record.
theorem ensures_then_update {β γ : Type} {part : Call β} {change : β → StatChange}
    {answer : β → StatRecord → γ} {mid : β → Docs → Prop} {post : γ → Docs → Prop}
    (stat : StatRecord) (hpart : part.Ensures faulty mid err docs)
    (hp : ∀ value after, mid value after → after.StatAt path (some stat))
    (hs : ∀ value between after, mid value between →
      between.Put .stats path (stat.apply (change value) (now 0)).encode after →
      post (answer value (stat.apply (change value) (now 0))) after)
    (hf : (∃ request, faulty request) → ∀ value between, mid value between → ∀ text,
      err (.io text) between ∧ ∀ after,
        between.Put .stats path (stat.apply (change value) (now 0)).encode after →
        err (.io text) after) :
    (do let value ← part
        let changed ← Metadata.update path (change value) now
        return answer value changed).Ensures faulty post err docs := by
  apply hpart.bind ?_ fun _ _ h => h
  intro value between hm
  apply ensures_bind.mpr
  apply Metadata.ensures_update (hp value between hm)
  · intro other after ho ha
    rw [Option.some_inj] at ho
    subst ho
    exact hs value between after hm ha
  · intro hz
    cases hz
  · intro h text
    obtain ⟨hbefore, hafter⟩ := hf h value between hm text
    refine ⟨hbefore, fun other after ho ha => ?_⟩
    rw [Option.some_inj] at ho
    subst ho
    exact hafter after ha

theorem ensures_update {change : StatChange} : (Metadata.update path change now).Ensures
    (fun _ => False)
    (fun _ after => ∃ stat, catalog.stats path = some stat ∧
      after.Shows (catalog.setStat path (some (stat.apply change (now 0)))) ∧ docs.SameBlocks after)
    (fun _ after => after = docs) docs := by
  refine Metadata.ensures_update (hd.stats path) ?_ (fun _ => rfl) fun h => h.choose_spec.elim
  intro stat after hr ha
  exact ⟨stat, hr, ha.shows_stat hd, ha.sameBlocks nofun⟩

-- Changing the mode and changing the times.
theorem ensures_changeRecord {operation : Operation} {change : StatChange}
    (h : Catalog.Updates operation path change) (hn : ∀ size, change ≠ .size size) :
    (do Call.ofExcept (Path.checkLength path limits.maxKeyLen)
        Metadata.update path change now).Ensures (fun _ => False)
      (fun _ after => ∃ later, catalog.Changed limits now operation later ∧ after.Shows later ∧
        docs.SameBlocks after)
      (fun _ after => after = docs) docs := by
  cases Path.checkLength path limits.maxKeyLen with
  | error error => exact rfl
  | ok _ =>
    rw [ofExcept_ok_bind]
    refine (ensures_update hd).mono ?_ fun _ _ h => h
    intro _ after hpost
    obtain ⟨stat, hr, ha, hb⟩ := hpost
    exact ⟨_, Catalog.Changed.updated h hr fun ⟨size, hz⟩ => absurd hz (hn size), ha, hb⟩

theorem ensures_create (hw : catalog.WellFormed limits) {mode : UInt32} :
    (create limits path mode (now 0)).Ensures (fun _ => False)
      (fun _ after => ∃ later, catalog.Changed limits now (.create path mode) later ∧
        after.Shows later ∧ docs.SameBlocks after)
      (fun _ after => after = docs ∧
        ¬Operation.Allowed limits catalog.kindOf (.create path mode)) docs := by
  unfold create
  cases hs : Path.split path limits.maxKeyLen with
  | error error => exact ⟨rfl, fun ha => Path.not_free_of_split_error hs ha.2⟩
  | ok parts =>
    obtain ⟨parent, leaf⟩ := parts
    rw [ofExcept_ok_bind]
    dsimp only
    rw [ensures_bind, ensures_check]
    split
    · next hm =>
      refine ensures_bind.mpr (ensures_requireDirectory hd ?_ fun hn _ =>
        ⟨rfl, fun ha => hn (Catalog.hasDirectory_of_free hs ha.2)⟩)
      intro hp
      refine ensures_bind.mpr (Metadata.ensures_insert ?_ ?_ fun h => h.choose_spec.elim)
      · intro hn after ha
        have hnone : catalog.stats path = none := hd.stats_eq (Docs.value_eq_none_iff.mpr hn)
        obtain ⟨above, hb⟩ := hw.dentry_of_hasDirectory hp
        apply ensures_bind.mpr
        apply ensures_listChild (ha.shows_stat hd) hb (hw.not_listed hs hnone hb)
        intro last hl hbl
        exact ⟨_, .created hs hm hp hnone, hl, (ha.sameBlocks nofun).trans hbl⟩
      · intro hne
        exact ⟨rfl, fun ha => hne (Metadata.none_of_value (hd.stats path)
          (Catalog.kindOf_eq_none.mp ha.2.1))⟩
    · next hm => exact ⟨rfl, fun ha => hm ha.1⟩

theorem ensures_mkdir (hw : catalog.WellFormed limits) {mode : UInt32} :
    (mkdir limits path mode (now 0)).Ensures (fun _ => False)
      (fun _ after => ∃ later, catalog.Changed limits now (.mkdir path mode) later ∧
        after.Shows later ∧ docs.SameBlocks after)
      (fun _ after => after = docs ∧
        ¬Operation.Allowed limits catalog.kindOf (.mkdir path mode)) docs := by
  unfold mkdir
  cases hs : Path.split path limits.maxKeyLen with
  | error error => exact ⟨rfl, fun ha => Path.not_free_of_split_error hs ha⟩
  | ok parts =>
    obtain ⟨parent, leaf⟩ := parts
    rw [ofExcept_ok_bind]
    dsimp only
    refine ensures_bind.mpr (ensures_requireDirectory hd ?_ fun hn _ =>
      ⟨rfl, fun ha => hn (Catalog.hasDirectory_of_free hs ha)⟩)
    intro hp
    refine ensures_bind.mpr (Metadata.ensures_insert ?_ (fun hne => ⟨rfl, fun ha =>
      hne (Metadata.none_of_value (hd.stats path) (Catalog.kindOf_eq_none.mp ha.1))⟩)
      fun h => h.choose_spec.elim)
    intro hn after ha
    have hnone : catalog.stats path = none := hd.stats_eq (Docs.value_eq_none_iff.mpr hn)
    have hfree := hw.dentries_eq_none (Catalog.not_hasDirectory_of_none hnone)
    obtain ⟨above, hb⟩ := hw.dentry_of_hasDirectory hp
    have hshows := ha.shows_stat hd
    refine ensures_bind.mpr (Directory.ensures_create ?_ ?_ fun h => h.choose_spec.elim)
    · intro _ mid hmid
      refine ensures_bind.mpr (ensures_listChild (hmid.shows_dentry hshows) ?_
        (hw.not_listed hs hnone hb) ?_)
      · rw [Catalog.dentries_setDentry, if_neg (Path.parent_ne_of_split hs)]
        exact hb
      intro last hl hbl
      exact ⟨_, .made hs hp hnone, hl,
        ((ha.sameBlocks nofun).trans (hmid.sameBlocks nofun)).trans hbl⟩
    · intro hne
      exact absurd (Directory.none_of_value (hshows.dentries path) hfree) hne

theorem ensures_dropDentry {post : Unit → Docs → Prop} {dentry : Dentry}
    (hp : catalog.dentries path = some dentry)
    (hs : dentry.children = [] → ∀ after, after.Shows (catalog.setDentry path none) →
      docs.SameBlocks after → post () after)
    (he : dentry.children ≠ [] → err .notEmpty docs) :
    (dropDentry path).Ensures (fun _ => False) post err docs := by
  unfold dropDentry
  apply ensures_bind.mpr
  apply ensures_attempt.mpr
  apply Directory.ensures_get (hd.dentries path)
  · intro found hf
    rw [hp, Option.some_inj] at hf
    subst hf
    rw [ensures_bind, ensures_check]
    split
    · next hc =>
      refine ensures_bestEffort.mpr (Directory.ensures_remove ?_ ?_ fun h => h.choose_spec.elim)
      · exact fun _ => hs hc _ hd.removeDentry (Docs.sameBlocks_set nofun)
      · intro hn
        obtain ⟨other, ho, -⟩ := Directory.found_of_value (hd.dentries path) hp
        rw [hn] at ho
        cases ho
    · next hc => exact he hc
  · intro hn
    rw [hp] at hn
    cases hn
  · exact fun h => h.choose_spec.elim

-- Taking a name out of a directory, if there is one, for its effect only.
theorem ensures_removeChild {directory name : String} {post : Unit → Docs → Prop}
    (hs : ∀ after, after.Shows (catalog.modifyDentry directory (·.removeChild name)) →
      docs.SameBlocks after → post () after)
    (hf : (∃ request, faulty request) → post () docs) :
    (bestEffort (Directory.removeChild directory name)).Ensures faulty post err docs := by
  have hput : ∀ dentry after, catalog.dentries directory = some dentry →
      docs.Put .dentries directory (dentry.removeChild name).encode after → post () after := by
    intro dentry after hp ha
    exact hs after (Docs.Put.shows_modify (·.removeChild name) ha hd hp) (ha.sameBlocks nofun)
  refine ensures_bestEffort.mpr (Directory.ensures_modify (hd.dentries directory) hput ?_ ?_)
  · intro hn
    refine hs docs ?_ .refl
    unfold Catalog.modifyDentry
    rw [hn, Option.map_none, Catalog.setDentry_self hn]
    exact hd
  · exact fun h text => ⟨hf h, hput⟩

theorem ensures_rmdir (hw : catalog.WellFormed limits) :
    (rmdir limits path).Ensures (fun _ => False)
      (fun _ after => ∃ later, catalog.Changed limits now (.rmdir path) later ∧
        after.Shows later ∧ docs.SameBlocks after)
      (fun _ after => after = docs ∧
        ¬Operation.Allowed limits catalog.kindOf (.rmdir path)) docs := by
  unfold rmdir
  cases hs : Path.split path limits.maxKeyLen with
  | error error =>
    refine ⟨rfl, fun ha => ?_⟩
    obtain ⟨⟨parts, hparts⟩, -⟩ := ha
    rw [hs] at hparts
    cases hparts
  | ok parts =>
    obtain ⟨parent, leaf⟩ := parts
    rw [ofExcept_ok_bind]
    dsimp only
    refine ensures_bind.mpr (ensures_requireDirectory hd ?_ fun hn _ =>
      ⟨rfl, fun ha => hn (Catalog.hasDirectory_iff.mpr ha.2.1)⟩)
    intro hp
    obtain ⟨dentry, hdentry⟩ := hw.dentry_of_hasDirectory hp
    refine ensures_bind.mpr (ensures_dropDentry hd hdentry ?_ fun hc => ⟨rfl, fun ha =>
      hc ((hw.children_eq_nil_iff hdentry).mpr fun other hn =>
        ha.2.2 other (Catalog.kindOf_eq_none.not.mpr hn))⟩)
    intro hc mid hmid hbm
    refine ensures_bind.mpr (ensures_removeChild hmid ?_ fun h => h.choose_spec.elim)
    intro last hlast hbl
    refine Metadata.ensures_remove ?_ ?_ fun h => h.choose_spec.elim
    · intro _
      exact ⟨_, .removed hs hdentry hc, hlast.removeStat,
        (hbm.trans hbl).trans (Docs.sameBlocks_set nofun)⟩
    · intro hn
      obtain ⟨stat, hstat, -⟩ := hp
      obtain ⟨other, ho, -⟩ := Metadata.found_of_value (hlast.stats path) hstat
      rw [hn] at ho
      cases ho

end Tree

end DocTree
