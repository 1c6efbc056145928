import DocTree.Proofs.Tree.Orderly
import DocTree.Proofs.Tree.Placed

namespace DocTree

open Call

-- There is a record of the root which says that it is a directory.
def Docs.RecordsRoot (docs : Docs) : Prop :=
  ∃ found stat, docs .stats Path.root = some found ∧
    StatRecord.decode found.value = .ok stat ∧ stat.isDirectory

-- There is a document of the root as well. Neither has to be one that a call of this filesystem
-- wrote, and the document is never read here.
structure Docs.HasRoot (docs : Docs) : Prop where
  stat : docs.RecordsRoot
  dentry : docs .dentries Path.root ≠ none

-- A request that takes away nothing of that, whatever it carries.
def SparesRoot (collection : Collection) : Request → Prop
  | .get _ | .insert _ _ => True
  | .replace key _ _ => collection = .stats → key ≠ Path.root
  | .remove key => collection = .blocks ∨ key ≠ Path.root

variable {limits : Limits} {maxSize : Nat} {docs after : Docs} {now : Readings}
  {version : UInt64} {collection : Collection} {request : Request}

namespace Docs

theorem RecordsRoot.of_same (h : docs.RecordsRoot)
    (hs : after .stats Path.root = docs .stats Path.root) : after.RecordsRoot := by
  obtain ⟨found, stat, hk, hd, hdir⟩ := h
  exact ⟨found, stat, hs.trans hk, hd, hdir⟩

theorem RecordsRoot.of_put {stat : StatRecord} (h : docs.Put .stats Path.root stat.encode after)
    (hdir : stat.isDirectory) : after.RecordsRoot := by
  obtain ⟨version, flags, rfl⟩ := h
  exact ⟨_, stat, set_self, stat.decode_encode, hdir⟩

theorem RecordsRoot.isDirectory (h : docs.RecordsRoot) {found : Document} {stat : StatRecord}
    (hk : docs .stats Path.root = some found) (hd : StatRecord.decode found.value = .ok stat) :
    stat.isDirectory := by
  obtain ⟨document, other, hk', hd', hdir⟩ := h
  rw [hk, Option.some_inj] at hk'
  rw [← hk', hd] at hd'
  cases hd'
  exact hdir

theorem HasRoot.of_same (h : docs.HasRoot)
    (hs : after .stats Path.root = docs .stats Path.root)
    (hd : after .dentries Path.root = docs .dentries Path.root) : after.HasRoot :=
  ⟨h.stat.of_same hs, hd ▸ h.dentry⟩

theorem Shows.hasRoot {catalog : Catalog} (h : docs.Shows catalog)
    (hw : catalog.WellFormed limits) : docs.HasRoot := by
  obtain ⟨stat, hs, hdir⟩ := hw.root
  obtain ⟨found, hk, hv⟩ := Metadata.found_of_value (h.stats Path.root) hs
  refine ⟨⟨found, stat, hk, hv ▸ stat.decode_encode, hdir⟩, fun hn => ?_⟩
  obtain ⟨dentry, hd⟩ := Option.ne_none_iff_exists'.mp ((hw.documented Path.root).mpr hw.root)
  obtain ⟨document, hk', -⟩ := Directory.found_of_value (h.dentries Path.root) hd
  rw [hn] at hk'
  cases hk'

theorem HasRoot.stat_ne_none (h : docs.HasRoot) : docs .stats Path.root ≠ none := by
  obtain ⟨found, stat, hk, -⟩ := h.stat
  rw [hk]
  exact Option.some_ne_none _

theorem HasRoot.answerWithin (h : docs.HasRoot) (hr : SparesRoot collection request) :
    (docs.answerWithin maxSize version collection request).2.HasRoot := by
  cases request with
  | get key =>
    rw [answerWithin_eq_self (.inr ⟨key, rfl⟩)]
    exact h
  | insert key value =>
    exact h.of_same (answerWithin_insert h.stat_ne_none) (answerWithin_insert h.dentry)
  | replace key value expected =>
    have hs : (docs.answerWithin maxSize version collection (.replace key value expected)).2
        .stats Path.root = docs .stats Path.root :=
      answerWithin_of_ne fun hk => hr hk.1.symm hk.2.symm
    exact ⟨h.stat.of_same hs, answerWithin_replace h.dentry⟩
  | remove key =>
    have hne : ∀ other, other ≠ .blocks →
        (docs.answerWithin maxSize version collection (.remove key)).2 other Path.root =
          docs other Path.root := by
      intro other ho
      refine answerWithin_of_ne fun hk => ?_
      rcases hr with hb | hkey
      · exact ho (hk.1.trans hb)
      · exact hkey hk.2.symm
    exact h.of_same (hne _ nofun) (hne _ nofun)

end Docs

-- Why there can be no record of a root directory, if there can be none: what is there is not one,
-- or the store has no room for it.
def Docs.recordObstacle? (docs : Docs) (maxSize : Nat) : Option FsError :=
  match docs .stats Path.root with
  | none => if StatRecord.width ≤ maxSize then none else some .fileTooLarge
  | some found =>
    match StatRecord.decode found.value with
    | .error error => some error
    | .ok stat => if stat.isDirectory then none else some .notDirectory

namespace Tree

section

variable {inv : Docs → Prop} {post : Unit → Docs → Prop} {err : FsError → Docs → Prop}

theorem upholds_ensureRootStat {now : TimeSpec} (hi : inv docs)
    (hs : docs.RecordsRoot → post () docs)
    (hm : docs .stats Path.root = none → StatRecord.width ≤ maxSize → ∀ after,
      docs.Put .stats Path.root (StatRecord.new Mode.root now).encode after →
      inv after ∧ post () after)
    (he : ∀ error, docs.recordObstacle? maxSize = some error → err error docs) :
    (ensureRootStat now).Upholds maxSize inv post err docs := by
  unfold ensureRootStat Metadata.insert
  refine upholds_bind.mpr (upholds_attempt.mpr (Metadata.upholds_find hi ?_ (fun hn => ?_) ?_))
  · intro stat found hk hd
    rw [upholds_check]
    split
    · next hdir => exact hs ⟨found, stat, hk, hd, hdir⟩
    · next hdir =>
      apply he
      simp only [Docs.recordObstacle?, hk, hd, if_neg hdir]
  · refine upholds_bind.mpr (upholds_bind.mpr (Call.upholds_insert hi (fun _ hl _ after ha => ?_)
      (fun hne => absurd hn hne) fun hl => ?_))
    · rw [StatRecord.length_encode] at hl
      exact hm hn hl after ha
    · rw [StatRecord.length_encode] at hl
      apply he
      simp only [Docs.recordObstacle?, hn, if_neg (Nat.not_le.mpr hl)]
  · intro found error hk hd
    -- No record that cannot be read counts as missing.
    obtain ⟨what, rfl⟩ := StatRecord.corrupt_of_decode hd
    apply he
    simp only [Docs.recordObstacle?, hk, hd]

theorem upholds_ensureRootDentry (hi : inv docs)
    (hs : docs .dentries Path.root ≠ none →
      (Dentry.new Path.root Path.root).encode.length ≤ maxSize → post () docs)
    (hm : docs .dentries Path.root = none →
      (Dentry.new Path.root Path.root).encode.length ≤ maxSize → ∀ after,
      docs.Put .dentries Path.root (Dentry.new Path.root Path.root).encode after →
      inv after ∧ post () after)
    (he : maxSize < (Dentry.new Path.root Path.root).encode.length → err .fileTooLarge docs) :
    ensureRootDentry.Upholds maxSize inv post err docs := by
  unfold ensureRootDentry Directory.create
  refine upholds_bind.mpr (upholds_attempt.mpr (upholds_bind.mpr (Call.upholds_insert hi
    (fun hn hl _ after ha => hm hn hl after ha) (fun hd hl => ?_) fun hl => ?_)))
  · exact upholds_check.mpr (hs hd hl)
  · exact upholds_check.mpr (he hl)

end

theorem upholds_bootstrap (docs : Docs) (now : TimeSpec) :
    (bootstrap now).Upholds maxSize (fun _ => True) (fun _ after => after.HasRoot)
      (fun _ _ => True) docs := by
  have hdentry : ∀ {docs : Docs}, docs.RecordsRoot →
      ensureRootDentry.Upholds maxSize (fun _ => True) (fun _ after => after.HasRoot)
        (fun _ _ => True) docs := by
    intro docs hs
    refine upholds_ensureRootDentry trivial (fun hd _ => ⟨hs, hd⟩)
      (fun _ _ after ha => ⟨trivial, hs.of_same (ha.apply_of_ne (by simp)), ?_⟩) fun _ => trivial
    rw [Ne, ← Docs.value_eq_none_iff, ha.value_self]
    exact Option.some_ne_none _
  unfold bootstrap
  exact upholds_bind.mpr (upholds_ensureRootStat trivial hdentry
    (fun _ _ _ ha => ⟨trivial, hdentry (.of_put ha (Catalog.isDirectory_root now))⟩)
    fun _ _ => trivial)

end Tree

def Call.KeepsRoot {α : Type} (maxSize : Nat) (call : Call α) (docs : Docs) : Prop :=
  call.Upholds maxSize Docs.HasRoot (fun _ => Docs.HasRoot) (fun _ => Docs.HasRoot) docs

theorem Call.Only.keepsRoot {α : Type} {call : Call α} (h : call.Only SparesRoot)
    (hd : docs.HasRoot) : call.KeepsRoot maxSize docs :=
  h.upholds (fun _ _ _ _ hr hi => hi.answerWithin hr) hd

namespace Tree

-- The root has no content: a call for it stops at its record.
theorem upholds_fileStat_root (h : docs.HasRoot) :
    (fileStat limits Path.root).Upholds maxSize Docs.HasRoot (fun _ _ => False)
      (fun _ => Docs.HasRoot) docs := by
  unfold fileStat
  cases Path.checkLength Path.root limits.maxKeyLen with
  | error error => exact h
  | ok _ =>
  rw [ofExcept_ok_bind]
  refine upholds_bind.mpr (Metadata.upholds_find h (fun stat found hk hd => ?_)
    (fun _ => h) fun _ _ _ _ => h)
  refine upholds_bind.mpr (upholds_check.mpr ?_)
  rw [if_neg (not_not.mpr (h.stat.isDirectory hk hd))]
  exact h

theorem keepsRoot_after_fileStat {α : Type} {next : StatRecord → Call α} (h : docs.HasRoot) :
    (fileStat limits Path.root >>= next).KeepsRoot maxSize docs :=
  (upholds_fileStat_root h).bind (fun _ _ hp => hp.elim) fun _ _ he => he

-- A change leaves the file type as it is.
theorem keepsRoot_changeRecord {change : StatChange} (h : docs.HasRoot) :
    (do Call.ofExcept (Path.checkLength Path.root limits.maxKeyLen)
        Metadata.update Path.root change now).KeepsRoot maxSize docs := by
  cases Path.checkLength Path.root limits.maxKeyLen with
  | error error => exact h
  | ok _ =>
  rw [ofExcept_ok_bind]
  refine Metadata.upholds_change h (fun stat found after hk hd ha => ?_) fun _ => h
  have hdir : (stat.apply change (now 0)).isDirectory := by
    rw [StatRecord.isDirectory_apply]
    exact h.stat.isDirectory hk hd
  have hdentry : after .dentries Path.root ≠ none := by
    rw [ha.apply_of_ne (by simp)]
    exact h.dentry
  have hroot : after.HasRoot := ⟨.of_put ha hdir, hdentry⟩
  exact ⟨hroot, hroot⟩

theorem keepsRoot_split {α : Type} {next : String × String → Call α} (h : docs.HasRoot) :
    (ofExcept (Path.split Path.root limits.maxKeyLen) >>= next).KeepsRoot maxSize docs := by
  rcases @Path.split_root limits.maxKeyLen with he | he <;> rw [he] <;> exact h

end Tree

open DocTree.Tree in
theorem Operation.keepsRoot_of_root (operation : Operation) (hp : operation.path = Path.root)
    (h : docs.HasRoot) : (operation.call limits now).KeepsRoot maxSize docs := by
  have hget : ∀ collection key, SparesRoot collection (.get key) := fun _ _ => trivial
  cases operation with
  | bootstrap => exact (only_map (only_bootstrap (hget _ _) trivial trivial)).keepsRoot h
  | getattr path owner => exact (only_map (only_getattr (hget _ _))).keepsRoot h
  | openFile path flags => exact (only_map (only_openFile (hget _ _))).keepsRoot h
  | readdir path offset => exact (only_map (only_readdir (hget _ _) (hget _ _))).keepsRoot h
  | create path mode | mkdir path mode | unlink path | rmdir path =>
    obtain rfl : path = Path.root := hp
    exact upholds_map.mpr (keepsRoot_split h)
  | read path offset size | write path offset data | truncate path size =>
    obtain rfl : path = Path.root := hp
    exact upholds_map.mpr (keepsRoot_after_fileStat h)
  | chmod path mode | utimens path times =>
    obtain rfl : path = Path.root := hp
    exact upholds_map.mpr (keepsRoot_changeRecord h)

theorem Operation.keepsRoot (hv : limits.Valid) (operation : Operation) (h : docs.HasRoot) :
    (operation.call limits now).KeepsRoot maxSize docs := by
  by_cases hp : operation.path = Path.root
  · exact operation.keepsRoot_of_root hp h
  · have hother : ∀ collection (request : Request), request.key ≠ Path.root →
        SparesRoot collection request := by
      intro collection request hk
      cases request with
      | get key | insert key value => trivial
      | replace key value expected => exact fun _ => hk
      | remove key => exact .inr hk
    have hblocks : ∀ request, SparesRoot .blocks request := by
      intro request
      cases request with
      | get key | insert key value => trivial
      | replace key value expected => exact nofun
      | remove key => exact .inl rfl
    -- A call for another path may list it in the root, and no more.
    refine (operation.only_of hv (fun _ _ _ => trivial) ?_ ?_ ?_ ?_ ?_ ?_).keepsRoot h
    · exact fun _ _ => trivial
    · exact fun _ _ => hother _ _ hp
    · exact hother _ _ hp
    · exact fun request hk => hother _ _ (by rwa [hk])
    · exact fun _ _ => nofun
    · exact fun _ request _ _ => hblocks request

theorem hasRoot_afterSteps {scope : String} (hv : limits.Valid) (maxSize : Nat)
    (history : List Step) {image : Image} (h : (image.docs scope).HasRoot) :
    ((afterSteps limits (Image.backend maxSize scope) history image).docs scope).HasRoot := by
  induction history generalizing image with
  | nil => exact h
  | cons step rest ih =>
    apply ih
    have hkeeps : (step.operation.call limits step.now).KeepsRoot maxSize (image.docs scope) :=
      step.operation.keepsRoot hv h
    exact (Upholds.run hkeeps).docs_left

theorem Document.run_expectSuccess (maxSize : Nat) (scope : String) (collection : Collection)
    (request : Request) (image : Image) :
    (Document.expectSuccess collection request).run (Image.backend maxSize scope) image =
      if (image.apply maxSize scope collection request).2.status = .success then
        (.done (image.apply maxSize scope collection request).2,
          (image.apply maxSize scope collection request).1)
      else
        (.failed (image.apply maxSize scope collection request).2.status.error,
          (image.apply maxSize scope collection request).1) := by
  unfold Document.expectSuccess Document.execute
  change ((Call.submit _ _ _).bind _).run _ image = _
  simp only [Call.bind, Call.run, Image.backend, Call.check]
  split <;> rfl

theorem Metadata.run_get_of_record {image : Image} {maxSize : Nat} {scope path : String}
    {found : Document} {stat : StatRecord} (hk : image.docs scope .stats path = some found)
    (hd : StatRecord.decode found.value = .ok stat) :
    (Metadata.get path).run (Image.backend maxSize scope) image =
      (.done (stat, found.version), image) := by
  unfold Metadata.get Document.get
  change (Call.bind _ _).run _ image = _
  rw [run_bind, Document.run_expectSuccess, Image.apply_get hk]
  simp only [ite_true, hd]
  rfl

-- Nothing is left to do where there is a root, if the store has room for its document.
theorem Tree.run_bootstrap {image : Image} {scope : String} (h : (image.docs scope).HasRoot)
    (hl : (Dentry.new Path.root Path.root).encode.length ≤ maxSize) (now : TimeSpec) :
    (Tree.bootstrap now).run (Image.backend maxSize scope) image = (.done (), image) := by
  obtain ⟨found, stat, hk, hd, hdir⟩ := h.stat
  obtain ⟨document, hk'⟩ := Option.ne_none_iff_exists'.mp h.dentry
  have hget : (Metadata.get Path.root).run (Image.backend maxSize scope) image =
      (.done (stat, found.version), image) := Metadata.run_get_of_record hk hd
  have hstat : (ensureRootStat now).run (Image.backend maxSize scope) image =
      (.done (), image) := by
    unfold ensureRootStat
    change (Call.bind _ _).run _ image = _
    rw [run_bind, run_attempt, hget]
    simp only [Call.check, hdir, ite_true]
    rfl
  have hcreate : (Directory.create Path.root Path.root).run
      (Image.backend maxSize scope) image = (.failed .alreadyExists, image) := by
    unfold Directory.create Document.insert
    change (Call.bind (Call.bind _ _) _).run _ image = _
    rw [run_bind, run_bind, Document.run_expectSuccess, Image.apply_insert hk' hl]
    rfl
  unfold bootstrap ensureRootDentry
  change (Call.bind _ fun _ => Call.bind _ _).run _ image = _
  rw [run_bind, hstat]
  simp only [run_bind, run_attempt, hcreate]
  rfl

end DocTree
