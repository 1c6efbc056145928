import DocTree.Proofs.Content.Answered
import DocTree.Proofs.Kernel.Files
import DocTree.Proofs.Kernel.Times

namespace DocTree

open Call Blocks

variable {limits : Limits} {mounted : Mounted} {docs after : Docs} {path : String}
  {caller : Caller} {now : Readings} {moments : StatChange → TimeSpec} {old : StatRecord}

-- A change of attributes as the kernel asks for it.
inductive AttributeChange where
  | mode (bits : UInt32)
  | size (length : UInt64)
  | times (accessed modified : TimeUpdate.Wish)

-- What a change of a record makes of the bytes of a file.
def StatChange.onBytes (bytes : Bytes) : StatChange → Bytes
  | .size length => bytes.resize length.toNat
  | _ => bytes

namespace AttributeChange

-- The changes that one call asks for, in the order in which they are made.
def requested (mode : Option UInt32) (size : Option UInt64) (accessed modified : TimeUpdate.Wish) :
    List AttributeChange :=
  (mode.map AttributeChange.mode).toList ++ (size.map AttributeChange.size).toList ++
    match accessed, modified with
    | .omit, .omit => []
    | accessed, modified => [.times accessed modified]

-- What a change comes to at a path with the record `old`, or why it is refused.
def grant (limits : Limits) (old : StatRecord) : AttributeChange → Except FsError StatChange
  | mode bits => .ok (.mode bits)
  | size length =>
    if old.isDirectory then .error .isDirectory
    else if limits.maxFileLen < length.toNat then .error .fileTooLarge
    else .ok (.size length)
  | times accessed modified => do
    return .times (some (← TimeUpdate.ofWish accessed, ← TimeUpdate.ofWish modified))

-- The changes in front of the first one that is refused, and why that is, if one is refused.
def grantAll (limits : Limits) (old : StatRecord) :
    List AttributeChange → List StatChange × Option FsError
  | [] => ([], none)
  | change :: rest =>
    match change.grant limits old with
    | .error error => ([], some error)
    | .ok granted => ((grantAll limits old rest).map (granted :: ·) id)

theorem grant_size (length : UInt64) : grant limits old (.size length) =
    if old.isDirectory then .error .isDirectory
    else if limits.maxFileLen < length.toNat then .error .fileTooLarge
    else .ok (.size length) := rfl

theorem grant_times (accessed modified : TimeUpdate.Wish) :
    grant limits old (.times accessed modified) = do
      return .times (some (← TimeUpdate.ofWish accessed, ← TimeUpdate.ofWish modified)) := rfl

-- No change turns a directory into a file, or a file into a directory.
theorem grant_apply (change : AttributeChange) (made : StatChange) (madeAt : TimeSpec) :
    change.grant limits (old.apply made madeAt) = change.grant limits old := by
  cases change <;> simp only [grant, StatRecord.isDirectory_apply]

theorem grantAll_apply (changes : List AttributeChange) (made : StatChange)
    (madeAt : TimeSpec) :
    grantAll limits (old.apply made madeAt) changes = grantAll limits old changes := by
  induction changes with
  | nil => rfl
  | cons change rest ih => rw [grantAll, grantAll, grant_apply, ih]

def make (limits : Limits) (path : String) (now : Readings) : AttributeChange → Call Unit
  | mode bits => do let _ ← Tree.chmod limits path bits now
  | size length => do let _ ← Tree.truncate limits path length (now.after maxAttempts)
  | times accessed modified =>
    KernelCall.setAttributes.setTimes limits path accessed modified now

def makeAll (limits : Limits) (path : String) (now : Readings) :
    List AttributeChange → Call Unit
  | [] => pure ()
  | change :: rest => do
    change.make limits path now
    makeAll limits path now rest

theorem setAttributes_eq (mode : Option UInt32) (size : Option UInt64)
    (accessed modified : TimeUpdate.Wish) :
    KernelCall.setAttributes limits path mode size accessed modified now =
      makeAll limits path now (requested mode size accessed modified) := by
  have htimes : KernelCall.setAttributes.setTimes limits path accessed modified now =
      makeAll limits path now (requested none none accessed modified) := by
    have hlast : ∀ call : Call Unit, call = (call >>= fun _ => pure ()) := fun call =>
      bind_pure_unit.symm
    cases accessed <;> cases modified <;> first | rfl | exact hlast _
  unfold KernelCall.setAttributes
  rw [htimes]
  cases mode <;> cases size <;> rfl

end AttributeChange

namespace StatChange

-- What the clock shows when a change of a kind is made, if nobody else is at the record.
def madeAt (now : Readings) : StatChange → TimeSpec
  | .mode _ => now 0
  | .size _ => now maxAttempts
  | _ => now (2 * maxAttempts)

-- The documents that a change touches: the record, and for a new size the blocks of the file.
def Touches (limits : Limits) (path : String) (change : StatChange) : Collection → String → Prop
  | .stats, key => key = path
  | .dentries, _ => False
  | .blocks, key =>
    (∃ length, change = .size length) ∧ ∃ index < limits.maxBlocks, key = Path.blockKey path index

end StatChange

-- What changes of its record, made one after the other, leave of a path that had the record `old`,
-- and of everything else.
structure Docs.Amended (limits : Limits) (path : String) (moments : StatChange → TimeSpec)
    (old : StatRecord) (made : List StatChange) (docs after : Docs) : Prop where
  stat : after.StatAt path
    (some (made.foldl (fun stat change => stat.apply change (moments change)) old))
  bytes : ∀ bytes, docs.Holds limits path bytes →
    after.Holds limits path (made.foldl StatChange.onBytes bytes)
  others : docs.SameOutside
    (fun collection key => ∃ change ∈ made, change.Touches limits path collection key) after

namespace Docs

theorem Holds.inj (hv : limits.Valid) {first second : Bytes} (h : docs.Holds limits path first)
    (ho : docs.Holds limits path second) : first = second := by
  obtain ⟨stat, hs, -, hf⟩ := h.stat
  obtain ⟨other, hother, -, hl⟩ := ho.stat
  obtain rfl := Option.some_inj.mp (hs.inj hother)
  rw [← h.blocks.below_eq hv.blockSize_pos, ← ho.blocks.below_eq hv.blockSize_pos, ← hf, ← hl]

namespace Amended

variable {made : List StatChange} {mid : Docs} {change : StatChange}

-- Where no change is made, everything is as it was.
theorem nil_iff : docs.Amended limits path moments old [] after ↔
    docs.StatAt path (some old) ∧ after = docs := by
  constructor
  · intro h
    have hsame : after = docs := by
      funext collection key
      exact h.others collection key fun ⟨_, hm, _⟩ => nomatch hm
    exact ⟨hsame ▸ h.stat, hsame⟩
  · rintro ⟨hs, rfl⟩
    exact ⟨hs, fun _ h => h, fun _ _ _ => rfl⟩

theorem cons (h : docs.Amended limits path moments old [change] mid)
    (hr : mid.Amended limits path moments (old.apply change (moments change)) made after) :
    docs.Amended limits path moments old (change :: made) after := by
  refine ⟨hr.stat, fun bytes hb => hr.bytes _ (h.bytes bytes hb), fun collection key hn => ?_⟩
  have hrest := hr.others collection key fun ⟨other, hm, ht⟩ =>
    hn ⟨other, List.mem_cons_of_mem _ hm, ht⟩
  refine hrest.trans (h.others collection key fun ⟨other, hm, ht⟩ => hn ⟨other, ?_, ht⟩)
  exact List.mem_singleton.mp hm ▸ List.mem_cons_self ..

end Amended

-- The change of a record that leaves the size.
theorem Put.amended {change : StatChange}
    (h : docs.Put .stats path (old.apply change (moments change)).encode after)
    (hs : docs.StatAt path (some old)) (hc : ∀ length, change ≠ .size length) :
    docs.Amended limits path moments old [change] after := by
  refine ⟨h.statAt, fun bytes hb => ?_, fun collection key hn => ?_⟩
  swap
  · refine h.apply_of_ne fun heq => hn ⟨change, List.mem_singleton_self _, ?_⟩
    obtain ⟨rfl, rfl⟩ := heq
    rfl
  obtain ⟨stat, hstat, hreg, hsize⟩ := hb.stat
  obtain rfl := Option.some_inj.mp (hs.inj hstat)
  have hsame : change.onBytes bytes = bytes ∧ change.sizeAfter old.size = old.size := by
    cases change <;> first | exact ⟨rfl, rfl⟩ | exact absurd rfl (hc _)
  rw [List.foldl_cons, List.foldl_nil, hsame.1]
  refine Tree.holds_of_put hb.blocks hb.length_le ?_ ?_ h
  · rw [StatRecord.isRegularFile_apply, hreg]
  · rw [StatRecord.size_apply, hsame.2, hsize]

end Docs

namespace Tree

-- The requests other than looks are for the record and the blocks of the file.
theorem only_truncate_touches (hv : limits.Valid) {length : UInt64} :
    (truncate limits path length now).Only fun collection request =>
      (∃ key, request = .get key) ∨
        (StatChange.size length).Touches limits path collection request.key :=
  only_truncate (.inl ⟨_, rfl⟩) (fun _ _ => .inr rfl) hv
    fun index _ hi hk => .inr ⟨⟨length, rfl⟩, index, hi, hk⟩

variable (hs : docs.StatAt path (some old)) (hl : path.utf8ByteSize ≤ limits.maxKeyLen)

include hs hl

theorem ensures_update_stat {change : StatChange} (hc : ∀ length, change ≠ .size length)
    (ht : moments change = now 0) :
    (do Call.ofExcept (Path.checkLength path limits.maxKeyLen)
        Metadata.update path change now).Ensures (fun _ => False)
      (fun _ after => docs.Amended limits path moments old [change] after) (fun _ _ => False)
      docs := by
  rw [Path.checkLength_eq_ok.mpr hl, ofExcept_ok_bind]
  refine Metadata.ensures_update hs (fun stat after hr ha => ?_) nofun
    fun h => h.choose_spec.elim
  obtain rfl := Option.some_inj.mp hr
  rw [← ht] at ha
  exact ha.amended hs hc

theorem ensures_fileStat_stat : (fileStat limits path).Ensures (fun _ => False)
    (fun found after => after = docs ∧ found = old ∧ old.isDirectory = false)
    (fun error after => after = docs ∧ error = .isDirectory ∧ old.isDirectory = true) docs := by
  unfold fileStat
  rw [Path.checkLength_eq_ok.mpr hl, ofExcept_ok_bind]
  refine ensures_bind.mpr (Metadata.ensures_get hs (fun stat found hr _ => ?_) nofun
    fun h => h.elim)
  obtain rfl := Option.some_inj.mp hr
  rw [ensures_bind, ensures_check]
  split
  · next hd => exact ⟨rfl, rfl, by simpa using hd⟩
  · next hd => exact ⟨rfl, rfl, by simpa using hd⟩

variable (hv : limits.Valid) {length : UInt64}

include hv

-- Whatever the blocks are.
theorem ensures_truncate_stat : (truncate limits path length now).Ensures (fun _ => False)
    (fun _ after => AttributeChange.grant limits old (.size length) = .ok (.size length) ∧
      after.StatAt path (some (old.apply (.size length) (now 0))))
    (fun error after => AttributeChange.grant limits old (.size length) = .error error ∧
      after = docs) docs := by
  unfold truncate
  rw [AttributeChange.grant_size]
  refine (ensures_fileStat_stat hs hl).bind (fun found mid hpost => ?_) fun error after hpost => ?_
  swap
  · obtain ⟨rfl, rfl, hd⟩ := hpost
    exact ⟨if_pos hd, rfl⟩
  obtain ⟨rfl, rfl, hd⟩ := hpost
  rw [if_neg (by simp [hd]), ensures_bind, ensures_check]
  split
  swap
  · next hlong => exact ⟨if_pos (by omega), rfl⟩
  next hfits =>
  rw [if_neg (by omega), ← bind_pure (Metadata.update path (.size length) now)]
  refine ensures_then_update found
    ((goesThrough_resizeContent hv hfits mid).frame
      (only_resizeContent hv (Content.permits_onBlocks _ _) hfits) |>.mono (fun _ _ h => h)
        fun _ _ h => h.1.elim) ?_ ?_ fun h => h.choose_spec.elim
  · exact fun _ between hpost => hpost.2.statAt hs
  · exact fun _ between after _ ha => ⟨rfl, ha.statAt⟩

theorem ensures_truncate_amended (ht : moments (.size length) = now 0) :
    (truncate limits path length now).Ensures (fun _ => False)
    (fun _ after => AttributeChange.grant limits old (.size length) = .ok (.size length) ∧
      docs.Amended limits path moments old [.size length] after)
    (fun error after => AttributeChange.grant limits old (.size length) = .error error ∧
      after = docs) docs := by
  have hstat : (truncate limits path length now).Ensures _ _ _ docs :=
    ensures_truncate_stat hs hl hv
  have hbytes : (truncate limits path length now).Ensures (fun _ => False)
      (fun _ after => ∀ bytes, docs.Holds limits path bytes →
        after.Holds limits path (bytes.resize length.toNat)) (fun _ _ => True) docs := by
    by_cases hb : ∃ bytes, docs.Holds limits path bytes
    · obtain ⟨bytes, hb⟩ := hb
      refine (ensures_truncate_file hv hb fun _ h => h).mono (fun _ after hpost other ho => ?_)
        fun _ _ _ => trivial
      obtain ⟨-, -, hheld, -⟩ := hpost
      exact ho.inj hv hb ▸ hheld
    · exact hstat.mono (fun _ _ _ bytes h => absurd ⟨bytes, h⟩ hb) fun _ _ _ => trivial
  have hothers : (truncate limits path length now).Ensures (fun _ => False) _ _ docs :=
    (only_truncate_touches hv).ensures_sameOutside
  refine ((hstat.and hbytes).and hothers).mono (fun _ after hpost => ?_)
    fun _ _ hpost => hpost.1.1
  obtain ⟨⟨⟨hgrant, hrecord⟩, hheld⟩, hsame⟩ := hpost
  rw [← ht] at hrecord
  refine ⟨hgrant, hrecord, hheld, fun collection key hn => hsame collection key fun h => ?_⟩
  exact hn ⟨_, List.mem_singleton_self _, h⟩

end Tree

namespace AttributeChange

theorem ensures_setTimes (hl : path.utf8ByteSize ≤ limits.maxKeyLen)
    (hs : docs.StatAt path (some old)) (accessed modified : TimeUpdate.Wish) :
    (KernelCall.setAttributes.setTimes limits path accessed modified now).Ensures (fun _ => False)
      (fun _ after => ∃ granted, grant limits old (.times accessed modified) = .ok granted ∧
        docs.Amended limits path (StatChange.madeAt now) old [granted] after)
      (fun error after => grant limits old (.times accessed modified) = .error error ∧
        after = docs) docs := by
  rw [grant_times]
  unfold KernelCall.setAttributes.setTimes
  split
  · refine ⟨.times (some (.omit, .omit)), rfl, ?_, fun _ h => h, fun _ _ _ => rfl⟩
    rwa [List.foldl_cons, List.foldl_nil, StatRecord.apply_times_omit]
  · cases hf : TimeUpdate.ofWish accessed with
    | error error => exact ⟨rfl, rfl⟩
    | ok first =>
    cases hsec : TimeUpdate.ofWish modified with
    | error error => exact ⟨rfl, rfl⟩
    | ok second =>
    rw [ofExcept_ok_bind, ofExcept_ok_bind]
    have hc : ∀ length, StatChange.times (some (first, second)) ≠ .size length := nofun
    have ht : StatChange.madeAt now (.times (some (first, second))) =
        now.after (2 * maxAttempts) 0 := (now.after_zero _).symm
    refine (Tree.ensures_update_stat hs hl hc ht).bind (fun _ after ha => ?_) fun _ _ h => h.elim
    exact ⟨.times (some (first, second)), rfl, ha⟩

theorem ensures_make (hv : limits.Valid) (hl : path.utf8ByteSize ≤ limits.maxKeyLen)
    (hs : docs.StatAt path (some old)) (change : AttributeChange) :
    (change.make limits path now).Ensures (fun _ => False)
      (fun _ after => ∃ granted, change.grant limits old = .ok granted ∧
        docs.Amended limits path (StatChange.madeAt now) old [granted] after)
      (fun error after => change.grant limits old = .error error ∧ after = docs) docs := by
  cases change with
  | mode bits =>
    have hc : ∀ length, StatChange.mode bits ≠ .size length := nofun
    have ht : StatChange.madeAt now (.mode bits) = now 0 := rfl
    refine (Tree.ensures_update_stat hs hl hc ht).bind (fun _ after ha => ?_) fun _ _ h => h.elim
    exact ⟨.mode bits, rfl, ha⟩
  | size length =>
    have ht : StatChange.madeAt now (.size length) = now.after maxAttempts 0 :=
      (now.after_zero _).symm
    refine (Tree.ensures_truncate_amended hs hl hv ht).bind (fun _ after hpost => ?_) fun _ _ h => h
    exact ⟨.size length, hpost⟩
  | times accessed modified => exact ensures_setTimes hl hs accessed modified

theorem ensures_makeAll (hv : limits.Valid) (hl : path.utf8ByteSize ≤ limits.maxKeyLen)
    (hs : docs.StatAt path (some old)) (changes : List AttributeChange) :
    (makeAll limits path now changes).Ensures (fun _ => False)
      (fun _ after => ∃ made, grantAll limits old changes = (made, none) ∧
        docs.Amended limits path (StatChange.madeAt now) old made after)
      (fun error after => ∃ made, grantAll limits old changes = (made, some error) ∧
        docs.Amended limits path (StatChange.madeAt now) old made after) docs := by
  induction changes generalizing docs old with
  | nil => exact ⟨[], rfl, Docs.Amended.nil_iff.mpr ⟨hs, rfl⟩⟩
  | cons change rest ih =>
    refine (ensures_make hv hl hs change).bind (fun _ mid hpost => ?_) fun error mid hpost => ?_
    · obtain ⟨granted, hg, hmid⟩ := hpost
      -- The rest is granted as it would have been before the first change.
      have hall : ∀ {made error?},
          grantAll limits (old.apply granted (granted.madeAt now)) rest = (made, error?) →
            grantAll limits old (change :: rest) = (granted :: made, error?) := by
        intro made error? h
        rw [grantAll_apply] at h
        rw [grantAll, hg, h]
        rfl
      refine (ih hmid.stat).mono (fun _ after hpost => ?_) fun error after hpost => ?_
      · obtain ⟨made, hm, ha⟩ := hpost
        exact ⟨granted :: made, hall hm, hmid.cons ha⟩
      · obtain ⟨made, hm, ha⟩ := hpost
        exact ⟨granted :: made, hall hm, hmid.cons ha⟩
    · obtain ⟨hg, rfl⟩ := hpost
      exact ⟨[], by rw [grantAll, hg], Docs.Amended.nil_iff.mpr ⟨hs, rfl⟩⟩

end AttributeChange

namespace KernelCall

-- A reply to a call for changes.
def AnswersChanges (mounted : Mounted) (path : String) (caller : Caller) (stat : StatRecord) :
    Option FsError → KernelReply × Mounted → Prop
  | none, result => Tells mounted path caller stat .attr result
  | some error, result => result = (.error error.errno, mounted)

variable {ino : Nat} {mode : Option UInt32} {size : Option UInt64}
  {accessed modified : TimeUpdate.Wish}

theorem ensures_setattr (hv : limits.Valid) (hm : mounted.InUse limits docs)
    (hino : mounted.inodes.pathOf? ino = some path) (hs : docs.StatAt path (some old)) :
    ((setattr ino mode size accessed modified).call mounted caller now).Ensures (fun _ => False)
      (fun result after => ∃ made error?,
        AttributeChange.grantAll limits old
          (AttributeChange.requested mode size accessed modified) = (made, error?) ∧
        docs.Amended limits path (StatChange.madeAt now) old made after ∧
        AnswersChanges mounted path caller
          (made.foldl (fun stat change => stat.apply change (change.madeAt now)) old) error? result)
      (fun _ _ => False) docs := by
  obtain ⟨catalog, hd, hw, hk⟩ := id hm
  have hl := hw.length_le_of_exists hv.maxKeyLen_pos (hd.stats_eq hs)
  obtain rfl := hk.limits_eq
  unfold call
  dsimp only
  rw [withPath_eq, hino, Option.elim_some, AttributeChange.setAttributes_eq]
  have hkept : (AttributeChange.makeAll mounted.limits path now
      (AttributeChange.requested mode size accessed modified)).Ensures (fun _ => False)
      (fun _ after => mounted.InUse mounted.limits after)
      (fun _ after => mounted.InUse mounted.limits after) docs :=
    AttributeChange.setAttributes_eq mode size accessed modified ▸
      built_setAttributes.ensures_inUse hv hm
  refine ensures_withAnswer.mpr (((AttributeChange.ensures_makeAll hv hl hs _).and hkept).mono
    (fun _ mid hpost => ?_) fun error after hpost => ?_)
  · obtain ⟨⟨made, hmade, hmid⟩, later, hlater, -⟩ := hpost
    refine (ensures_replyAttr hlater).mono (fun result after hpost => ?_) fun _ _ h => h
    obtain ⟨rfl, ⟨stat, hstat, ht⟩ | ⟨hlong | hnone, -⟩⟩ := hpost
    · rw [hlater.stats_eq hmid.stat, Option.some_inj] at hstat
      exact ⟨made, none, hmade, hmid, hstat ▸ ht⟩
    · omega
    · rw [hlater.stats_eq hmid.stat] at hnone
      cases hnone
  · obtain ⟨⟨made, hmade, hafter⟩, -⟩ := hpost
    exact ⟨made, some error, hmade, hafter, rfl⟩

end KernelCall

-- In the states that kernel calls lead to.
theorem Served.changes_are_made_in_order {served : Served Image} {scope : String} {header : Header}
    (hm : served.MountedOn (Image.unlimited scope) limits (Image.new header))
    (history : List KernelStep) (times : Nat → Instant) (caller : Caller) (ino : Nat)
    (mode : Option UInt32) (size : Option UInt64) (accessed modified : TimeUpdate.Wish) :
    let backend := Image.unlimited scope
    let reached := afterKernel backend history served
    let docs := reached.store.docs scope
    let step : KernelStep := ⟨times, caller, .setattr ino mode size accessed modified⟩
    let result := step.run backend reached
    (reached.mounted.inodes.pathOf? ino = none →
      result = (.done (.error FsError.notFound.errno), reached)) ∧
    ∀ path, reached.mounted.inodes.pathOf? ino = some path → ∃ old made error?,
      docs.StatAt path (some old) ∧
      ((∀ step ∈ history, step.call.NulFree) → old.isRegularFile →
        ∃ bytes, docs.Holds limits path bytes) ∧
      AttributeChange.grantAll limits old
        (AttributeChange.requested mode size accessed modified) = (made, error?) ∧
      docs.Amended limits path (StatChange.madeAt step.now) old made (result.2.store.docs scope) ∧
      (∀ space, space ≠ scope → result.2.store.docs space = reached.store.docs space) ∧
      result.2.mounted = reached.mounted ∧
      match error? with
      | none => ∃ told, result.1 = .done (.attr told) ∧ reached.mounted.Describes path caller
          (made.foldl (fun stat change => stat.apply change (change.madeAt step.now)) old)
            (some told)
      | some error => result.1 = .done (.error error.errno) := by
  intro backend reached docs step result
  have hb := (Image.unlimited_serves scope).mayServe
  obtain ⟨hv, -⟩ := hm.bootstrapped
  have hreached : reached.InUse limits scope := hm.inUse.after hv history
  have hreports : reached.mounted.Reports limits docs :=
    afterKernel_reports hb hv (hm.reports hb fun key => by rw [Image.docs_new]) history
  refine ⟨fun hn => (unknown_of_absent hn).refused _ rfl id, fun path hino => ?_⟩
  obtain ⟨-, old, hs⟩ := hreached.holds hino
  obtain ⟨reply, hr, made, error?, hmade, hafter, hanswer⟩ :=
    step.run_of_ensures (Image.unlimited_serves scope)
      (KernelCall.ensures_setattr hv hreached hino hs)
  have hholds : (∀ step ∈ history, step.call.NulFree) → old.isRegularFile →
      ∃ bytes, docs.Holds limits path bytes := fun hn hreg =>
    (hm.inUse.holdsFiles_after hv hm.holdsFiles hn).exists_bytes hs hreg
  have hother : ∀ space, space ≠ scope → result.2.store.docs space = reached.store.docs space :=
    fun _ hne => step.docs_run_of_ne hne reached
  refine ⟨old, made, error?, hs, hholds, hmade, hafter, hother, ?_⟩
  cases error? with
  | some error =>
    obtain ⟨hreply, hmounted⟩ := Prod.mk.inj hanswer
    exact ⟨hmounted, hr.trans (congrArg Outcome.done hreply)⟩
  | none =>
    -- The record that is left can be told, as all records can.
    obtain ⟨_, -, hanswers⟩ := step.run_answers hb hv hreports
    have hsound := hanswers.reports.sound.of_records hafter.stat.records
    obtain ⟨told, ht, he⟩ := KernelCall.Tells.exists_attr hanswer hsound
    obtain ⟨hreply, hmounted⟩ := Prod.mk.inj he
    exact ⟨hmounted.trans (hreports.knows.numberOf_of_pathOf? hino), told,
      hr.trans (congrArg Outcome.done hreply), ht⟩

namespace Sample

-- The time to set lies before the epoch.
def changeAll (ino : Nat) : KernelStep :=
  ⟨clock, user, .setattr ino (some 0o600) (some 5) (.at early) .omit⟩

def newFile : StatRecord := .new 0o100644 Instant.epoch.reading

def errno? : Outcome KernelReply → Option Nat
  | .done (.error errno) => some errno
  | _ => none

theorem of_errno? {outcome : Outcome KernelReply} {errno : Nat}
    (h : errno? outcome = some errno) : outcome = .done (.error errno) := by
  unfold errno? at h
  split at h
  · exact congrArg _ (congrArg _ (Option.some_inj.mp h))
  · cases h

end Sample

open Sample in
theorem sample_changes_are_made_in_order :
    (served []).MountedOn (Image.unlimited defaultScope) Sample.limits (Image.new default) ∧
      (served [makeFile]).mounted.inodes.pathOf? 3 = none ∧
      (changeAll 3).run (Image.unlimited defaultScope) (served [makeFile]) =
        (.done (.error FsError.notFound.errno), served [makeFile]) ∧
      (served [makeFile]).mounted.inodes.pathOf? 2 = some "/f" ∧
      ((changeAll 2).run (Image.unlimited defaultScope) (served [makeFile])).1 =
        .done (.error FsError.invalidArgument.errno) ∧
      ((served [makeFile]).store.docs defaultScope).StatAt "/f" (some newFile) ∧
      ((served [makeFile]).store.docs defaultScope).Amended Sample.limits "/f"
        (StatChange.madeAt (changeAll 2).now) newFile [.mode 0o600, .size 5]
        ((served [makeFile, changeAll 2]).store.docs defaultScope) ∧
      (∀ step ∈ [makeFile], step.call.NulFree) ∧ newFile.isRegularFile ∧
      ∃ bytes, ((served [makeFile]).store.docs defaultScope).Holds Sample.limits "/f" bytes := by
  have hm : (served []).MountedOn (Image.unlimited defaultScope) Sample.limits
      (Image.new default) := Served.mountedOn_fresh (by decide) (by decide +kernel)
  have hunknown : (served [makeFile]).mounted.inodes.pathOf? 3 = none := by decide +kernel
  have hknown : (served [makeFile]).mounted.inodes.pathOf? 2 = some "/f" := by decide +kernel
  have hn : ∀ step ∈ [makeFile], step.call.NulFree := by decide
  have hr : newFile.isRegularFile := by decide
  have hstat : ((served [makeFile]).store.docs defaultScope).value .stats "/f" =
      some newFile.encode := by decide +kernel
  have hchanges := fun ino => Served.changes_are_made_in_order hm [makeFile] clock user ino
    (some 0o600) (some 5) (.at early) .omit
  obtain ⟨old, made, error?, hs, hbytes, hgrant, hafter, -, -, hreply⟩ :=
    (hchanges 2).2 "/f" hknown
  obtain rfl := Option.some_inj.mp (hs.inj hstat)
  obtain ⟨rfl, rfl⟩ : [.mode 0o600, .size 5] = made ∧ some .invalidArgument = error? :=
    Prod.mk.inj hgrant
  exact ⟨hm, hunknown, (hchanges 3).1 hunknown, hknown, hreply, hstat, hafter, hn, hr,
    hbytes hn hr⟩

open Sample in
-- The call is refused, and the file has another record and other content.
theorem sample_changes_made_before_a_refusal :
    (served []).MountedOn (Image.unlimited defaultScope) Sample.limits (Image.new default) ∧
      ((changeAll 2).run (Image.unlimited defaultScope) (served [makeFile])).1 =
        .done (.error FsError.invalidArgument.errno) ∧
      ((served [makeFile, changeAll 2]).store.docs defaultScope).value .stats "/f" ≠
        ((served [makeFile]).store.docs defaultScope).value .stats "/f" ∧
      ((served [makeFile, changeAll 2]).store.docs defaultScope).value .blocks "/f" ≠
        ((served [makeFile]).store.docs defaultScope).value .blocks "/f" :=
  ⟨Served.mountedOn_fresh (by decide) (by decide +kernel), of_errno? (by decide +kernel),
    by decide +kernel, by decide +kernel⟩

end DocTree
