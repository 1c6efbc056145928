import DocTree.Proofs.Kernel.Withstood
import DocTree.Proofs.Run.Listed

namespace DocTree

open Call

variable {limits : Limits} {mounted : Mounted} {docs after : Docs} {path : String}
  {caller : Caller} {time : Instant} {times : Nat → Instant} {now : Readings} {old : TimeSpec}
  {stat : StatRecord}

-- The instant that is told of a time once a wish for it is granted at `time`. The clock does not
-- read less than the epoch.
def TimeUpdate.Wish.Shown (wish : TimeUpdate.Wish) (time : Instant) (old : TimeSpec)
    (shown : Instant) : Prop :=
  match wish with
  | .omit => Instant.ofTimeSpec? old = some shown
  | .now => shown = if time.sec < 0 then .epoch else time
  | .at instant => shown = instant

theorem Instant.ofTimeSpec?_reading (time : Instant) :
    ofTimeSpec? time.reading = some (if time.sec < 0 then epoch else time) := by
  unfold reading Clock.now
  split
  · have hepoch : epoch.toTimeSpec? = some .epoch := by decide
    exact ofTimeSpec?_toTimeSpec? hepoch
  · next h =>
    have hs : time.toTimeSpec? = some _ := if_pos (Int.not_lt.mp h)
    exact ofTimeSpec?_toTimeSpec? hs

namespace TimeUpdate

variable {wish : Wish} {update : TimeUpdate}

theorem shown_of_wish (h : ofWish wish = .ok update) {shown : Instant}
    (hs : Instant.ofTimeSpec? (update.apply old time.reading) = some shown) :
    wish.Shown time old shown := by
  cases wish with
  | «omit» =>
    cases h
    exact hs
  | now =>
    cases h
    rw [apply, Instant.ofTimeSpec?_reading, Option.some_inj] at hs
    exact hs.symm
  | «at» instant =>
    unfold ofWish at h
    dsimp only at h
    split at h
    · next stored ht =>
      cases h
      rw [apply, Instant.ofTimeSpec?_toTimeSpec? ht, Option.some_inj] at hs
      exact hs.symm
    · cases h

theorem ofWish_beforeEpoch {instant : Instant} (h : instant.sec < 0) :
    ofWish (.at instant) = .error .invalidArgument := by
  unfold ofWish
  dsimp only
  rw [Instant.toTimeSpec?_eq_none h]

theorem ofWish_eq_error {error : FsError} (h : ofWish wish = .error error) :
    error = .invalidArgument := by
  cases wish with
  | «omit» => cases h
  | now => cases h
  | «at» instant =>
    unfold ofWish at h
    dsimp only at h
    split at h <;> cases h
    rfl

end TimeUpdate

namespace StatRecord

variable {first second : TimeUpdate}

theorem accessedAt_apply_times {now : TimeSpec} :
    (stat.apply (.times (some (first, second))) now).accessedAt =
      first.apply stat.accessedAt now := by
  cases first <;> cases second <;> rfl

theorem modifiedAt_apply_times {now : TimeSpec} :
    (stat.apply (.times (some (first, second))) now).modifiedAt =
      second.apply stat.modifiedAt now := by
  cases first <;> cases second <;> rfl

end StatRecord

namespace KernelCall

variable {accessed modified : TimeUpdate.Wish}

-- The record that a path has after its times were set, and the one that it had before. Both times
-- come from one reading of the clock; a call makes three changes at most, each with at most
-- `maxAttempts` readings.
def TimesSet (docs : Docs) (path : String) (now : Readings) (accessed modified : TimeUpdate.Wish)
    (stat : StatRecord) : Prop :=
  ∃ old, ∃ reading < 3 * maxAttempts, ∃ first second, docs.Records path old ∧
    TimeUpdate.ofWish accessed = .ok first ∧ TimeUpdate.ofWish modified = .ok second ∧
    stat = old.apply (.times (some (first, second))) (now reading)

theorem setAttributes_times : setAttributes limits path none none accessed modified now =
    setAttributes.setTimes limits path accessed modified now := rfl

theorem withstands_setTimes :
    (setAttributes.setTimes limits path accessed modified now).Withstands
      (fun _ after => ∀ stat, after.Records path stat →
        TimesSet docs path now accessed modified stat)
      (fun _ _ => True) docs := by
  have hupdate : ∀ first second, TimeUpdate.ofWish accessed = .ok first →
      TimeUpdate.ofWish modified = .ok second →
      (Tree.utimens limits path (some (first, second)) (now.after (2 * maxAttempts))).Withstands
        (fun _ after => ∀ stat, after.Records path stat →
          TimesSet docs path now accessed modified stat)
        (fun _ _ => True) docs := by
    intro first second hf hs
    unfold Tree.utimens
    refine withstands_bind.mpr (withstands_ofExcept.mpr ?_)
    split
    · refine Metadata.withstands_update
        (fun tried ht old found after hk hd ha => ⟨?_, fun _ => trivial⟩) fun _ => trivial
      exact fun stat hstat => ⟨old, tried + 2 * maxAttempts, by omega, first, second,
        ⟨found, hk, hd⟩, hf, hs, hstat.inj ha.records⟩
    · trivial
  unfold setAttributes.setTimes
  split
  · exact fun stat hs => ⟨stat, 0, by decide, .omit, .omit, hs, rfl, rfl,
      (stat.apply_times_omit _).symm⟩
  · cases hf : TimeUpdate.ofWish accessed with
    | error error => trivial
    | ok first =>
    cases hs : TimeUpdate.ofWish modified with
    | error error => trivial
    | ok second =>
    rw [ofExcept_ok_bind, ofExcept_ok_bind]
    exact withstands_bind.mpr (hupdate first second hf hs)

-- A time before the epoch is found out before any request is made.
theorem setTimes_beforeEpoch {instant : Instant} (h : instant.sec < 0)
    (hw : accessed = .at instant ∨ modified = .at instant) :
    setAttributes.setTimes limits path accessed modified now = fail .invalidArgument := by
  unfold setAttributes.setTimes
  split
  · rcases hw with hw | hw <;> cases hw
  · rcases hw with rfl | rfl
    · rw [TimeUpdate.ofWish_beforeEpoch h]
      rfl
    · rw [TimeUpdate.ofWish_beforeEpoch h]
      cases hf : TimeUpdate.ofWish accessed with
      | ok first => rfl
      | error error =>
        rw [TimeUpdate.ofWish_eq_error hf]
        rfl

theorem withstands_setattr_times {ino : Nat} (hm : mounted.Reports limits docs)
    (hino : mounted.inodes.pathOf? ino = some path) :
    ((setattr ino none none accessed modified).call mounted caller now).Withstands
      (fun result after => ∀ told, result.1 = .attr told →
        result.2.inodes.pathOf? ino = some path ∧ path.utf8ByteSize ≤ limits.maxKeyLen ∧
          ∃ stat, after.Records path stat ∧ TimesSet docs path now accessed modified stat)
      (fun _ _ => False) docs := by
  unfold call
  dsimp only
  rw [withPath_eq, hino, Option.elim_some, setAttributes_times, hm.knows.limits_eq]
  refine withstands_withAnswer.mpr (withstands_setTimes.mono (fun _ between hset => ?_)
    fun _ _ _ _ hc => KernelReply.noConfusion hc)
  refine withstands_replyAttr.mono (fun result after hpost => ?_) fun _ _ h => h
  obtain ⟨rfl, ⟨stat, hs, hl, ht⟩ | ⟨errno, rfl⟩⟩ := hpost
  · rw [hm.knows.limits_eq] at hl
    cases ht with
    | attr h =>
      have hgrown : mounted.Grown limits (fun _ => True) (mounted.numberOf path).2 :=
        hm.knows.grown_numberOf trivial
      exact fun told _ => ⟨hgrown.kept _ _ hino, hl, stat, hs, hset stat hs⟩
    | crashed h => exact fun _ hc => KernelReply.noConfusion hc
  · exact fun _ hc => KernelReply.noConfusion hc

theorem withstands_getattr_times {ino : Nat} (hino : mounted.inodes.pathOf? ino = some path) :
    ((getattr ino).call mounted caller now).Withstands
      (fun result _ => ∀ shown, result.1 = .attr shown → ∃ stat, docs.Records path stat ∧
        Instant.ofTimeSpec? stat.accessedAt = some shown.accessedAt ∧
          Instant.ofTimeSpec? stat.modifiedAt = some shown.modifiedAt)
      (fun _ _ => False) docs := by
  unfold call
  dsimp only
  rw [withPath_eq, hino, Option.elim_some]
  refine withstands_replyAttr.mono (fun result after hpost => ?_) fun _ _ h => h
  obtain ⟨rfl, ⟨stat, hs, -, ht⟩ | ⟨errno, rfl⟩⟩ := hpost
  · cases ht with
    | attr h =>
      obtain ⟨-, -, ha, hm, -⟩ := Attributes.of_fileAttr? h
      rintro shown hshown
      cases hshown
      exact ⟨stat, hs, ha, hm⟩
    | crashed h => exact fun _ hc => KernelReply.noConfusion hc
  · exact fun _ hc => KernelReply.noConfusion hc

end KernelCall

namespace Unreliable

variable {maxSize : Nat} {scope : String} {store : Unreliable}

-- A line on which nothing goes wrong stays one.
theorem fates_run {α : Type} (call : Call α) (hf : ∀ n, store.fates n = .answered) (n : Nat) :
    (call.run (within maxSize scope) store).2.fates n = .answered := by
  induction call generalizing store with
  | done value => exact hf n
  | fail error => exact hf n
  | crash => exact hf n
  | submit collection request next ih =>
    have hlater : ∀ n,
        (within maxSize scope collection request store).2.fates n = .answered := fun n => by
      rw [fates_within]
      exact hf (n + 1)
    exact ih _ hlater

theorem run_getattr_of_answered (maxSize : Nat) (caller : Caller)
    (hs : (store.image.docs scope).Records path stat)
    (hl : path.utf8ByteSize ≤ limits.maxKeyLen) (hf : store.fates 0 = .answered) :
    ((Tree.getattr limits path caller).run (within maxSize scope) store).1 =
      .done ⟨stat, caller⟩ := by
  obtain ⟨found, hk, hd⟩ := hs
  unfold Tree.getattr
  rw [Path.checkLength_eq_ok.mpr hl, ofExcept_ok_bind]
  change (Call.run _ (Call.bind _ _) store).1 = _
  rw [run_bind, run_stat_of_answered hk hd hf]
  rfl

theorem run_replyAttr_of_answered (maxSize : Nat) (caller : Caller)
    (reply : FileAttr → KernelReply)
    (hm : mounted.Reports limits (store.image.docs scope))
    (hs : (store.image.docs scope).Records path stat)
    (hl : path.utf8ByteSize ≤ mounted.limits.maxKeyLen) (hf : store.fates 0 = .answered) :
    ∃ told, ((KernelCall.replyAttr mounted path caller reply).run (within maxSize scope) store).1 =
      .done (reply told, (mounted.numberOf path).2) := by
  have hsound : (Attributes.mk stat caller).stat.Sound limits := hm.sound.of_records hs
  obtain ⟨told, ht⟩ := Attributes.exists_fileAttr hsound (mounted.numberOf path).1
    (mounted.numberOf path).2.blockSize
  have hget := run_getattr_of_answered maxSize caller hs hl hf
  refine ⟨told, ?_⟩
  unfold KernelCall.replyAttr Mounted.fileAttr
  dsimp only
  generalize mounted.numberOf path = numbered at ht ⊢
  change (Call.run _ (Call.bind (Call.bind _ _) _) store).1 = _
  rw [run_bind, run_bind, run_attempt]
  generalize (Tree.getattr mounted.limits path caller).run (within maxSize scope) store =
    result at hget
  obtain ⟨outcome, later⟩ := result
  dsimp only at hget
  subst hget
  dsimp only
  rw [ht]
  rfl

end Unreliable

namespace KernelStep

-- A change of the times of a path, and of nothing else.
def setTimes (times : Nat → Instant) (caller : Caller) (ino : Nat)
    (accessed modified : TimeUpdate.Wish) : KernelStep :=
  ⟨times, caller, .setattr ino none none accessed modified⟩

def look (times : Nat → Instant) (caller : Caller) (ino : Nat) : KernelStep :=
  ⟨times, caller, .getattr ino⟩

variable {ino : Nat} {accessed modified : TimeUpdate.Wish}

theorem run_setTimes_beforeEpoch {σ : Type} (backend : Backend σ) (served : Served σ)
    {instant : Instant} (h : instant.sec < 0)
    (hw : accessed = .at instant ∨ modified = .at instant) :
    ∃ error : FsError, (setTimes times caller ino accessed modified).run backend served =
        (.done (.error error.errno), served) ∧
      (served.mounted.inodes.pathOf? ino ≠ none → error = .invalidArgument) := by
  have hcall : ∀ now, (KernelCall.setattr ino none none accessed modified).call served.mounted
      caller now =
        (served.mounted.inodes.pathOf? ino).elim (pure (.error Mounted.noEntry, served.mounted))
          fun _ => pure (KernelCall.invalid, served.mounted) := by
    intro now
    unfold KernelCall.call
    dsimp only
    rw [KernelCall.withPath_eq]
    congr 1
    funext path
    rw [KernelCall.setAttributes_times, KernelCall.setTimes_beforeEpoch h hw]
    rfl
  unfold run setTimes
  dsimp only
  rw [hcall]
  cases served.mounted.inodes.pathOf? ino with
  | none => exact ⟨.notFound, rfl, fun hn => absurd rfl hn⟩
  | some path => exact ⟨.invalidArgument, rfl, fun _ => rfl⟩

section

variable {σ : Type} {backend : Backend σ} {view : σ → Docs} {served : Served σ}

theorem run_setTimes (hb : backend.MayServe view)
    (hm : served.mounted.Reports limits (view served.store)) {told : FileAttr} {later : Served σ}
    (h : (setTimes times caller ino accessed modified).run backend served =
      (.done (.attr told), later)) :
    ∃ path stat, served.mounted.inodes.pathOf? ino = some path ∧
      later.mounted.inodes.pathOf? ino = some path ∧ path.utf8ByteSize ≤ limits.maxKeyLen ∧
      (view later.store).Records path stat ∧
      KernelCall.TimesSet (view served.store) path
        (setTimes times caller ino accessed modified).now accessed modified stat := by
  cases hino : served.mounted.inodes.pathOf? ino with
  | none =>
    have hunknown : served.Unknown backend ino := Served.unknown_of_absent hino
    rw [hunknown.refused _ rfl id] at h
    cases h
  | some path =>
    obtain ⟨reply, hr, hpost⟩ := (setTimes times caller ino accessed modified).run_of_withstands hb
      (KernelCall.withstands_setattr_times hm hino)
    rw [h] at hr hpost
    obtain ⟨hlater, hl, stat, hs, htimes⟩ := hpost told (Outcome.done.inj hr).symm
    exact ⟨path, stat, rfl, hlater, hl, hs, htimes⟩

theorem run_look (hb : backend.MayServe view)
    (hino : served.mounted.inodes.pathOf? ino = some path) {shown : FileAttr}
    (h : ((look times caller ino).run backend served).1 = .done (.attr shown)) :
    ∃ stat, (view served.store).Records path stat ∧
      Instant.ofTimeSpec? stat.accessedAt = some shown.accessedAt ∧
      Instant.ofTimeSpec? stat.modifiedAt = some shown.modifiedAt := by
  obtain ⟨reply, hr, hpost⟩ := (look times caller ino).run_of_withstands hb
    (KernelCall.withstands_getattr_times hino)
  exact hpost shown (Outcome.done.inj (hr.symm.trans h))

end

theorem run_look_of_answered {maxSize : Nat} {scope : String} {served : Served Unreliable}
    (hm : served.mounted.Reports limits (served.store.image.docs scope))
    (hino : served.mounted.inodes.pathOf? ino = some path)
    (hs : (served.store.image.docs scope).Records path stat)
    (hl : path.utf8ByteSize ≤ limits.maxKeyLen) (hf : served.store.fates 0 = .answered) :
    ∃ shown, ((look times caller ino).run (Unreliable.within maxSize scope) served).1 =
      .done (.attr shown) := by
  obtain ⟨shown, hr⟩ := Unreliable.run_replyAttr_of_answered maxSize caller .attr hm hs
    (by rwa [hm.knows.limits_eq]) hf
  have hcall : ∀ now, (KernelCall.getattr ino).call served.mounted caller now =
      KernelCall.replyAttr served.mounted path caller .attr := by
    intro now
    unfold KernelCall.call
    dsimp only
    rw [KernelCall.withPath_eq, hino, Option.elim_some]
  refine ⟨shown, ?_⟩
  unfold run look
  dsimp only
  rw [hcall]
  generalize (KernelCall.replyAttr served.mounted path caller .attr).run
    (Unreliable.within maxSize scope) served.store = result at hr ⊢
  obtain ⟨outcome, store⟩ := result
  dsimp only at hr
  subst hr
  rfl

end KernelStep

open KernelStep in
-- Whatever becomes of the requests, from the mount on.
theorem Served.times_are_told {maxSize : Nat} {scope : String} {header : Header}
    {fates : Nat → Fate} {served : Served Unreliable}
    (hm : served.MountedOn (Unreliable.within maxSize scope) limits ⟨Image.new header, fates⟩)
    (history : List KernelStep) :
    let backend := Unreliable.within maxSize scope
    let reached := afterKernel backend history served
    (∀ path found, reached.store.image.docs scope .stats path = some found →
      ∃ stat, StatRecord.decode found.value = .ok stat ∧ stat.Sound limits ∧
        stat.size.toNat + 511 < UInt64.size ∧
        ∀ owner ino blockSize, ∃ attr,
          Attributes.fileAttr? ⟨stat, owner⟩ ino blockSize = some attr) ∧
    (∀ step : KernelStep, ∃ reply, (step.run backend reached).1 = .done reply ∧
      reply ≠ .crashed) ∧
    ∀ times caller ino accessed modified,
      let set := setTimes times caller ino accessed modified
      (∀ told, (set.run backend reached).1 = .done (.attr told) →
        ∃ path old, ∃ reading < 3 * maxAttempts,
          reached.mounted.inodes.pathOf? ino = some path ∧
          (reached.store.image.docs scope).Records path old ∧
          ∀ later asking,
            let again := (look later asking ino).run backend (set.run backend reached).2
            (∀ shown, again.1 = .done (.attr shown) →
              accessed.Shown (times reading) old.accessedAt shown.accessedAt ∧
                modified.Shown (times reading) old.modifiedAt shown.modifiedAt) ∧
            ((set.run backend reached).2.store.fates 0 = .answered →
              ∃ shown, again.1 = .done (.attr shown))) ∧
      ∀ instant : Instant, instant.sec < 0 → accessed = .at instant ∨ modified = .at instant →
        ∃ error : FsError, set.run backend reached = (.done (.error error.errno), reached) ∧
          (reached.mounted.inodes.pathOf? ino ≠ none → error = .invalidArgument) := by
  intro backend reached
  have hb : backend.MayServe fun store => store.image.docs scope :=
    Unreliable.within_mayServe maxSize scope
  obtain ⟨hv, -⟩ := hm.bootstrapped
  have hreached : reached.mounted.Reports limits (reached.store.image.docs scope) :=
    afterKernel_reports hb hv (hm.reports hb fun key => by rw [Image.docs_new]) history
  refine ⟨fun path found hf => ?_, fun step => ?_, fun times caller ino accessed modified => ?_⟩
  · obtain ⟨stat, hd, hs⟩ := hreached.sound path found hf
    have hsame : ∀ owner, (Attributes.mk stat owner).stat.Sound limits := fun _ => hs
    exact ⟨stat, hd, hs, hs.size_lt hv, fun owner => Attributes.exists_fileAttr (hsame owner)⟩
  · obtain ⟨reply, hr, ha⟩ := step.run_answers hb hv hreached
    exact ⟨reply, hr, ha.reply⟩
  refine ⟨fun told ht => ?_, fun instant h hw => run_setTimes_beforeEpoch _ _ h hw⟩
  obtain ⟨path, stat, hino, hlater, hl, hs, old, reading, hread, first, second, hold, hf, hsec,
    rfl⟩ := run_setTimes hb hreached (Prod.ext ht rfl)
  obtain ⟨reply, -, hafter⟩ :=
    (setTimes times caller ino accessed modified).run_answers hb hv hreached
  refine ⟨path, old, reading, hread, hino, hold, fun later asking =>
    ⟨fun shown hshown => ?_, fun hfate => ?_⟩⟩
  · obtain ⟨found, hfound, haccessed, hmodified⟩ := run_look hb hlater hshown
    rw [← hs.inj hfound, StatRecord.accessedAt_apply_times] at haccessed
    rw [← hs.inj hfound, StatRecord.modifiedAt_apply_times] at hmodified
    exact ⟨TimeUpdate.shown_of_wish hf haccessed, TimeUpdate.shown_of_wish hsec hmodified⟩
  · exact run_look_of_answered hafter.reports hlater hs hl hfate

namespace Sample

-- A line on which nothing goes wrong.
def line : Backend Unreliable := Unreliable.within 1000 defaultScope

def timed (history : List KernelStep) : Served Unreliable :=
  afterKernel line history (fresh line ⟨Image.new default, fun _ => .answered⟩)

-- Two seconds and a half after the epoch, and half a second before it.
def late : Instant := ⟨2, 500000000, by decide, by decide, by decide⟩

def early : Instant := ⟨-1, 500000000, by decide, by decide, by decide⟩

def setLate : KernelStep := .setTimes clock user 2 (.at late) .omit

def attr? : Outcome KernelReply → Option FileAttr
  | .done (.attr told) => some told
  | _ => none

theorem of_attr? {outcome : Outcome KernelReply} (h : (attr? outcome).isSome) :
    ∃ told, outcome = .done (.attr told) := by
  unfold attr? at h
  split at h
  · next told => exact ⟨told, rfl⟩
  · cases h

end Sample

open Sample in
theorem sample_times_are_told :
    (timed []).MountedOn line Sample.limits ⟨Image.new default, fun _ => .answered⟩ ∧
      (∃ told, (setLate.run line (timed [makeFile])).1 = .done (.attr told)) ∧
      (∀ n, (timed [makeFile, setLate]).store.fates n = .answered) ∧
      (∃ shown, ((KernelStep.look clock user 2).run line (timed [makeFile, setLate])).1 =
        .done (.attr shown) ∧ shown.accessedAt = late) ∧
      (KernelStep.setTimes clock user 2 .now (.at early)).run line (timed [makeFile]) =
        (.done (.error FsError.invalidArgument.errno), timed [makeFile]) := by
  have hm : (timed []).MountedOn line Sample.limits ⟨Image.new default, fun _ => .answered⟩ :=
    Served.mountedOn_fresh (by decide) (by decide +kernel)
  obtain ⟨told, ht⟩ : ∃ told, (setLate.run line (timed [makeFile])).1 = .done (.attr told) :=
    of_attr? (by decide +kernel)
  have hfate : ∀ n, (timed [makeFile, setLate]).store.fates n = .answered := by
    refine afterKernel_keeps
      (fun served : Served Unreliable => ∀ n, served.store.fates n = .answered)
      (fun step served h => ?_) _ (Unreliable.fates_run _ fun _ => rfl)
    rw [KernelStep.store_run]
    exact Unreliable.fates_run _ h
  have hknown : (timed [makeFile]).mounted.inodes.pathOf? 2 ≠ none := by decide +kernel
  obtain ⟨-, -, htimes⟩ := Served.times_are_told hm [makeFile]
  obtain ⟨hshown, -⟩ := htimes clock user 2 (.at late) .omit
  obtain ⟨path, old, reading, -, -, -, hlook⟩ := hshown told ht
  obtain ⟨hsame, hanswer⟩ := hlook clock user
  obtain ⟨shown, hs⟩ := hanswer (hfate 0)
  obtain ⟨haccessed, -⟩ := hsame shown hs
  obtain ⟨-, hearly⟩ := htimes clock user 2 .now (.at early)
  obtain ⟨error, hr, herror⟩ := hearly early (by decide) (.inr rfl)
  rw [herror hknown] at hr
  exact ⟨hm, ⟨told, ht⟩, hfate, ⟨shown, hs, haccessed⟩, hr⟩

end DocTree
