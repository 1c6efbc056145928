import DocTree.Proofs.Kernel.Entries
import DocTree.Proofs.Kernel.Steps
import DocTree.Proofs.Tree.Sound

namespace DocTree

open Call

-- The record that is read for a path.
def Docs.Records (docs : Docs) (path : String) (stat : StatRecord) : Prop :=
  ∃ found, docs .stats path = some found ∧ StatRecord.decode found.value = .ok stat

-- A filesystem that can report every record of its store.
structure Mounted.Reports (limits : Limits) (mounted : Mounted) (docs : Docs) : Prop where
  knows : mounted.Knows limits fun _ => True
  sound : docs.Sound limits

-- A reply that is no crash, from a filesystem that goes on so.
structure Mounted.Answers (limits : Limits) (result : KernelReply × Mounted) (after : Docs) :
    Prop where
  reports : result.2.Reports limits after
  reply : result.1 ≠ .crashed

variable {limits : Limits} {mounted : Mounted} {docs after : Docs} {path : String}
  {caller : Caller} {now : Readings} {stat : StatRecord}

theorem Docs.Records.inj {other : StatRecord} (h : docs.Records path stat)
    (ho : docs.Records path other) : stat = other := by
  obtain ⟨found, hk, hd⟩ := h
  obtain ⟨same, hs, hsd⟩ := ho
  rw [hk, Option.some_inj] at hs
  rw [← hs, hd] at hsd
  exact Except.ok.inj hsd

theorem Docs.StatAt.records (h : docs.StatAt path (some stat)) : docs.Records path stat := by
  obtain ⟨found, hk, hv⟩ := Metadata.found_of_value h rfl
  exact ⟨found, hk, by rw [hv, StatRecord.decode_encode]⟩

theorem Docs.Put.records (h : docs.Put .stats path stat.encode after) :
    after.Records path stat := h.statAt.records

theorem Docs.Sound.of_records (h : docs.Sound limits) (hs : docs.Records path stat) :
    stat.Sound limits := by
  obtain ⟨found, hk, hd⟩ := hs
  obtain ⟨other, ho, hsound⟩ := h path found hk
  rw [hd] at ho
  exact Except.ok.inj ho ▸ hsound

namespace Mounted.Reports

variable (h : mounted.Reports limits docs)

include h

theorem numberOf (path : String) : (mounted.numberOf path).2.Reports limits docs :=
  ⟨h.knows.numberOf trivial, h.sound⟩

theorem forget (path : String) : (mounted.forget path).Reports limits docs :=
  ⟨⟨h.knows.limits_eq, h.knows.coherent.forget path, fun _ _ _ => trivial⟩, h.sound⟩

theorem stored (hs : after.Sound limits) : mounted.Reports limits after := ⟨h.knows, hs⟩

theorem answers {reply : KernelReply} (hr : reply ≠ .crashed) :
    Mounted.Answers limits (reply, mounted) docs := ⟨h, hr⟩

end Mounted.Reports

-- As against a store that answers every request, but for errors that come from the line.
theorem Mounted.withstands_fileAttr :
    (mounted.fileAttr path caller).Withstands
      (fun result after => after = docs ∧
        ((∃ stat found, docs.Records path stat ∧ path.utf8ByteSize ≤ mounted.limits.maxKeyLen ∧
            mounted.Describes path caller stat found ∧
            result = (.ok found, (mounted.numberOf path).2)) ∨
          ∃ errno, result = (.error errno, mounted)))
      (fun _ _ => False) docs := by
  unfold Mounted.fileAttr Tree.getattr
  refine withstands_bind.mpr (withstands_attempt.mpr ?_)
  by_cases hl : path.utf8ByteSize ≤ mounted.limits.maxKeyLen
  · rw [Path.checkLength_eq_ok.mpr hl, ofExcept_ok_bind]
    refine withstands_bind.mpr (Metadata.withstands_get (fun stat found hk hd => ?_) fun _ => ?_)
    · exact ⟨rfl, .inl ⟨stat, _, ⟨found, hk, hd⟩, hl, rfl, rfl⟩⟩
    · exact ⟨rfl, .inr ⟨_, rfl⟩⟩
  · unfold Path.checkLength
    rw [if_pos (by omega), ofExcept_error_bind]
    exact ⟨rfl, .inr ⟨_, rfl⟩⟩

namespace KernelCall

theorem withstands_replyAttr {reply : FileAttr → KernelReply} :
    (replyAttr mounted path caller reply).Withstands
      (fun result after => after = docs ∧
        ((∃ stat, docs.Records path stat ∧ path.utf8ByteSize ≤ mounted.limits.maxKeyLen ∧
            Tells mounted path caller stat reply result) ∨
          ∃ errno, result = (.error errno, mounted)))
      (fun _ _ => False) docs := by
  unfold replyAttr
  refine Mounted.withstands_fileAttr.bind (fun result after hpost => ?_) fun _ _ h => h
  obtain ⟨rfl, ⟨stat, found, hs, hl, hf, rfl⟩ | ⟨errno, rfl⟩⟩ := hpost
  · cases found with
    | none => exact ⟨rfl, .inl ⟨stat, hs, hl, .crashed hf⟩⟩
    | some attr => exact ⟨rfl, .inl ⟨stat, hs, hl, .attr hf⟩⟩
  · exact ⟨rfl, .inr ⟨errno, rfl⟩⟩

-- There are attributes to tell.
theorem Tells.exists_attr {reply : FileAttr → KernelReply} {result : KernelReply × Mounted}
    (ht : Tells mounted path caller stat reply result) (hs : stat.Sound limits) :
    ∃ attr, mounted.Describes path caller stat (some attr) ∧
      result = (reply attr, (mounted.numberOf path).2) := by
  cases ht with
  | @attr attr h => exact ⟨attr, h, rfl⟩
  | crashed h =>
    have hsound : (Attributes.mk stat caller).stat.Sound limits := hs
    obtain ⟨attr, ha⟩ := Attributes.exists_fileAttr hsound (mounted.numberOf path).1
      (mounted.numberOf path).2.blockSize
    have hnone := ha.symm.trans h
    cases hnone

theorem withstands_replyAttr_answers {reply : FileAttr → KernelReply} (hr : TellsAttr reply)
    (hm : mounted.Reports limits docs) :
    (replyAttr mounted path caller reply).Withstands (Mounted.Answers limits)
      (fun _ _ => False) docs := by
  refine withstands_replyAttr.mono (fun result after hpost => ?_) fun _ _ h => h
  obtain ⟨rfl, ⟨stat, hs, -, ht⟩ | ⟨errno, rfl⟩⟩ := hpost
  · obtain ⟨attr, -, rfl⟩ := ht.exists_attr (hm.sound.of_records hs)
    refine (hm.numberOf path).answers fun hc => ?_
    have hattr := hr attr
    rw [hc] at hattr
    cases hattr
  · exact hm.answers nofun

theorem withstands_withAnswer {α : Type} {call : Call α}
    {next : α → Call (KernelReply × Mounted)} {post : KernelReply × Mounted → Docs → Prop} :
    (withAnswer mounted call next).Withstands post (fun _ _ => False) docs ↔
      call.Withstands (fun answer => (next answer).Withstands post fun _ _ => False)
        (fun error => post (.error error.errno, mounted)) docs := by
  unfold withAnswer
  rw [withstands_bind, withstands_attempt]
  exact Iff.rfl

theorem withstands_kindOf : (kindOf limits path caller).Withstands (fun _ after => after = docs)
    (fun _ _ => False) docs := by
  have hlook : (Tree.getattr limits path caller).Only fun _ request => ∃ key, request = .get key :=
    Tree.only_getattr ⟨_, rfl⟩
  unfold kindOf
  exact withstands_bind.mpr (withstands_attempt.mpr
    ((hlook.withstands_looks docs).mono (fun _ _ ha => ha) fun _ _ ha => ha))

variable {ino : Nat}

theorem withstands_describeEntry {name : String} (hm : mounted.Reports limits docs) :
    (describeEntry mounted caller ino path name).Withstands
      (fun result after => after = docs ∧ result.2.Reports limits docs)
      (fun _ _ => False) docs := by
  unfold describeEntry
  split
  · exact ⟨rfl, hm⟩
  split
  · exact ⟨rfl, hm.numberOf _⟩
  exact withstands_kindOf.bind (fun _ _ ha => ⟨ha, hm.numberOf _⟩) fun _ _ h => h

theorem withstands_listEntries {offset first space index : Nat} {listed : List ListedEntry}
    {names : List String} (hm : mounted.Reports limits docs) :
    (listEntries caller ino path offset first mounted space index listed names).Withstands
      (fun result after => after = docs ∧ result.2.Reports limits docs)
      (fun _ _ => False) docs := by
  induction names generalizing mounted space index listed with
  | nil => exact ⟨rfl, hm⟩
  | cons name names ih =>
    unfold listEntries
    dsimp only
    split
    · exact ih hm
    refine (withstands_describeEntry hm).bind (fun result after hpost => ?_) fun _ _ h => h
    obtain ⟨⟨number, kind⟩, described⟩ := result
    obtain ⟨rfl, hdescribed⟩ := hpost
    dsimp only
    split
    · exact ⟨rfl, hdescribed⟩
    · exact ih hdescribed

theorem withstands_readdir {size : Nat} {offset : Int64} (hm : mounted.Reports limits docs)
    (hino : mounted.inodes.pathOf? ino = some path) (ho : ¬offset < 0) :
    ((readdir ino offset size).call mounted caller now).Withstands (Mounted.Answers limits)
      (fun _ _ => False) docs := by
  have hlook : (Tree.readdir mounted.limits path
      (UInt64.ofNat (offset.toUInt64.toNat - 2))).Only fun _ request => ∃ key, request = .get key :=
    Tree.only_readdir ⟨_, rfl⟩ ⟨_, rfl⟩
  unfold call
  dsimp only
  rw [if_neg ho, withPath_eq, hino, Option.elim_some]
  refine withstands_withAnswer.mpr ((hlook.withstands_looks docs).mono (fun names after ha => ?_)
    fun _ after ha => ha ▸ hm.answers nofun)
  subst ha
  refine (withstands_listEntries hm).bind (fun result after hpost => ?_) fun _ _ h => h
  obtain ⟨rfl, hlater⟩ := hpost
  exact hlater.answers nofun

end KernelCall

-- Whether or not the call inside succeeds.
theorem Call.KeepsSound.withstands_withAnswer {α : Type} {call : Call α}
    {next : α → Call (KernelReply × Mounted)} (h : call.KeepsSound limits)
    (hm : mounted.Reports limits docs)
    (hn : ∀ answer after, mounted.Reports limits after →
      (next answer).Withstands (Mounted.Answers limits) (fun _ _ => False) after) :
    (KernelCall.withAnswer mounted call next).Withstands (Mounted.Answers limits)
      (fun _ _ => False) docs :=
  KernelCall.withstands_withAnswer.mpr ((h docs hm.sound).mono
    (fun answer after ha => hn answer after (hm.stored ha))
    fun _ _ ha => (hm.stored ha).answers nofun)

theorem Call.Built.keepsSound {α : Type} {call : Call α} (h : call.Built limits now path)
    (hv : limits.Valid) (hn : now.Normal) : call.KeepsSound limits := by
  induction h with
  | done value => exact fun _ hs => hs
  | operation operation used _ _ ht he =>
    have hcall := operation.keepsSound hv ht (hn.after used)
    rw [he] at hcall
    exact hcall.of_map
  | bind _ _ ih ihn => exact ih.bind ihn
  | checked _ ih => exact keepsSound_ofExcept_bind ih

namespace KernelCall

theorem Makes.withstands {path? : Option String} {call : Call (KernelReply × Mounted)}
    (h : Makes mounted caller now path? call) (hv : limits.Valid) (hn : now.Normal)
    (hm : mounted.Reports limits docs) :
    call.Withstands (Mounted.Answers limits) (fun _ _ => False) docs := by
  obtain rfl : mounted.limits = limits := hm.knows.limits_eq
  cases h with
  | refusal path? errno => exact hm.answers nofun
  | look path hr => exact withstands_replyAttr_answers hr hm
  | change path hb hr =>
    exact (hb.keepsSound hv hn).withstands_withAnswer hm fun _ _ ha =>
      withstands_replyAttr_answers hr ha
  | answer path hb hr =>
    refine (hb.keepsSound hv hn).withstands_withAnswer hm fun value _ ha => ha.answers fun hc => ?_
    have hplain := hr value
    rw [hc] at hplain
    exact hplain
  | removal operation hk ht he =>
    have hcall := operation.keepsSound hv ht hn
    rw [he] at hcall
    exact hcall.of_map.withstands_withAnswer hm fun _ _ ha => (ha.forget _).answers nofun
  | listing hino ho => exact withstands_readdir hm hino ho

end KernelCall

section

variable {σ : Type} {backend : Backend σ} {view : σ → Docs} {served : Served σ}

theorem KernelStep.run_of_withstands (step : KernelStep)
    {post : KernelReply × Mounted → Docs → Prop} (hb : backend.MayServe view)
    (h : (step.call.call served.mounted step.caller step.now).Withstands post
      (fun _ _ => False) (view served.store)) :
    ∃ reply, (step.run backend served).1 = .done reply ∧
      post (reply, (step.run backend served).2.mounted) (view (step.run backend served).2.store) :=
  run_of_meets (h.run hb)

theorem KernelStep.normal_now (step : KernelStep) : step.now.Normal :=
  fun count => (step.times count).normal_reading

theorem KernelStep.run_answers (step : KernelStep) (hb : backend.MayServe view) (hv : limits.Valid)
    (hm : served.mounted.Reports limits (view served.store)) :
    ∃ reply, (step.run backend served).1 = .done reply ∧
      Mounted.Answers limits (reply, (step.run backend served).2.mounted)
        (view (step.run backend served).2.store) :=
  step.run_of_withstands hb (step.call.makes_call.withstands hv step.normal_now hm)

theorem Served.MountedOn.reports {start : σ} (hb : backend.MayServe view)
    (hm : served.MountedOn backend limits start) (hs : ∀ key, view start .stats key = none) :
    served.mounted.Reports limits (view served.store) := by
  obtain ⟨-, he, time, hr⟩ := hm.bootstrapped
  have hstart : (view start).Sound limits := fun path found hf => by
    rw [hs] at hf
    cases hf
  have hrun := (Tree.keepsSound_bootstrap time.normal_reading (view start) hstart).run hb
  rw [hr] at hrun
  rw [he]
  exact ⟨⟨rfl, Inodes.coherent_new, fun _ _ _ => trivial⟩, hrun⟩

theorem afterKernel_reports (hb : backend.MayServe view) (hv : limits.Valid)
    (hm : served.mounted.Reports limits (view served.store)) (history : List KernelStep) :
    (afterKernel backend history served).mounted.Reports limits
      (view (afterKernel backend history served).store) := by
  refine afterKernel_keeps (fun served => served.mounted.Reports limits (view served.store))
    (fun step served h => ?_) history hm
  obtain ⟨reply, -, ha⟩ := step.run_answers hb hv h
  exact ha.reports

end

end DocTree
