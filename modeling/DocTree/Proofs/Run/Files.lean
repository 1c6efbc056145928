import DocTree.Proofs.Run.Contents

namespace DocTree

open Call Content Blocks

theorem Catalog.Changed.stats_of_ne {catalog later : Catalog} {limits : Limits} {now : Readings}
    {operation : Operation} (h : catalog.Changed limits now operation later) {other : String}
    (hne : other ≠ operation.path) : later.stats other = catalog.stats other := by
  have hset : ∀ {record}, (catalog.setStat operation.path record).stats other =
      catalog.stats other := by
    intro record
    rw [stats_setStat, if_neg hne]
  cases h with
  | looked h => rfl
  | updated h hp hd => cases h <;> exact hset
  | created hs hm hp hn => exact hset
  | made hs hp hn => exact hset
  | unlinked hs hp hd => exact hset
  | removed hs hp hc => exact hset

namespace Docs

variable {docs after : Docs} {catalog later : Catalog} {limits : Limits} {contents : Contents}
  {path : String} {content : Option Bytes} {now : Readings} {operation : Operation}
  {stat : StatRecord}

theorem Shows.statAt (h : docs.Shows catalog) {record : Option StatRecord}
    (hr : catalog.stats path = record) : docs.StatAt path record := hr ▸ h.stats path

theorem Shows.value_stats (h : docs.Shows catalog) (ha : after.Shows later)
    (hs : later.stats path = catalog.stats path) :
    after.value .stats path = docs.value .stats path :=
  (ha.statAt hs).trans (h.stats path).symm

theorem Keeps.eq_none (h : docs.Keeps limits path content) {record : Option StatRecord}
    (hr : docs.StatAt path record)
    (hn : ∀ stat, record = some stat → stat.isRegularFile = false) : content = none := by
  cases content with
  | none => rfl
  | some bytes =>
    obtain ⟨⟨⟨stat, hstat, hreg, -⟩, -, -⟩, -⟩ := h
    rw [hn stat (hr.inj hstat)] at hreg
    cases hreg

-- A new record of a new file, which has no blocks yet.
theorem Keeps.of_new (h : docs.Keeps limits path none) (hs : after.StatAt path (some stat))
    (hr : stat.isRegularFile) (hz : stat.size = 0) (hb : docs.SameBlocks after) :
    after.Keeps limits path (some []) := by
  have hnone : after.blocks path = of limits.blockSize [] := by
    rw [hb.blocks path, h.blocks_eq]
    rfl
  refine ⟨⟨⟨stat, hs, hr, by rw [hz]; rfl⟩, ?_, Nat.zero_le _⟩, hnone⟩
  rw [hnone]
  exact covered_of (Nat.zero_le _)

theorem Stored.of_changed (h : docs.Stored limits contents) (hw : catalog.WellFormed limits)
    (hd : docs.Shows catalog) (hp : operation.NulFree) (hu : ¬operation.UsesBlocks)
    (hc : catalog.Changed limits now operation later) (ha : after.Shows later)
    (hb : docs.SameBlocks after) : after.Stored limits (contents.after operation) := by
  have hsame : ∀ other, other ≠ operation.path →
      after.value .stats other = docs.value .stats other :=
    fun other hne => hd.value_stats ha (hc.stats_of_ne hne)
  have hset : ∀ {path record}, (catalog.setStat path record).stats path = record := by
    intro path record
    rw [Catalog.stats_setStat, if_pos rfl]
  have hk := h.kept _ hp
  cases hc with
  | looked hl =>
    have hcon : contents.after operation = contents := by
      cases operation <;> first | rfl | exact hl.elim
    rw [hcon]
    exact h.of_same (fun path => hd.value_stats ha rfl) hb
  | updated hupd hstat hdir =>
    have hold := hd.statAt hstat
    have hnew := ha.statAt hset
    cases hupd with
    | chmod =>
      refine h.of_keeps hp hsame hb.sameOthers
        (hk.of_record hold hnew (StatRecord.kind_apply ..) ?_ (hb.blocks _))
      rw [StatRecord.size_apply]
      rfl
    | utimens =>
      refine h.of_keeps hp hsame hb.sameOthers
        (hk.of_record hold hnew (StatRecord.kind_apply ..) ?_ (hb.blocks _))
      rw [StatRecord.size_apply]
      rfl
    | _ => exact absurd trivial hu
  | @created path parent leaf mode hs hm hdir hn =>
    have hnone : contents path = none := hk.eq_none (hd.statAt hn) fun stat hz => nomatch hz
    have hk' : docs.Keeps limits path none := hnone ▸ hk
    refine h.update hp hsame hb.sameOthers (hk'.of_new (ha.statAt hset) ?_ rfl hb)
    simp [StatRecord.isRegularFile, StatRecord.kind, StatRecord.new, Mode.kind_regularFile hm]
  | @made path parent leaf mode hs hdir hn =>
    have hnone : contents path = none := hk.eq_none (hd.statAt hn) fun stat hz => nomatch hz
    have hk' : docs.Keeps limits path none := hnone ▸ hk
    refine h.of_keeps hp hsame hb.sameOthers (hnone ▸ ⟨?_, (hb.blocks path).trans hk'.2⟩)
    intro stat hstat
    obtain rfl := Option.some_inj.mp ((ha.statAt hset).inj hstat)
    simp [StatRecord.isRegularFile, StatRecord.kind, StatRecord.new, Mode.kind_directory_or]
  | unlinked hs hstat hdir => exact absurd trivial hu
  | @removed path parent leaf dentry hs hdentry hch =>
    obtain ⟨stat, hstat, hdir⟩ := (hw.documented path).mp (by simp [hdentry])
    have hnone : contents path = none := by
      refine hk.eq_none (hd.statAt hstat) fun other ho => ?_
      obtain rfl := Option.some_inj.mp ho
      exact StatRecord.not_isRegularFile_of_isDirectory hdir
    have hk' : docs.Keeps limits path none := hnone ▸ hk
    refine h.of_keeps hp hsame hb.sameOthers (hnone ▸ ⟨?_, (hb.blocks path).trans hk'.2⟩)
    intro other hother
    cases (ha.statAt hset).inj hother

end Docs

theorem Catalog.WellFormed.length_le {catalog : Catalog} {limits : Limits} {path : String}
    {stat : StatRecord} (hw : catalog.WellFormed limits) (hs : catalog.stats path = some stat)
    (hr : stat.isRegularFile) : path.utf8ByteSize ≤ limits.maxKeyLen := by
  have hne : path ≠ Path.root := by
    rintro rfl
    obtain ⟨root, hroot, hdir⟩ := hw.root
    rw [hs, Option.some_inj] at hroot
    rw [← hroot, StatRecord.not_isDirectory_of_isRegularFile hr] at hdir
    cases hdir
  exact hw.length_le_of_ne_root hs hne

namespace Tree

variable {docs : Docs} {catalog : Catalog} {limits : Limits} {path : String}
  {content : Option Bytes} {now : Readings}

-- A call on the bytes of a file, where there may be none.
theorem ensures_on_bytes {α : Type} {call : Call α} {rest : StatRecord → Call α}
    {post : Bytes → α → Docs → Prop} {refused : Prop} (hw : catalog.WellFormed limits)
    (hd : docs.Shows catalog) (hk : docs.Keeps limits path content)
    (hcall : call = fileStat limits path >>= rest)
    (hfile : ∀ bytes, docs.Holds limits path bytes → docs.blocks path = of limits.blockSize bytes →
      call.Ensures (fun _ => False) (post bytes)
        (fun _ after => limits.maxKeyLen < path.utf8ByteSize ∨ after = docs ∧ refused) docs) :
    call.Ensures (fun _ => False)
      (fun answer after => ∃ bytes, content = some bytes ∧ post bytes answer after)
      (fun _ after => after = docs ∧ (content = none ∨ refused)) docs := by
  cases content with
  | none =>
    have hn : ∀ stat, catalog.stats path = some stat → stat.isDirectory = true := by
      intro stat hstat
      apply (hw.kinds path stat hstat).resolve_left
      rw [hk.1 stat (hd.statAt hstat)]
      exact Bool.false_ne_true
    rw [hcall]
    refine (ensures_no_file (hd.stats path) hn).mono (fun _ _ h => h.elim) ?_
    intro _ after ha
    exact ⟨ha, .inl rfl⟩
  | some bytes =>
    obtain ⟨hholds, hdense⟩ := hk
    obtain ⟨stat, hstat, hreg, -⟩ := hholds.stat
    have hlen := hw.length_le (hd.stats_eq hstat) hreg
    refine (hfile bytes hholds hdense).mono (fun answer after h => ⟨bytes, rfl, h⟩) ?_
    intro _ after hpost
    rcases hpost with h | ⟨ha, hr⟩
    · omega
    · exact ⟨ha, .inr hr⟩

-- The blocks of a file are dense, so all of them go.
theorem Unlinked.no_blocks {after : Docs} {parent leaf : String} (hv : limits.Valid)
    (hk : docs.Keeps limits path content)
    (hu : Unlinked (fun _ => False) limits path parent leaf catalog docs after) :
    after.blocks path = fun _ => none := by
  have hlen : (content.getD []).length ≤ limits.maxBlocks * limits.blockSize := by
    cases content with
    | none => exact Nat.zero_le _
    | some bytes =>
      have hl := hk.1.length_le
      rwa [hv.maxFileLen_eq.1, Nat.mul_comm] at hl
  obtain ⟨last, hcleared, hfirst⟩ := hu.blocks
  have hm := (hfirst fun _ h => h).missing
  rw [hk.blocks_eq] at hm hcleared
  rw [hcleared, (solid_of hlen).cleared_eq hm]
  funext index
  rw [if_pos (Nat.zero_le _)]

variable (hv : limits.Valid) (hw : catalog.WellFormed limits) (hd : docs.Shows catalog)
  (hk : docs.Keeps limits path content)

include hv hw hd hk

theorem ensures_read_bytes {offset : UInt64} {size : UInt32} :
    (read limits path offset size now).Ensures (fun _ => False)
      (fun data after => ∃ bytes, content = some bytes ∧
        data = (bytes.drop offset.toNat).take size.toNat ∧ docs.SameOthers path after ∧
        after.Keeps limits path (some bytes))
      (fun _ after => after = docs ∧ (content = none ∨ False)) docs := by
  refine ensures_on_bytes hw hd hk (read_eq offset size) fun bytes hh hdense => ?_
  apply (ensures_read_file hv hh).mono
  · intro data after hpost
    obtain ⟨rfl, hheld, hb, hother⟩ := hpost
    exact ⟨rfl, hother, hheld, hb.trans hdense⟩
  · intro _ after hpost
    obtain ⟨-, -, hlong | ⟨request, hf⟩⟩ := hpost
    · exact .inl hlong
    · exact hf.elim

theorem ensures_write_bytes {offset : UInt64} {data : Bytes} :
    (write limits path offset data now).Ensures (fun _ => False)
      (fun count after => ∃ bytes, content = some bytes ∧ count = data.length ∧
        docs.SameOthers path after ∧
        after.Keeps limits path (some (bytes.write offset.toNat data)))
      (fun _ after => after = docs ∧
        (content = none ∨ limits.maxFileLen < offset.toNat + data.length)) docs := by
  refine ensures_on_bytes hw hd hk rfl fun bytes hh hdense => ?_
  apply (ensures_write_file hv hh fun _ h => h).mono
  · intro count after hpost
    obtain ⟨hcount, -, hheld, hother, hb⟩ := hpost
    exact ⟨hcount, hother, hheld, hb hdense⟩
  · intro _ after hpost
    rcases hpost with ⟨ha, hlong | hlarge⟩ | ⟨⟨request, hf⟩, -⟩
    · exact .inl hlong
    · exact .inr ⟨ha, hlarge⟩
    · exact hf.elim

theorem ensures_truncate_bytes {size : UInt64} :
    (truncate limits path size now).Ensures (fun _ => False)
      (fun stat after => ∃ bytes, content = some bytes ∧ stat.size = size ∧
        docs.SameOthers path after ∧
        after.Keeps limits path (some (bytes.resize size.toNat)))
      (fun _ after => after = docs ∧ (content = none ∨ limits.maxFileLen < size.toNat)) docs := by
  refine ensures_on_bytes hw hd hk rfl fun bytes hh hdense => ?_
  apply (ensures_truncate_file hv hh fun _ h => h).mono
  · intro stat after hpost
    obtain ⟨hsize, -, hheld, hother, hb⟩ := hpost
    exact ⟨hsize, hother, hheld, hb hdense⟩
  · intro _ after hpost
    rcases hpost with ⟨ha, hlong | hlarge⟩ | ⟨⟨request, hf⟩, -⟩
    · exact .inl hlong
    · exact .inr ⟨ha, hlarge⟩
    · exact hf.elim

omit hw in
theorem ensures_unlink_bytes : (unlink limits path).Ensures (fun _ => False)
    (fun _ after => docs.SameOthers path after ∧ after.Keeps limits path none)
    (fun _ after => docs.SameBlocks after) docs := by
  by_cases hr : ∀ parts, Path.split path limits.maxKeyLen = .ok parts → catalog.HasDirectory path
  · exact (ensures_unlink_refused hd hr).mono (fun _ _ h => h.elim) fun _ _ h => h ▸ .refl
  · obtain ⟨parent, leaf, hs, hn⟩ := split_of_not_refused hr
    apply (ensures_unlink hd hs hn).mono
    · intro _ after hpost
      obtain ⟨hu, -⟩ := hpost
      obtain ⟨later, hl, -, hclean⟩ := hu.tree
      refine ⟨hu.others, fun stat hstat => ?_, hu.no_blocks hv hk⟩
      have hnone : later.stats path = none := by
        rw [hclean fun _ h => h, Catalog.removeFile, Catalog.stats_setStat, if_pos rfl]
      cases (hl.statAt hnone).inj hstat
    · intro _ after hpost
      obtain ⟨hu, hnone⟩ := hpost
      have hz : content = none := hk.eq_none (hd.statAt (hnone fun _ h => h)) fun _ h => nomatch h
      have hkz := hk
      rw [hz] at hkz
      apply hu.others.sameBlocks
      rw [hu.no_blocks hv hk, hkz.2]

end Tree

-- A store of one client: its tree is well-formed, and its files are these byte strings.
structure Docs.InOrder (limits : Limits) (contents : Contents) (docs : Docs) : Prop where
  tree : ∃ catalog, docs.Shows catalog ∧ catalog.WellFormed limits
  stored : docs.Stored limits contents

variable {docs after : Docs} {catalog : Catalog} {limits : Limits} {contents : Contents}
  {operation : Operation} {now : Readings} {content : Option Bytes}

theorem Docs.Stored.of_uses_blocks (h : docs.Stored limits contents) (hp : operation.NulFree)
    (hd : docs.Shows catalog)
    (hc : ∃ later, catalog.Changed limits now operation later ∧ after.Shows later)
    (hb : docs.SameOthers operation.path after) (hk : after.Keeps limits operation.path content) :
    after.Stored limits (Function.update contents operation.path content) := by
  obtain ⟨later, hl, ha⟩ := hc
  exact h.update hp (fun other hne => hd.value_stats ha (hl.stats_of_ne hne)) hb hk

namespace Operation

-- What a call leaves for one client that goes through.
structure Done (limits : Limits) (now : Readings) (operation : Operation) (catalog : Catalog)
    (contents : Contents) (answer : Answer) (after : Docs) : Prop where
  tree : ∃ later, catalog.Changed limits now operation later ∧ after.Shows later
  stored : after.Stored limits (contents.after operation)
  answers : contents.Answers operation answer

-- What it leaves if it fails.
structure Refused (limits : Limits) (operation : Operation) (catalog : Catalog)
    (contents : Contents) (after : Docs) : Prop where
  tree : after.Shows catalog
  stored : after.Stored limits contents
  refuses : contents.Refuses limits operation

theorem ensures_stored_of_tree (hw : catalog.WellFormed limits) (hd : docs.Shows catalog)
    (h : docs.Stored limits contents) (hp : operation.NulFree) (hu : ¬operation.UsesBlocks)
    (now : Readings) :
    (operation.call limits now).Ensures (fun _ => False)
      (operation.Done limits now catalog contents)
      (fun _ => operation.Refused limits catalog contents) docs := by
  apply (ensures_tree hw hd hu now).mono
  · intro answer after hpost
    obtain ⟨later, hc, ha, hb⟩ := hpost
    refine ⟨⟨later, hc, ha⟩, h.of_changed hw hd hp hu hc ha hb, ?_⟩
    cases operation <;> first | exact trivial | exact absurd trivial hu
  · intro _ after ha
    rw [ha]
    refine ⟨hd, h, ?_⟩
    cases operation <;> first | exact trivial | exact absurd trivial hu

theorem ensures_stored_of_blocks (hv : limits.Valid) (hw : catalog.WellFormed limits)
    (hd : docs.Shows catalog) (h : docs.Stored limits contents) (hp : operation.NulFree)
    (hu : operation.UsesBlocks) (now : Readings) :
    (operation.call limits now).Ensures (fun _ => False)
      (operation.Done limits now catalog contents)
      (fun _ => operation.Refused limits catalog contents) docs := by
  have hk := h.kept _ hp
  have htree := ensures_changed hv hw hd now operation
  cases operation with
  | unlink path =>
    have hfile : docs.Keeps limits path (contents path) := hk
    apply ensures_map.mpr
    apply ((ensures_map.mp htree).and (Tree.ensures_unlink_bytes hv hd hfile)).mono
    · intro _ after hpost
      obtain ⟨hc, hother, hkept⟩ := hpost
      exact ⟨hc, h.of_uses_blocks hp hd hc hother hkept, trivial⟩
    · intro _ after hpost
      obtain ⟨ha, hb⟩ := hpost
      exact ⟨ha, h.of_same (fun path => hd.value_stats ha rfl) hb, trivial⟩
  | read path offset size =>
    have hfile : docs.Keeps limits path (contents path) := hk
    apply ensures_map.mpr
    apply ((ensures_map.mp htree).and (Tree.ensures_read_bytes hv hw hd hfile)).mono
    · intro _ after hpost
      obtain ⟨hc, bytes, hbytes, hdata, hother, hkept⟩ := hpost
      have hstored : after.Stored limits (Function.update contents path (some bytes)) :=
        h.of_uses_blocks hp hd hc hother hkept
      rw [← hbytes, Function.update_eq_self] at hstored
      exact ⟨hc, hstored, bytes, hbytes, congrArg Answer.data hdata⟩
    · intro _ after hpost
      obtain ⟨ha, rfl, hnone⟩ := hpost
      exact ⟨ha, h, hnone.resolve_right fun hf => hf⟩
  | write path offset data =>
    have hfile : docs.Keeps limits path (contents path) := hk
    apply ensures_map.mpr
    apply ((ensures_map.mp htree).and (Tree.ensures_write_bytes hv hw hd hfile)).mono
    · intro _ after hpost
      obtain ⟨hc, bytes, hbytes, hcount, hother, hkept⟩ := hpost
      have hstored := h.of_uses_blocks hp hd hc hother hkept
      refine ⟨hc, ?_, bytes, hbytes, congrArg Answer.count hcount⟩
      rwa [Contents.after, hbytes]
    · intro _ after hpost
      obtain ⟨ha, rfl, hr⟩ := hpost
      exact ⟨ha, h, hr⟩
  | truncate path size =>
    have hfile : docs.Keeps limits path (contents path) := hk
    apply ensures_map.mpr
    apply ((ensures_map.mp htree).and (Tree.ensures_truncate_bytes hv hw hd hfile)).mono
    · intro _ after hpost
      obtain ⟨hc, bytes, hbytes, hsize, hother, hkept⟩ := hpost
      have hstored := h.of_uses_blocks hp hd hc hother hkept
      refine ⟨hc, ?_, bytes, hbytes, _, rfl, hsize⟩
      rwa [Contents.after, hbytes]
    · intro _ after hpost
      obtain ⟨ha, rfl, hr⟩ := hpost
      exact ⟨ha, h, hr⟩
  | _ => exact hu.elim

theorem ensures_stored (hv : limits.Valid) (hw : catalog.WellFormed limits)
    (hd : docs.Shows catalog) (h : docs.Stored limits contents) (hp : operation.NulFree)
    (now : Readings) :
    (operation.call limits now).Ensures (fun _ => False)
      (operation.Done limits now catalog contents)
      (fun _ => operation.Refused limits catalog contents) docs := by
  by_cases hu : operation.UsesBlocks
  · exact ensures_stored_of_blocks hv hw hd h hp hu now
  · exact ensures_stored_of_tree hw hd h hp hu now

end Operation

variable {scope : String} {image : Image}

theorem Step.run_inOrder (hv : limits.Valid) (step : Step) (hp : step.operation.NulFree)
    (h : (image.docs scope).InOrder limits contents) :
    contents.Allows limits step.operation (step.run limits (Image.unlimited scope) image).1 ∧
      ((step.run limits (Image.unlimited scope) image).2.docs scope).InOrder limits
        (contents.next step.operation (step.run limits (Image.unlimited scope) image).1) := by
  obtain ⟨⟨catalog, hd, hw⟩, hs⟩ := h
  have hrun := (Operation.ensures_stored hv hw hd hs hp step.now).run (Image.unlimited_serves scope)
  unfold Step.run
  generalize (step.operation.call limits step.now).run (Image.unlimited scope) image = result at *
  obtain ⟨outcome, image⟩ := result
  cases outcome with
  | done answer =>
    obtain ⟨⟨later, hc, hl⟩, hstored, ha⟩ := hrun
    exact ⟨ha, ⟨later, hl, hc.wellFormed hw⟩, hstored⟩
  | failed error =>
    obtain ⟨hl, hstored, hr⟩ := hrun
    exact ⟨hr, ⟨catalog, hl, hw⟩, hstored⟩
  | crashed => exact hrun.elim

theorem afterSteps_inOrder (hv : limits.Valid) {history : List Step}
    (hp : ∀ step ∈ history, step.operation.NulFree)
    (h : (image.docs scope).InOrder limits contents) :
    ((afterSteps limits (Image.unlimited scope) history image).docs scope).InOrder limits
      (contents.follow limits (Image.unlimited scope) history image) := by
  induction history generalizing image contents with
  | nil => exact h
  | cons step rest ih =>
    have hstep := (step.run_inOrder hv (hp step (List.mem_cons_self ..)) h).2
    exact ih (fun other ho => hp other (List.mem_cons_of_mem _ ho)) hstep

theorem Image.reached_inOrder (hv : limits.Valid) (scope : String) (header : Header)
    (now : Readings) {history : List Step} (hp : ∀ step ∈ history, step.operation.NulFree) :
    ((reached limits scope header now history).docs scope).InOrder limits
      (Image.contents limits scope header now history) := by
  obtain ⟨hd, hb⟩ := first_bootstrap limits scope header now
  have hroot : ∀ path stat, ((reached limits scope header now []).docs scope).StatAt path
      (some stat) → path = Path.root ∧ stat = StatRecord.new Mode.root (now 0) :=
    fun path stat hs => Catalog.of_stats_rooted (hd.stats_eq hs)
  have hstored : ((reached limits scope header now []).docs scope).Stored limits fun _ => none := by
    constructor
    case kept =>
      refine fun path _ => ⟨fun stat hs => ?_, funext fun index => hb _⟩
      rw [(hroot path stat hs).2]
      exact StatRecord.not_isRegularFile_of_isDirectory (Catalog.isDirectory_root (now 0))
    case named =>
      intro path stat hs
      rw [(hroot path stat hs).1]
      decide
    case keyed => exact fun key hk => absurd (hb key) hk
  have hfirst : ∀ outcome, Contents.next (fun _ => none) .bootstrap outcome = fun _ => none := by
    intro outcome
    cases outcome <;> rfl
  have hrun := afterSteps_inOrder hv hp ⟨⟨_, hd, Catalog.rooted_wellFormed limits (now 0)⟩, hstored⟩
  unfold Image.contents Contents.follow
  rw [hfirst]
  exact hrun

-- A regular file is a byte string, which its blocks make up and whose length is recorded; calls
-- read it, change it and refuse to as one does with a byte string.
theorem files_are_byte_strings (hv : limits.validate = .ok ()) (scope : String) (header : Header)
    (now : Readings) {history : List Step} (hp : ∀ step ∈ history, step.operation.NulFree) :
    (∀ path stat, ((Image.reached limits scope header now history).docs scope).StatAt path
        (some stat) → stat.isRegularFile →
      ∃ bytes, Image.contents limits scope header now history path = some bytes ∧
        stat.size.toNat = bytes.length ∧
        ((Image.reached limits scope header now history).docs scope).blocks path =
          Blocks.of limits.blockSize bytes ∧
        Blocks.extent limits.blockSize (((Image.reached limits scope header now history).docs
          scope).blocks path) 0 limits.maxBlocks = bytes.length) ∧
    (∀ path bytes, Path.NulFree path →
      Image.contents limits scope header now history path = some bytes →
      ∃ stat, ((Image.reached limits scope header now history).docs scope).StatAt path (some stat) ∧
        stat.isRegularFile) ∧
    ∀ step : Step, step.operation.NulFree →
      (Image.contents limits scope header now history).Allows limits step.operation
        (step.run limits (Image.unlimited scope)
          (Image.reached limits scope header now history)).1 := by
  have hv := limits.validate_eq_ok_iff.mp hv
  have h := Image.reached_inOrder hv scope header now hp
  refine ⟨fun path stat hs hr => ?_, fun path bytes hn hb => ?_, fun step hstep => ?_⟩
  · obtain ⟨bytes, hbytes, hsize, hblocks, hl⟩ := h.stored.exists_bytes hs hr
    refine ⟨bytes, hbytes, hsize, hblocks, ?_⟩
    rw [hblocks, extent_of]
    · omega
    · rwa [Nat.zero_add, Nat.mul_comm, ← hv.maxFileLen_eq.1]
  · have hk := h.stored.kept path hn
    rw [hb] at hk
    obtain ⟨stat, hs, hr, -⟩ := hk.1.stat
    exact ⟨stat, hs, hr⟩
  · exact (step.run_inOrder hv hstep h).1

theorem sample_file_is_a_byte_string :
    Sample.limits.validate = .ok () ∧ (∀ step ∈ Sample.history, step.operation.NulFree) ∧
      Image.contents Sample.limits defaultScope default Sample.now Sample.history "/f" =
        some Sample.bytes ∧
      ∃ stat, (Sample.image.docs defaultScope).StatAt "/f" (some stat) ∧ stat.isRegularFile := by
  have hv : Sample.limits.validate = .ok () := by decide
  have hp : ∀ step ∈ Sample.history, step.operation.NulFree := by decide
  have hb : Image.contents Sample.limits defaultScope default Sample.now Sample.history "/f" =
      some Sample.bytes := by decide +kernel
  exact ⟨hv, hp, hb, (files_are_byte_strings hv defaultScope default Sample.now hp).2.1 "/f" _
    (by decide) hb⟩

end DocTree
