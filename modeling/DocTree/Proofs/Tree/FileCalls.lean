import DocTree.Proofs.Content.Read
import DocTree.Proofs.Content.Shrink
import DocTree.Proofs.Content.Write
import DocTree.Proofs.Tree.Calls

namespace DocTree

open Call Content

-- The blocks of all files but one are the same.
def Docs.SameOthers (docs : Docs) (path : String) (after : Docs) : Prop :=
  ∀ key, (∀ index, key ≠ Path.blockKey path index) →
    after.value .blocks key = docs.value .blocks key

namespace Docs

variable {docs after later : Docs} {path : String}

theorem SameBut.sameOthers (h : docs.SameBut (OnBlocks path) after) :
    docs.SameOthers path after := by
  intro key hk
  refine h.value fun request hr he => ?_
  obtain ⟨index, hi⟩ := hr.2
  exact hk index (he.symm.trans hi)

theorem SameBlocks.sameOthers (h : docs.SameBlocks after) : docs.SameOthers path after :=
  fun key _ => h key

theorem SameOthers.blocks (h : docs.SameOthers path after) {other : String} (hp : Path.NulFree path)
    (ho : Path.NulFree other) (hne : other ≠ path) : after.blocks other = docs.blocks other := by
  funext index
  exact h _ fun _ he => hne (Path.blockKey_inj ho hp he).1

theorem SameOthers.trans (h : docs.SameOthers path after) (hl : after.SameOthers path later) :
    docs.SameOthers path later :=
  fun key hk => (hl key hk).trans (h key hk)

end Docs

namespace Catalog

variable {catalog later : Catalog} {limits : Limits} {path parent leaf : String}

-- What a removal of a file leaves that went some of its way.
structure HalfRemoved (catalog : Catalog) (path parent leaf : String) (later : Catalog) : Prop where
  same : later.removeFile path parent leaf = catalog.removeFile path parent leaf
  stat : later.stats path = catalog.stats path ∨ later.stats path = none

theorem modifyDentry_twice {change : Dentry → Dentry}
    (hc : ∀ dentry, change (change dentry) = change dentry) :
    (catalog.modifyDentry parent change).modifyDentry parent change =
      catalog.modifyDentry parent change := by
  have hd : ((catalog.dentries parent).map change).map change = (catalog.dentries parent).map change
      := by
    rw [Option.map_map]
    congr 1
    funext dentry
    exact hc dentry
  unfold modifyDentry setDentry
  simp only [Function.update_self, Function.update_idem, hd]

theorem removeChild_twice (dentry : Dentry) (name : String) :
    (dentry.removeChild name).removeChild name = dentry.removeChild name := by
  simp [Dentry.removeChild]

theorem HalfRemoved.refl : catalog.HalfRemoved path parent leaf catalog := ⟨rfl, .inl rfl⟩

theorem HalfRemoved.unlisted (h : catalog.HalfRemoved path parent leaf later) :
    catalog.HalfRemoved path parent leaf (later.modifyDentry parent (·.removeChild leaf)) := by
  refine ⟨?_, h.stat⟩
  rw [← h.same]
  unfold removeFile
  rw [modifyDentry_twice fun dentry => removeChild_twice dentry leaf]

theorem HalfRemoved.unrecorded (h : catalog.HalfRemoved path parent leaf later) :
    catalog.HalfRemoved path parent leaf (later.setStat path none) := by
  constructor
  · rw [← h.same]
    unfold removeFile setStat modifyDentry setDentry
    simp only [Function.update_idem]
  · right
    rw [stats_setStat, if_pos rfl]

-- A path that is not there has nothing to be taken out.
theorem WellFormed.removeFile_self (hw : catalog.WellFormed limits)
    (hs : Path.split path limits.maxKeyLen = .ok (parent, leaf)) (hn : catalog.stats path = none) :
    catalog.removeFile path parent leaf = catalog := by
  have hd : (catalog.dentries parent).map (·.removeChild leaf) = catalog.dentries parent := by
    cases hp : catalog.dentries parent with
    | none => rfl
    | some dentry =>
      have hf := hw.not_listed hs hn hp
      rw [Option.map_some, Dentry.removeChild, List.filter_eq_self.mpr]
      intro name hm
      simp only [ne_eq, decide_not, Bool.not_eq_eq_eq_not, Bool.not_true, decide_eq_false_iff_not]
      rintro rfl
      exact hf hm
  unfold Catalog.removeFile modifyDentry
  rw [hd, setDentry_self rfl, setStat_self hn]

end Catalog

namespace Tree

variable {faulty : Request → Prop} {docs : Docs} {catalog : Catalog} {limits : Limits}
  {path parent leaf : String} {now : Readings} {record : Option StatRecord}

-- What is left when the removal of a file ends, whether or not it goes through.
structure Unlinked (faulty : Request → Prop) (limits : Limits) (path parent leaf : String)
    (catalog : Catalog) (docs after : Docs) : Prop where
  tree : ∃ later, after.Shows later ∧ catalog.HalfRemoved path parent leaf later ∧
    ((∀ request, ¬faulty request) → later = catalog.removeFile path parent leaf)
  blocks : ∃ last, after.blocks path = (docs.blocks path).cleared 0 last ∧
    ((∀ request, ¬faulty request) → FirstMissing (docs.blocks path) 0 limits.maxBlocks last)
  others : docs.SameOthers path after

-- As many blocks come off as can.
theorem ensures_removeBlocks : (bestEffort (Content.remove limits path)).Ensures faulty
    (fun _ mid => (∃ last, mid.blocks path = (docs.blocks path).cleared 0 last ∧
      ((∀ request, ¬faulty request) → FirstMissing (docs.blocks path) 0 limits.maxBlocks last)) ∧
        docs.SameBut (OnBlocks path) mid)
    (fun _ _ => False) docs := by
  have honly : (Content.remove limits path).Only (OnBlocks path) :=
    only_removeRest (permits_onBlocks _ _) 0
  apply ensures_bestEffort.mpr
  apply ((ensures_removeFrom 0 limits.maxBlocks).frame honly).mono
  · intro _ mid hpost
    obtain ⟨⟨last, hfirst, hl⟩, hsame⟩ := hpost
    rw [Nat.zero_add] at hfirst
    exact ⟨⟨last, hl, fun _ => hfirst⟩, hsame⟩
  · intro _ mid hpost
    obtain ⟨⟨⟨key, hk⟩, last, -, hl⟩, hsame⟩ := hpost
    exact ⟨⟨last, hl, fun h => absurd hk (h _)⟩, hsame⟩

-- The record goes last: behind the blocks and, unless that failed, the name in the directory.
theorem ensures_removeRecord {between : Docs} {later : Catalog} (hb : between.Shows later)
    (hhalf : catalog.HalfRemoved path parent leaf later) (hstats : later.stats = catalog.stats)
    (hclean : (∀ request, ¬faulty request) →
      later = catalog.modifyDentry parent (·.removeChild leaf))
    (hcleared : ∃ last, between.blocks path = (docs.blocks path).cleared 0 last ∧
      ((∀ request, ¬faulty request) → FirstMissing (docs.blocks path) 0 limits.maxBlocks last))
    (hothers : docs.SameOthers path between) :
    (Metadata.remove path).Ensures faulty
      (fun _ after => Unlinked faulty limits path parent leaf catalog docs after ∧
        ((∀ request, ¬faulty request) → catalog.stats path ≠ none))
      (fun _ after => Unlinked faulty limits path parent leaf catalog docs after ∧
        ((∀ request, ¬faulty request) → catalog.stats path = none)) between := by
  have hset : between.SameBlocks (between.set .stats path none) := Docs.sameBlocks_set nofun
  have hgone : Unlinked faulty limits path parent leaf catalog docs
      (between.set .stats path none) := by
    constructor
    case tree =>
      refine ⟨_, hb.removeStat, hhalf.unrecorded, fun h => ?_⟩
      rw [hclean h]
      rfl
    case blocks =>
      rw [hset.blocks path]
      exact hcleared
    case others => exact hothers.trans hset.sameOthers
  have hleft : (later.stats path = none ∨ ∃ request, faulty request) →
      Unlinked faulty limits path parent leaf catalog docs between := by
    intro hor
    refine ⟨⟨later, hb, hhalf, fun h => ?_⟩, hcleared, hothers⟩
    rcases hor with hnone | ⟨request, hr⟩
    · have hc := Catalog.setStat_self hnone
      rw [hclean h] at hc ⊢
      exact hc.symm
    · exact absurd hr (h request)
  apply Metadata.ensures_remove
  · intro hne
    refine ⟨hgone, fun _ hnone => hne ?_⟩
    rw [← hstats] at hnone
    exact Metadata.none_of_value (hb.stats path) hnone
  · intro hz
    have hnone : later.stats path = none := hb.stats_eq (Docs.value_eq_none_iff.mpr hz)
    exact ⟨hleft (.inl hnone), fun _ => hstats ▸ hnone⟩
  · intro h text
    have hno : (∀ request, ¬faulty request) → catalog.stats path = none :=
      fun hz => absurd h.choose_spec (hz _)
    exact ⟨⟨hleft (.inr h), hno⟩, hgone, hno⟩

theorem ensures_unlink (hd : docs.Shows catalog)
    (hs : Path.split path limits.maxKeyLen = .ok (parent, leaf))
    (hn : ∀ stat, catalog.stats path = some stat → stat.isDirectory = false) :
    (unlink limits path).Ensures faulty
      (fun _ after => Unlinked faulty limits path parent leaf catalog docs after ∧
        ((∀ request, ¬faulty request) → catalog.stats path ≠ none))
      (fun _ after => Unlinked faulty limits path parent leaf catalog docs after ∧
        ((∀ request, ¬faulty request) → catalog.stats path = none)) docs := by
  unfold unlink
  rw [hs, ofExcept_ok_bind]
  dsimp only
  apply ensures_bind.mpr
  apply ensures_refuseDirectory (hd.stats path)
  swap
  · intro hc
    obtain ⟨stat, hstat, hdir⟩ := hc
    rw [hn stat hstat] at hdir
    cases hdir
  intro _
  apply ensures_removeBlocks.bind ?_ fun _ _ h => h.elim
  intro _ mid hpost
  obtain ⟨hcleared, hsame⟩ := hpost
  have hmid := hsame.shows hd
  apply ensures_bind.mpr
  apply ensures_removeChild hmid
  · intro between hb hsb
    apply ensures_removeRecord hb Catalog.HalfRemoved.refl.unlisted rfl (fun _ => rfl)
    · rw [hsb.blocks path]
      exact hcleared
    · exact hsame.sameOthers.trans hsb.sameOthers
  · intro h
    have hclean : (∀ request, ¬faulty request) →
        catalog = catalog.modifyDentry parent (·.removeChild leaf) :=
      fun hz => absurd h.choose_spec (hz _)
    exact ensures_removeRecord hmid .refl rfl hclean hcleared hsame.sameOthers

-- A path that cannot be taken apart, or that is a directory, is refused at once.
theorem ensures_unlink_refused (hd : docs.Shows catalog)
    (h : ∀ parts, Path.split path limits.maxKeyLen = .ok parts → catalog.HasDirectory path) :
    (unlink limits path).Ensures (fun _ => False) (fun _ _ => False) (fun _ after => after = docs)
      docs := by
  unfold unlink
  cases hs : Path.split path limits.maxKeyLen with
  | error error => exact rfl
  | ok parts =>
    obtain ⟨stat, hstat, hdir⟩ := h parts hs
    rw [ofExcept_ok_bind]
    dsimp only
    refine ensures_bind.mpr (ensures_refuseDirectory (hd.stats path) ?_ fun _ => rfl)
    intro hc
    rcases hc with hfault | hn
    · exact hfault.choose_spec.elim
    · rw [hn stat hstat] at hdir
      cases hdir

-- Any other path can be taken apart and is no directory.
theorem split_of_not_refused
    (h : ¬∀ parts, Path.split path limits.maxKeyLen = .ok parts → catalog.HasDirectory path) :
    ∃ parent leaf, Path.split path limits.maxKeyLen = .ok (parent, leaf) ∧
      ∀ stat, catalog.stats path = some stat → stat.isDirectory = false := by
  simp only [not_forall] at h
  obtain ⟨⟨parent, leaf⟩, hs, hn⟩ := h
  refine ⟨parent, leaf, hs, fun stat hstat => ?_⟩
  simpa using fun hdir => hn ⟨stat, hstat, hdir⟩

theorem ensures_unlink_changed (hw : catalog.WellFormed limits) (hd : docs.Shows catalog)
    (now : Readings) :
    (unlink limits path).Ensures (fun _ => False)
      (fun _ after => ∃ later, catalog.Changed limits now (.unlink path) later ∧ after.Shows later)
      (fun _ after => after.Shows catalog) docs := by
  by_cases hr : ∀ parts, Path.split path limits.maxKeyLen = .ok parts → catalog.HasDirectory path
  · exact (ensures_unlink_refused hd hr).mono (fun _ _ h => h.elim) fun _ _ h => h ▸ hd
  · obtain ⟨parent, leaf, hs, hn⟩ := split_of_not_refused hr
    apply (ensures_unlink hd hs hn).mono
    · intro _ after hpost
      obtain ⟨⟨⟨later, hl, -, hc⟩, -, -⟩, hne⟩ := hpost
      obtain ⟨stat, hstat⟩ := Option.ne_none_iff_exists'.mp (hne fun _ h => h)
      rw [hc fun _ h => h] at hl
      exact ⟨_, .unlinked hs hstat (hn stat hstat), hl⟩
    · intro _ after hpost
      obtain ⟨⟨⟨later, hl, -, hc⟩, -, -⟩, hnone⟩ := hpost
      rw [hc fun _ h => h, hw.removeFile_self hs (hnone fun _ h => h)] at hl
      exact hl

-- A removal that fails was not allowed.
theorem ensures_unlink_allowed (hw : catalog.WellFormed limits) (hd : docs.Shows catalog) :
    (unlink limits path).Ensures (fun _ => False)
      (fun _ _ => Operation.Allowed limits catalog.kindOf (.unlink path))
      (fun _ _ => ¬Operation.Allowed limits catalog.kindOf (.unlink path)) docs := by
  by_cases hr : ∀ parts, Path.split path limits.maxKeyLen = .ok parts → catalog.HasDirectory path
  · refine (ensures_unlink_refused hd hr).mono (fun _ _ h => h.elim) fun _ _ _ ha => ?_
    obtain ⟨⟨parts, hs⟩, kind, hk, hne⟩ := ha
    rw [Catalog.hasDirectory_iff.mp (hr parts hs), Option.some_inj] at hk
    exact hne hk.symm
  · obtain ⟨parent, leaf, hs, hn⟩ := split_of_not_refused hr
    refine ((ensures_unlink hd hs hn).and (ensures_unlink_changed hw hd default)).mono ?_ ?_
    · intro _ after hpost
      obtain ⟨-, later, hc, -⟩ := hpost
      exact hc.allowed hw nofun
    · intro _ after hpost ha
      obtain ⟨⟨-, hnone⟩, -⟩ := hpost
      obtain ⟨-, kind, hk, -⟩ := ha
      rw [Catalog.kindOf_eq_none.mpr (hnone fun _ h => h)] at hk
      cases hk

-- A call that asks for blocks of one file only and then changes its record.
theorem ensures_on_file {β γ : Type} {operation : Operation} {part : Call β}
    (change : β → StatChange) (answer : β → StatRecord → γ) {stat : StatRecord}
    (hd : docs.Shows catalog) (hp : catalog.stats path = some stat)
    (hdir : stat.isDirectory = false)
    (hpart : part.Ensures (fun _ => False) (fun value after => docs.SameBut (OnBlocks path) after ∧
      Catalog.Updates operation path (change value))
      (fun _ after => docs.SameBut (OnBlocks path) after) docs) :
    (do let value ← part
        let changed ← Metadata.update path (change value) now
        return answer value changed).Ensures (fun _ => False)
      (fun _ after => ∃ later, catalog.Changed limits now operation later ∧ after.Shows later)
      (fun _ after => after.Shows catalog) docs := by
  have hat : ∀ value between, docs.SameBut (OnBlocks path) between ∧
      Catalog.Updates operation path (change value) → between.StatAt path (some stat) := by
    intro value between hpost
    obtain ⟨hsame, -⟩ := hpost
    exact hp ▸ hsame.statAt (hd.stats path)
  refine ensures_then_update stat (hpart.mono (fun _ _ h => h) fun _ _ h => h.shows hd) hat ?_ ?_
  · intro value between after hpost ha
    obtain ⟨hsame, hu⟩ := hpost
    exact ⟨_, .updated hu hp fun _ => hdir, ha.shows_stat (hsame.shows hd)⟩
  · exact fun h => h.choose_spec.elim

-- The part of a read that is between the first look at the record and its change.
def readContent (limits : Limits) (path : String) (stat : StatRecord) (offset : UInt64)
    (size : UInt32) : Call Bytes :=
  if min size.toNat (stat.size.toNat - offset.toNat) = 0 then pure []
  else Content.read limits path offset.toNat (min size.toNat (stat.size.toNat - offset.toNat))

theorem read_eq (offset : UInt64) (size : UInt32) :
    read limits path offset size now = (do
      let stat ← fileStat limits path
      let data ← readContent limits path stat offset size
      let _ ← Metadata.update path .accessed now
      return data) := by
  unfold read readContent
  congr 1
  funext stat
  dsimp only
  split <;> rfl

theorem ensures_read_changed (hd : docs.Shows catalog) {offset : UInt64} {size : UInt32} :
    (read limits path offset size now).Ensures (fun _ => False)
      (fun _ after => ∃ later, catalog.Changed limits now (.read path offset size) later ∧
        after.Shows later)
      (fun _ after => after.Shows catalog) docs := by
  rw [read_eq]
  refine ensures_bind.mpr (ensures_fileStat (hd.stats path) ?_ fun _ _ => hd)
  intro stat hstat hdir hl
  refine ensures_on_file (fun _ => .accessed) (fun data _ => data) hd hstat hdir ?_
  have hupd : Catalog.Updates (.read path offset size) path .accessed := .read
  unfold readContent
  split
  · exact ⟨.refl, hupd⟩
  · have honly : (Content.read limits path offset.toNat (min size.toNat
        (stat.size.toNat - offset.toNat))).Only (OnBlocks path) :=
      only_read fun index _ => ⟨rfl, index, rfl⟩
    exact honly.ensures.mono (fun _ _ h => ⟨h, hupd⟩) fun _ _ h => h

theorem ensures_write_changed (hv : limits.Valid) (hd : docs.Shows catalog) {offset : UInt64}
    {data : Bytes} :
    (write limits path offset data now).Ensures (fun _ => False)
      (fun _ after => ∃ later, catalog.Changed limits now (.write path offset data) later ∧
        after.Shows later)
      (fun _ after => after.Shows catalog) docs := by
  have hpermits := permits_onBlocks path limits.maxBlocks
  unfold write
  refine ensures_bind.mpr (ensures_fileStat (hd.stats path) ?_ fun _ _ => hd)
  intro stat hstat hdir hl
  dsimp only
  rw [ensures_bind, ensures_check]
  split
  swap
  · exact hd
  next hstop =>
  refine ensures_on_file (fun change => change) (fun _ _ => data.length) hd hstat hdir ?_
  unfold writeContent
  split
  · have ht : (Content.truncate limits path stat.size.toNat).Only (OnBlocks path) :=
      only_truncate hv hpermits (by omega)
    apply ht.ensures.bind ?_ fun _ _ h => h
    intro _ mid hmid
    refine ensures_bind.mpr ((only_write hv hpermits).ensures.mono ?_ fun _ _ h => hmid.trans h)
    exact fun _ after h => ⟨hmid.trans h, .grow⟩
  · refine ensures_bind.mpr ((only_write hv hpermits).ensures.mono ?_ fun _ _ h => h)
    exact fun _ after h => ⟨h, .write⟩

variable {allowed : Collection → Request → Prop}

theorem only_growTo (hv : limits.Valid) (ha : Permits allowed path limits.maxBlocks)
    {chunk size : Nat} (hc : 0 < chunk) (position : Nat) :
    (growTo limits path chunk size position).Only allowed := by
  rw [growTo]
  split
  · dsimp only
    rw [if_pos (by omega)]
    exact only_bind (only_write hv ha) fun _ => only_growTo hv ha hc _
  · trivial
termination_by size - position

theorem only_resizeContent (hv : limits.Valid) (ha : Permits allowed path limits.maxBlocks)
    {stat : StatRecord} {size : Nat} (hl : size ≤ limits.maxFileLen) :
    (resizeContent limits path stat size).Only allowed := by
  have hb := hv.blockSize_pos
  unfold resizeContent
  dsimp only
  split
  · exact only_truncate hv ha hl
  · split
    · exact only_bind (only_truncate hv ha (by omega)) fun _ => only_growTo hv ha (by omega) _
    · trivial

theorem ensures_truncate_changed (hv : limits.Valid) (hd : docs.Shows catalog) {size : UInt64} :
    (truncate limits path size now).Ensures (fun _ => False)
      (fun _ after => ∃ later, catalog.Changed limits now (.truncate path size) later ∧
        after.Shows later)
      (fun _ after => after.Shows catalog) docs := by
  unfold truncate
  refine ensures_bind.mpr (ensures_fileStat (hd.stats path) ?_ fun _ _ => hd)
  intro stat hstat hdir hl
  rw [ensures_bind, ensures_check]
  split
  swap
  · exact hd
  next hsize =>
  have hupd : Catalog.Updates (.truncate path size) path (.size size) := .truncate
  have hpart : (resizeContent limits path stat size.toNat).Ensures (fun _ => False)
      (fun _ after => docs.SameBut (OnBlocks path) after ∧
        Catalog.Updates (.truncate path size) path (.size size))
      (fun _ after => docs.SameBut (OnBlocks path) after) docs :=
    (only_resizeContent hv (permits_onBlocks _ _) hsize).ensures.mono (fun _ _ h => ⟨h, hupd⟩)
      fun _ _ h => h
  rw [← bind_pure (Metadata.update path (.size size) now)]
  exact ensures_on_file (fun _ => .size size) (fun _ changed => changed) hd hstat hdir hpart

end Tree

namespace Operation

variable {limits : Limits} {catalog : Catalog} {docs : Docs} {operation : Operation}

def UsesBlocks : Operation → Prop
  | .unlink _ | .read _ _ _ | .write _ _ _ | .truncate _ _ => True
  | _ => False

theorem ensures_tree (hw : catalog.WellFormed limits) (hd : docs.Shows catalog)
    (hu : ¬operation.UsesBlocks) (now : Readings) :
    (operation.call limits now).Ensures (fun _ => False)
      (fun _ after => ∃ later, catalog.Changed limits now operation later ∧ after.Shows later ∧
        docs.SameBlocks after)
      (fun _ after => after = docs) docs := by
  have hlook : ∀ {α : Type} {call : Call α} {f : α → Answer}, Catalog.Looks operation →
      call.Ensures (fun _ => False) (fun _ after => after = docs) (fun _ after => after = docs)
        docs → (f <$> call).Ensures (fun _ => False)
      (fun _ after => ∃ later, catalog.Changed limits now operation later ∧ after.Shows later ∧
        docs.SameBlocks after)
      (fun _ after => after = docs) docs := by
    intro α call f hl h
    refine ensures_map.mpr (h.mono ?_ fun _ _ h => h)
    intro _ after ha
    subst ha
    exact ⟨catalog, .looked hl, hd, .refl⟩
  cases operation with
  | bootstrap => exact hlook trivial (Tree.ensures_bootstrap hd hw)
  | getattr path owner => exact hlook trivial (Tree.ensures_getattr hd)
  | openFile path flags => exact hlook trivial (Tree.ensures_openFile hd)
  | readdir path offset =>
    exact hlook trivial ((Tree.ensures_readdir hd hw).mono (fun _ _ h => h.1) fun _ _ h => h.1)
  | create path mode =>
    exact ensures_map.mpr ((Tree.ensures_create hd hw).mono (fun _ _ h => h) fun _ _ h => h.1)
  | mkdir path mode =>
    exact ensures_map.mpr ((Tree.ensures_mkdir hd hw).mono (fun _ _ h => h) fun _ _ h => h.1)
  | rmdir path =>
    exact ensures_map.mpr ((Tree.ensures_rmdir hd hw).mono (fun _ _ h => h) fun _ _ h => h.1)
  | chmod path mode =>
    exact ensures_map.mpr (Tree.ensures_changeRecord hd .chmod fun size h => nomatch h)
  | utimens path times =>
    exact ensures_map.mpr (Tree.ensures_changeRecord hd .utimens fun size h => nomatch h)
  | unlink path => exact absurd trivial hu
  | read path offset size => exact absurd trivial hu
  | write path offset data => exact absurd trivial hu
  | truncate path size => exact absurd trivial hu

-- Whatever a call does with blocks, it keeps the tree in order.
theorem ensures_changed (hv : limits.Valid) (hw : catalog.WellFormed limits)
    (hd : docs.Shows catalog) (now : Readings) (operation : Operation) :
    (operation.call limits now).Ensures (fun _ => False)
      (fun _ after => ∃ later, catalog.Changed limits now operation later ∧ after.Shows later)
      (fun _ after => after.Shows catalog) docs := by
  by_cases hu : operation.UsesBlocks
  · cases operation with
    | unlink path => exact ensures_map.mpr (Tree.ensures_unlink_changed hw hd now)
    | read path offset size => exact ensures_map.mpr (Tree.ensures_read_changed hd)
    | write path offset data => exact ensures_map.mpr (Tree.ensures_write_changed hv hd)
    | truncate path size => exact ensures_map.mpr (Tree.ensures_truncate_changed hv hd)
    | _ => exact hu.elim
  · apply (ensures_tree hw hd hu now).mono
    · intro _ after hpost
      obtain ⟨later, hl, ha, -⟩ := hpost
      exact ⟨later, hl, ha⟩
    · intro _ after ha
      subst ha
      exact hd

-- A call on the tree succeeds if and only if the tree allows it.
theorem ensures_allowed (hw : catalog.WellFormed limits) (hd : docs.Shows catalog)
    (ho : operation.OnTree) (now : Readings) :
    (operation.call limits now).Ensures (fun _ => False)
      (fun _ _ => operation.Allowed limits catalog.kindOf)
      (fun _ _ => ¬operation.Allowed limits catalog.kindOf) docs := by
  have hchange : ∀ after, ¬Catalog.Looks operation →
      (∃ later, catalog.Changed limits now operation later ∧ after.Shows later ∧
        docs.SameBlocks after) → operation.Allowed limits catalog.kindOf := by
    intro after hl hpost
    obtain ⟨later, hc, -⟩ := hpost
    exact hc.allowed hw hl
  cases operation with
  | create path mode =>
    exact ensures_map.mpr ((Tree.ensures_create hd hw).mono (fun _ after => hchange after nofun)
      fun _ _ h => h.2)
  | mkdir path mode =>
    exact ensures_map.mpr ((Tree.ensures_mkdir hd hw).mono (fun _ after => hchange after nofun)
      fun _ _ h => h.2)
  | unlink path => exact ensures_map.mpr (Tree.ensures_unlink_allowed hw hd)
  | rmdir path =>
    exact ensures_map.mpr ((Tree.ensures_rmdir hd hw).mono (fun _ after => hchange after nofun)
      fun _ _ h => h.2)
  | readdir path offset =>
    exact ensures_map.mpr ((Tree.ensures_readdir hd hw).mono (fun _ _ h => h.2.1) fun _ _ h => h.2)
  | _ => exact ho.elim

end Operation

end DocTree
