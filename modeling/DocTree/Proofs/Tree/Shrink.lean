import DocTree.Proofs.Content.Shrink
import DocTree.Proofs.Tree.FileCalls

namespace DocTree.Tree

open Call Content Blocks

variable {faulty : Request → Prop} {docs : Docs} {catalog : Catalog} {limits : Limits}
  {path : String} {stat : StatRecord} {now : Readings}

-- The blocks after a cut to `length` that went through, if there was something to cut off.
def CutOff (limits : Limits) (stat : StatRecord) (length : Nat) (blocks after : Blocks) : Prop :=
  if length < stat.size.toNat then
    ∃ last, FirstMissing blocks (count limits.blockSize length) limits.maxBlocks last ∧
      after = cutUpTo limits.blockSize blocks length last
  else after = blocks

theorem ensures_resizeContent_cut (hv : limits.Valid) {length : Nat}
    (hle : length ≤ stat.size.toNat) (hmax : length ≤ limits.maxFileLen) :
    (resizeContent limits path stat length).Ensures faulty
      (fun _ after => CutOff limits stat length (docs.blocks path) (after.blocks path))
      (fun _ after => (∃ request, faulty request) ∧
        PartlyCut limits.blockSize (docs.blocks path) length (after.blocks path)) docs := by
  have hw := hv.maxFileLen_eq.2
  have hb := hv.blockSize_pos
  unfold resizeContent CutOff
  dsimp only
  split
  · refine (ensures_truncate hv (by omega)).mono (fun _ _ h => h) ?_
    intro _ after hpost
    obtain ⟨h, ha | ⟨last, ha, -⟩⟩ := hpost
    · exact ⟨h, .inl ha⟩
    · exact ⟨h, .inr ⟨last, ha⟩⟩
  · rw [if_neg (by omega)]
    exact rfl

-- A file that was made shorter.
structure Shortened (limits : Limits) (path : String) (size : UInt64) (now : Readings)
    (catalog : Catalog) (stat : StatRecord) (docs after : Docs) : Prop where
  tree : after.Shows (catalog.setStat path (some (stat.apply (.size size) (now 0))))
  blocks : CutOff limits stat size.toNat (docs.blocks path) (after.blocks path)
  others : docs.SameOthers path after

-- What is left if that failed on the way.
structure PartlyShortened (limits : Limits) (path : String) (size : UInt64) (catalog : Catalog)
    (docs after : Docs) : Prop where
  tree : after.Shows catalog
  blocks : PartlyCut limits.blockSize (docs.blocks path) size.toNat (after.blocks path)
  others : docs.SameOthers path after

theorem CutOff.partlyCut {length : Nat} {blocks after : Blocks}
    (h : CutOff limits stat length blocks after) :
    PartlyCut limits.blockSize blocks length after := by
  unfold CutOff at h
  split at h
  · obtain ⟨last, -, ha⟩ := h
    exact .inr ⟨last, ha⟩
  · exact .inl h

theorem ensures_truncate_cut (hv : limits.Valid) (hd : docs.Shows catalog)
    (hs : catalog.stats path = some stat) (hdir : stat.isDirectory = false)
    (hlen : path.utf8ByteSize ≤ limits.maxKeyLen) {size : UInt64}
    (hle : size.toNat ≤ stat.size.toNat) (hmax : size.toNat ≤ limits.maxFileLen) :
    (truncate limits path size now).Ensures faulty
      (fun _ after => Shortened limits path size now catalog stat docs after)
      (fun _ after => (∃ request, faulty request) ∧
        (PartlyShortened limits path size catalog docs after ∨
          Shortened limits path size now catalog stat docs after)) docs := by
  have hstat : docs.StatAt path (some stat) := hs ▸ hd.stats path
  have hstart : PartlyShortened limits path size catalog docs docs := ⟨hd, .inl rfl, fun _ _ => rfl⟩
  unfold truncate
  apply (ensures_fileStat_file hstat hdir).bind
  swap
  · intro _ after hpost
    obtain ⟨ha, hlong | hfault⟩ := hpost
    · omega
    · rw [ha]
      exact ⟨hfault, .inl hstart⟩
  intro found mid hpost
  obtain ⟨hfound, hmid⟩ := hpost
  rw [hfound, hmid]
  rw [ensures_bind, ensures_check, if_pos hmax, ← bind_pure (Metadata.update path (.size size) now)]
  have hput : ∀ between after : Docs, CutOff limits stat size.toNat (docs.blocks path)
      (between.blocks path) → docs.SameBut (OnBlocks path) between →
      between.Put .stats path (stat.apply (.size size) (now 0)).encode after →
      Shortened limits path size now catalog stat docs after := by
    intro between after hcut hsame ha
    have hb := ha.sameBlocks nofun
    refine ⟨ha.shows_stat (hsame.shows hd), ?_, hsame.sameOthers.trans hb.sameOthers⟩
    rw [hb.blocks path]
    exact hcut
  refine ensures_then_update stat (((ensures_resizeContent_cut hv hle hmax).frame
    (only_resizeContent hv (permits_onBlocks _ _) hmax)).mono (fun _ _ h => h) ?_) ?_ ?_ ?_
  · intro _ after hpost
    obtain ⟨⟨hfault, hcut⟩, hsame⟩ := hpost
    exact ⟨hfault, .inl ⟨hsame.shows hd, hcut, hsame.sameOthers⟩⟩
  · intro _ between hpost
    obtain ⟨-, hsame⟩ := hpost
    exact hsame.statAt hstat
  · intro _ between after hpost ha
    obtain ⟨hcut, hsame⟩ := hpost
    exact hput between after hcut hsame ha
  · intro hfault _ between hpost text
    obtain ⟨hcut, hsame⟩ := hpost
    refine ⟨⟨hfault, .inl ⟨hsame.shows hd, hcut.partlyCut, hsame.sameOthers⟩⟩, fun after ha => ?_⟩
    exact ⟨hfault, .inr (hput between after hcut hsame ha)⟩

end DocTree.Tree
