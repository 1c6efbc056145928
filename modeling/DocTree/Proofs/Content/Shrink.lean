import DocTree.Proofs.Bytes.Covered
import DocTree.Proofs.Content.Block

namespace DocTree.Content

open Call Blocks

variable {faulty : Request → Prop} {docs : Docs} {path : String} {limits : Limits}
  {index length : Nat} {bytes : Bytes}

variable {allowed : Collection → Request → Prop} {most : Nat}

theorem only_removeFrom (index count : Nat) (ha : ∀ block, index ≤ block → block < index + count →
    allowed .blocks (.remove (Path.blockKey path block))) :
    (removeFrom path index count).Only allowed := by
  induction count generalizing index with
  | zero => trivial
  | succ count ih =>
    refine only_bind (only_attempt (only_remove (ha index (by omega) (by omega)))) fun answer => ?_
    split
    · exact ih _ fun block hf hl => ha block (by omega) (by omega)
    · trivial
    · trivial

theorem only_trim (ha : Permits allowed path most) (hi : index < most) :
    (trim path index length).Only allowed := by
  refine only_bind (only_fetch (ha _ _ hi rfl)) fun found => ?_
  split
  · split
    · exact only_bind (only_modify (fun request => ha index request hi) fun block h => nomatch h)
        fun _ => trivial
    · trivial
  · trivial

theorem only_removeRest (ha : Permits allowed path limits.maxBlocks) (index : Nat) :
    (removeRest limits path index).Only allowed :=
  only_removeFrom _ _ fun block hf hl => ha block _ (by omega) rfl

theorem only_truncate (hv : limits.Valid) (ha : Permits allowed path limits.maxBlocks)
    (hl : length ≤ limits.maxFileLen) : (truncate limits path length).Only allowed := by
  obtain ⟨hmax, hw⟩ := hv.maxFileLen_eq
  have hs := hv.blockSize_pos
  have hd := Nat.div_le_self length limits.blockSize
  have hm := Nat.div_add_mod length limits.blockSize
  unfold truncate
  dsimp only
  split
  · exact only_removeRest ha 0
  · split
    · exact only_removeRest ha _
    · next hz =>
      -- The length is no multiple of the block size, so the block that it falls into is in range.
      have hi : length / limits.blockSize < limits.maxBlocks := by
        by_contra hn
        have := Nat.mul_le_mul_left limits.blockSize (Nat.not_lt.mp hn)
        omega
      refine only_bind (only_trim ha hi) fun _ => ?_
      rw [Word.add?_eq_some (by omega), ofOption_some_bind]
      exact only_removeRest ha _

-- The first block from `first` on that is missing, if there is one before `most`.
structure FirstMissing (blocks : Blocks) (first most last : Nat) : Prop where
  le : first ≤ last
  present : ∀ index, first ≤ index → index < last → blocks index ≠ none
  missing : last < most → blocks last = none

-- Blocks go one by one, and if a removal fails those in front of it are gone.
theorem ensures_removeFrom (index count : Nat) {docs : Docs} :
    (removeFrom path index count).Ensures faulty
      (fun _ after => ∃ last, FirstMissing (docs.blocks path) index (index + count) last ∧
        after.blocks path = (docs.blocks path).cleared index last)
      (fun _ after => (∃ key, faulty (.remove key)) ∧ ∃ last, index ≤ last ∧
        after.blocks path = (docs.blocks path).cleared index last) docs := by
  induction count generalizing index docs with
  | zero => exact ⟨index, ⟨Nat.le_refl _, by omega, by omega⟩, (cleared_self _ _).symm⟩
  | succ count ih =>
    have hgone : ∀ last, index + 1 ≤ last →
        ((docs.set .blocks (Path.blockKey path index) none).blocks path).cleared (index + 1) last =
          (docs.blocks path).cleared index last := by
      intro last hl
      rw [Docs.blocks_set_none, cleared_update (by omega)]
    unfold removeFrom
    apply ensures_bind.mpr
    apply ensures_attempt.mpr
    apply ensures_remove
    · intro hne
      apply (ih (index + 1)).mono
      · intro _ after hpost
        obtain ⟨last, ⟨hle, hpresent, hmissing⟩, ha⟩ := hpost
        rw [Docs.blocks_set_none] at hpresent hmissing
        refine ⟨last, ⟨by omega, fun other ho hl => ?_, fun h => ?_⟩, ?_⟩
        · by_cases hi : other = index
          · subst hi
            exact fun hn => hne (Docs.value_eq_none_iff.mp hn)
          · have := hpresent other (by omega) hl
            rwa [Function.update_of_ne hi] at this
        · have := hmissing (by omega)
          rwa [Function.update_of_ne (by omega)] at this
        · rw [ha, hgone last hle]
      · intro _ after hpost
        obtain ⟨h, last, hle, ha⟩ := hpost
        exact ⟨h, last, by omega, by rw [ha, hgone last hle]⟩
    · intro hn
      refine ⟨index, ⟨Nat.le_refl _, by omega, fun _ => ?_⟩, (cleared_self _ _).symm⟩
      exact Docs.value_eq_none_iff.mpr hn
    · intro h text
      constructor
      · exact ⟨⟨_, h⟩, index, Nat.le_refl _, (cleared_self _ _).symm⟩
      · refine ⟨⟨_, h⟩, index + 1, by omega, ?_⟩
        rw [← hgone (index + 1) (Nat.le_refl _), cleared_self]

theorem ensures_trim {size : Nat} (hl : length % size ≠ 0) :
    (trim path (length / size) (length % size)).Ensures faulty
      (fun _ after => after.blocks path = (docs.blocks path).trimmed size length)
      (fun _ after => (∃ request, faulty request) ∧ (after.blocks path = docs.blocks path ∨
        after.blocks path = (docs.blocks path).trimmed size length)) docs := by
  have hsame : ∀ old, docs.blocks path (length / size) = old →
      old.map (List.take (length % size)) = old →
      docs.blocks path = (docs.blocks path).trimmed size length := by
    intro old ho hk
    rw [trimmed, if_neg hl, ho, hk, ← ho, Function.update_eq_self]
  unfold trim
  refine ensures_bind.mpr (ensures_fetch ?_ ?_ fun h _ => ⟨h, .inl rfl⟩)
  · intro found hk hb
    have hput : ∀ after, docs.Put .blocks (Path.blockKey path (length / size))
        (found.value.take (length % size)) after →
        after.blocks path = (docs.blocks path).trimmed size length := by
      intro after ha
      rw [ha.blocks, trimmed, if_neg hl, hb, Option.map_some]
    dsimp only
    split
    · refine ensures_bind.mpr (ensures_modify (.inr (by rw [hb]; exact Option.some_ne_none _))
        (by rw [hb]; rfl) hput fun h text => ⟨⟨h, .inl rfl⟩, fun after ha => ?_⟩)
      exact ⟨h, .inr (hput after ha)⟩
    · next hle =>
      apply hsame _ hb
      rw [Option.map_some, List.take_of_length_le (by omega)]
  · intro hb
    exact hsame _ hb rfl

-- What a cut leaves that takes out blocks up to `last`.
def cutUpTo (size : Nat) (blocks : Blocks) (length last : Nat) : Blocks :=
  (blocks.trimmed size length).cleared (count size length) last

-- The last part of a cut: the blocks behind a trimmed one go.
theorem ensures_removeRest {mid : Docs}
    (hm : mid.blocks path = (docs.blocks path).trimmed limits.blockSize length) :
    (removeRest limits path (count limits.blockSize length)).Ensures faulty
      (fun _ after => ∃ last,
        FirstMissing (docs.blocks path) (count limits.blockSize length) limits.maxBlocks last ∧
        after.blocks path = cutUpTo limits.blockSize (docs.blocks path) length last)
      (fun _ after => (∃ request, faulty request) ∧ (after.blocks path = docs.blocks path ∨
        ∃ last, after.blocks path = cutUpTo limits.blockSize (docs.blocks path) length last ∧
          ((∃ key, faulty (.remove key)) ∨ last = count limits.blockSize length))) mid := by
  apply (ensures_removeFrom _ _).mono
  · intro _ after hpost
    obtain ⟨last, ⟨hle, hpresent, hmissing⟩, ha⟩ := hpost
    rw [hm] at ha hpresent hmissing
    refine ⟨last, ⟨hle, fun index hi hl hn => ?_, fun hlt => ?_⟩, ha⟩
    · exact hpresent index hi hl (trimmed_eq_none_iff.mpr hn)
    · exact trimmed_eq_none_iff.mp (hmissing (by omega))
  · intro _ after hpost
    obtain ⟨⟨key, hk⟩, last, hle, ha⟩ := hpost
    rw [hm] at ha
    exact ⟨⟨_, hk⟩, .inr ⟨last, ha, .inl ⟨key, hk⟩⟩⟩

-- A cut inside a block: there are two bytes to a block at least, so its index is far from the
-- largest word.
theorem boundary_lt {size : Nat} (hw : length % size ≠ 0) (hl : length < Word.limit) :
    length / size + 1 < Word.limit := by
  have hlimit : 2 < Word.limit := by decide
  by_cases hs : 2 ≤ size
  · have hd : length / size ≤ length / 2 := Nat.div_le_div_left hs (by decide)
    omega
  · have hz : size = 0 := by
      by_contra hn
      obtain rfl : size = 1 := by omega
      exact hw (Nat.mod_one _)
    rw [hz, Nat.div_zero]
    omega

theorem ensures_truncate (hv : limits.Valid) (hl : length < Word.limit) :
    (truncate limits path length).Ensures faulty
      (fun _ after => ∃ last,
        FirstMissing (docs.blocks path) (count limits.blockSize length) limits.maxBlocks last ∧
        after.blocks path = cutUpTo limits.blockSize (docs.blocks path) length last)
      (fun _ after => (∃ request, faulty request) ∧ (after.blocks path = docs.blocks path ∨
        ∃ last, after.blocks path = cutUpTo limits.blockSize (docs.blocks path) length last ∧
          ((∃ key, faulty (.remove key)) ∨ last = count limits.blockSize length))) docs := by
  have hs := hv.blockSize_pos
  unfold truncate
  dsimp only
  by_cases hz : length = 0
  · have hc : count limits.blockSize length = 0 := by
      rw [hz, count_of_dvd hs (Nat.zero_mod _), Nat.zero_div]
    have hm : docs.blocks path = (docs.blocks path).trimmed limits.blockSize length := by
      rw [trimmed, if_pos (by rw [hz, Nat.zero_mod])]
    have heq : remove limits path = removeRest limits path (count limits.blockSize length) := by
      rw [hc]
      rfl
    rw [if_pos hz, heq]
    exact ensures_removeRest hm
  rw [if_neg hz]
  by_cases hw : length % limits.blockSize = 0
  · rw [if_pos hw, ← count_of_dvd hs hw]
    exact ensures_removeRest (by rw [trimmed, if_pos hw])
  · rw [if_neg hw]
    apply (ensures_trim hw).bind
    · intro _ mid hm
      rw [Word.add?_eq_some (boundary_lt hw hl), ofOption_some_bind, ← count_of_not_dvd hs hw]
      exact ensures_removeRest hm
    · intro _ after hpost
      obtain ⟨h, ha | ha⟩ := hpost
      · exact ⟨h, .inl ha⟩
      · refine ⟨h, .inr ⟨_, ?_, .inr rfl⟩⟩
        rw [ha, cutUpTo, cleared_self]

-- Where no block is missing in front of another, a cut that goes through leaves a front part.
theorem cutUpTo_eq_of {last : Nat} {blocks : Blocks} (hs : 0 < limits.blockSize)
    (hm : FirstMissing blocks (count limits.blockSize length) limits.maxBlocks last)
    (hc : Covered limits.blockSize limits.maxBlocks bytes blocks) (hl : length ≤ bytes.length) :
    cutUpTo limits.blockSize blocks length last = of limits.blockSize (bytes.take length) := by
  have ht : Solid limits.maxBlocks (blocks.trimmed limits.blockSize length) := hc.solid.trimmed
  rw [cutUpTo, ht.cleared_eq fun hlt => trimmed_eq_none_iff.mpr (hm.missing hlt),
    hc.eq_laid hs, of_take behind_beyond hs hl]

-- A block is missing where blocks are to be taken out from, and one behind it is not.
def Gap (blocks : Blocks) (first : Nat) : Prop :=
  blocks first = none ∧ ∃ index, first ≤ index ∧ blocks index ≠ none

-- What a cut leaves that went some of its way, or none.
def PartlyCut (size : Nat) (blocks : Blocks) (length : Nat) (after : Blocks) : Prop :=
  after = blocks ∨ ∃ last, after = cutUpTo size blocks length last

variable {size most last : Nat} {blocks : Blocks}

theorem cutUpTo_of_count_le (hs : 0 < size) (hi : count size length ≤ index) :
    cutUpTo size blocks length last index = if index < last then none else blocks index := by
  have ht : blocks.trimmed size length index = blocks index := by
    unfold trimmed
    split
    · rfl
    · next hw =>
      rw [count_of_not_dvd hs hw] at hi
      exact Function.update_of_ne (by omega) _ _
  rw [cutUpTo, cleared, ht]
  by_cases hl : index < last
  · rw [if_pos ⟨hi, hl⟩, if_pos hl]
  · rw [if_neg fun h => hl h.2, if_neg hl]

theorem cutUpTo_zero (hs : 0 < size) : cutUpTo size blocks 0 last = blocks.cleared 0 last := by
  rw [cutUpTo, trimmed, if_pos (Nat.zero_mod _), count_of_dvd hs (Nat.zero_mod _), Nat.zero_div]

theorem le_mul_of_count_le (hs : 0 < size) (hi : count size length ≤ index) :
    length ≤ index * size := by
  by_contra hn
  have := (lt_count_iff hs).mpr (show index * size < length by omega)
  omega

-- A cut at or past the end of the bytes changes nothing.
theorem cutUpTo_of_le (hs : 0 < size) (hl : bytes.length ≤ length) :
    cutUpTo size (of size bytes) length last = of size bytes := by
  have hmod := Nat.div_add_mod' length size
  funext index
  by_cases hi : count size length ≤ index
  · have hle := le_mul_of_count_le hs hi
    have hnone : of size bytes index = none := if_neg (by omega)
    rw [cutUpTo_of_count_le hs hi, hnone, ite_self]
  rw [cutUpTo, cleared, if_neg fun h => hi h.1, trimmed]
  split
  · rfl
  by_cases hb : index = length / size
  · subst hb
    rw [Function.update_self, of]
    split
    · rw [Option.map_some, List.take_of_length_le]
      rw [length_chunk]
      omega
    · rfl
  · exact Function.update_of_ne hb _ _

-- A cut where the bytes end finds nothing to take out.
theorem cutUpTo_end (bytes : Bytes) (most : Nat) (hs : 0 < size) :
    FirstMissing (of size bytes) (count size bytes.length) most (count size bytes.length) ∧
      cutUpTo size (of size bytes) bytes.length (count size bytes.length) = of size bytes := by
  refine ⟨⟨Nat.le_refl _, by omega, fun _ => ?_⟩, cutUpTo_of_le hs (Nat.le_refl _)⟩
  rw [of, if_neg]
  exact Nat.not_lt.mpr (le_mul_of_count_le hs (Nat.le_refl _))

-- Without a gap, what is left has the bytes in front and no block missing in between.
theorem PartlyCut.covered (h : PartlyCut size (of size bytes) length blocks) (hs : 0 < size)
    (hb : bytes.length ≤ most * size) (hl : length ≤ bytes.length)
    (hg : ¬Gap blocks (count size length)) : Covered size most (bytes.take length) blocks := by
  have htake : (bytes.take length).length = length := by
    rw [List.length_take]
    omega
  rcases h with rfl | ⟨last, hcut⟩
  · exact (covered_of hb).take hl
  by_cases hlast : count size length < last
  · -- The first block is gone, so all are.
    have hfirst : blocks (count size length) = none := by
      rw [hcut, cutUpTo_of_count_le hs (Nat.le_refl _), if_pos hlast]
    have hall : ∀ index, count size length ≤ index → blocks index = none := by
      intro index hi
      by_contra hn
      exact hg ⟨hfirst, index, hi, hn⟩
    have htaken : (fun index => if count size length ≤ index then none
        else trimmed size (laid size bytes fun _ => none) length index) =
        of size (bytes.take length) := of_take behind_none hs hl
    rw [laid_none] at htaken
    have heq : blocks = of size (bytes.take length) := by
      rw [← htaken]
      funext index
      by_cases hi : count size length ≤ index
      · rw [if_pos hi, hall index hi]
      · rw [if_neg hi, hcut, cutUpTo, cleared, if_neg fun h => hi h.1]
    rw [heq]
    exact covered_of (by omega)
  · -- No block is gone.
    have heq : blocks = (of size bytes).trimmed size (bytes.take length).length := by
      rw [hcut, htake, cutUpTo]
      funext index
      rw [cleared, if_neg]
      omega
    rw [heq]
    exact ((covered_of hb).take hl).trimmed hs

-- A gap stops the next cut at once, so what stands behind it stays.
theorem PartlyCut.exists_left (h : PartlyCut size (of size bytes) length blocks) (hs : 0 < size)
    (hg : Gap blocks (count size length))
    (hm : FirstMissing blocks (count size length) most last) :
    ∃ index block, cutUpTo size blocks length last index = some block ∧ block ≠ [] ∧
      length ≤ index * size := by
  obtain ⟨hfirst, index, hi, hne⟩ := hg
  have hlast : last ≤ count size length := by
    by_contra hn
    exact hm.present _ (Nat.le_refl _) (by omega) hfirst
  have hof : blocks index = of size bytes index := by
    rcases h with rfl | ⟨before, hcut⟩
    · rfl
    · rw [hcut, cutUpTo_of_count_le hs hi] at hne ⊢
      split at hne
      · exact absurd rfl hne
      · next hn => rw [if_neg hn]
  rw [hof, of] at hne
  by_cases hin : index * size < bytes.length
  · refine ⟨index, chunk size bytes index, ?_, ?_, le_mul_of_count_le hs hi⟩
    · rw [cutUpTo_of_count_le hs hi, if_neg (by omega), hof, of, if_pos hin]
    · rw [← List.length_pos_iff, length_chunk]
      omega
  · rw [if_neg hin] at hne
    exact absurd rfl hne

end DocTree.Content
