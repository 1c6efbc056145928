import DocTree.Proofs.Call.Upholds
import DocTree.Proofs.Content.Shrink
import DocTree.Proofs.Content.Write
import DocTree.Tree.Operation

namespace DocTree

namespace Blocks

-- Every block before `first` is there.
def Reaches (blocks : Blocks) (first : Nat) : Prop := ∀ index < first, blocks index ≠ none

variable {most first index : Nat} {blocks : Blocks} {block : Bytes}

theorem reaches_zero (blocks : Blocks) : blocks.Reaches 0 :=
  fun index hi => absurd hi (Nat.not_lt_zero index)

theorem Solid.reaches (h : Solid most blocks) (hn : blocks index ≠ none) :
    blocks.Reaches (index + 1) := by
  intro other ho hnone
  exact hn (h.none_of_le hnone (by omega))

theorem Solid.lt (h : Solid most blocks) (hn : blocks index ≠ none) : index < most := by
  by_contra hle
  exact hn (h.bounded index (by omega))

theorem Reaches.update (h : blocks.Reaches index) :
    Blocks.Reaches (Function.update blocks index (some block)) (index + 1) := by
  intro other ho
  by_cases he : other = index
  · subst he
    rw [Function.update_self]
    exact Option.some_ne_none _
  · rw [Function.update_of_ne he]
    exact h other (by omega)

-- A block where there is one, or right behind the last.
theorem Solid.update (h : Solid most blocks) (hr : blocks.Reaches index) (hi : index < most) :
    Solid most (Function.update blocks index (some block)) := by
  constructor
  · intro other hn
    by_cases he : other + 1 = index
    · rw [Function.update_of_ne (by omega)]
      exact hr other (by omega)
    · rw [Function.update_of_ne he] at hn
      by_cases hs : other = index
      · subst hs
        rw [Function.update_self]
        exact Option.some_ne_none _
      · rw [Function.update_of_ne hs]
        exact h.solid other hn
  · intro other ho
    rw [Function.update_of_ne (by omega)]
    exact h.bounded other ho

theorem Solid.cut (h : Solid most blocks) :
    Solid most fun index => if first ≤ index then none else blocks index := by
  constructor
  · intro index hn
    by_cases hi : first ≤ index + 1
    · simp only [hi, ite_true, ne_eq, not_true_eq_false] at hn
    · rw [if_neg hi] at hn
      rw [if_neg (by omega)]
      exact h.solid index hn
  · intro index hi
    rw [h.bounded index hi, ite_self]

end Blocks

namespace Content

open Call Blocks

variable {β : Type} {maxSize : Nat} {inv : Docs → Prop} {err : FsError → Docs → Prop} {docs : Docs}
  {path : String} {index : Nat} {create : Bool} {change : Bytes → Option (Bytes × β)}

theorem upholds_fetch {post : Option (Bytes × UInt64) → Docs → Prop} (hi : inv docs)
    (hs : ∀ found, docs .blocks (Path.blockKey path index) = some found →
      docs.blocks path index = some found.value → post (some (found.value, found.version)) docs)
    (hn : docs.blocks path index = none → post none docs) :
    (fetch path index).Upholds maxSize inv post err docs := by
  unfold fetch
  refine upholds_bind.mpr (upholds_attempt.mpr (upholds_get hi ?_ ?_))
  · intro found hk
    apply hs found hk
    unfold Docs.blocks Docs.value
    rw [hk, Option.map_some]
  · exact fun hk => hn (Docs.value_eq_none_iff.mpr hk)

theorem upholds_isFull {post : Bool → Docs → Prop} {size : Nat} (hi : inv docs)
    (ht : docs.blocks path index ≠ none → post true docs) (hf : post false docs) :
    (isFull size path index).Upholds maxSize inv post err docs := by
  unfold isFull
  refine upholds_bind.mpr (upholds_fetch hi ?_ fun _ => hf)
  intro found _ hb
  by_cases hl : found.value.length = size
  · simp only [hl, decide_true]
    exact ht (by rw [hb]; exact Option.some_ne_none _)
  · simp only [hl, decide_false]
    exact hf

theorem upholds_modify {post : Option β → Docs → Prop} (hi : inv docs)
    (hm : create = true ∨ docs.blocks path index ≠ none) (hc : ∀ block, change block ≠ none)
    (hs : ∀ block answer after, change ((docs.blocks path index).getD []) = some (block, answer) →
      docs.Put .blocks (Path.blockKey path index) block after →
      inv after ∧ post (some answer) after)
    (he : err .fileTooLarge docs) :
    (modify path index create change).Upholds maxSize inv post err docs := by
  unfold modify
  refine upholds_retry (upholds_bind.mpr (upholds_fetch hi ?_ ?_))
  · intro found hk hb
    rw [hb, Option.getD_some] at hs
    obtain ⟨⟨block, answer⟩, hv⟩ := Option.ne_none_iff_exists'.mp (hc found.value)
    dsimp only
    rw [hv, ofOption_some_bind]
    refine upholds_bind.mpr (upholds_stored (upholds_replace hk hi ?_ fun _ => he))
    intro _ version after ha
    obtain ⟨hi', hp⟩ := hs block answer after hv ha
    exact ⟨hi', _, rfl, hp⟩
  · intro hb
    rw [hb, Option.getD_none] at hs
    have ht : create = true := hm.resolve_right fun h => h hb
    have hn := Docs.value_eq_none_iff.mp hb
    obtain ⟨⟨block, answer⟩, hv⟩ := Option.ne_none_iff_exists'.mp (hc [])
    dsimp only
    rw [ht, if_pos rfl, hv, ofOption_some_bind]
    refine upholds_bind.mpr (upholds_stored
      (upholds_insert hi ?_ (fun h _ => absurd hn h) fun _ => he))
    intro _ _ version after ha
    obtain ⟨hi', hp⟩ := hs block answer after hv ha
    exact ⟨hi', _, rfl, hp⟩

-- The blocks are dense after the call if they were before, whether or not it succeeds.
def LeavesSolid (maxSize most : Nat) (path : String) (call : Call β) : Prop :=
  ∀ docs : Docs, Solid most (docs.blocks path) → call.Upholds maxSize (fun _ => True)
    (fun _ after => Solid most (after.blocks path))
    (fun _ after => Solid most (after.blocks path)) docs

variable {γ : Type} {most : Nat}

theorem leavesSolid_pure {value : β} : LeavesSolid maxSize most path (pure value) :=
  fun _ h => h

theorem leavesSolid_of_looks {call : Call β}
    (ho : call.Only fun _ request => ∃ key, request = .get key) :
    LeavesSolid maxSize most path call := by
  intro docs h
  refine ((ho.upholds_looks docs).mono_inv fun _ _ => trivial).mono ?_ ?_
  · exact fun _ after ha => ha ▸ h
  · exact fun _ after ha => ha ▸ h

theorem LeavesSolid.bind {call : Call β} {next : β → Call γ}
    (h : LeavesSolid maxSize most path call)
    (hn : ∀ value, LeavesSolid maxSize most path (next value)) :
    LeavesSolid maxSize most path (call >>= next) :=
  fun docs hd => (h docs hd).bind (fun value after ha => hn value after ha) fun _ _ he => he

variable {size first position stop offset : Nat} {data : Bytes} {limits : Limits}

-- What a part of a write does to dense blocks: they stay dense, and if it succeeds there is no gap
-- before `first`.
def Extends (maxSize most : Nat) (path : String) (first : Nat) (call : Call β) (docs : Docs) :
    Prop :=
  call.Upholds maxSize (fun _ => True)
    (fun _ after => Solid most (after.blocks path) ∧ (after.blocks path).Reaches first)
    (fun _ after => Solid most (after.blocks path)) docs

theorem extends_modify (h : Solid most (docs.blocks path)) (hr : (docs.blocks path).Reaches index)
    (hi : index < most) (hc : ∀ block, change block ≠ none) :
    Extends maxSize most path (index + 1) (modify path index true change) docs := by
  refine upholds_modify trivial (.inl rfl) hc (fun block answer after _ ha => ?_) h
  rw [ha.blocks]
  exact ⟨trivial, h.update hr hi, hr.update⟩

theorem extends_fillBlock (h : Solid most (docs.blocks path))
    (hr : (docs.blocks path).Reaches index) (hi : index < most) :
    Extends maxSize most path (index + 1) (fillBlock size path index) docs := by
  unfold fillBlock
  refine upholds_bind.mpr (upholds_isFull trivial (fun hn => ⟨h, h.reaches hn⟩) ?_)
  have hfill : ∀ block : Bytes, fill size block ≠ none := fun block => Option.some_ne_none _
  exact (extends_modify h hr hi hfill).bind (fun _ _ hp => hp) fun _ _ he => he

theorem extends_fillBlocks (many : Nat) (h : Solid most (docs.blocks path))
    (hr : (docs.blocks path).Reaches first) (hm : first + many ≤ most) :
    Extends maxSize most path (first + many) (fillBlocks size path (List.range' first many))
      docs := by
  induction many generalizing first docs with
  | zero => exact ⟨h, hr⟩
  | succ many ih =>
    rw [List.range'_succ, fillBlocks]
    apply (extends_fillBlock h hr (by omega)).bind ?_ fun _ _ he => he
    intro _ after hpost
    obtain ⟨ha, hra⟩ := hpost
    have hadd : first + 1 + many = first + (many + 1) := by omega
    exact hadd ▸ ih ha hra (by omega)

theorem extends_fillGap (h : Solid most (docs.blocks path)) (hm : first ≤ most) :
    Extends maxSize most path first (fillGap size path first) docs := by
  unfold fillGap
  split
  · next hz => exact ⟨h, hz ▸ reaches_zero _⟩
  next hz =>
  refine upholds_bind.mpr (upholds_isFull trivial (fun hn => ⟨h, ?_⟩) ?_)
  · intro index hi
    exact h.reaches hn index (by omega)
  · have hfill : Extends maxSize most path (0 + first) (fillBlocks size path (List.range' 0 first))
        docs := extends_fillBlocks first h (reaches_zero _) (by omega)
    rw [Nat.zero_add] at hfill
    rw [if_neg Bool.false_ne_true, List.range_eq_range']
    exact hfill

theorem extends_writeFrom (hs : 0 < size) (hm : stop ≤ most * size) (position : Nat) (data : Bytes)
    (hp : position < stop) {docs : Docs} (h : Solid most (docs.blocks path))
    (hr : (docs.blocks path).Reaches (position / size)) :
    Extends maxSize most path 0 (writeFrom size path stop position data) docs := by
  have hi : position / size < most := by
    have hfirst := Nat.div_mul_le_self position size
    apply Nat.lt_of_mul_lt_mul_right (a := size)
    omega
  obtain ⟨count, hpos, hstop, hin, hend⟩ := exists_front hs hp
  rw [writeFrom_eq hpos hstop hin hend]
  refine (extends_modify h hr hi fun _ => Option.some_ne_none _).bind ?_ fun _ _ he => he
  intro grown after hpost
  obtain ⟨ha, hra⟩ := hpost
  split
  · exact ⟨ha, reaches_zero _⟩
  next hlast =>
  have hnext := div_of_end hs (hend.resolve_left hlast)
  exact extends_writeFrom hs hm _ _ (by omega) ha (hnext ▸ hra)
termination_by stop - position

theorem leavesSolid_write (hv : limits.Valid) (hl : offset + data.length ≤ limits.maxFileLen) :
    LeavesSolid maxSize limits.maxBlocks path (write limits path offset data) := by
  intro docs h
  obtain ⟨hmax, hw⟩ := hv.maxFileLen_eq
  rw [Nat.mul_comm] at hmax
  have hs := hv.blockSize_pos
  rw [write_eq hv hl]
  split
  · exact h
  next hd =>
  have hpos := List.length_pos_of_ne_nil hd
  have hfirst : offset / limits.blockSize ≤ limits.maxBlocks := by
    apply Nat.div_le_of_le_mul
    rw [Nat.mul_comm]
    omega
  refine Upholds.bind (extends_fillGap h hfirst) ?_ fun _ _ he => he
  intro _ mid hpost
  obtain ⟨hmid, hr⟩ := hpost
  refine Upholds.bind (extends_writeFrom hs (by omega) offset data (by omega) hmid hr) ?_
    fun _ _ he => he
  exact fun _ _ hpost => hpost.1

-- A removal request has no value that could be too long.
theorem upholds_removeFrom (index count : Nat) :
    (removeFrom path index count).Upholds maxSize (fun _ => True)
      (fun _ after => ∃ last, FirstMissing (docs.blocks path) index (index + count) last ∧
        after.blocks path = (docs.blocks path).cleared index last)
      (fun _ _ => False) docs := by
  have honly : (removeFrom path index count).Only fun _ request => request.size ≤ maxSize :=
    only_removeFrom index count fun _ _ _ => Nat.zero_le _
  apply ((ensures_removeFrom index count).upholds honly fun _ _ hr => hr).mono fun _ _ hp => hp
  exact fun _ _ he => he.1.choose_spec

theorem upholds_removeRest (h : Solid limits.maxBlocks (docs.blocks path)) (index : Nat) :
    (removeRest limits path index).Upholds maxSize (fun _ => True)
      (fun _ after => after.blocks path =
        fun other => if index ≤ other then none else docs.blocks path other)
      (fun _ _ => False) docs := by
  apply (upholds_removeFrom index (limits.maxBlocks - index)).mono ?_ fun _ _ he => he
  intro _ after hpost
  obtain ⟨last, hfirst, ha⟩ := hpost
  rw [ha, h.cleared_eq fun hl => ?_]
  by_cases hi : index ≤ limits.maxBlocks
  · exact hfirst.missing (by omega)
  · exact h.bounded last (by have := hfirst.le; omega)

-- A cut to nothing leaves no block.
theorem upholds_remove (h : Solid limits.maxBlocks (docs.blocks path)) :
    (remove limits path).Upholds maxSize (fun _ => True)
      (fun _ after => after.blocks path = fun _ => none) (fun _ _ => False) docs := by
  apply (upholds_removeRest h 0).mono ?_ fun _ _ he => he
  intro _ after ha
  simpa using ha

theorem leavesSolid_removeRest (index : Nat) :
    LeavesSolid maxSize limits.maxBlocks path (removeRest limits path index) := by
  intro docs h
  apply (upholds_removeRest h index).mono ?_ fun _ _ he => he.elim
  intro _ after ha
  rw [ha]
  exact h.cut

theorem leavesSolid_trim {length : Nat} :
    LeavesSolid maxSize most path (trim path index length) := by
  intro docs h
  unfold trim
  refine upholds_bind.mpr (upholds_fetch trivial ?_ fun _ => h)
  intro found _ hb
  have hn : docs.blocks path index ≠ none := by
    rw [hb]
    exact Option.some_ne_none _
  dsimp only
  split
  · refine upholds_bind.mpr (upholds_modify trivial (.inr hn) (fun _ => Option.some_ne_none _)
      (fun block answer after _ ha => ⟨trivial, ?_⟩) h)
    rw [upholds_pure, ha.blocks]
    exact h.update (fun other ho => h.reaches hn other (by omega)) (h.lt hn)
  · exact h

theorem leavesSolid_truncate {length : Nat} (hl : length < Word.limit) :
    LeavesSolid maxSize limits.maxBlocks path (truncate limits path length) := by
  unfold truncate
  dsimp only
  split
  · exact leavesSolid_removeRest 0
  · split
    · exact leavesSolid_removeRest _
    · next hw =>
      refine leavesSolid_trim.bind fun _ => ?_
      rw [Word.add?_eq_some (boundary_lt hw hl), ofOption_some_bind]
      exact leavesSolid_removeRest _

end Content

namespace Tree

open Content Call

variable {maxSize : Nat} {limits : Limits} {path : String} {stat : StatRecord}

theorem leavesSolid_writeContent (hv : limits.Valid) {offset : Nat} {data : Bytes}
    (hl : offset + data.length ≤ limits.maxFileLen) :
    LeavesSolid maxSize limits.maxBlocks path
      (writeContent limits path stat offset (offset + data.length) data) := by
  have hw := hv.maxFileLen_eq.2
  have hs := hv.blockSize_pos
  unfold writeContent
  split
  · refine (leavesSolid_truncate (by omega)).bind fun _ => ?_
    exact (leavesSolid_write hv hl).bind fun _ => leavesSolid_pure
  · exact (leavesSolid_write hv hl).bind fun _ => leavesSolid_pure

theorem leavesSolid_growTo (hv : limits.Valid) {chunk size : Nat} (hc : 0 < chunk)
    (hsize : size ≤ limits.maxFileLen) (position : Nat) :
    LeavesSolid maxSize limits.maxBlocks path (growTo limits path chunk size position) := by
  rw [growTo]
  split
  · dsimp only
    rw [if_pos (by omega)]
    have hzeros := Bytes.length_zeros (min chunk (size - position))
    refine (leavesSolid_write hv (by omega)).bind fun _ => ?_
    exact leavesSolid_growTo hv hc hsize _
  · exact leavesSolid_pure
termination_by size - position

theorem leavesSolid_resizeContent (hv : limits.Valid) {size : Nat}
    (hsize : size ≤ limits.maxFileLen) :
    LeavesSolid maxSize limits.maxBlocks path (resizeContent limits path stat size) := by
  have hw := hv.maxFileLen_eq.2
  have hs := hv.blockSize_pos
  unfold resizeContent
  dsimp only
  split
  · exact leavesSolid_truncate (by omega)
  · split
    · refine (leavesSolid_truncate (by omega)).bind fun _ => ?_
      exact leavesSolid_growTo hv (by omega) hsize _
    · exact leavesSolid_pure

end Tree

end DocTree
