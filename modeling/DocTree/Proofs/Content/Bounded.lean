import DocTree.Proofs.Call.Bounded
import DocTree.Proofs.Content.Read
import DocTree.Proofs.Content.Shrink
import DocTree.Proofs.Content.Write

namespace DocTree.Content

open Call Blocks

variable {β : Type} {path : String} {size index position stop length : Nat} {create : Bool}
  {change : Bytes → Option (Bytes × β)} {data : Bytes} {limits : Limits} {parts : List Bytes}

theorem bounded_fetch : (fetch path index).Bounded (fun _ => True) 1 := by
  have hget : (Document.get .blocks (Path.blockKey path index)).Bounded (fun _ => True) 1 :=
    bounded_expectSuccess
  refine hget.attempt.bind_done fun answer _ => ?_
  split <;> trivial

-- The most requests that a change of one block makes: each attempt reads and writes.
def modifyRequests : Nat := maxAttempts * 2

theorem bounded_modify (hc : ∀ block, change block ≠ none) :
    (modify path index create change).Bounded (fun _ => True) modifyRequests := by
  have honce : (modifyOnce path index create change).Bounded (fun _ => True) (1 + 1) := by
    refine bounded_fetch.bind fun found _ => ?_
    cases found with
    | some found =>
      obtain ⟨changed, hk⟩ := Option.ne_none_iff_exists'.mp (hc found.1)
      dsimp only
      rw [hk, ofOption_some_bind]
      exact bounded_stored.bind_done fun _ _ => trivial
    | none =>
      obtain ⟨changed, hk⟩ := Option.ne_none_iff_exists'.mp (hc [])
      dsimp only
      rw [hk, ofOption_some_bind]
      split
      · exact bounded_stored.bind_done fun _ _ => trivial
      · trivial
  exact bounded_retry (fun _ => honce.mono (Nat.le_refl _) fun _ _ _ _ => trivial) maxAttempts

-- A block that is not short takes the read to a later one, or to the end.
theorem bounded_readFrom (hs : 0 < size) (hw : stop < Word.limit) (position : Nat)
    (parts : List Bytes) :
    (readFrom size path stop position parts).Bounded
      (fun bytes => bytes.length ≤ parts.flatten.length + (stop - position))
      (count size stop - position / size) := by
  have hdone : ∀ (parts : List Bytes) (more : Nat),
      parts.reverse.flatten.length ≤ parts.flatten.length + more := by
    intro parts more
    rw [List.length_flatten, List.length_flatten, List.map_reverse, List.sum_reverse]
    exact Nat.le_add_right ..
  by_cases hp : position < stop
  case neg =>
    rw [readFrom, if_neg hp]
    exact hdone parts _
  have hm := Nat.div_mul_le_self position size
  have hi : position / size < count size stop := (lt_count_iff hs).mpr (by omega)
  have hrest : count size stop - position / size = 1 + (count size stop - position / size - 1) := by
    omega
  rw [readFrom_eq hw hp, hrest]
  refine bounded_fetch.bind fun found _ => ?_
  cases found with
  | none => exact hdone parts _
  | some found =>
    obtain ⟨block, version⟩ := found
    dsimp only
    set part := (block.take (stop - position / size * size)).drop
      (position - position / size * size) with hpart
    set next := position / size * size + min (stop - position / size * size) block.length with hn
    split
    · exact hdone parts _
    have hlength : part.length = next - position := by
      rw [hpart, List.length_drop, List.length_take]
      omega
    have hparts : (part :: parts).flatten.length = next - position + parts.flatten.length := by
      rw [List.flatten_cons, List.length_append, hlength]
    split
    · refine Nat.le_trans (hdone _ 0) ?_
      omega
    by_cases hlast : next < stop
    · have hlater : position / size + 1 ≤ next / size := by
        rw [Nat.le_div_iff_mul_le hs, Nat.add_mul]
        omega
      refine (bounded_readFrom hs hw next (part :: parts)).mono (by omega) fun bytes hl => ?_
      omega
    · rw [readFrom, if_neg hlast]
      refine Nat.le_trans (hdone _ 0) ?_
      omega
termination_by stop - position

theorem bounded_read (hs : 0 < limits.blockSize) (path : String) (offset length : Nat) :
    (read limits path offset length).Bounded (fun bytes => bytes.length ≤ length)
      (count limits.blockSize (offset + length) - offset / limits.blockSize) := by
  have hstop : Word.addSat offset length ≤ offset + length := Nat.min_le_left _ _
  have hcount : count limits.blockSize (Word.addSat offset length) ≤
      count limits.blockSize (offset + length) :=
    Nat.div_le_div_right (Nat.sub_le_sub_right (Nat.add_le_add_right hstop _) _)
  refine (bounded_readFrom hs (Word.addSat_lt ..) offset []).mono
    (Nat.sub_le_sub_right hcount _) fun bytes hl => ?_
  rw [List.flatten_nil, List.length_nil] at hl
  omega

theorem bounded_isFull : (isFull size path index).Bounded (fun _ => True) 1 :=
  bounded_fetch.bind_done fun found _ => by split <;> trivial

theorem bounded_fillBlocks (indices : List Nat) :
    (fillBlocks size path indices).Bounded (fun _ => True)
      (indices.length * (1 + modifyRequests)) := by
  induction indices with
  | nil => trivial
  | cons index rest ih =>
    have hfill : (fillBlock size path index).Bounded (fun _ => True) (1 + modifyRequests) := by
      refine bounded_isFull.bind fun full _ => ?_
      split
      · trivial
      · exact (bounded_modify fun _ => Option.some_ne_none _).bind_done fun _ _ => trivial
    rw [List.length_cons, Nat.succ_mul, Nat.add_comm]
    exact hfill.bind fun _ _ => ih

theorem bounded_fillGap (first : Nat) : (fillGap size path first).Bounded (fun _ => True)
    (1 + first * (1 + modifyRequests)) := by
  unfold fillGap
  split
  · trivial
  · refine bounded_isFull.bind fun full _ => ?_
    split
    · trivial
    · have h : (fillBlocks size path (List.range first)).Bounded _ _ := bounded_fillBlocks _
      rwa [List.length_range] at h

theorem bounded_writeFrom (hs : 0 < size) (position : Nat) (data : Bytes) (hp : position < stop) :
    (writeFrom size path stop position data).Bounded (fun _ => True)
      ((count size stop - position / size) * modifyRequests) := by
  have hm := Nat.div_mul_le_self position size
  have hi : position / size < count size stop := (lt_count_iff hs).mpr (by omega)
  have hrest : (count size stop - position / size) * modifyRequests =
      modifyRequests + (count size stop - position / size - 1) * modifyRequests := by
    rw [Nat.sub_mul _ 1, Nat.one_mul, Nat.add_sub_of_le]
    exact Nat.le_mul_of_pos_left _ (by omega)
  obtain ⟨many, hpos, hstop, hin, hend⟩ := exists_front hs hp
  rw [writeFrom_eq hpos hstop hin hend, hrest]
  refine (bounded_modify fun _ => Option.some_ne_none _).bind fun grown _ => ?_
  split
  · trivial
  next hlast =>
  rw [Nat.sub_sub, ← div_of_end hs (hend.resolve_left hlast)]
  exact bounded_writeFrom hs _ _ (by omega)
termination_by stop - position

-- A look at the block before the range, and each block of the file filled or changed once.
def writeRequests (limits : Limits) : Nat := 1 + limits.maxBlocks * (1 + modifyRequests)

theorem bounded_write (hv : limits.Valid) (path : String) (offset : Nat) (data : Bytes) :
    (write limits path offset data).Bounded (fun _ => True) (writeRequests limits) := by
  obtain ⟨hmax, hw⟩ := hv.maxFileLen_eq
  have hs := hv.blockSize_pos
  by_cases hl : offset + data.length ≤ limits.maxFileLen
  case neg =>
    rw [write_eq_fail hl]
    trivial
  rw [write_eq hv hl]
  split
  · trivial
  next hd =>
  have hpos := List.length_pos_of_ne_nil hd
  have hfirst : offset / limits.blockSize ≤ limits.maxBlocks :=
    Nat.div_le_of_le_mul (by omega)
  have hcount : count limits.blockSize (offset + data.length) ≤ limits.maxBlocks := by
    by_contra hn
    have := (lt_count_iff hs).mp (Nat.not_le.mp hn)
    rw [Nat.mul_comm] at this
    omega
  have hwrite : (fillGap limits.blockSize path (offset / limits.blockSize) >>= fun _ =>
      (fun grown => if grown then some (offset + data.length) else none) <$>
        writeFrom limits.blockSize path (offset + data.length) offset data).Bounded
      (fun _ => True) (1 + offset / limits.blockSize * (1 + modifyRequests) +
        (count limits.blockSize (offset + data.length) - offset / limits.blockSize) *
          modifyRequests) :=
    (bounded_fillGap _).bind fun _ _ =>
      (bounded_writeFrom hs offset data (by omega)).bind_done fun _ _ => trivial
  refine hwrite.mono ?_ fun _ h => h
  obtain ⟨more, hmore⟩ := Nat.exists_eq_add_of_le hfirst
  have hrest : (count limits.blockSize (offset + data.length) - offset / limits.blockSize) *
      modifyRequests ≤ more * (1 + modifyRequests) := Nat.mul_le_mul (by omega) (by omega)
  rw [writeRequests, hmore, Nat.add_mul]
  omega

theorem bounded_removeFrom (index count : Nat) :
    (removeFrom path index count).Bounded (fun _ => True) count := by
  induction count generalizing index with
  | zero => trivial
  | succ count ih =>
    have hremove : (Document.remove .blocks (Path.blockKey path index)).Bounded (fun _ => True) 1 :=
      bounded_expectSuccess.bind_done fun _ _ => trivial
    have hnext : (removeFrom path index (count + 1)).Bounded (fun _ => True) (1 + count) := by
      refine hremove.attempt.bind fun answer _ => ?_
      split
      · exact ih _
      · trivial
      · trivial
    exact Nat.add_comm 1 count ▸ hnext

theorem bounded_trim : (trim path index length).Bounded (fun _ => True) (1 + modifyRequests) := by
  refine bounded_fetch.bind fun found _ => ?_
  split
  · split
    · exact (bounded_modify fun _ => Option.some_ne_none _).bind_done fun _ _ => trivial
    · trivial
  · trivial

-- At most one block is trimmed, and each other one removed.
theorem bounded_truncate (hl : length < Word.limit) :
    (truncate limits path length).Bounded (fun _ => True)
      (1 + modifyRequests + limits.maxBlocks) := by
  have hrest : ∀ index, (removeRest limits path index).Bounded (fun _ => True) limits.maxBlocks :=
    fun index => (bounded_removeFrom _ _).mono (Nat.sub_le ..) fun _ h => h
  unfold truncate
  dsimp only
  split
  · exact (hrest 0).mono (Nat.le_add_left ..) fun _ h => h
  · split
    · exact (hrest _).mono (Nat.le_add_left ..) fun _ h => h
    · next hw =>
      refine bounded_trim.bind fun _ _ => ?_
      rw [Word.add?_eq_some (boundary_lt hw hl), ofOption_some_bind]
      exact hrest _

end DocTree.Content
