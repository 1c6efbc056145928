import DocTree.Proofs.Content.Block

namespace DocTree.Content

open Call Blocks

variable {faulty : Request → Prop} {docs : Docs} {path : String} {size position stop : Nat}
  {start : Nat} {block bytes : Bytes} {rest : Blocks} {parts : List Bytes}

theorem cut?_eq_none (hs : start ≤ position) (hb : block.length ≤ position - start) :
    cut? block start position stop = some none := by
  simp [cut?, Word.sub?_eq_some hs, hb]

theorem cut?_eq_some (hs : start ≤ position) (hp : position < stop) (hw : stop < Word.limit)
    (hb : position - start < block.length) :
    cut? block start position stop =
      some (some ((block.take (stop - start)).drop (position - start),
        start + min (stop - start) block.length)) := by
  have ht : block.take (min (stop - start) block.length) = block.take (stop - start) := by
    rw [List.take_eq_take_iff]
    omega
  simp only [cut?, Word.sub?_eq_some hs, Word.sub?_eq_some (show start ≤ stop by omega),
    Option.bind_eq_bind, Option.bind_some, if_neg (Nat.not_le.mpr hb)]
  rw [Bytes.slice?_eq_some (by omega) (by omega), Word.add?_eq_some (by omega), ht]
  rfl

-- One block of a read. It gets on, so that it is not caught in a block, and no word is exceeded.
theorem readFrom_eq (hw : stop < Word.limit) (hp : position < stop) :
    readFrom size path stop position parts = fetch path (position / size) >>= fun found =>
      match found with
      | none => pure parts.reverse.flatten
      | some (block, _) =>
        let start := position / size * size
        let part := (block.take (stop - start)).drop (position - start)
        if block.length ≤ position - start then pure parts.reverse.flatten
        else if block.length < size then pure (part :: parts).reverse.flatten
        else readFrom size path stop (start + min (stop - start) block.length) (part :: parts) := by
  have hm := Nat.div_mul_le_self position size
  rw [readFrom, if_pos hp]
  dsimp only
  rw [Word.mul?_eq_some (by omega), ofOption_some_bind]
  congr 1
  funext found
  cases found with
  | none => rfl
  | some found =>
    dsimp only
    by_cases hb : found.1.length ≤ position - position / size * size
    · rw [cut?_eq_none hm hb, ofOption_some_bind, if_pos hb]
    · have hnext : position < position / size * size +
          min (stop - position / size * size) found.1.length := by omega
      rw [cut?_eq_some hm hp hw (by omega), ofOption_some_bind, if_neg hb]
      dsimp only
      rw [if_pos hnext]

theorem only_readFrom {allowed : Collection → Request → Prop}
    (ha : ∀ index, index * size < stop → allowed .blocks (.get (Path.blockKey path index)))
    (hw : stop < Word.limit) (position : Nat) (parts : List Bytes) :
    (readFrom size path stop position parts).Only allowed := by
  by_cases hp : position < stop
  · have hm := Nat.div_mul_le_self position size
    rw [readFrom_eq hw hp]
    refine only_bind (only_fetch (ha _ (by omega))) fun found => ?_
    cases found with
    | none => trivial
    | some found =>
      dsimp only
      split
      · trivial
      · split
        · trivial
        · exact only_readFrom ha hw _ _
  · rw [readFrom, if_neg hp]
    trivial
termination_by stop - position

theorem block_eq {index : Nat} (hi : index * size < bytes.length)
    (hb : laid size bytes rest index = some block) :
    block = chunk size bytes index ++ (rest index).getD [] := by
  rw [laid, if_pos hi, Option.some_inj] at hb
  exact hb.symm

-- Where nothing stands behind the bytes, a read may go on past their end.
theorem lt_of_laid_eq_some {index : Nat} (hl : rest = (fun _ => none) ∨ stop ≤ bytes.length)
    (hi : index * size < stop) (hb : laid size bytes rest index = some block) :
    index * size < bytes.length := by
  rcases hl with rfl | hl
  · by_contra hn
    rw [laid, if_neg hn] at hb
    cases hb
  · omega

-- A block with something behind the bytes is the last one that they reach.
theorem length_part_le {index : Nat} (hs : 0 < size) (hr : Behind size bytes rest)
    (hi : index * size < stop) (hl : rest = (fun _ => none) ∨ stop ≤ bytes.length)
    (hb : laid size bytes rest index = some block) :
    min (stop - index * size) block.length ≤ (chunk size bytes index).length ∧
      (block.length < size → bytes.take (index * size + min (stop - index * size) block.length) =
        bytes.take stop) := by
  have hlt := lt_of_laid_eq_some hl hi hb
  have hblock := block_eq hlt hb
  have hc := length_chunk size bytes index
  rcases hl with rfl | hl
  · rw [Option.getD_none, List.append_nil] at hblock
    rw [hblock, List.take_eq_take_iff]
    omega
  by_cases hf : (index + 1) * size ≤ bytes.length
  · have hfull := laid_of_full hr hf hs
    rw [hb, Option.some_inj] at hfull
    have hlength := length_chunk_of_full hf
    rw [hfull]
    omega
  · rw [Nat.add_mul] at hf
    rw [hblock, List.length_append, List.take_eq_take_iff]
    omega

-- Where a part that is read from a block ends, and what it holds.
theorem part_eq (hs : 0 < size) (hr : Behind size bytes rest) (hp : position < stop)
    (hl : rest = (fun _ => none) ∨ stop ≤ bytes.length)
    (hb : laid size bytes rest (position / size) = some block) :
    (block.take (stop - position / size * size)).drop (position - position / size * size) =
        (bytes.take (position / size * size + min (stop - position / size * size)
          block.length)).drop position ∧
      (block.length < size → bytes.take (position / size * size +
        min (stop - position / size * size) block.length) = bytes.take stop) := by
  have hm := Nat.div_mul_le_self position size
  generalize position / size = index at *
  have hblock := block_eq (lt_of_laid_eq_some hl (by omega) hb) hb
  obtain ⟨hpart, hshort⟩ := length_part_le hs hr (by omega) hl hb
  refine ⟨?_, hshort⟩
  have htake : block.take (stop - index * size) =
      (chunk size bytes index).take (min (stop - index * size) block.length) := by
    have hmin : block.take (stop - index * size) =
        block.take (min (stop - index * size) block.length) := by
      rw [List.take_eq_take_iff]
      omega
    rw [hmin]
    nth_rewrite 2 [hblock]
    exact List.take_append_of_le_length hpart
  rw [htake]
  have hc := length_chunk size bytes index
  apply List.ext_getElem?
  intro i
  simp only [List.getElem?_drop, List.getElem?_take, getElem?_chunk]
  by_cases hi : position - index * size + i < min (stop - index * size) block.length
  · rw [if_pos hi, if_pos (by omega), if_pos (by omega)]
    congr 1
    omega
  · rw [if_neg hi, if_neg (by omega)]

-- Where the block that a position falls into ends before it, so do the bytes.
theorem length_le_of_laid (hs : 0 < size)
    (hb : ∀ block, laid size bytes rest (position / size) = some block →
      block.length ≤ position - position / size * size) : bytes.length ≤ position := by
  have hm := Nat.div_mul_le_self position size
  have hn := Nat.lt_div_mul_add (a := position) hs
  by_contra hlt
  have hi : position / size * size < bytes.length := by omega
  have h := hb _ (if_pos hi)
  have hc := length_chunk size bytes (position / size)
  rw [List.length_append] at h
  omega

theorem take_drop_append {first last : Nat} (h : position ≤ first) (hl : first ≤ last) :
    (bytes.take first).drop position ++ (bytes.take last).drop first =
      (bytes.take last).drop position := by
  by_cases hb : bytes.length ≤ first
  · rw [List.take_of_length_le hb, List.take_of_length_le (by omega), List.drop_of_length_le hb,
      List.append_nil]
  · have hf : bytes.take first = (bytes.take last).take first := by
      rw [List.take_take, Nat.min_eq_left hl]
    have hd : (bytes.take last).drop first =
        ((bytes.take last).drop position).drop (first - position) := by
      rw [List.drop_drop]
      congr 1
      omega
    rw [hf, List.drop_take, hd, List.take_append_drop]

-- The parts read before stand in front.
theorem ensures_readFrom (hs : 0 < size) (hb : docs.blocks path = laid size bytes rest)
    (hr : Behind size bytes rest) (hl : rest = (fun _ => none) ∨ stop ≤ bytes.length)
    (hw : stop < Word.limit) (position : Nat) (parts : List Bytes) :
    (readFrom size path stop position parts).Ensures faulty
      (fun data after => after = docs ∧
        data = parts.reverse.flatten ++ (bytes.take stop).drop position)
      (fun _ after => after = docs ∧ ∃ request, faulty request) docs := by
  have hend : bytes.length ≤ position → (bytes.take stop).drop position = [] := by
    intro h
    rw [List.drop_of_length_le]
    rw [List.length_take]
    omega
  by_cases hp : position < stop
  case neg =>
    rw [readFrom, if_neg hp]
    refine ⟨rfl, ?_⟩
    rw [List.drop_of_length_le (l := bytes.take stop), List.append_nil]
    rw [List.length_take]
    omega
  have hm := Nat.div_mul_le_self position size
  rw [readFrom_eq hw hp]
  refine ensures_bind.mpr (ensures_fetch ?_ ?_ fun h text => ⟨rfl, h⟩)
  · intro found _ hf
    rw [hb] at hf
    dsimp only
    split
    · next hn =>
      refine ⟨rfl, ?_⟩
      have hlast : bytes.length ≤ position := length_le_of_laid hs fun block hblock => by
        rw [hf, Option.some_inj] at hblock
        rwa [← hblock]
      rw [hend hlast, List.append_nil]
    obtain ⟨hpart, hshort⟩ := part_eq hs hr hp hl hf
    split
    · next hlt =>
      rw [hshort hlt] at hpart
      refine ⟨rfl, ?_⟩
      rw [List.reverse_cons, List.flatten_append, List.flatten_singleton, hpart]
    · refine (ensures_readFrom hs hb hr hl hw _ _).mono ?_ fun _ _ he => he
      intro data after hpost
      obtain ⟨rfl, rfl⟩ := hpost
      refine ⟨rfl, ?_⟩
      rw [List.reverse_cons, List.flatten_append, List.flatten_singleton, hpart,
        List.append_assoc, take_drop_append (by omega) (by omega)]
  · intro hn
    rw [hb] at hn
    refine ⟨rfl, ?_⟩
    have hlast : bytes.length ≤ position := length_le_of_laid hs fun block hblock => by
      rw [hn] at hblock
      cases hblock
    rw [hend hlast, List.append_nil]
termination_by stop - position

theorem only_read {allowed : Collection → Request → Prop} {limits : Limits} {offset length : Nat}
    (ha : ∀ index, index * limits.blockSize < Word.addSat offset length →
      allowed .blocks (.get (Path.blockKey path index))) :
    (read limits path offset length).Only allowed :=
  only_readFrom ha (Word.addSat_lt ..) _ _

-- The end of the range that is read stops at the largest word.
theorem ensures_read {limits : Limits} {offset length : Nat} (hv : limits.Valid)
    (hb : docs.blocks path = laid limits.blockSize bytes rest)
    (hr : Behind limits.blockSize bytes rest)
    (hl : rest = (fun _ => none) ∨ offset + length ≤ bytes.length)
    (hw : min (offset + length) bytes.length < Word.limit) :
    (read limits path offset length).Ensures faulty
      (fun data after => after = docs ∧ data = (bytes.drop offset).take length)
      (fun _ after => after = docs ∧ ∃ request, faulty request) docs := by
  have hstop : Word.addSat offset length ≤ offset + length := Nat.min_le_left _ _
  have htake : bytes.take (Word.addSat offset length) = bytes.take (offset + length) := by
    rw [List.take_eq_take_iff]
    unfold Word.addSat
    omega
  refine (ensures_readFrom hv.blockSize_pos hb hr (hl.imp_right fun h => by omega)
    (Word.addSat_lt ..) offset []).mono ?_ fun _ _ he => he
  intro data after hpost
  obtain ⟨rfl, rfl⟩ := hpost
  refine ⟨rfl, ?_⟩
  rw [List.reverse_nil, List.flatten_nil, List.nil_append, htake, List.drop_take]
  congr 1
  omega

end DocTree.Content
