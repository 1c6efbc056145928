import DocTree.Proofs.Bytes.Blocks

namespace DocTree.Blocks

-- Every block that the bytes reach begins with its part of them, and no block is missing.
structure Covered (size most : Nat) (bytes : Bytes) (blocks : Blocks) : Prop where
  block : ∀ index, index * size < bytes.length →
    ∃ more, blocks index = some (chunk size bytes index ++ more) ∧
      ((index + 1) * size ≤ bytes.length → more = [])
  solid : Solid most blocks

-- What blocks hold behind the first `length` bytes.
def beyond (size : Nat) (blocks : Blocks) (length : Nat) : Blocks := fun index =>
  if (index + 1) * size ≤ length then none
  else (blocks index).map (List.drop (length - index * size))

variable {size most length : Nat} {bytes other : Bytes} {blocks rest : Blocks}

theorem laid_eq_none_iff {index : Nat} :
    laid size bytes rest index = none ↔ bytes.length ≤ index * size ∧ rest index = none := by
  unfold laid
  split
  · simp only [reduceCtorEq, false_iff]
    omega
  · simp only [iff_and_self]
    omega

theorem Solid.laid_of_length (h : Solid most (laid size bytes rest))
    (hl : other.length = bytes.length) : Solid most (laid size other rest) := by
  constructor
  · intro index hn
    rw [ne_eq, laid_eq_none_iff, hl, ← laid_eq_none_iff] at hn ⊢
    exact h.solid index hn
  · intro index hm
    rw [laid_eq_none_iff, hl, ← laid_eq_none_iff]
    exact h.bounded index hm

theorem Behind.of_length (h : Behind size bytes rest) (hl : other.length = bytes.length) :
    Behind size other rest := by
  intro index hn
  rw [hl]
  exact h index hn

theorem covered_laid (hr : Behind size bytes rest) (hs : Solid most (laid size bytes rest)) :
    Covered size most bytes (laid size bytes rest) := by
  refine ⟨fun index hi => ⟨(rest index).getD [], by rw [laid, if_pos hi], fun hf => ?_⟩, hs⟩
  have hn : rest index = none := by
    by_contra hne
    exact absurd (hr index hne) (by omega)
  rw [hn, Option.getD_none]

theorem behind_beyond : Behind size bytes (blocks.beyond size bytes.length) := by
  intro index hn
  by_contra hf
  exact hn (if_pos (by omega))

theorem Covered.eq_laid (h : Covered size most bytes blocks) (hs : 0 < size) :
    blocks = laid size bytes (blocks.beyond size bytes.length) := by
  funext index
  unfold laid beyond
  by_cases hi : index * size < bytes.length
  · obtain ⟨more, hm, hfull⟩ := h.block index hi
    rw [if_pos hi, hm]
    by_cases hf : (index + 1) * size ≤ bytes.length
    · rw [if_pos hf, hfull hf, Option.getD_none]
    · have hl : (chunk size bytes index).length = bytes.length - index * size := by
        rw [Nat.add_mul] at hf
        rw [length_chunk]
        omega
      rw [if_neg hf, Option.map_some, Option.getD_some, ← hl, List.drop_left]
  · have hf : ¬(index + 1) * size ≤ bytes.length := by
      rw [Nat.add_mul]
      omega
    have hz : bytes.length - index * size = 0 := by omega
    rw [if_neg hi, if_neg hf, hz]
    cases blocks index <;> rfl

theorem Covered.exists_laid (h : Covered size most bytes blocks) (hs : 0 < size) :
    ∃ rest, blocks = laid size bytes rest ∧ Behind size bytes rest ∧
      (blocks = of size bytes → rest = fun _ => none) := by
  by_cases hd : blocks = of size bytes
  · exact ⟨fun _ => none, by rw [hd, laid_none], behind_none, fun _ => rfl⟩
  · exact ⟨_, h.eq_laid hs, behind_beyond, fun ho => absurd ho hd⟩

theorem covered_of (h : bytes.length ≤ most * size) : Covered size most bytes (of size bytes) := by
  have hc := covered_laid behind_none (laid_none size bytes ▸ solid_of h)
  rwa [laid_none] at hc

theorem Covered.take (h : Covered size most bytes blocks) (hl : length ≤ bytes.length) :
    Covered size most (bytes.take length) blocks := by
  refine ⟨fun index hi => ?_, h.solid⟩
  rw [List.length_take, Nat.min_eq_left hl] at hi ⊢
  obtain ⟨more, hm, hfull⟩ := h.block index (by omega)
  by_cases hf : (index + 1) * size ≤ length
  · rw [chunk_take hf]
    exact ⟨more, hm, fun _ => hfull (by omega)⟩
  · refine ⟨(chunk size bytes index).drop (length - index * size) ++ more, ?_, fun h => absurd h hf⟩
    rw [hm, chunk_take_last (by omega), ← List.append_assoc, List.take_append_drop]

theorem Covered.trimmed (h : Covered size most bytes blocks) (hs : 0 < size) :
    Covered size most bytes (blocks.trimmed size bytes.length) := by
  refine ⟨fun index hi => ?_, h.solid.trimmed⟩
  obtain ⟨more, hm, hfull⟩ := h.block index hi
  unfold Blocks.trimmed
  by_cases hz : bytes.length % size = 0
  · rw [if_pos hz]
    exact ⟨more, hm, hfull⟩
  rw [if_neg hz]
  by_cases hlast : index = bytes.length / size
  · have hmod := Nat.div_add_mod' bytes.length size
    rw [← hlast] at hmod ⊢
    have hl : (chunk size bytes index).length = bytes.length % size := by
      have := Nat.mod_lt bytes.length hs
      rw [length_chunk]
      omega
    refine ⟨[], ?_, fun _ => rfl⟩
    rw [Function.update_self, hm, Option.map_some, ← hl, List.take_left, List.append_nil]
  · rw [Function.update_of_ne hlast]
    exact ⟨more, hm, hfull⟩

theorem filterMap_getElem?_range (bytes : Bytes) (length : Nat) :
    (List.range length).filterMap (bytes[·]?) = bytes.take length := by
  induction length with
  | zero => rfl
  | succ length ih =>
    rw [List.range_succ, List.filterMap_append, ih, List.take_add_one]
    congr 1

-- What is covered can be read off.
theorem Covered.below_eq (h : Covered size most bytes blocks) (hs : 0 < size) :
    blocks.below size bytes.length = bytes := by
  have hbyte : ∀ position ∈ List.range bytes.length,
      (do (← blocks (position / size))[position % size]?) = bytes[position]? := by
    intro position hp
    rw [List.mem_range] at hp
    have hmod := Nat.div_add_mod' position size
    have hlt := Nat.mod_lt position hs
    obtain ⟨more, hm, -⟩ := h.block (position / size) (by omega)
    rw [hm, Option.bind_eq_bind, Option.bind_some, List.getElem?_append_left, getElem?_chunk,
      if_pos hlt, hmod]
    rw [length_chunk]
    omega
  unfold below
  rw [List.filterMap_congr hbyte, filterMap_getElem?_range, List.take_length]

end DocTree.Blocks
