import DocTree.Proofs.Path

namespace DocTree.Path

-- A name that stands between slashes and is not one that a directory gives itself or its parent.
structure Component (name : String) : Prop where
  ne_empty : name ≠ ""
  slash_not_mem : '/' ∉ name.toList
  ne_dot : name ≠ "."
  ne_dots : name ≠ ".."

-- The path down from the root; without components it is the root.
def absolute (names : List String) : String := "/" ++ "/".intercalate names

def Canonical (path : String) : Prop :=
  ∃ names, names ≠ [] ∧ (∀ name ∈ names, Component name) ∧ path = absolute names

variable {path parent leaf name : String} {names front : List String} {maxLength : Nat}
  {piece : List Char}

theorem component_iff : Component name ↔ isName name.toList = true ∧ '/' ∉ name.toList := by
  have hdot : name.toList = ['.'] ↔ name = "." :=
    ⟨fun h => String.toList_injective h, fun h => h ▸ rfl⟩
  have hdots : name.toList = ['.', '.'] ↔ name = ".." :=
    ⟨fun h => String.toList_injective h, fun h => h ▸ rfl⟩
  simp only [isName, decide_eq_true_eq, ne_eq, String.toList_eq_nil_iff, hdot, hdots]
  constructor
  · intro h
    exact ⟨⟨h.ne_empty, h.ne_dot, h.ne_dots⟩, h.slash_not_mem⟩
  · intro h
    obtain ⟨⟨hne, hd, hds⟩, hs⟩ := h
    exact ⟨hne, hs, hd, hds⟩

theorem slash_not_mem_of_mem_pieces {cs : List Char} (h : piece ∈ pieces cs) : '/' ∉ piece := by
  induction cs generalizing piece with
  | nil =>
    rw [pieces, List.mem_singleton] at h
    rw [h]
    exact List.not_mem_nil
  | cons c rest ih =>
    by_cases hc : c = '/'
    · subst hc
      rw [pieces, List.mem_cons] at h
      rcases h with rfl | h
      · exact List.not_mem_nil
      · exact ih h
    · rw [pieces_cons_of_ne hc] at h
      obtain ⟨first, more, hp⟩ := List.exists_cons_of_ne_nil (pieces_ne_nil rest)
      rw [hp, List.modifyHead_cons, List.mem_cons] at h
      rw [hp] at ih
      rcases h with rfl | h
      · exact List.not_mem_cons_of_ne_of_not_mem (Ne.symm hc) (ih (List.mem_cons_self ..))
      · exact ih (List.mem_cons_of_mem _ h)

theorem unpieces_eq_intercalate (parts : List (List Char)) :
    unpieces parts = ['/'].intercalate parts := by
  induction parts with
  | nil => rfl
  | cons piece more ih =>
    cases more with
    | nil => simp [unpieces]
    | cons next others =>
      rw [unpieces_cons_cons, ih, List.intercalate_cons_cons]
      simp

theorem pieces_eq_splitOn (cs : List Char) : pieces cs = cs.splitOn '/' := by
  induction cs with
  | nil => rw [pieces, List.splitOn_nil]
  | cons c rest ih =>
    rw [List.splitOn_eq_splitOnP] at ih ⊢
    rw [List.splitOnP_cons_eq_if_modifyHead, ← ih]
    by_cases hc : c = '/'
    · subst hc
      rw [pieces, if_pos (beq_self_eq_true _)]
    · rw [pieces_cons_of_ne hc, if_neg (by simpa using hc)]

theorem pieces_unpieces {parts : List (List Char)} (hne : parts ≠ [])
    (h : ∀ piece ∈ parts, '/' ∉ piece) : pieces (unpieces parts) = parts := by
  rw [pieces_eq_splitOn, unpieces_eq_intercalate, List.splitOn_intercalate '/' h hne]

theorem toList_absolute (names : List String) :
    (absolute names).toList = '/' :: unpieces (names.map String.toList) := by
  rw [absolute, String.toList_append, String.toList_intercalate, unpieces_eq_intercalate]
  rfl

theorem toList_absolute_of_ne_nil (hne : names ≠ []) :
    (absolute names).toList = unpieces ([] :: names.map String.toList) := by
  obtain ⟨name, more, rfl⟩ := List.exists_cons_of_ne_nil hne
  rw [toList_absolute, List.map_cons, unpieces_cons_cons]
  rfl

theorem pieces_absolute (hne : names ≠ []) (h : ∀ name ∈ names, Component name) :
    pieces (absolute names).toList = [] :: names.map String.toList := by
  rw [toList_absolute_of_ne_nil hne]
  refine pieces_unpieces (List.cons_ne_nil _ _) fun piece hp => ?_
  rcases List.mem_cons.mp hp with rfl | hm
  · exact List.not_mem_nil
  · obtain ⟨name, hn, rfl⟩ := List.mem_map.mp hm
    exact (h name hn).slash_not_mem

theorem split_absolute (hf : ∀ name ∈ front, Component name) (hl : Component leaf)
    (hm : (absolute (front ++ [leaf])).utf8ByteSize ≤ maxLength) :
    split (absolute (front ++ [leaf])) maxLength = .ok (absolute front, leaf) := by
  have hall : ∀ name ∈ front ++ [leaf], Component name := by
    intro name hn
    rcases List.mem_append.mp hn with h | h
    · exact hf name h
    · exact List.mem_singleton.mp h ▸ hl
  have hnames : ((front ++ [leaf]).map String.toList).all isName = true := by
    refine List.all_eq_true.mpr fun piece hp => ?_
    obtain ⟨name, hn, rfl⟩ := List.mem_map.mp hp
    exact (component_iff.mp (hall name hn)).1
  rw [split_eq_splitByPieces, splitByPieces, checkLength_eq_ok.mpr hm]
  simp only [bind, Except.bind]
  rw [pieces_absolute (by simp) hall]
  dsimp only
  rw [if_neg (not_or.mpr ⟨by simp, not_not.mpr hnames⟩)]
  simp only [List.map_append, List.map_cons, List.map_nil, List.dropLast_concat,
    List.getLast?_concat, Option.getD_some, String.ofList_toList]
  cases front with
  | nil => rfl
  | cons first more =>
    have hlength : ((first :: more).map String.toList ++ [leaf.toList]).length ≠ 1 := by simp
    rw [if_neg hlength, ← toList_absolute_of_ne_nil (List.cons_ne_nil first more),
      String.ofList_toList]
    rfl

theorem exists_absolute_of_split (h : split path maxLength = .ok (parent, leaf)) :
    ∃ front, (∀ name ∈ front, Component name) ∧ Component leaf ∧
      path = absolute (front ++ [leaf]) ∧ parent = absolute front := by
  obtain ⟨-, front, piece, hp⟩ := split_eq_ok h
  have hslash : ∀ part ∈ front ++ [piece], '/' ∉ part := fun part hm =>
    slash_not_mem_of_mem_pieces (hp.pieces_eq ▸ List.mem_cons_of_mem _ hm)
  have hfront : (front.map String.ofList).map String.toList = front := by simp
  refine ⟨front.map String.ofList, fun name hn => ?_, ?_, ?_, ?_⟩
  · obtain ⟨part, hm, rfl⟩ := List.mem_map.mp hn
    rw [component_iff, String.toList_ofList]
    exact ⟨hp.front_names part hm, hslash part (List.mem_append_left _ hm)⟩
  · rw [hp.leaf_eq, component_iff, String.toList_ofList]
    exact ⟨hp.leaf_name, hslash piece (by simp)⟩
  · apply String.toList_injective
    rw [toList_absolute_of_ne_nil (by simp), ← unpieces_pieces path.toList, hp.pieces_eq,
      List.map_append, hfront, hp.leaf_eq]
    simp
  · rw [hp.parent_eq]
    split
    · next hnil =>
      rw [hnil]
      rfl
    · next hne =>
      apply String.toList_injective
      rw [String.toList_ofList, toList_absolute_of_ne_nil (by simpa using hne), hfront]

theorem join_absolute (hf : ∀ name ∈ front, Component name) (hl : Component leaf) :
    join (absolute front) leaf = absolute (front ++ [leaf]) :=
  join_of_split (split_absolute hf hl (Nat.le_refl _))

theorem canonical_iff : Canonical path ↔ ∃ front leaf, (∀ name ∈ front, Component name) ∧
    Component leaf ∧ path = absolute (front ++ [leaf]) := by
  constructor
  · intro h
    obtain ⟨names, hne, hn, rfl⟩ := h
    obtain ⟨front, leaf, rfl⟩ := (List.eq_nil_or_concat names).resolve_left hne
    rw [List.concat_eq_append] at hn ⊢
    exact ⟨front, leaf, fun name hm => hn name (List.mem_append_left _ hm), hn leaf (by simp), rfl⟩
  · intro h
    obtain ⟨front, leaf, hf, hl, rfl⟩ := h
    refine ⟨front ++ [leaf], by simp, fun name hm => ?_, rfl⟩
    rcases List.mem_append.mp hm with h | h
    · exact hf name h
    · exact List.mem_singleton.mp h ▸ hl

-- A path in which children can lie.
theorem exists_absolute_iff : parent = root ∨ Canonical parent ↔
    ∃ front, (∀ name ∈ front, Component name) ∧ parent = absolute front := by
  constructor
  · intro h
    rcases h with rfl | ⟨names, -, hn, rfl⟩
    · exact ⟨[], nofun, rfl⟩
    · exact ⟨names, hn, rfl⟩
  · intro h
    obtain ⟨front, hf, rfl⟩ := h
    by_cases hnil : front = []
    · rw [hnil]
      exact .inl rfl
    · exact .inr ⟨front, hnil, hf, rfl⟩

theorem split_eq_error {error : FsError} (h : split path maxLength = .error error) :
    error = if path.utf8ByteSize ≤ maxLength then .invalidArgument else .nameTooLong := by
  by_cases hl : path.utf8ByteSize ≤ maxLength
  · rw [if_pos hl]
    rw [split_eq_splitByPieces, splitByPieces, checkLength_eq_ok.mpr hl] at h
    simp only [bind, Except.bind] at h
    split at h
    · split at h <;> cases h
      rfl
    · cases h
      rfl
  · rw [if_neg hl]
    unfold split checkLength at h
    rw [if_pos (Nat.not_le.mp hl)] at h
    cases h
    rfl

theorem split_eq_ok_iff : split path maxLength = .ok (parent, leaf) ↔
    path.utf8ByteSize ≤ maxLength ∧ (parent = root ∨ Canonical parent) ∧ Component leaf ∧
      path = join parent leaf := by
  constructor
  · intro h
    obtain ⟨front, hf, hl, -, hparent⟩ := exists_absolute_of_split h
    exact ⟨(split_eq_ok h).1, exists_absolute_iff.mpr ⟨front, hf, hparent⟩, hl,
      (join_of_split h).symm⟩
  · intro h
    obtain ⟨hm, hparent, hl, rfl⟩ := h
    obtain ⟨front, hf, rfl⟩ := exists_absolute_iff.mp hparent
    rw [join_absolute hf hl] at hm ⊢
    exact split_absolute hf hl hm

theorem exists_split_iff : (∃ parts, split path maxLength = .ok parts) ↔
    path.utf8ByteSize ≤ maxLength ∧ Canonical path := by
  constructor
  · intro h
    obtain ⟨⟨parent, leaf⟩, hs⟩ := h
    obtain ⟨front, hf, hl, rfl, -⟩ := exists_absolute_of_split hs
    exact ⟨(split_eq_ok hs).1, canonical_iff.mpr ⟨front, leaf, hf, hl, rfl⟩⟩
  · intro h
    obtain ⟨hm, hc⟩ := h
    obtain ⟨front, leaf, hf, hl, rfl⟩ := canonical_iff.mp hc
    exact ⟨_, split_absolute hf hl hm⟩

-- Canonical paths that are not too long come apart, and only they; then into the one directory and
-- the one component that they are joined of. What a path is refused with tells which it was not.
theorem split_takes_canonical_paths_apart (path : String) (maxLength : Nat) :
    ((∃ parts, split path maxLength = .ok parts) ↔
      path.utf8ByteSize ≤ maxLength ∧ Canonical path) ∧
    (∀ parent leaf, split path maxLength = .ok (parent, leaf) ↔
      path.utf8ByteSize ≤ maxLength ∧ ∃ front, (∀ name ∈ front, Component name) ∧
        Component leaf ∧ path = absolute (front ++ [leaf]) ∧ parent = absolute front) ∧
    (∀ parent leaf, split path maxLength = .ok (parent, leaf) ↔
      path.utf8ByteSize ≤ maxLength ∧ (parent = root ∨ Canonical parent) ∧ Component leaf ∧
        path = join parent leaf) ∧
    (split path maxLength = .error .nameTooLong ↔ maxLength < path.utf8ByteSize) ∧
    (split path maxLength = .error .invalidArgument ↔
      path.utf8ByteSize ≤ maxLength ∧ ¬Canonical path) := by
  refine ⟨exists_split_iff, fun parent leaf => ⟨fun h => ?_, fun h => ?_⟩,
    fun parent leaf => split_eq_ok_iff, ?_⟩
  · exact ⟨(split_eq_ok h).1, exists_absolute_of_split h⟩
  · obtain ⟨hm, front, hf, hl, rfl, rfl⟩ := h
    exact split_absolute hf hl hm
  · have hiff := @exists_split_iff path maxLength
    cases hs : split path maxLength with
    | ok parts =>
      obtain ⟨hm, hc⟩ := hiff.mp ⟨parts, hs⟩
      simp [hm, hc]
    | error error =>
      have he := split_eq_error hs
      rw [hs] at hiff
      by_cases hm : path.utf8ByteSize ≤ maxLength
      · rw [if_pos hm] at he
        subst he
        have hc : ¬Canonical path := fun hc => by simpa using hiff.mpr ⟨hm, hc⟩
        simp [hm, hc]
      · rw [if_neg hm] at he
        subst he
        simp [hm, Nat.not_le.mp hm]

example : split "/docs/a.b" 9 = .ok ("/docs", "a.b") := by decide

end DocTree.Path
