import DocTree.Path
import Mathlib.Data.List.Basic

namespace DocTree.Path

-- The text that has the given pieces between its slashes.
def unpieces : List (List Char) → List Char
  | [] => []
  | [piece] => piece
  | piece :: more => piece ++ '/' :: unpieces more

-- Taking a path apart by all of its pieces: a first one that is empty, and names behind it.
def splitByPieces (path : String) (maxLength : Nat) : Except FsError (String × String) := do
  checkLength path maxLength
  match pieces path.toList with
  | [] :: names =>
    if names = [] ∨ ¬names.all isName then
      .error .invalidArgument
    else
      let parent :=
        if names.length = 1 then root else String.ofList (unpieces ([] :: names.dropLast))
      return (parent, String.ofList (names.getLast?.getD []))
  | _ => .error .invalidArgument

theorem pieces_cons_of_ne {c : Char} (hc : c ≠ '/') (rest : List Char) :
    pieces (c :: rest) = (pieces rest).modifyHead (c :: ·) :=
  pieces.eq_3 _ _ fun h => hc h

theorem pieces_ne_nil (cs : List Char) : pieces cs ≠ [] := by
  induction cs with
  | nil => simp [pieces]
  | cons c rest ih =>
    by_cases hc : c = '/'
    · subst hc
      simp [pieces]
    · rw [pieces_cons_of_ne hc]
      cases hp : pieces rest with
      | nil => exact absurd hp ih
      | cons piece more => simp

theorem unpieces_cons_cons (piece next : List Char) (more : List (List Char)) :
    unpieces (piece :: next :: more) = piece ++ '/' :: unpieces (next :: more) := by
  rw [unpieces]
  exact List.cons_ne_nil _ _

theorem unpieces_pieces (cs : List Char) : unpieces (pieces cs) = cs := by
  induction cs with
  | nil => rfl
  | cons c rest ih =>
    obtain ⟨piece, more, hp⟩ := List.exists_cons_of_ne_nil (pieces_ne_nil rest)
    by_cases hc : c = '/'
    · subst hc
      rw [pieces, hp, unpieces_cons_cons, ← hp, ih]
      rfl
    · rw [pieces_cons_of_ne hc, hp, List.modifyHead_cons]
      rw [hp] at ih
      cases more with
      | nil => simpa [unpieces] using ih
      | cons next others =>
        rw [unpieces_cons_cons] at ih ⊢
        rw [List.cons_append, ih]

theorem unpieces_append_singleton (front : List (List Char)) (piece : List Char)
    (hf : front ≠ []) : unpieces (front ++ [piece]) = unpieces front ++ '/' :: piece := by
  induction front with
  | nil => exact absurd rfl hf
  | cons first rest ih =>
    cases rest with
    | nil => simp [unpieces]
    | cons next others =>
      rw [List.cons_append, List.cons_append, unpieces_cons_cons, ← List.cons_append,
        ih (List.cons_ne_nil _ _), unpieces_cons_cons]
      simp

-- Without a slash there is one piece; otherwise the last one stands behind the last slash.
theorem pieces_of_splitLast? (cs : List Char) :
    pieces cs = match splitLast? cs with
      | some (front, leaf) => pieces front ++ [leaf]
      | none => [cs] := by
  induction cs with
  | nil => rfl
  | cons c rest ih =>
    by_cases hc : c = '/'
    · subst hc
      cases hs : splitLast? rest with
      | none => simp [splitLast?, hs, pieces, ih]
      | some parts => simp [splitLast?, hs, pieces, ih]
    · rw [pieces_cons_of_ne hc, ih]
      cases hs : splitLast? rest with
      | none => simp [splitLast?, hs, hc]
      | some parts =>
        obtain ⟨piece, more, hp⟩ := List.exists_cons_of_ne_nil (pieces_ne_nil parts.1)
        simp [splitLast?, hs, pieces_cons_of_ne hc, hp]

-- In front of the last slash of an absolute path stands nothing or an absolute path.
theorem pieces_of_absolute {rest : List Char} {front leaf : List Char}
    (h : splitLast? ('/' :: rest) = some (front, leaf)) :
    (front = [] ∧ pieces ('/' :: rest) = [[], leaf]) ∨ ∃ more, front = '/' :: more ∧
      pieces ('/' :: rest) = [] :: (pieces more ++ [leaf]) := by
  have hp := pieces_of_splitLast? ('/' :: rest)
  rw [h] at hp
  rw [splitLast?] at h
  split at h
  · next more last _ =>
    obtain ⟨rfl, rfl⟩ : '/' :: more = front ∧ last = leaf := by simpa using h
    exact .inr ⟨more, rfl, hp⟩
  · obtain ⟨rfl, rfl⟩ : [] = front ∧ rest = leaf := by simpa using h
    exact .inl ⟨rfl, hp⟩

variable {path other parent leaf : String} {maxLength length : Nat}

-- The split at the last slash, with a look at the pieces in front of it, finds what all of the
-- pieces together tell.
theorem split_eq_splitByPieces (path : String) (maxLength : Nat) :
    split path maxLength = splitByPieces path maxLength := by
  have hroot : path = root ↔ path.toList = ['/'] :=
    ⟨fun h => h ▸ rfl, fun h => String.toList_injective h⟩
  unfold split splitByPieces
  congr 1
  funext _
  simp only [hroot]
  generalize path.toList = cs
  cases cs with
  | nil => rfl
  | cons c rest =>
  by_cases hc : c = '/'
  case neg =>
    obtain ⟨piece, more, hp⟩ := List.exists_cons_of_ne_nil (pieces_ne_nil rest)
    rw [if_pos (.inl (by simpa using hc)), pieces_cons_of_ne hc, hp]
    rfl
  subst hc
  by_cases hr : rest = []
  · subst hr
    rfl
  rw [if_neg (by simpa using hr)]
  cases hs : splitLast? ('/' :: rest) with
  | none =>
    rw [splitLast?] at hs
    split at hs <;> simp at hs
  | some parts =>
    obtain ⟨front, leaf⟩ := parts
    rcases pieces_of_absolute hs with ⟨rfl, hp⟩ | ⟨more, rfl, hp⟩
    · simp [hp, pieces]
    · have hlength : (pieces more ++ [leaf]).length ≠ 1 := by simpa using pieces_ne_nil more
      have hfront : unpieces ([] :: pieces more) = '/' :: more := unpieces_pieces ('/' :: more)
      have hnames : (¬isName leaf ∨ (pieces more).any (!isName ·)) ↔
          ¬(pieces more ++ [leaf]).all isName := by
        simp only [List.all_append, List.all_cons, List.all_nil, ← List.not_all_eq_any_not,
          Bool.and_true, Bool.and_eq_true, not_and_or, Bool.not_eq_true, Bool.not_eq_true', or_comm]
      have hne : pieces more ++ [leaf] ≠ [] := by simp
      rw [hp]
      simp only [pieces, List.drop_succ_cons, List.drop_zero, hnames, hne, false_or,
        if_neg hlength, List.dropLast_concat, hfront, List.getLast?_concat, Option.getD_some,
        if_neg (List.cons_ne_nil _ _)]

-- What taking a path apart found: the pieces in front of the leaf, all of them names.
structure Parts (path parent leaf : String) (front : List (List Char)) (piece : List Char) :
    Prop where
  pieces_eq : pieces path.toList = [] :: (front ++ [piece])
  front_names : ∀ name ∈ front, isName name = true
  leaf_name : isName piece = true
  parent_eq : parent = if front = [] then root else String.ofList (unpieces ([] :: front))
  leaf_eq : leaf = String.ofList piece

theorem checkLength_eq_ok :
    checkLength path maxLength = .ok () ↔ path.utf8ByteSize ≤ maxLength := by
  unfold checkLength
  split <;> simp <;> omega

theorem split_eq_ok (h : split path maxLength = .ok (parent, leaf)) :
    path.utf8ByteSize ≤ maxLength ∧ ∃ front piece, Parts path parent leaf front piece := by
  rw [split_eq_splitByPieces, splitByPieces] at h
  cases hc : checkLength path maxLength with
  | error error => rw [hc] at h; cases h
  | ok _ =>
    rw [hc] at h
    refine ⟨checkLength_eq_ok.mp hc, ?_⟩
    simp only [bind, Except.bind] at h
    split at h
    · next names hp =>
      split at h
      · cases h
      · next hn =>
        rw [not_or, not_not] at hn
        have hs := List.dropLast_append_getLast hn.1
        have ha := List.all_eq_true.mp hn.2
        obtain ⟨rfl, rfl⟩ : _ ∧ _ := by simpa [pure, Except.pure] using h
        refine ⟨names.dropLast, names.getLast hn.1, ?_, ?_, ?_, ?_, ?_⟩
        · rw [hs, hp]
        · exact fun name hm => ha name (List.dropLast_subset _ hm)
        · exact ha _ (List.getLast_mem hn.1)
        · have hl : names.length = 1 ↔ names.dropLast = [] := by
            rw [← List.length_eq_zero_iff, List.length_dropLast]
            have := List.length_pos_of_ne_nil hn.1
            omega
          simp only [hl]
        · rw [List.getLast?_eq_some_getLast hn.1, Option.getD_some]
    · cases h

theorem isName_ne_nil {piece : List Char} (h : isName piece = true) : piece ≠ [] := by
  simp only [isName, decide_eq_true_eq] at h
  exact h.1

namespace Parts

variable {front : List (List Char)} {piece : List Char}

theorem toList_eq (h : Parts path parent leaf front piece) :
    path.toList = unpieces ([] :: front) ++ '/' :: piece := by
  rw [← unpieces_pieces path.toList, h.pieces_eq, ← List.cons_append,
    unpieces_append_singleton _ _ (List.cons_ne_nil _ _)]

theorem front_toList {first : List Char} {more : List (List Char)}
    (h : Parts path parent leaf (first :: more) piece) :
    parent.toList = '/' :: unpieces (first :: more) ∧ unpieces (first :: more) ≠ [] := by
  have hf := isName_ne_nil (h.front_names first (List.mem_cons_self ..))
  constructor
  · rw [h.parent_eq, if_neg (List.cons_ne_nil _ _), String.toList_ofList, unpieces_cons_cons,
      List.nil_append]
  · cases more with
    | nil => exact hf
    | cons next others => simp [unpieces_cons_cons]

theorem join_eq (h : Parts path parent leaf front piece) : join parent leaf = path := by
  apply String.toList_injective
  rw [h.toList_eq]
  cases front with
  | nil =>
    rw [h.parent_eq, if_pos rfl, h.leaf_eq, join, if_pos rfl]
    simp [root, unpieces, String.toList_append, String.toList_ofList]
  | cons first more =>
    obtain ⟨hp, hne⟩ := h.front_toList
    have hr : parent ≠ root := by
      intro he
      rw [he] at hp
      exact hne (List.cons.inj hp).2.symm
    rw [join, if_neg hr, h.leaf_eq]
    simp [String.toList_append, String.toList_ofList, hp, unpieces_cons_cons]

theorem length_parent_lt (h : Parts path parent leaf front piece) :
    parent.toList.length < path.toList.length := by
  have hl := List.length_pos_of_ne_nil (isName_ne_nil h.leaf_name)
  rw [h.toList_eq]
  cases front with
  | nil =>
    rw [h.parent_eq, if_pos rfl]
    simp [root, unpieces]
    omega
  | cons first more =>
    rw [h.front_toList.1]
    simp [unpieces_cons_cons]

end Parts

theorem join_of_split (h : split path maxLength = .ok (parent, leaf)) :
    join parent leaf = path := by
  obtain ⟨-, front, piece, hp⟩ := split_eq_ok h
  exact hp.join_eq

theorem join_inj {directory name other : String} (h : join directory name = join directory other) :
    name = other := by
  have hl := congrArg String.toList h
  apply String.toList_injective
  unfold join at hl
  split at hl <;> simpa [String.toList_append] using hl

-- No component is a name that a directory gives itself or its parent.
theorem name_of_split (h : split path maxLength = .ok (parent, leaf)) :
    leaf ≠ "." ∧ leaf ≠ ".." := by
  obtain ⟨-, front, piece, hp⟩ := split_eq_ok h
  have hname := hp.leaf_name
  simp only [isName, decide_eq_true_eq] at hname
  have hpiece : leaf.toList = piece := by rw [hp.leaf_eq, String.toList_ofList]
  constructor
  · rintro rfl
    exact hname.2.1 hpiece.symm
  · rintro rfl
    exact hname.2.2 hpiece.symm

theorem parent_ne_of_split (h : split path maxLength = .ok (parent, leaf)) : parent ≠ path := by
  obtain ⟨-, front, piece, hp⟩ := split_eq_ok h
  intro he
  have hl := hp.length_parent_lt
  rw [he] at hl
  exact Nat.lt_irrefl _ hl

-- The longest length allowed decides only whether a path is taken apart.
theorem split_of_le (h : split path maxLength = .ok (parent, leaf))
    (hl : path.utf8ByteSize ≤ length) : split path length = .ok (parent, leaf) := by
  have hm := checkLength_eq_ok.mpr (split_eq_ok h).1
  unfold split at h ⊢
  rw [hm] at h
  rw [checkLength_eq_ok.mpr hl]
  exact h

theorem parent_of_split (h : split path maxLength = .ok (parent, leaf)) :
    Path.parent path = parent := by
  unfold Path.parent
  rw [split_of_le h (Nat.le_refl _)]

theorem split_root : split root maxLength = .error .nameTooLong ∨
    split root maxLength = .error .invalidArgument := by
  unfold split checkLength
  by_cases hl : root.utf8ByteSize > maxLength
  · simp only [hl, ite_true]
    exact .inl rfl
  · simp only [hl, ite_false]
    exact .inr rfl

theorem ne_root_of_split (h : split path maxLength = .ok (parent, leaf)) : path ≠ root := by
  rintro rfl
  rcases @split_root maxLength with he | he <;> rw [he] at h <;> cases h

theorem parent_root : Path.parent root = root := by
  unfold Path.parent
  rcases @split_root root.utf8ByteSize with he | he <;> rw [he]

-- The last component of a path that lies in a directory.
def nameIn? (directory path : String) : Option String :=
  match split path path.utf8ByteSize with
  | .ok (parent, leaf) => if parent = directory then some leaf else none
  | .error _ => none

theorem nameIn?_eq_some {directory name : String} :
    nameIn? directory path = some name ↔
      split path path.utf8ByteSize = .ok (directory, name) := by
  unfold nameIn?
  split
  · next parent leaf hs =>
    rw [hs]
    simp
  · next error hs => simp [hs]

theorem nameIn?_of_split (h : split path maxLength = .ok (parent, leaf)) (directory : String) :
    nameIn? directory path = if parent = directory then some leaf else none := by
  unfold nameIn?
  rw [split_of_le h (Nat.le_refl _)]

theorem join_of_nameIn? {directory name : String} (h : nameIn? directory path = some name) :
    join directory name = path :=
  join_of_split (nameIn?_eq_some.mp h)

-- A path that no key of a block can be mistaken for.
def NulFree (path : String) : Prop := '\x00' ∉ path.toList

instance : DecidablePred NulFree := fun path => inferInstanceAs (Decidable ('\x00' ∉ path.toList))

theorem toDigits_inj {m n : Nat} (h : Nat.toDigits 10 m = Nat.toDigits 10 n) : m = n := by
  rw [← Nat.ofDigitChars_toDigits (b := 10) (n := m) (by decide) (by decide), h,
    Nat.ofDigitChars_toDigits (by decide) (by decide)]

theorem blockKey_toList (path : String) (index : Nat) :
    (blockKey path index).toList =
      path.toList ++ if index = 0 then [] else '\x00' :: Nat.toDigits 10 index := by
  unfold blockKey
  split
  · simp
  · simp [String.toList_append, toString, Nat.toList_repr]

theorem blockKey_index_inj {i j : Nat} (h : blockKey path i = blockKey path j) : i = j := by
  have hl := congrArg String.toList h
  rw [blockKey_toList, blockKey_toList, List.append_cancel_left_eq] at hl
  by_cases hi : i = 0 <;> by_cases hj : j = 0 <;> simp [hi, hj] at hl ⊢
  exact toDigits_inj hl

-- The path is what stands in front of the first NUL.
theorem takeWhile_blockKey (hp : NulFree path) (index : Nat) :
    (blockKey path index).toList.takeWhile (· ≠ '\x00') = path.toList := by
  rw [blockKey_toList, List.takeWhile_append_of_pos]
  · split <;> simp
  · intro c hc
    simp only [ne_eq, decide_not, Bool.not_eq_eq_eq_not, Bool.not_true, decide_eq_false_iff_not]
    rintro rfl
    exact hp hc

theorem blockKey_inj {i j : Nat} (hp : NulFree path) (ho : NulFree other)
    (h : blockKey path i = blockKey other j) : path = other ∧ i = j := by
  have he : path = other := by
    apply String.toList_injective
    rw [← takeWhile_blockKey hp i, h, takeWhile_blockKey ho]
  subst he
  exact ⟨rfl, blockKey_index_inj h⟩

-- One path is the other one followed by NUL and a number, like the keys of blocks.
def Confused (path other : String) : Prop :=
  ∃ index, 0 < index ∧ (other = blockKey path index ∨ path = blockKey other index)

theorem nul_not_mem_toDigits (index : Nat) : '\x00' ∉ Nat.toDigits 10 index := by
  intro hm
  have hd := Nat.isDigit_of_mem_toDigits (by decide) (by decide) hm
  exact absurd hd (by decide)

-- What stands behind the last NUL is the number.
theorem blockKey_inj_of_pos {i j : Nat} (hi : 0 < i) (hj : 0 < j)
    (h : blockKey path i = blockKey other j) : path = other := by
  have hl := congrArg (List.reverse ∘ String.toList) h
  have hkey : ∀ (path : String) {index : Nat}, 0 < index →
      (blockKey path index).toList.reverse =
        (Nat.toDigits 10 index).reverse ++ '\x00' :: path.toList.reverse := by
    intro path index hp
    rw [blockKey_toList, if_neg (by omega)]
    simp
  simp only [Function.comp_apply, hkey _ hi, hkey _ hj] at hl
  have hfront : ∀ index : Nat, ∀ rest : List Char,
      ((Nat.toDigits 10 index).reverse ++ '\x00' :: rest).takeWhile (· ≠ '\x00') =
        (Nat.toDigits 10 index).reverse := by
    intro index rest
    rw [List.takeWhile_append_of_pos]
    · simp
    · intro c hc
      have hne : c ≠ '\x00' := fun he =>
        nul_not_mem_toDigits index (he ▸ List.mem_reverse.mp hc)
      simpa using hne
  have hdigits : (Nat.toDigits 10 i).reverse = (Nat.toDigits 10 j).reverse := by
    rw [← hfront i path.toList.reverse, hl, hfront]
  rw [hdigits, List.append_cancel_left_eq] at hl
  exact String.toList_injective (List.reverse_injective (List.cons.inj hl).2)

theorem shares_iff_confused (hne : path ≠ other) :
    (∃ i j, blockKey path i = blockKey other j) ↔ Confused path other := by
  constructor
  · rintro ⟨i, j, h⟩
    rcases Nat.eq_zero_or_pos i with rfl | hi
    · rcases Nat.eq_zero_or_pos j with rfl | hj
      · exact absurd h hne
      · exact ⟨j, hj, .inr h⟩
    · rcases Nat.eq_zero_or_pos j with rfl | hj
      · exact ⟨i, hi, .inl h.symm⟩
      · exact absurd (blockKey_inj_of_pos hi hj h) hne
  · rintro ⟨index, -, rfl | rfl⟩
    · exact ⟨index, 0, rfl⟩
    · exact ⟨0, index, rfl⟩

theorem not_confused_of_nulFree (hp : NulFree path) (ho : NulFree other) (hne : path ≠ other) :
    ¬Confused path other := fun hc => by
  obtain ⟨i, j, h⟩ := (shares_iff_confused hne).mpr hc
  exact hne (blockKey_inj hp ho h).1

end DocTree.Path
