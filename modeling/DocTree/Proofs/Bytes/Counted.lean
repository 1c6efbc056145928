import DocTree.Bytes.Word
import DocTree.Proofs.Bytes.Layout

namespace DocTree

namespace Layout

-- The bytes of the value are read as the value, whatever follows them.
def ReadsBack {α : Type} [Layout α] (value : α) : Prop :=
  ∀ rest, decode (encode value ++ rest) = some (value, rest)

-- Whatever is read as a value has the property.
def Yields {α : Type} [Layout α] (property : α → Prop) : Prop :=
  ∀ bytes value rest, decode bytes = some (value, rest) → property value

variable {α : Type} [Layout α]

theorem readsBack [Lawful α] (value : α) : ReadsBack value := decode_encode value

theorem ReadsBack.eq_of_encode_eq {left right : α} (hl : ReadsBack left) (hr : ReadsBack right)
    (h : encode left = encode right) : left = right := by
  have he := (hl []).symm.trans (h ▸ hr [])
  injection he with he
  injection he

-- A reader that goes on behind the value.
theorem ReadsBack.bind {β : Type} {value : α} (h : ReadsBack value) (rest : Bytes)
    (next : α × Bytes → Option β) :
    (decode (encode value ++ rest) >>= next) = next (value, rest) := by
  rw [h rest]
  rfl

theorem readsBack_option {value : Option α} (h : ∀ inner ∈ value, ReadsBack inner) :
    ReadsBack value := by
  intro rest
  cases value with
  | none => rfl
  | some inner => simp [encode, decode, h inner rfl rest]

instance [Lawful α] : Lawful (Option α) where
  decode_encode _ := readsBack_option fun _ _ => readsBack _

instance : Lawful Digest where
  decode_encode digest rest := by
    have h := Bytes.splitAt?_append digest.bytes rest
    rw [digest.length_eq] at h
    simp [encode, decode, h, digest.length_eq]

theorem encode_bytes (bytes : Bytes) :
    encode bytes = encode (UInt64.ofNat bytes.length) ++ bytes := rfl

theorem decode_bytes (bytes : Bytes) : decode (α := Bytes) bytes =
    (decode (α := UInt64) bytes).bind fun (length, rest) => Bytes.splitAt? length.toNat rest := rfl

theorem encode_text (text : String) : encode text = encode (Utf8.encode text) := rfl

theorem decode_text (bytes : Bytes) : decode (α := String) bytes =
    (decode (α := Bytes) bytes).bind fun (content, rest) =>
      (Utf8.decode content).bind fun text => some (text, rest) := rfl

private theorem splitAt?_go_eq_some {count : Nat} {taken bytes front rest : Bytes}
    (h : Bytes.splitAt?.go count taken bytes = some (front, rest)) :
    front.length = taken.length + count := by
  induction count generalizing taken bytes with
  | zero =>
    cases h
    simp
  | succ count ih =>
    cases bytes with
    | nil => cases h
    | cons byte bytes =>
      rw [ih h, List.length_cons]
      omega

theorem length_of_splitAt? {count : Nat} {bytes front rest : Bytes}
    (h : Bytes.splitAt? count bytes = some (front, rest)) : front.length = count := by
  simpa using splitAt?_go_eq_some h

theorem readsBack_bytes {bytes : Bytes} (h : bytes.length < Word.limit) : ReadsBack bytes := by
  intro rest
  have hn : (UInt64.ofNat bytes.length).toNat = bytes.length := UInt64.toNat_ofNat_of_lt' h
  rw [encode_bytes, List.append_assoc, decode_bytes, decode_encode, Option.bind_some]
  simp only [hn, Bytes.splitAt?_append]

theorem yields_bytes : Yields fun bytes : Bytes => bytes.length < Word.limit := by
  intro bytes value rest h
  rw [decode_bytes, Option.bind_eq_some_iff] at h
  obtain ⟨⟨length, behind⟩, -, h⟩ := h
  rw [length_of_splitAt? h]
  exact length.toNat_lt

theorem readsBack_text {text : String} (h : text.utf8ByteSize < Word.limit) : ReadsBack text := by
  intro rest
  rw [encode_text, decode_text, readsBack_bytes (Utf8.length_encode text ▸ h) rest,
    Option.bind_some]
  simp only [Utf8.decode_encode, Option.bind_some]

theorem yields_text : Yields fun text : String => text.utf8ByteSize < Word.limit := by
  intro bytes text rest h
  rw [decode_text, Option.bind_eq_some_iff] at h
  obtain ⟨⟨content, behind⟩, hc, h⟩ := h
  obtain ⟨read, hu, h⟩ := Option.bind_eq_some_iff.mp h
  cases h
  rw [← Utf8.length_encode, ← Utf8.decode_eq_some_iff.mp hu]
  exact yields_bytes _ _ _ hc

theorem encode_map (map : Std.ExtTreeMap String α) : encode map =
    encode (UInt64.ofNat map.size) ++
      map.toList.flatMap fun (key, value) => encode key ++ encode value := rfl

theorem decode_map (bytes : Bytes) : decode (α := Std.ExtTreeMap String α) bytes =
    (decode (α := UInt64) bytes).bind fun (count, rest) => takeEntries count.toNat ∅ rest := rfl

-- The entries that stand one after the other are added one after the other.
theorem takeEntries_encode {entries : List (String × α)}
    (h : ∀ entry ∈ entries, ReadsBack entry.1 ∧ ReadsBack entry.2)
    (found : Std.ExtTreeMap String α) (rest : Bytes) :
    takeEntries entries.length found
      ((entries.flatMap fun (key, value) => encode key ++ encode value) ++ rest) =
      some (entries.foldl (fun map entry => map.insert entry.1 entry.2) found, rest) := by
  induction entries generalizing found with
  | nil => rfl
  | cons entry entries ih =>
    obtain ⟨hk, hv⟩ := h entry List.mem_cons_self
    have hr := ih fun entry he => h entry (List.mem_cons_of_mem _ he)
    simp only [List.length_cons, List.flatMap_cons, List.append_assoc, takeEntries,
      Option.bind_eq_bind, hk _, hv _, Option.bind_some, List.foldl_cons]
    exact hr _

omit [Layout α] in
theorem foldl_insert_toList (map : Std.ExtTreeMap String α) :
    map.toList.foldl (fun map entry => map.insert entry.1 entry.2) ∅ = map := by
  rw [← Std.ExtTreeMap.ofList_eq_foldl]
  refine Std.ExtTreeMap.ext_getElem? fun key => ?_
  cases hm : map[key]? with
  | none =>
    refine Std.ExtTreeMap.getElem?_ofList_of_contains_eq_false ?_
    rw [Std.ExtTreeMap.map_fst_toList_eq_keys]
    simpa using hm
  | some value =>
    rw [← Std.ExtTreeMap.mem_toList_iff_getElem?_eq_some] at hm
    exact Std.ExtTreeMap.getElem?_ofList_of_mem Std.ReflCmp.compare_self
      Std.ExtTreeMap.distinct_keys_toList hm

theorem readsBack_map {map : Std.ExtTreeMap String α} (hs : map.size < Word.limit)
    (h : ∀ (key : String) (value : α), map[key]? = some value → ReadsBack key ∧ ReadsBack value) :
    ReadsBack map := by
  intro rest
  have hn : (UInt64.ofNat map.size).toNat = map.toList.length := by
    rw [Std.ExtTreeMap.length_toList]
    exact UInt64.toNat_ofNat_of_lt' hs
  have hr : ∀ entry ∈ map.toList, ReadsBack entry.1 ∧ ReadsBack entry.2 := fun entry hm =>
    h entry.1 entry.2 (Std.ExtTreeMap.mem_toList_iff_getElem?_eq_some.mp hm)
  have he := takeEntries_encode hr ∅ rest
  rw [encode_map, List.append_assoc, decode_map, decode_encode, Option.bind_some]
  simp only [hn, he, foldl_insert_toList]

-- Each entry is one that was there or one that was read.
theorem takeEntries_eq_some {count : Nat} {found map : Std.ExtTreeMap String α}
    {bytes rest : Bytes} {property : α → Prop} (hy : Yields property)
    (h : takeEntries count found bytes = some (map, rest)) :
    map.size ≤ found.size + count ∧ ∀ (key : String) (value : α), map[key]? = some value →
      found[key]? = some value ∨ key.utf8ByteSize < Word.limit ∧ property value := by
  induction count generalizing found bytes with
  | zero =>
    cases h
    exact ⟨Nat.le_refl _, fun key value hm => .inl hm⟩
  | succ count ih =>
    simp only [takeEntries, Option.bind_eq_bind, Option.bind_eq_some_iff, Prod.exists] at h
    obtain ⟨first, behind, hk, content, behind', hv, h⟩ := h
    obtain ⟨hs, he⟩ := ih h
    constructor
    · have hi := Std.ExtTreeMap.size_insert_le (t := found) (k := first) (v := content)
      omega
    · intro key value hm
      rcases he key value hm with hf | hf
      · rw [Std.ExtTreeMap.getElem?_insert] at hf
        split at hf
        · next heq =>
          have heq := Std.LawfulEqCmp.eq_of_compare heq
          cases hf
          exact .inr ⟨heq ▸ yields_text _ _ _ hk, hy _ _ _ hv⟩
        · exact .inl hf
      · exact .inr hf

theorem yields_map {property : α → Prop} (hy : Yields property) :
    Yields fun map : Std.ExtTreeMap String α => map.size < Word.limit ∧
      ∀ (key : String) (value : α), map[key]? = some value →
        key.utf8ByteSize < Word.limit ∧ property value := by
  intro bytes map rest h
  rw [decode_map, Option.bind_eq_some_iff] at h
  obtain ⟨⟨count, behind⟩, -, h⟩ := h
  obtain ⟨hs, he⟩ := takeEntries_eq_some hy h
  rw [Std.ExtTreeMap.size_empty, Nat.zero_add] at hs
  refine ⟨Nat.lt_of_le_of_lt hs count.toNat_lt, fun key value hm => ?_⟩
  rcases he key value hm with hf | hf
  · simp at hf
  · exact hf

end Layout

end DocTree
