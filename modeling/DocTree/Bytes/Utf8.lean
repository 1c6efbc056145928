import DocTree.Bytes.Basic

namespace DocTree.Utf8

def encode (text : String) : Bytes := text.toByteArray.data.toList

-- The text with these UTF-8 bytes, if they are well formed.
def decode (bytes : Bytes) : Option String := String.fromUTF8? ⟨bytes.toArray⟩

theorem decode_eq_some_iff {bytes : Bytes} {text : String} :
    decode bytes = some text ↔ bytes = encode text := by
  simp only [decode, String.fromUTF8?]
  constructor
  · intro h
    split at h
    · injection h with h
      subst h
      simp [encode, String.fromUTF8]
    · cases h
  · intro h
    subst h
    have hb : (⟨(encode text).toArray⟩ : ByteArray) = text.toByteArray := by simp [encode]
    simp [hb, text.isValidUTF8, String.fromUTF8]

theorem decode_encode (text : String) : decode (encode text) = some text :=
  decode_eq_some_iff.mpr rfl

theorem encode_ofList (chars : List Char) :
    encode (String.ofList chars) = chars.flatMap String.utf8EncodeChar := by
  simp [encode, List.utf8Encode]

theorem length_encode (text : String) : (encode text).length = text.utf8ByteSize := rfl

end DocTree.Utf8
