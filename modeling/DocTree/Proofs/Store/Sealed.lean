import DocTree.Proofs.Bytes.Counted
import DocTree.Proofs.Bytes.Sink
import DocTree.Store.Sealed

namespace DocTree

open Layout

-- Each count that is written for the documents is a 64-bit word: neither they nor a key or value
-- among them has more entries or bytes than a word can count.
structure Documents.Fits (documents : Documents) : Prop where
  size : documents.size < Word.limit
  entries : ∀ (key : String) (document : Document), documents[key]? = some document →
    key.utf8ByteSize < Word.limit ∧ document.value.length < Word.limit

-- The same for all that is written of an image.
structure Image.Fits (image : Image) : Prop where
  size : image.namespaces.size < Word.limit
  entries : ∀ (space : String) (documents : Documents),
    image.namespaces[space]? = some documents → space.utf8ByteSize < Word.limit ∧ documents.Fits

-- Both can be computed.
instance (documents : Documents) : Decidable documents.Fits :=
  decidable_of_iff (documents.size < Word.limit ∧ ∀ entry ∈ documents.toList,
      entry.1.utf8ByteSize < Word.limit ∧ entry.2.value.length < Word.limit) <| by
    constructor
    · rintro ⟨hs, he⟩
      refine ⟨hs, fun key document hd => he (key, document) ?_⟩
      exact Std.ExtTreeMap.mem_toList_iff_getElem?_eq_some.mpr hd
    · rintro ⟨hs, he⟩
      refine ⟨hs, fun entry hm => he entry.1 entry.2 ?_⟩
      exact Std.ExtTreeMap.mem_toList_iff_getElem?_eq_some.mp hm

instance (image : Image) : Decidable image.Fits :=
  decidable_of_iff (image.namespaces.size < Word.limit ∧ ∀ entry ∈ image.namespaces.toList,
      entry.1.utf8ByteSize < Word.limit ∧ entry.2.Fits) <| by
    constructor
    · rintro ⟨hs, he⟩
      refine ⟨hs, fun space documents hd => he (space, documents) ?_⟩
      exact Std.ExtTreeMap.mem_toList_iff_getElem?_eq_some.mpr hd
    · rintro ⟨hs, he⟩
      refine ⟨hs, fun entry hm => he entry.1 entry.2 ?_⟩
      exact Std.ExtTreeMap.mem_toList_iff_getElem?_eq_some.mp hm

theorem Documents.fits_empty : Fits ∅ where
  size := by decide
  entries key document h := by simp at h

theorem Documents.Fits.insert {documents : Documents} (h : documents.Fits)
    (hs : documents.size + 1 < Word.limit) {key : String} {document : Document}
    (hk : key.utf8ByteSize < Word.limit) (hv : document.value.length < Word.limit) :
    Documents.Fits (documents.insert key document) where
  size := Nat.lt_of_le_of_lt Std.ExtTreeMap.size_insert_le hs
  entries other found hf := by
    rw [Std.ExtTreeMap.getElem?_insert] at hf
    split at hf
    · next heq =>
      cases hf
      exact ⟨Std.LawfulEqCmp.eq_of_compare heq ▸ hk, hv⟩
    · exact h.entries other found hf

theorem Image.fits_new (header : Header) : (Image.new header).Fits where
  size := by simp [Image.new, Word.limit]
  entries space documents h := by simp [Image.new] at h

theorem Image.Fits.setDocuments {image : Image} (h : image.Fits)
    (hs : image.namespaces.size + 1 < Word.limit) {scope : String} {collection : Collection}
    {documents : Documents} (hn : (namespaceOf scope collection).utf8ByteSize < Word.limit)
    (hd : documents.Fits) : (image.setDocuments scope collection documents).Fits where
  size := Nat.lt_of_le_of_lt Std.ExtTreeMap.size_insert_le hs
  entries space found hf := by
    rw [Image.setDocuments, Std.ExtTreeMap.getElem?_insert] at hf
    split at hf
    · next heq =>
      cases hf
      exact ⟨Std.LawfulEqCmp.eq_of_compare heq ▸ hn, hd⟩
    · exact h.entries space found hf

instance : Lawful Header where
  decode_encode header rest := by
    have he : encode header = encode header.magic ++ encode header.createdAt ++
      encode header.modifiedAt ++ encode header.lastMountedAt ++ encode header.blockSize ++
      encode header.maxBlocks := rfl
    simp only [he, List.append_assoc]
    refine ((readsBack header.magic).bind _ _).trans ?_
    refine ((readsBack header.createdAt).bind _ _).trans ?_
    refine ((readsBack header.modifiedAt).bind _ _).trans ?_
    refine ((readsBack header.lastMountedAt).bind _ _).trans ?_
    refine ((readsBack header.blockSize).bind _ _).trans ?_
    exact (readsBack header.maxBlocks).bind _ _

theorem readsBack_document {document : Document} (h : document.value.length < Word.limit) :
    ReadsBack document := by
  intro rest
  have he : encode document = encode document.value ++ encode document.version ++
    encode document.flags := rfl
  simp only [he, List.append_assoc]
  refine ((readsBack_bytes h).bind _ _).trans ?_
  refine ((readsBack document.version).bind _ _).trans ?_
  exact (readsBack document.flags).bind _ _

theorem yields_document : Yields fun document : Document =>
    document.value.length < Word.limit := by
  intro bytes document rest h
  obtain ⟨⟨value, behind⟩, hv, h⟩ := Option.bind_eq_some_iff.mp h
  obtain ⟨⟨version, behind⟩, -, h⟩ := Option.bind_eq_some_iff.mp h
  obtain ⟨⟨flags, behind⟩, -, h⟩ := Option.bind_eq_some_iff.mp h
  cases h
  exact yields_bytes _ _ _ hv

theorem readsBack_documents {documents : Documents} (h : documents.Fits) :
    ReadsBack documents := by
  refine readsBack_map h.size fun key document hd => ?_
  obtain ⟨hk, hv⟩ := h.entries key document hd
  exact ⟨readsBack_text hk, readsBack_document hv⟩

theorem yields_documents : Yields Documents.Fits := by
  intro bytes documents rest h
  obtain ⟨hs, he⟩ := yields_map yields_document _ _ _ h
  exact ⟨hs, he⟩

theorem readsBack_image {image : Image} (h : image.Fits) : ReadsBack image := by
  have hn : ReadsBack image.namespaces := by
    refine readsBack_map h.size fun space documents hs => ?_
    obtain ⟨ht, hd⟩ := h.entries space documents hs
    exact ⟨readsBack_text ht, readsBack_documents hd⟩
  intro rest
  have he : encode image = encode image.header ++ encode image.lastVersion ++
    encode image.namespaces := rfl
  simp only [he, List.append_assoc]
  refine ((readsBack image.header).bind _ _).trans ?_
  refine ((readsBack image.lastVersion).bind _ _).trans ?_
  exact hn.bind _ _

-- What is read has counts that stood in its bytes.
theorem yields_image : Yields Image.Fits := by
  intro bytes image rest h
  obtain ⟨⟨header, behind⟩, -, h⟩ := Option.bind_eq_some_iff.mp h
  obtain ⟨⟨lastVersion, behind⟩, -, h⟩ := Option.bind_eq_some_iff.mp h
  obtain ⟨⟨namespaces, behind⟩, hn, h⟩ := Option.bind_eq_some_iff.mp h
  cases h
  obtain ⟨hs, he⟩ := yields_map yields_documents _ _ _ hn
  exact ⟨hs, he⟩

theorem readsBack_sealed {image : Image} (h : image.Fits) (digest : Digest) :
    ReadsBack (Sealed.mk image digest) := by
  intro rest
  have he : encode (Sealed.mk image digest) = encode image ++ encode digest := rfl
  rw [he, List.append_assoc]
  refine ((readsBack_image h).bind _ _).trans ?_
  exact (readsBack digest).bind _ _

instance : LawfulStreamed Header where
  took sink header := by
    refine Sink.Took.trans ?_ (took _ header.maxBlocks)
    refine Sink.Took.trans ?_ (took _ header.blockSize)
    refine Sink.Took.trans ?_ (took _ header.lastMountedAt)
    refine Sink.Took.trans ?_ (took _ header.modifiedAt)
    exact (took sink header.magic).trans (took _ header.createdAt)

instance : LawfulStreamed Document where
  took sink document :=
    ((took sink document.value).trans (took _ document.version)).trans (took _ document.flags)

instance : LawfulStreamed Image where
  took sink image :=
    ((took sink image.header).trans (took _ image.lastVersion)).trans (took _ image.namespaces)

instance : LawfulStreamed Sealed where
  took sink object := (took sink object.image).trans (took _ object.digest)

namespace Image

theorem writeTo_eq (image : Image) (content : Bytes) :
    image.writeTo content = (content ++ image.serialize, image.serialize.length) := by
  have h := took (.behind content) (Sealed.ofImage image)
  have hbehind : (Sink.behind content).content = content := by simp [Sink.behind, Sink.content]
  refine Prod.ext (h.content.trans ?_) (h.written.trans (Nat.zero_add _))
  rw [hbehind]
  rfl

theorem deserialize_append {image : Image} (h : image.Fits) (tail : Bytes) :
    deserialize (image.serialize ++ tail) = .ok (.ofImage image, image.serialize.length) := by
  have hd : decode (image.serialize ++ tail) = some (Sealed.ofImage image, tail) :=
    readsBack_sealed h _ tail
  unfold deserialize
  rw [hd]
  simp [Sealed.ofImage]

theorem of_deserialize {bytes : Bytes} {object : Sealed} {used : Nat}
    (h : deserialize bytes = .ok (object, used)) :
    object.image.Fits ∧ object = .ofImage object.image := by
  unfold deserialize at h
  split at h
  · cases h
  · next found rest hd =>
    split at h
    · next hg =>
      cases h
      obtain ⟨⟨image, behind⟩, hi, hd⟩ := Option.bind_eq_some_iff.mp hd
      obtain ⟨⟨digest, behind⟩, -, hd⟩ := Option.bind_eq_some_iff.mp hd
      cases hd
      exact ⟨yields_image _ _ _ hi, by rw [Sealed.ofImage, ← hg]⟩
    · cases h

end Image

namespace Sample

-- An image that was mounted once, with one document.
def stored : Image :=
  Image.setDocuments ⟨{ Header.new 4096 16 ⟨1, 2⟩ with lastMountedAt := some ⟨3, 4⟩ }, 1, ∅⟩
    "_default" .stats ((∅ : Documents).insert "/" ⟨[1, 2, 3], 1, 0⟩)

theorem stored_fits : stored.Fits := by decide +kernel

end Sample

namespace Image

-- Reading undoes writing, whatever follows the bytes of the image.
theorem deserialize_serialize {image : Image} (h : image.Fits) (tail : Bytes) :
    ∃ object : Sealed,
      deserialize (image.serialize ++ tail) = .ok (object, image.serialize.length) ∧
      object.image = image ∧ object.digest = Sealed.digestOf image ∧
      object.image.serialize = image.serialize ∧
      ∀ sink, image.writeTo sink = (sink ++ image.serialize, image.serialize.length) :=
  ⟨.ofImage image, deserialize_append h tail, rfl, rfl, rfl, image.writeTo_eq⟩

theorem sample_deserialize_serialize :
    Sample.stored.Fits ∧ ∃ object : Sealed,
      deserialize (Sample.stored.serialize ++ [7, 8]) =
        .ok (object, Sample.stored.serialize.length) ∧
      object.image = Sample.stored ∧ object.digest = Sealed.digestOf Sample.stored ∧
      object.image.serialize = Sample.stored.serialize ∧
      ∀ sink, Sample.stored.writeTo sink =
        (sink ++ Sample.stored.serialize, Sample.stored.serialize.length) :=
  ⟨Sample.stored_fits, deserialize_serialize Sample.stored_fits [7, 8]⟩

-- Whatever happened to the bytes: if they are accepted with the digest of an image, then they
-- describe this image. All that is needed of the hash is that it tells the two encodings apart.
theorem eq_of_digest_eq {image : Image} (h : image.Fits) {bytes : Bytes} {object : Sealed}
    {used : Nat} (hd : deserialize bytes = .ok (object, used))
    (he : object.digest = Sealed.digestOf image)
    (hc : encode (Sealed.mk object.image .zero) ≠ encode (Sealed.mk image .zero) →
      Digest.ofBytes (encode (Sealed.mk object.image .zero)) ≠
        Digest.ofBytes (encode (Sealed.mk image .zero))) :
    object.image = image := by
  obtain ⟨hf, ho⟩ := of_deserialize hd
  have hh : Sealed.digestOf object.image = Sealed.digestOf image := by
    rw [← he, ho]
    rfl
  have hb : encode (Sealed.mk object.image .zero) = encode (Sealed.mk image .zero) :=
    Classical.not_not.mp fun hn => hc hn hh
  have hs := (readsBack_sealed hf .zero).eq_of_encode_eq (readsBack_sealed h .zero) hb
  injection hs

theorem sample_eq_of_digest_eq :
    Sample.stored.Fits ∧
      deserialize (Sample.stored.serialize ++ [7, 8]) =
        .ok (.ofImage Sample.stored, Sample.stored.serialize.length) ∧
      (Sealed.ofImage Sample.stored).digest = Sealed.digestOf Sample.stored ∧
      (Sealed.ofImage Sample.stored).image = Sample.stored :=
  have hd := deserialize_append Sample.stored_fits [7, 8]
  ⟨Sample.stored_fits, hd, rfl,
    eq_of_digest_eq Sample.stored_fits hd rfl fun hn => absurd rfl hn⟩

end Image

end DocTree
