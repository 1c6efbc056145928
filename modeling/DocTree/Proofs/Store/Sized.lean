import DocTree.Call.Run
import DocTree.Proofs.Store.Docs

namespace DocTree

-- The value that a request stores if it succeeds.
def Request.value? : Request → Option Bytes
  | get _ => none
  | insert _ value => some value
  | replace _ value _ => some value
  | remove _ => none

namespace Docs

-- The answer where values longer than `maxSize` are refused.
def answerWithin (docs : Docs) (maxSize : Nat) (version : UInt64) (collection : Collection)
    (request : Request) : Response × Docs :=
  if request.size ≤ maxSize then docs.answer version collection request
  else ({ status := .tooBig }, docs)

variable {docs : Docs} {maxSize : Nat} {version : UInt64} {collection other : Collection}
  {request : Request} {name : String}

theorem answerWithin_of_le (h : request.size ≤ maxSize) :
    docs.answerWithin maxSize version collection request =
      docs.answer version collection request := if_pos h

theorem answerWithin_of_lt (h : maxSize < request.size) :
    docs.answerWithin maxSize version collection request = ({ status := .tooBig }, docs) :=
  if_neg (Nat.not_le.mpr h)

theorem answerWithin_of_ne (h : ¬(other = collection ∧ name = request.key)) :
    (docs.answerWithin maxSize version collection request).2 other name = docs other name := by
  unfold answerWithin
  split
  · exact answer_of_ne h
  · rfl

-- A request that does not succeed changes nothing, and neither does one that stores no value and
-- removes none.
theorem answer_eq_self (h : (docs.answer version collection request).1.status ≠ .success ∨
    ∃ key, request = .get key) : (docs.answer version collection request).2 = docs := by
  cases request with
  | get key =>
    unfold answer
    dsimp only
    split <;> rfl
  | insert key value =>
    have hs := h.resolve_right nofun
    unfold answer at hs ⊢
    dsimp only at hs ⊢
    split
    · rfl
    · next hk => exact absurd rfl (by rwa [if_neg hk] at hs)
  | replace key value expected =>
    have hs := h.resolve_right nofun
    unfold answer at hs ⊢
    dsimp only at hs ⊢
    split
    · rfl
    · next found hk =>
      rw [hk] at hs
      dsimp only at hs
      split
      · next he => exact absurd rfl (by rwa [if_pos he] at hs)
      · rfl
  | remove key =>
    have hs := h.resolve_right nofun
    unfold answer at hs ⊢
    dsimp only at hs ⊢
    split
    · rfl
    · next found hk => exact absurd rfl (by rwa [hk] at hs)

theorem answerWithin_eq_self
    (h : (docs.answerWithin maxSize version collection request).1.status ≠ .success ∨
      ∃ key, request = .get key) :
    (docs.answerWithin maxSize version collection request).2 = docs := by
  unfold answerWithin at h ⊢
  split
  · next hl => exact answer_eq_self (by rwa [if_pos hl] at h)
  · rfl

-- An insertion changes no document that is there.
theorem answerWithin_insert {key : String} {value : Bytes} (h : docs other name ≠ none) :
    (docs.answerWithin maxSize version collection (.insert key value)).2 other name =
      docs other name := by
  by_cases hk : other = collection ∧ name = key
  · obtain ⟨rfl, rfl⟩ := hk
    rw [answerWithin_eq_self (.inl ?_)]
    unfold answerWithin answer
    split
    · simp [Option.isSome_iff_ne_none.mpr h]
    · exact nofun
  · exact answerWithin_of_ne hk

-- A replacement takes no document away.
theorem answerWithin_replace {key : String} {value : Bytes} {expected : Option UInt64}
    (h : docs other name ≠ none) :
    (docs.answerWithin maxSize version collection (.replace key value expected)).2 other name ≠
      none := by
  by_cases hk : other = collection ∧ name = key
  · obtain ⟨rfl, rfl⟩ := hk
    obtain ⟨found, hf⟩ := Option.ne_none_iff_exists'.mp h
    unfold answerWithin answer
    split
    · simp only [hf]
      split
      · simp [set_self]
      · exact h
    · exact h
  · rw [answerWithin_of_ne hk]
    exact h

-- Only an insertion makes a document.
theorem eq_insert_of_made (hold : docs other name = none)
    (hn : (docs.answerWithin maxSize version collection request).2 other name ≠ none) :
    other = collection ∧ ∃ value, request = .insert name value := by
  by_cases hk : other = collection ∧ name = request.key
  case neg =>
    rw [answerWithin_of_ne hk] at hn
    exact absurd hold hn
  obtain ⟨rfl, rfl⟩ := hk
  have hsame : (docs.answerWithin maxSize version other request).2 ≠ docs := by
    intro he
    rw [he] at hn
    exact hn hold
  have hs : (docs.answerWithin maxSize version other request).1.status = .success := by
    by_contra hs
    exact hsame (answerWithin_eq_self (.inl hs))
  cases request with
  | insert key value => exact ⟨rfl, value, rfl⟩
  | get key => exact absurd (answerWithin_eq_self (.inr ⟨key, rfl⟩)) hsame
  | replace key value expected =>
    have hold : docs other key = none := hold
    unfold answerWithin at hs
    split at hs <;> simp [answer, hold] at hs
  | remove key =>
    have hold : docs other key = none := hold
    unfold answerWithin at hs
    split at hs <;> simp [answer, hold] at hs

end Docs

namespace Image

variable {image : Image} {scope space : String} {collection other : Collection}
  {documents : Documents} {maxSize : Nat} {request : Request}

-- The name of a collection has no point in it, so the last point of a namespace ends its scope.
theorem namespaceOf_injective (h : namespaceOf scope collection = namespaceOf space other) :
    scope = space ∧ collection = other := by
  have hc : collection = other := by
    have hl := congrArg (fun text => (String.toList text).reverse.take 6) h
    simp only [namespaceOf, String.toList_append, List.reverse_append, List.append_assoc] at hl
    revert hl
    cases collection <;> cases other <;> simp [Collection.name]
  subst hc
  simpa [namespaceOf, String.append_left_inj] using h

theorem docs_setDocuments_of_ne (hs : space ≠ scope) :
    (image.setDocuments scope collection documents).docs space = image.docs space := by
  funext other key
  unfold docs document? Image.documents setDocuments
  rw [Std.ExtTreeMap.getD_insert, if_neg]
  intro he
  exact hs (namespaceOf_injective (Std.LawfulEqCmp.eq_of_compare he)).1.symm

theorem docs_put_of_ne {key : String} {value : Bytes} {flags : UInt32} (hs : space ≠ scope) :
    (image.put scope collection key value flags).1.docs space = image.docs space :=
  docs_setDocuments_of_ne hs

theorem docs_apply_of_ne (hs : space ≠ scope) :
    (image.apply maxSize scope collection request).1.docs space = image.docs space := by
  have hmade : (image.setDocuments scope collection (image.documents scope collection)).docs space =
      image.docs space := docs_setDocuments_of_ne hs
  unfold apply
  dsimp only
  split
  · exact hmade
  · exact hmade
  · split
    · exact hmade
    · split
      · exact hmade
      · rw [docs_put_of_ne hs, hmade]
  · split
    · exact hmade
    · split
      · exact hmade
      · split
        · rw [docs_put_of_ne hs, hmade]
        · exact hmade
  · exact hmade
  · rw [docs_setDocuments_of_ne hs, hmade]

theorem mem_namespaces_setDocuments {documents : Documents} :
    space ∈ (image.setDocuments scope collection documents).namespaces ↔
      space = namespaceOf scope collection ∨ space ∈ image.namespaces := by
  unfold setDocuments
  rw [Std.ExtTreeMap.mem_insert, Std.LawfulEqCmp.compare_eq_iff_eq, eq_comm]

-- A request makes no namespace but its own.
theorem mem_namespaces_apply
    (h : space ∈ (image.apply maxSize scope collection request).1.namespaces) :
    space = namespaceOf scope collection ∨ space ∈ image.namespaces := by
  have hput : ∀ made : Image, ∀ key value flags,
      space ∈ (made.put scope collection key value flags).1.namespaces →
      space = namespaceOf scope collection ∨ space ∈ made.namespaces :=
    fun _ _ _ _ hm => mem_namespaces_setDocuments.mp hm
  have hmade : ∀ made : Image, made = image.setDocuments scope collection
      (image.documents scope collection) → space ∈ made.namespaces →
      space = namespaceOf scope collection ∨ space ∈ image.namespaces :=
    fun made he hm => mem_namespaces_setDocuments.mp (he ▸ hm)
  unfold apply at h
  dsimp only at h
  generalize hm : image.setDocuments scope collection (image.documents scope collection) = made at h
  have hown := hmade made hm.symm
  split at h
  · exact hown h
  · exact hown h
  · split at h
    · exact hown h
    · split at h
      · exact hown h
      · exact (hput _ _ _ _ h).elim .inl hown
  · split at h
    · exact hown h
    · split at h
      · exact hown h
      · split at h
        · exact (hput _ _ _ _ h).elim .inl hown
        · exact hown h
  · exact hown h
  · exact (mem_namespaces_setDocuments.mp h).elim .inl hown

-- The counter moves by one with each value that is stored.
theorem lastVersion_apply : (image.apply maxSize scope collection request).1.lastVersion =
    if (image.apply maxSize scope collection request).2.isSuccess && request.value?.isSome then
      image.lastVersion + 1 else image.lastVersion := by
  unfold apply
  generalize hm : image.setDocuments scope collection (image.documents scope collection) = made
  have hv : made.lastVersion = image.lastVersion := hm ▸ rfl
  cases request with
  | get key =>
    cases hk : made.document? scope collection key <;>
      simp [hk, Request.key, Request.value?, hv]
  | insert key value =>
    dsimp only
    split
    · simp [Response.isSuccess, hv]
    · split <;> simp [Response.isSuccess, Request.value?, put, hv]
  | replace key value expected =>
    dsimp only
    split
    · simp [Response.isSuccess, hv]
    · split
      · simp [Response.isSuccess, hv]
      · split <;> simp [Response.isSuccess, Request.value?, put, hv]
  | remove key =>
    cases hk : made.document? scope collection key <;>
      simp [hk, Request.key, Request.value?, setDocuments, hv]

-- A value that is too long is refused, whatever else speaks for or against the request.
theorem apply_eq_answerWithin :
    ((image.apply maxSize scope collection request).2,
      (image.apply maxSize scope collection request).1.docs scope) =
      (image.docs scope).answerWithin maxSize (image.lastVersion + 1) collection request := by
  by_cases hs : request.size ≤ maxSize
  · rw [Docs.answerWithin_of_le hs]
    exact apply_eq_answer hs
  · have hl := Nat.not_le.mp hs
    rw [Docs.answerWithin_of_lt hl]
    cases request with
    | get key => exact absurd (Nat.zero_le _) hs
    | insert key value =>
      simp only [apply, if_pos (show value.length > maxSize from hl), docs_touch]
    | replace key value expected =>
      simp only [apply, if_pos (show value.length > maxSize from hl), docs_touch]
    | remove key => exact absurd (Nat.zero_le _) hs

theorem apply_response : (image.apply maxSize scope collection request).2 =
    ((image.docs scope).answerWithin maxSize (image.lastVersion + 1) collection request).1 :=
  congrArg Prod.fst apply_eq_answerWithin

theorem docs_apply : (image.apply maxSize scope collection request).1.docs scope =
    ((image.docs scope).answerWithin maxSize (image.lastVersion + 1) collection request).2 :=
  congrArg Prod.snd apply_eq_answerWithin

variable {key : String} {value : Bytes} {found : Document}

-- A document that is there is in a namespace that is there, so a request for it makes none.
theorem setDocuments_documents (h : image.docs scope collection key ≠ none) :
    image.setDocuments scope collection (image.documents scope collection) = image := by
  have hm : namespaceOf scope collection ∈ image.namespaces := by
    by_contra hm
    refine h ?_
    rw [docs, document?, Image.documents, Std.ExtTreeMap.getD_eq_fallback hm]
    exact Std.ExtTreeMap.getElem?_empty
  have hsame : image.namespaces.insert (namespaceOf scope collection)
      (image.documents scope collection) = image.namespaces := by
    apply Std.ExtTreeMap.ext_getElem?
    intro space
    rw [Std.ExtTreeMap.getElem?_insert]
    split
    · next he =>
      rw [← Std.LawfulEqCmp.eq_of_compare he, Image.documents, Std.ExtTreeMap.getD_eq_getD_getElem?]
      rw [Std.ExtTreeMap.getElem?_eq_some_getElem hm, Option.getD_some]
    · rfl
  rw [setDocuments, hsame]

theorem apply_get (h : image.docs scope collection key = some found) :
    image.apply maxSize scope collection (.get key) =
      (image, { value := found.value, version := found.version, flags := found.flags }) := by
  have hd : image.document? scope collection key = some found := h
  unfold apply
  rw [setDocuments_documents (h ▸ Option.some_ne_none _)]
  simp only [Request.key, hd]

theorem apply_insert (h : image.docs scope collection key = some found)
    (hl : value.length ≤ maxSize) :
    image.apply maxSize scope collection (.insert key value) = (image, { status := .exists }) := by
  have hd : image.document? scope collection key = some found := h
  unfold apply
  rw [setDocuments_documents (h ▸ Option.some_ne_none _)]
  simp only [Request.key, hd, if_neg (Nat.not_lt.mpr hl), Option.isSome_some, ite_true]

end Image

end DocTree
