import DocTree.Store.Image
import Mathlib.Logic.Function.Basic

namespace DocTree

abbrev Docs := Collection → String → Option Document

namespace Docs

def value (docs : Docs) (collection : Collection) (key : String) : Option Bytes :=
  (docs collection key).map Document.value

def set (docs : Docs) (collection : Collection) (key : String) (document : Option Document) :
    Docs :=
  Function.update docs collection (Function.update (docs collection) key document)

-- The answer to a request and the documents after it. A write gets `version`.
def answer (docs : Docs) (version : UInt64) (collection : Collection) : Request → Response × Docs
  | .get key =>
    match docs collection key with
    | none => ({ status := .notFound }, docs)
    | some found =>
      ({ value := found.value, version := found.version, flags := found.flags }, docs)
  | .insert key value =>
    if (docs collection key).isSome then ({ status := .exists }, docs)
    else ({ version }, docs.set collection key (some ⟨value, version, 0⟩))
  | .replace key value expected =>
    match docs collection key with
    | none => ({ status := .notFound }, docs)
    | some found =>
      if expected.all (· = found.version) then
        ({ version }, docs.set collection key (some ⟨value, version, found.flags⟩))
      else
        ({ status := .versionMismatch }, docs)
  | .remove key =>
    match docs collection key with
    | none => ({ status := .notFound }, docs)
    | some _ => ({}, docs.set collection key none)

variable {docs : Docs} {collection other : Collection} {key name : String}
  {document : Option Document}

theorem set_self : docs.set collection key document collection key = document := by simp [set]

theorem set_of_ne (h : ¬(other = collection ∧ name = key)) :
    docs.set collection key document other name = docs other name := by
  unfold set
  by_cases hc : other = collection
  · subst hc
    have hk : name ≠ key := fun hk => h ⟨rfl, hk⟩
    rw [Function.update_self, Function.update_of_ne hk]
  · rw [Function.update_of_ne hc]

theorem set_apply : docs.set collection key document other name =
    if other = collection ∧ name = key then document else docs other name := by
  split
  · next h => rw [h.1, h.2, set_self]
  · next h => exact set_of_ne h

theorem value_set : (docs.set collection key document).value other name =
    if other = collection ∧ name = key then document.map Document.value
    else docs.value other name := by
  unfold value
  rw [set_apply]
  split <;> rfl

theorem value_eq_none_iff : docs.value collection key = none ↔ docs collection key = none :=
  Option.map_eq_none_iff

-- A request changes the document it names, if any.
theorem answer_of_ne {request : Request} {version : UInt64}
    (h : ¬(other = collection ∧ name = request.key)) :
    (docs.answer version collection request).2 other name = docs other name := by
  cases request with
  | get key => unfold answer; dsimp only; split <;> rfl
  | insert key value =>
    unfold answer
    dsimp only
    split
    · rfl
    · exact set_of_ne h
  | replace key value expected =>
    unfold answer
    dsimp only
    split
    · rfl
    · split
      · exact set_of_ne h
      · rfl
  | remove key =>
    unfold answer
    dsimp only
    split
    · rfl
    · exact set_of_ne h

end Docs

-- The length of the value that a request carries.
def Request.size : Request → Nat
  | get _ => 0
  | insert _ value => value.length
  | replace _ value _ => value.length
  | remove _ => 0

namespace Image

def docs (scope : String) (image : Image) : Docs := image.document? scope

variable {image : Image} {scope : String} {collection other : Collection} {documents : Documents}

theorem namespaceOf_inj (h : namespaceOf scope collection = namespaceOf scope other) :
    collection = other := by
  simp only [namespaceOf, String.append_assoc, String.append_right_inj] at h
  revert h
  cases collection <;> cases other <;> decide

theorem documents_setDocuments :
    (image.setDocuments scope collection documents).documents scope other =
      if other = collection then documents else image.documents scope other := by
  unfold Image.documents setDocuments
  rw [Std.ExtTreeMap.getD_insert]
  by_cases h : other = collection
  · subst h
    simp
  · rw [if_neg h, if_neg]
    intro he
    exact h (namespaceOf_inj (Std.LawfulEqCmp.eq_of_compare he)).symm

theorem docs_setDocuments (key : String) :
    (image.setDocuments scope collection documents).docs scope other key =
      if other = collection then documents[key]? else image.docs scope other key := by
  unfold docs document?
  rw [documents_setDocuments]
  split <;> rfl

-- Making a namespace shows in no document.
theorem docs_touch :
    (image.setDocuments scope collection (image.documents scope collection)).docs scope =
      image.docs scope := by
  funext other key
  rw [docs_setDocuments]
  split
  · next h => subst h; rfl
  · rfl

theorem docs_new (header : Header) : (Image.new header).docs scope = fun _ _ => none := by
  funext collection key
  simp [docs, document?, Image.documents, Image.new]

theorem value_new {header : Header} (collection : Collection) (key : String) :
    ((new header).docs scope).value collection key = none := by
  rw [docs_new]
  rfl

theorem docs_insert {key : String} {document : Document} :
    (image.setDocuments scope collection
      ((image.documents scope collection).insert key document)).docs scope =
      (image.docs scope).set collection key (some document) := by
  funext other name
  rw [docs_setDocuments, Docs.set_apply]
  by_cases h : other = collection
  · subst h
    simp only [ite_true, true_and, Std.ExtTreeMap.getElem?_insert,
      Std.LawfulEqCmp.compare_eq_iff_eq]
    by_cases hk : key = name
    · simp [hk]
    · rw [if_neg hk, if_neg (Ne.symm hk)]
      rfl
  · simp [h]

theorem docs_erase {key : String} :
    (image.setDocuments scope collection
      ((image.documents scope collection).erase key)).docs scope =
      (image.docs scope).set collection key none := by
  funext other name
  rw [docs_setDocuments, Docs.set_apply]
  by_cases h : other = collection
  · subst h
    simp only [ite_true, true_and, Std.ExtTreeMap.getElem?_erase,
      Std.LawfulEqCmp.compare_eq_iff_eq]
    by_cases hk : key = name
    · simp [hk]
    · rw [if_neg hk, if_neg (Ne.symm hk)]
      rfl
  · simp [h]

theorem docs_put {key : String} {value : Bytes} {flags : UInt32} :
    (image.put scope collection key value flags).1.docs scope =
      (image.docs scope).set collection key (some ⟨value, image.lastVersion + 1, flags⟩) :=
  docs_insert

-- A request whose value is short enough is answered as the documents say.
theorem apply_eq_answer {maxSize : Nat} {request : Request} (hs : request.size ≤ maxSize) :
    ((image.apply maxSize scope collection request).2,
      (image.apply maxSize scope collection request).1.docs scope) =
      (image.docs scope).answer (image.lastVersion + 1) collection request := by
  unfold apply
  generalize hm : image.setDocuments scope collection (image.documents scope collection) = made
  have hd : made.docs scope = image.docs scope := hm ▸ docs_touch
  have hv : made.lastVersion = image.lastVersion := hm ▸ rfl
  have hf : made.document? scope collection request.key =
      image.docs scope collection request.key := by rw [← hd]; rfl
  simp only [hf]
  cases request with
  | get key =>
    simp only [Request.key, Docs.answer]
    cases image.docs scope collection key <;> simp [hd]
  | insert key value =>
    have hl : ¬value.length > maxSize := Nat.not_lt.mpr hs
    simp only [Request.key, Docs.answer, hl, ite_false]
    by_cases hk : (image.docs scope collection key).isSome
    · simp only [hk, ite_true, hd]
    · simp only [hk, ite_false, docs_put, hd, hv, Bool.false_eq_true]
      simp only [put, hv]
  | replace key value expected =>
    have hl : ¬value.length > maxSize := Nat.not_lt.mpr hs
    simp only [Request.key, Docs.answer, hl, ite_false]
    cases image.docs scope collection key with
    | none => simp [hd]
    | some found =>
      dsimp only
      split
      · rw [docs_put, hd, hv]
        simp only [put, hv]
      · simp [hd]
  | remove key =>
    simp only [Request.key, Docs.answer]
    cases image.docs scope collection key with
    | none => simp [hd]
    | some found => simp only [docs_erase, hd]

end Image

end DocTree
