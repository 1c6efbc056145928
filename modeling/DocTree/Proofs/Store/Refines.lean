import DocTree.Proofs.Store.History

namespace DocTree

namespace Recorded

variable {header : Header} {requests : List Asked}

-- What the answer to a request and the documents after it have to do with the requests before it.
structure Refines (store : Recorded) (asked : Asked) : Prop where
  -- A successful write gets the version after the last one handed out.
  handed : (⟨asked, store.answer asked⟩ : Entry).wrote →
    (store.answer asked).version.toNat = lastHanded store.log + 1
  distinct : (versions (store.ask asked).log).Nodup
  stored_distinct : ∀ first second one other,
    (store.ask asked).image.documentAt? first = some one →
    (store.ask asked).image.documentAt? second = some other → one.version = other.version →
    first = second
  stored_le : ∀ address document, (store.ask asked).image.documentAt? address = some document →
    document.version ≤ (store.ask asked).image.lastVersion
  -- There is no document but at an address.
  named : ∀ space ∈ (store.ask asked).image.namespaces,
    ∃ scope collection, space = Image.namespaceOf scope collection
  get_eq : ∀ key, asked.request = .get key →
    store.answer asked = match lastWrite asked.address store.log with
      | some (value, version) => { value, version }
      | none => { status := .notFound }
  replace_iff : ∀ key value expected, asked.request = .replace key value (some expected) →
    ((store.answer asked).isSuccess ↔ value.length ≤ asked.maxSize ∧
      ∃ old, lastWrite asked.address store.log = some (old, expected))
  -- A get or a request without success changes nothing.
  unchanged : (∃ key, asked.request = .get key) ∨ ¬(store.answer asked).isSuccess →
    (∀ address, (store.ask asked).image.documentAt? address = store.image.documentAt? address) ∧
      (store.ask asked).image.lastVersion = store.image.lastVersion
  frame : ∀ address, address ≠ asked.address →
    (store.ask asked).image.documentAt? address = store.image.documentAt? address

variable {asked : Asked}

theorem get_eq_lastWrite {key : String} (hr : asked.request = .get key) :
    (after header requests).answer asked =
      match lastWrite asked.address (after header requests).log with
      | some (value, version) => { value, version }
      | none => { status := .notFound } := by
  have hd : (after header requests).image.docs asked.scope asked.collection asked.request.key = _ :=
    documentAt?_after header requests asked.address
  rw [answer_eq, Docs.answerWithin_of_le (by rw [hr]; exact Nat.zero_le _)]
  rw [hr] at hd ⊢
  simp only [Docs.answer]
  rw [show (after header requests).image.docs asked.scope asked.collection key = _ from hd]
  cases lastWrite asked.address (after header requests).log <;> rfl

theorem replace_iff_lastWrite {key : String} {value : Bytes} {expected : UInt64}
    (hr : asked.request = .replace key value (some expected)) :
    ((after header requests).answer asked).isSuccess ↔ value.length ≤ asked.maxSize ∧
      ∃ old, lastWrite asked.address (after header requests).log = some (old, expected) := by
  have hd : (after header requests).image.docs asked.scope asked.collection asked.request.key = _ :=
    documentAt?_after header requests asked.address
  have hsize : asked.request.size = value.length := by rw [hr]; rfl
  rw [answer_eq]
  by_cases hl : value.length ≤ asked.maxSize
  · rw [Docs.answerWithin_of_le (hsize ▸ hl)]
    rw [hr] at hd ⊢
    simp only [Docs.answer]
    rw [show (after header requests).image.docs asked.scope asked.collection key = _ from hd]
    cases lastWrite asked.address (after header requests).log with
    | none => simp [Response.isSuccess]
    | some held =>
      by_cases he : expected = held.2
      · simp [Response.isSuccess, he, hl, Prod.ext_iff]
      · simp [Response.isSuccess, he, Ne.symm he, Prod.ext_iff]
  · rw [Docs.answerWithin_of_lt (hsize ▸ Nat.not_le.mp hl)]
    simp [Response.isSuccess, hl]

theorem Fresh.stored_distinct (h : (after header requests).Fresh) {first second : Address}
    {one other : Document} (hf : (after header requests).image.documentAt? first = some one)
    (hs : (after header requests).image.documentAt? second = some other)
    (hv : one.version = other.version) : first = second := by
  obtain ⟨entry, he, hea, -, hev⟩ := mem_of_lastWrite (lastWrite_of_documentAt? hf)
  obtain ⟨last, hl, hla, -, hlv⟩ := mem_of_lastWrite (lastWrite_of_documentAt? hs)
  rw [← hea, ← hla, h.eq_of_version he hl (hev.trans (hv.trans hlv.symm))]

-- Over any sequence of requests that stores fewer values than there are versions.
theorem refines_history (header : Header) (asked : Asked) (earlier : List Asked)
    (h : (after header (asked :: earlier)).Fresh) : (after header earlier).Refines asked := by
  have hbefore : (after header earlier).Fresh := h.of_ask
  constructor
  case handed =>
    intro hw
    have hl : (versions ((after header earlier).ask asked).log).length < UInt64.size := h
    rw [length_versions_ask, if_pos hw] at hl
    rw [version_of_wrote hw, UInt64.toNat_add, hbefore.lastVersion, hbefore.lastHanded]
    exact Nat.mod_eq_of_lt hl
  case distinct => exact h.nodup
  case stored_distinct => exact fun _ _ _ _ hf hs hv => h.stored_distinct hf hs hv
  case stored_le =>
    intro address document hd
    have hd : (after header (asked :: earlier)).image.documentAt? address = some document := hd
    obtain ⟨entry, he, -, -, hv⟩ := mem_of_lastWrite (lastWrite_of_documentAt? hd)
    exact le_of_eq_of_le hv.symm (h.version_le he)
  case named =>
    intro space hs
    have hs : space ∈ (after header (asked :: earlier)).image.namespaces := hs
    exact namespaces_after hs
  case get_eq => exact fun key hr => get_eq_lastWrite hr
  case replace_iff => exact fun key value expected hr => replace_iff_lastWrite hr
  case unchanged =>
    intro hu
    constructor
    · intro address
      refine congrFun (congrFun (docs_ask_eq_self ?_ address.scope) _) _
      exact hu.symm.imp_left fun hn hs => hn (decide_eq_true hs)
    · rw [lastVersion_ask, if_neg]
      rw [Entry.wrote, Bool.and_eq_true_iff]
      rintro ⟨hs, hv⟩
      rcases hu with ⟨key, hr⟩ | hn
      · dsimp only at hv
        rw [hr] at hv
        cases hv
      · exact hn hs
  case frame => exact fun address hn => documentAt?_ask_of_ne hn

end Recorded

namespace Sample

def insertion (scope : String) : Asked := ⟨8, scope, .stats, .insert "/f" [1, 2]⟩

-- Two scopes, one with a point in its name; a document that is removed, made again and then
-- replaced with the version that it had before.
def requests : List Asked :=
  [insertion "a", ⟨8, "a", .stats, .remove "/f"⟩, insertion "a.b", insertion "a"]

def staleReplacement : Asked := ⟨8, "a", .stats, .replace "/f" [3] (some 1)⟩

end Sample

theorem sample_refines_history :
    (Recorded.after default (Sample.staleReplacement :: Sample.requests)).Fresh ∧
      (Recorded.after default Sample.requests).Refines Sample.staleReplacement ∧
      ((Recorded.after default Sample.requests).answer Sample.staleReplacement).status =
        .versionMismatch := by
  have hf : (Recorded.after default (Sample.staleReplacement :: Sample.requests)).Fresh := by
    unfold Recorded.Fresh
    decide +kernel
  exact ⟨hf, Recorded.refines_history default _ _ hf, by decide +kernel⟩

end DocTree
