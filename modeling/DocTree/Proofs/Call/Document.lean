import DocTree.Call.Document
import DocTree.Proofs.Call.Ensures

namespace DocTree

namespace Docs

-- The documents after a value was stored under a key; nothing is said of its version.
def Put (docs : Docs) (collection : Collection) (key : String) (content : Bytes) (after : Docs) :
    Prop :=
  ∃ version flags, after = docs.set collection key (some ⟨content, version, flags⟩)

variable {docs after : Docs} {collection other : Collection} {key name : String} {content : Bytes}

theorem Put.value (h : docs.Put collection key content after) : after.value other name =
    if other = collection ∧ name = key then some content else docs.value other name := by
  obtain ⟨version, flags, rfl⟩ := h
  exact value_set

theorem Put.value_self (h : docs.Put collection key content after) :
    after.value collection key = some content := by
  rw [h.value, if_pos ⟨rfl, rfl⟩]

theorem Put.apply_of_ne (h : docs.Put collection key content after)
    (hn : ¬(other = collection ∧ name = key)) : after other name = docs other name := by
  obtain ⟨version, flags, rfl⟩ := h
  exact set_of_ne hn

end Docs

namespace Call

variable {faulty : Request → Prop} {err : FsError → Docs → Prop} {docs : Docs}
  {collection : Collection} {key : String} {value : Bytes} {request : Request}

theorem ensures_execute {post : Response → Docs → Prop}
    (hs : ∀ version, post (docs.answer version collection request).1
      (docs.answer version collection request).2)
    (hf : faulty request → ∀ text, err (.io text) docs ∧
      ∀ version, err (.io text) (docs.answer version collection request).2) :
    (Document.execute collection request).Ensures faulty post err docs := by
  intro reply after hr
  cases hr with
  | answered version => exact hs version
  | refused h reason => exact (hf h _).1
  | dropped h => exact (hf h _).1
  | lost h version => exact (hf h _).2 version

theorem ensures_expectSuccess {post : Response → Docs → Prop}
    (hs : ∀ version, if (docs.answer version collection request).1.status = .success then
        post (docs.answer version collection request).1 (docs.answer version collection request).2
      else
        err (docs.answer version collection request).1.status.error
          (docs.answer version collection request).2)
    (hf : faulty request → ∀ text, err (.io text) docs ∧
      ∀ version, err (.io text) (docs.answer version collection request).2) :
    (Document.expectSuccess collection request).Ensures faulty post err docs := by
  unfold Document.expectSuccess
  refine ensures_bind.mpr (ensures_execute ?_ hf)
  intro version
  have h := hs version
  rw [ensures_bind, ensures_check]
  exact h

theorem ensures_get {post : Response → Docs → Prop}
    (hs : ∀ found, docs collection key = some found →
      post { value := found.value, version := found.version, flags := found.flags } docs)
    (hn : docs collection key = none → err .notFound docs)
    (hf : faulty (.get key) → ∀ text, err (.io text) docs) :
    (Document.get collection key).Ensures faulty post err docs := by
  have ha : ∀ version, (docs.answer version collection (.get key)).2 = docs := by
    intro version
    unfold Docs.answer
    dsimp only
    split <;> rfl
  apply ensures_expectSuccess
  · intro version
    rw [ha]
    cases hk : docs collection key with
    | none =>
      simp only [Docs.answer, hk]
      exact hn hk
    | some found =>
      simp only [Docs.answer, hk]
      exact hs found hk
  · intro h text
    exact ⟨hf h text, fun version => by rw [ha]; exact hf h text⟩

theorem ensures_insert {post : UInt64 → Docs → Prop}
    (hs : docs collection key = none → ∀ version after,
      docs.Put collection key value after → post version after)
    (he : docs collection key ≠ none → err .alreadyExists docs)
    (hf : faulty (.insert key value) → ∀ text, err (.io text) docs ∧
      (docs collection key = none → ∀ after, docs.Put collection key value after →
        err (.io text) after)) :
    (Document.insert collection key value).Ensures faulty post err docs := by
  unfold Document.insert
  apply ensures_bind.mpr
  apply ensures_expectSuccess
  · intro version
    simp only [Docs.answer]
    by_cases h : (docs collection key).isSome
    · simp only [h, ite_true]
      exact he (Option.isSome_iff_ne_none.mp h)
    · simp only [h, Bool.false_eq_true, ite_false, ite_true]
      exact hs (by simpa using h) _ _ ⟨_, _, rfl⟩
  · intro h text
    refine ⟨(hf h text).1, fun version => ?_⟩
    simp only [Docs.answer]
    by_cases hk : (docs collection key).isSome
    · simp only [hk, ite_true]
      exact (hf h text).1
    · simp only [hk, Bool.false_eq_true, ite_false]
      exact (hf h text).2 (by simpa using hk) _ ⟨_, _, rfl⟩

-- A replacement that carries the version of the document.
theorem ensures_replace {post : UInt64 → Docs → Prop} {found : Document}
    (hk : docs collection key = some found)
    (hs : ∀ version after, docs.Put collection key value after → post version after)
    (hf : faulty (.replace key value (some found.version)) → ∀ text, err (.io text) docs ∧
      ∀ after, docs.Put collection key value after → err (.io text) after) :
    (Document.replace collection key value (some found.version)).Ensures faulty post err docs := by
  have ha : ∀ version, docs.answer version collection (.replace key value (some found.version)) =
      ({ version }, docs.set collection key (some ⟨value, version, found.flags⟩)) := by
    intro version
    simp [Docs.answer, hk]
  unfold Document.replace
  apply ensures_bind.mpr
  apply ensures_expectSuccess
  · intro version
    rw [ha]
    exact hs _ _ ⟨_, _, rfl⟩
  · intro h text
    refine ⟨(hf h text).1, fun version => ?_⟩
    rw [ha]
    exact (hf h text).2 _ ⟨_, _, rfl⟩

theorem ensures_remove {post : Unit → Docs → Prop}
    (hs : docs collection key ≠ none → post () (docs.set collection key none))
    (hn : docs collection key = none → err .notFound docs)
    (hf : faulty (.remove key) → ∀ text, err (.io text) docs ∧
      err (.io text) (docs.set collection key none)) :
    (Document.remove collection key).Ensures faulty post err docs := by
  unfold Document.remove
  apply ensures_bind.mpr
  apply ensures_expectSuccess
  · intro version
    by_cases hk : docs collection key = none
    · simp only [Docs.answer, hk]
      exact hn hk
    · obtain ⟨found, hd⟩ := Option.ne_none_iff_exists'.mp hk
      simp only [Docs.answer, hd]
      exact hs hk
  · intro h text
    refine ⟨(hf h text).1, fun version => ?_⟩
    by_cases hk : docs collection key = none
    · simp only [Docs.answer, hk]
      exact (hf h text).1
    · obtain ⟨found, hd⟩ := Option.ne_none_iff_exists'.mp hk
      simp only [Docs.answer, hd]
      exact (hf h text).2

theorem ensures_stored {post : Bool → Docs → Prop} {stale : FsError → Bool} {write : Call UInt64}
    (h : write.Ensures faulty (fun _ => post true)
      (fun error after => if stale error then post false after else err error after) docs) :
    (Document.stored stale write).Ensures faulty post err docs := by
  unfold Document.stored
  rw [ensures_bind, ensures_attempt]
  refine h.mono (fun _ _ hp => hp) fun error after he => ?_
  dsimp only
  rw [ensures_bind, ensures_check]
  exact he

variable {allowed : Collection → Request → Prop}

theorem only_expectSuccess (h : allowed collection request) :
    (Document.expectSuccess collection request).Only allowed := by
  refine only_bind ⟨h, fun reply => ?_⟩ fun response => only_bind only_check fun _ => trivial
  cases reply <;> trivial

theorem only_get (h : allowed collection (.get key)) :
    (Document.get collection key).Only allowed :=
  only_expectSuccess h

theorem only_insert (h : allowed collection (.insert key value)) :
    (Document.insert collection key value).Only allowed :=
  only_bind (only_expectSuccess h) fun _ => trivial

theorem only_replace {version : Option UInt64}
    (h : allowed collection (.replace key value version)) :
    (Document.replace collection key value version).Only allowed :=
  only_bind (only_expectSuccess h) fun _ => trivial

theorem only_remove (h : allowed collection (.remove key)) :
    (Document.remove collection key).Only allowed :=
  only_bind (only_expectSuccess h) fun _ => trivial

theorem only_stored {stale : FsError → Bool} {write : Call UInt64} (h : write.Only allowed) :
    (Document.stored stale write).Only allowed := by
  refine only_bind (only_attempt h) fun answer => ?_
  cases answer with
  | ok version => trivial
  | error error => exact only_bind only_check fun _ => trivial

end Call

end DocTree
