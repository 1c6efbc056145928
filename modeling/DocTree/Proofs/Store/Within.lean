import DocTree.Proofs.Call.Only
import DocTree.Proofs.Store.Fates
import DocTree.Proofs.Store.Sized

namespace DocTree

namespace Unreliable

-- Values longer than `maxSize` are refused, and every request meets a fate.
def within (maxSize : Nat) (scope : String) : Backend Unreliable :=
  fun collection request store =>
    let (reply, image) := Image.backend maxSize scope collection request store.image
    let fates := fun n => store.fates (n + 1)
    match store.fates 0 with
    | .answered => (reply, ⟨image, fates⟩)
    | .refused reason => (.refused reason, ⟨store.image, fates⟩)
    | .dropped => (.dropped, ⟨store.image, fates⟩)
    | .lost => (.dropped, ⟨image, fates⟩)

variable {maxSize : Nat} {scope : String} {collection : Collection} {key : String}
  {request : Request} {store : Unreliable} {found : Document} {path : String}

-- A request is answered as the store would, or it gets no answer and was carried out or not.
theorem within_cases (maxSize : Nat) (scope : String) (collection : Collection) (request : Request)
    (store : Unreliable) :
    let served := within maxSize scope collection request store
    let plain := Image.backend maxSize scope collection request store.image
    (served.1 = plain.1 ∧ served.2.image = plain.2) ∨
      (∀ response, served.1 ≠ .answered response) ∧
        (served.2.image = store.image ∨ served.2.image = plain.2) := by
  unfold within
  dsimp only
  cases store.fates 0 with
  | answered => exact .inl ⟨rfl, rfl⟩
  | refused reason => exact .inr ⟨nofun, .inl rfl⟩
  | dropped => exact .inr ⟨nofun, .inl rfl⟩
  | lost => exact .inr ⟨nofun, .inr rfl⟩

theorem fates_within :
    (within maxSize scope collection request store).2.fates = fun n => store.fates (n + 1) := by
  unfold within
  dsimp only
  split <;> rfl

theorem within_of_answered (hf : store.fates 0 = .answered) :
    within maxSize scope collection request store =
      ((Image.backend maxSize scope collection request store.image).1,
        ⟨(Image.backend maxSize scope collection request store.image).2,
          fun n => store.fates (n + 1)⟩) := by
  unfold within
  dsimp only
  rw [hf]

theorem within_of_refused {reason : String} (hf : store.fates 0 = .refused reason) :
    within maxSize scope collection request store =
      (.refused reason, ⟨store.image, fun n => store.fates (n + 1)⟩) := by
  unfold within
  dsimp only
  rw [hf]

theorem docs_within_get (store : Unreliable) :
    (within maxSize scope collection (.get key) store).2.image.docs scope =
      store.image.docs scope := by
  have h : (store.image.apply maxSize scope collection (.get key)).1.docs scope =
      store.image.docs scope := by
    rw [Image.docs_apply]
    exact Docs.answerWithin_eq_self (.inr ⟨key, rfl⟩)
  unfold within
  dsimp only
  split
  · exact h
  · rfl
  · rfl
  · exact h

theorem run_get_of_answered (hk : store.image.docs scope collection key = some found)
    (hf : store.fates 0 = .answered) :
    (Document.get collection key).run (within maxSize scope) store =
      (.done { value := found.value, version := found.version, flags := found.flags },
        (within maxSize scope collection (.get key) store).2) := by
  have ha : (store.image.apply maxSize scope collection (.get key)).2 =
      { value := found.value, version := found.version, flags := found.flags } := by
    rw [Image.apply_response, Docs.answerWithin_of_le (Nat.zero_le _)]
    simp [Docs.answer, hk]
  have hr : (within maxSize scope collection (.get key) store).1 =
      .answered { value := found.value, version := found.version, flags := found.flags } := by
    rw [← ha]
    unfold within
    dsimp only
    rw [hf]
    rfl
  unfold Document.get Document.expectSuccess Document.execute
  change ((Call.submit _ _ _).bind _).run _ store = _
  simp only [Call.bind, Call.run, hr]
  rfl

theorem run_get_of_not_answered (maxSize : Nat) (scope : String) (collection : Collection)
    (key : String) (hf : store.fates 0 ≠ .answered) :
    ∃ text, (Document.get collection key).run (within maxSize scope) store =
      (.failed (.io text), (within maxSize scope collection (.get key) store).2) := by
  have hr : (∃ reason, (within maxSize scope collection (.get key) store).1 = .refused reason) ∨
      (within maxSize scope collection (.get key) store).1 = .dropped := by
    unfold within
    dsimp only
    cases hc : store.fates 0 with
    | answered => exact absurd hc hf
    | refused reason => exact .inl ⟨reason, rfl⟩
    | dropped => exact .inr rfl
    | lost => exact .inr rfl
  unfold Document.get Document.expectSuccess Document.execute
  change ∃ text, ((Call.submit _ _ _).bind _).run _ store = _
  simp only [Call.bind, Call.run]
  rcases hr with ⟨reason, hr⟩ | hr <;> rw [hr] <;> exact ⟨_, rfl⟩

theorem not_mem_within_remove (hf : store.fates 0 = .answered) :
    (within maxSize scope collection (.remove key) store).2.image.docs scope collection key =
      none := by
  have h : (store.image.apply maxSize scope collection (.remove key)).1.docs scope collection key =
      none := by
    rw [Image.docs_apply, Docs.answerWithin_of_le (Nat.zero_le _)]
    obtain hk | ⟨found, hk⟩ := Option.eq_none_or_eq_some (store.image.docs scope collection key)
    · simp [Docs.answer, hk]
    · simp [Docs.answer, hk, Docs.set_self]
  unfold within
  dsimp only
  rw [hf]
  exact h

-- A single request leaves what the store makes of it, whatever is made of the answer.
theorem state_expectSuccess {σ : Type} (backend : Backend σ) (collection : Collection)
    (request : Request) (state : σ) :
    ((Document.expectSuccess collection request).run backend state).2 =
      (backend collection request state).2 := by
  unfold Document.expectSuccess Document.execute
  change (((Call.submit _ _ _).bind _).run backend state).2 = _
  simp only [Call.bind, Call.run]
  cases (backend collection request state).1 with
  | answered response =>
    simp only [Call.bind, Call.check]
    split <;> rfl
  | refused reason => rfl
  | dropped => rfl

end Unreliable

end DocTree
