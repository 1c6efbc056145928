import DocTree.Call.Run
import DocTree.Proofs.Store.Docs

namespace DocTree

namespace Image

-- Every request is answered, and none is refused for the size of its value.
def unlimited (scope : String) : Backend Image :=
  fun collection request image => backend request.size scope collection request image

theorem unlimited_eq (scope : String) (collection : Collection) (request : Request)
    (image : Image) :
    ((unlimited scope collection request image).1,
      (unlimited scope collection request image).2.docs scope) =
      (.answered ((image.docs scope).answer (image.lastVersion + 1) collection request).1,
        ((image.docs scope).answer (image.lastVersion + 1) collection request).2) := by
  rw [← apply_eq_answer (Nat.le_refl request.size)]
  rfl

end Image

-- What becomes of a request on its way to the store and back.
inductive Fate where
  | answered
  | refused (reason : String)
  | dropped
  -- Carried out, and the answer does not come back.
  | lost

-- A store behind a line that can fail: request number `n` from now on meets `fates n`.
structure Unreliable where
  image : Image
  fates : Nat → Fate

namespace Unreliable

-- Requests that are `spared` are answered whatever their fate.
def backend (spared : Request → Bool) (scope : String) : Backend Unreliable :=
  fun collection request store =>
    let (reply, image) := Image.unlimited scope collection request store.image
    let fates := fun n => store.fates (n + 1)
    match if spared request then .answered else store.fates 0 with
    | .answered => (reply, ⟨image, fates⟩)
    | .refused reason => (.refused reason, ⟨store.image, fates⟩)
    | .dropped => (.dropped, ⟨store.image, fates⟩)
    | .lost => (.dropped, ⟨image, fates⟩)

end Unreliable

-- What a store with these documents may do with a request. A request that is not `faulty` is
-- answered.
inductive Docs.Serves (faulty : Request → Prop) (docs : Docs) (collection : Collection)
    (request : Request) : Reply → Docs → Prop where
  | answered (version : UInt64) :
      Serves faulty docs collection request
        (.answered (docs.answer version collection request).1)
        (docs.answer version collection request).2
  | refused (h : faulty request) (reason : String) :
      Serves faulty docs collection request (.refused reason) docs
  | dropped (h : faulty request) : Serves faulty docs collection request .dropped docs
  | lost (h : faulty request) (version : UInt64) :
      Serves faulty docs collection request .dropped (docs.answer version collection request).2

-- A backend that shows its documents through `view` and serves every request.
def Backend.Serves {σ : Type} (backend : Backend σ) (view : σ → Docs)
    (faulty : Request → Prop) : Prop :=
  ∀ collection request state, (view state).Serves faulty collection request
    (backend collection request state).1 (view (backend collection request state).2)

theorem Image.unlimited_serves (scope : String) :
    (Image.unlimited scope).Serves (Image.docs scope) fun _ => False := by
  intro collection request image
  obtain ⟨hr, hd⟩ := Prod.mk.inj (unlimited_eq scope collection request image)
  rw [hr, hd]
  exact .answered _

theorem Unreliable.backend_serves (spared : Request → Bool) (scope : String) :
    (backend spared scope).Serves (fun store => store.image.docs scope)
      fun request => spared request = false := by
  intro collection request store
  obtain ⟨hr, hd⟩ := Prod.mk.inj (Image.unlimited_eq scope collection request store.image)
  by_cases hs : spared request
  · simp only [backend, hs, ite_true]
    rw [hr, hd]
    exact .answered _
  · have hf : spared request = false := by simpa using hs
    simp only [backend, hf, Bool.false_eq_true, ite_false]
    cases store.fates 0 with
    | answered =>
      dsimp only
      rw [hr, hd]
      exact .answered _
    | refused reason => exact .refused hf reason
    | dropped => exact .dropped hf
    | lost =>
      dsimp only
      rw [hd]
      exact .lost hf _

end DocTree
