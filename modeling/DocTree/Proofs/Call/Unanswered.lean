import DocTree.Proofs.Call.Upholds
import DocTree.Proofs.Store.Within

namespace DocTree

namespace Call

variable {α β : Type} {maxSize : Nat} {scope : String} {call : Call α}

-- Without an answer to a request the call is over, with an error of the transport.
def EndsUnanswered : Call α → Prop
  | done _ => True
  | fail _ => True
  | crash => True
  | submit _ _ next =>
    (∀ reply, (∀ response, reply ≠ .answered response) → ∃ text, next reply = fail (.io text)) ∧
      ∀ response, (next (.answered response)).EndsUnanswered

theorem EndsUnanswered.run_within (h : call.EndsUnanswered) (store : Unreliable) :
    let tried := call.run (Unreliable.within maxSize scope) store
    tried.2.image ∈ call.states (Image.backend maxSize scope) store.image ∧
      ((tried.1, tried.2.image) = call.run (Image.backend maxSize scope) store.image ∨
        ∃ text, tried.1 = .failed (.io text)) := by
  induction call generalizing store with
  | done value => exact ⟨List.mem_singleton_self _, .inl rfl⟩
  | fail error => exact ⟨List.mem_singleton_self _, .inl rfl⟩
  | crash => exact ⟨List.mem_singleton_self _, .inl rfl⟩
  | submit collection request next ih =>
    simp only [run, states]
    rcases Unreliable.within_cases maxSize scope collection request store with
      ⟨hr, hi⟩ | ⟨hr, hi⟩
    · obtain ⟨response, hresponse⟩ : ∃ response,
          (Image.backend maxSize scope collection request store.image).1 = .answered response :=
        ⟨_, rfl⟩
      have hnext := ih _ (hresponse ▸ h.2 response)
        (Unreliable.within maxSize scope collection request store).2
      rw [hi] at hnext
      rw [hr]
      exact hnext.imp_left (List.mem_cons_of_mem _)
    · obtain ⟨text, ht⟩ := h.1 _ hr
      rw [ht]
      refine ⟨?_, .inr ⟨text, rfl⟩⟩
      rcases hi with hi | hi
      · exact List.mem_cons.mpr (.inl hi)
      · exact List.mem_cons_of_mem _ (hi ▸ mem_states ..)

theorem EndsUnanswered.bind {next : α → Call β} (h : call.EndsUnanswered)
    (hn : ∀ value, (next value).EndsUnanswered) : (call >>= next).EndsUnanswered := by
  induction call with
  | done value => exact hn value
  | fail error => trivial
  | crash => trivial
  | submit collection request rest ih =>
    refine ⟨fun reply hr => ?_, fun response => ih _ (h.2 response)⟩
    obtain ⟨text, ht⟩ := h.1 reply hr
    exact ⟨text, congrArg (· >>= next) ht⟩

-- What follows an attempt has to pass an error of the transport on.
theorem EndsUnanswered.attempt_bind {next : Except FsError α → Call β} (h : call.EndsUnanswered)
    (hn : ∀ answer, (next answer).EndsUnanswered)
    (hio : ∀ text, next (.error (.io text)) = fail (.io text)) :
    (call.attempt >>= next).EndsUnanswered := by
  induction call with
  | done value => exact hn _
  | fail error => exact hn _
  | crash => trivial
  | submit collection request rest ih =>
    refine ⟨fun reply hr => ?_, fun response => ih _ (h.2 response)⟩
    obtain ⟨text, ht⟩ := h.1 reply hr
    exact ⟨text, (congrArg (fun call => attempt call >>= next) ht).trans (hio text)⟩

theorem endsUnanswered_check {p : Prop} [Decidable p] {error : FsError} :
    (check p error).EndsUnanswered := by
  unfold check
  split <;> trivial

theorem endsUnanswered_ofExcept {value : Except FsError α} : (ofExcept value).EndsUnanswered := by
  cases value <;> trivial

theorem endsUnanswered_expectSuccess (collection : Collection) (request : Request) :
    (Document.expectSuccess collection request).EndsUnanswered := by
  refine EndsUnanswered.bind ⟨fun reply hr => ?_, fun response => trivial⟩ fun response =>
    endsUnanswered_check.bind fun _ => trivial
  cases reply with
  | answered response => exact absurd rfl (hr response)
  | refused reason => exact ⟨_, rfl⟩
  | dropped => exact ⟨_, rfl⟩

theorem endsUnanswered_insert (collection : Collection) (key : String) (value : Bytes) :
    (Document.insert collection key value).EndsUnanswered :=
  (endsUnanswered_expectSuccess _ _).bind fun _ => trivial

end Call

end DocTree
