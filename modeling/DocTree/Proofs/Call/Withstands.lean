import DocTree.Proofs.Call.Document
import DocTree.Proofs.Store.Within

namespace DocTree

-- What a store with these documents may do with a request if nothing is promised of it.
inductive Docs.MayServe (docs : Docs) (collection : Collection) (request : Request) :
    Reply → Docs → Prop where
  | answered (version : UInt64) :
      MayServe docs collection request (.answered (docs.answer version collection request).1)
        (docs.answer version collection request).2
  | tooBig (h : 0 < request.size) :
      MayServe docs collection request (.answered { status := .tooBig }) docs
  | refused (reason : String) : MayServe docs collection request (.refused reason) docs
  | dropped : MayServe docs collection request .dropped docs
  | lost (version : UInt64) :
      MayServe docs collection request .dropped (docs.answer version collection request).2

namespace Docs

variable {docs after : Docs} {collection : Collection} {request : Request} {reply : Reply}

theorem Serves.mayServe {faulty : Request → Prop}
    (h : docs.Serves faulty collection request reply after) :
    docs.MayServe collection request reply after := by
  cases h with
  | answered version => exact .answered version
  | refused _ reason => exact .refused reason
  | dropped _ => exact .dropped
  | lost _ version => exact .lost version

theorem mayServe_answerWithin (maxSize : Nat) (version : UInt64) (collection : Collection)
    (request : Request) :
    docs.MayServe collection request
      (.answered (docs.answerWithin maxSize version collection request).1)
      (docs.answerWithin maxSize version collection request).2 := by
  by_cases hl : request.size ≤ maxSize
  · rw [answerWithin_of_le hl]
    exact .answered version
  · rw [answerWithin_of_lt (Nat.not_le.mp hl)]
    exact .tooBig (Nat.zero_lt_of_lt (Nat.not_le.mp hl))

-- A request whose answer gets lost was carried out or not.
theorem mayServe_lost (maxSize : Nat) (version : UInt64) (collection : Collection)
    (request : Request) :
    docs.MayServe collection request .dropped
      (docs.answerWithin maxSize version collection request).2 := by
  by_cases hl : request.size ≤ maxSize
  · rw [answerWithin_of_le hl]
    exact .lost version
  · rw [answerWithin_of_lt (Nat.not_le.mp hl)]
    exact .dropped

end Docs

-- A backend that shows its documents through `view`, and of which nothing is promised.
def Backend.MayServe {σ : Type} (backend : Backend σ) (view : σ → Docs) : Prop :=
  ∀ collection request state, (view state).MayServe collection request
    (backend collection request state).1 (view (backend collection request state).2)

theorem Backend.Serves.mayServe {σ : Type} {backend : Backend σ} {view : σ → Docs}
    {faulty : Request → Prop} (h : backend.Serves view faulty) : backend.MayServe view :=
  fun collection request state => (h collection request state).mayServe

theorem Image.backend_mayServe (maxSize : Nat) (scope : String) :
    (Image.backend maxSize scope).MayServe (Image.docs scope) := by
  intro collection request image
  have h := (image.docs scope).mayServe_answerWithin maxSize (image.lastVersion + 1) collection
    request
  rw [← Image.apply_response, ← Image.docs_apply] at h
  exact h

theorem Unreliable.within_mayServe (maxSize : Nat) (scope : String) :
    (within maxSize scope).MayServe fun store => store.image.docs scope := by
  intro collection request store
  have hlost := (store.image.docs scope).mayServe_lost maxSize (store.image.lastVersion + 1)
    collection request
  rw [← Image.docs_apply] at hlost
  unfold within
  dsimp only
  cases store.fates 0 with
  | answered => exact Image.backend_mayServe maxSize scope collection request store.image
  | refused reason => exact .refused reason
  | dropped => exact .dropped
  | lost => exact hlost

namespace Call

variable {α β σ : Type} {post mid : α → Docs → Prop} {err : FsError → Docs → Prop} {docs : Docs}

-- Whatever becomes of its requests, the call ends in a value that meets `post` or in an error that
-- meets `err`, each with the documents that the call leaves.
def Withstands : Call α → (α → Docs → Prop) → (FsError → Docs → Prop) → Docs → Prop
  | done value, post, _, docs => post value docs
  | fail error, _, err, docs => err error docs
  | crash, _, _, _ => False
  | submit collection request next, post, err, docs =>
    ∀ reply after, docs.MayServe collection request reply after →
      (next reply).Withstands post err after

theorem Withstands.run {backend : Backend σ} {view : σ → Docs} {call : Call α}
    (hb : backend.MayServe view) {state : σ} (h : call.Withstands post err (view state)) :
    (call.run backend state).1.Meets post err (view (call.run backend state).2) := by
  induction call generalizing state with
  | done value => exact h
  | fail error => exact h
  | crash => exact h
  | submit collection request next ih =>
    simp only [Call.run]
    exact ih _ (h _ _ (hb collection request state))

theorem Withstands.run_within {maxSize : Nat} {scope : String} {call : Call α} (store : Unreliable)
    (h : call.Withstands post err (store.image.docs scope)) :
    (call.run (Unreliable.within maxSize scope) store).1.Meets post err
      ((call.run (Unreliable.within maxSize scope) store).2.image.docs scope) :=
  h.run (Unreliable.within_mayServe maxSize scope)

theorem Withstands.mono {call : Call α} {weaker : α → Docs → Prop} {laxer : FsError → Docs → Prop}
    (h : call.Withstands post err docs)
    (hp : ∀ value after, post value after → weaker value after)
    (he : ∀ error after, err error after → laxer error after) :
    call.Withstands weaker laxer docs := by
  induction call generalizing docs with
  | done value => exact hp _ _ h
  | fail error => exact he _ _ h
  | crash => exact h
  | submit collection request next ih => exact fun reply after hs => ih reply (h reply after hs)

theorem withstands_bind {call : Call α} {next : α → Call β} {post : β → Docs → Prop} :
    (call >>= next).Withstands post err docs ↔
      call.Withstands (fun value => (next value).Withstands post err) err docs := by
  induction call generalizing docs with
  | done value => exact Iff.rfl
  | fail error => exact Iff.rfl
  | crash => exact Iff.rfl
  | submit collection request rest ih =>
    exact forall_congr' fun reply => forall_congr' fun after => forall_congr' fun _ => ih reply

theorem Withstands.bind {call : Call α} {next : α → Call β} {post : β → Docs → Prop}
    {alarm : FsError → Docs → Prop} (h : call.Withstands mid alarm docs)
    (hn : ∀ value after, mid value after → (next value).Withstands post err after)
    (he : ∀ error after, alarm error after → err error after) :
    (call >>= next).Withstands post err docs :=
  withstands_bind.mpr (h.mono hn he)

@[simp] theorem withstands_map {call : Call α} {f : α → β} {post : β → Docs → Prop} :
    (f <$> call).Withstands post err docs ↔
      call.Withstands (fun value => post (f value)) err docs := withstands_bind

@[simp] theorem withstands_check {p : Prop} [Decidable p] {error : FsError}
    {post : Unit → Docs → Prop} :
    (check p error).Withstands post err docs ↔ if p then post () docs else err error docs := by
  unfold check
  split <;> exact Iff.rfl

@[simp] theorem withstands_attempt {call : Call α} {post : Except FsError α → Docs → Prop} :
    call.attempt.Withstands post err docs ↔
      call.Withstands (fun value => post (.ok value)) (fun error => post (.error error)) docs := by
  induction call generalizing docs with
  | done value => exact Iff.rfl
  | fail error => exact Iff.rfl
  | crash => exact Iff.rfl
  | submit collection request rest ih =>
    exact forall_congr' fun reply => forall_congr' fun after => forall_congr' fun _ => ih reply

theorem withstands_ofExcept {value : Except FsError α} :
    (ofExcept value).Withstands post err docs ↔
      match value with
      | .ok value => post value docs
      | .error error => err error docs := by
  cases value <;> exact Iff.rfl

-- An attempt without an answer leaves the documents as they were, so the next one starts there.
theorem withstands_retry {once : Nat → Call (Option α)} {attempts : Nat}
    (h : ∀ tried < attempts, (once tried).Withstands (fun answer after =>
      answer.elim (after = docs) fun value => post value after) err docs)
    (he : err .conflict docs) :
    (retry once attempts).Withstands post err docs := by
  induction attempts generalizing once with
  | zero => exact he
  | succ attempts ih =>
    unfold retry
    refine (h 0 (Nat.succ_pos _)).bind (fun answer after ha => ?_) fun _ _ he => he
    cases answer with
    | none => exact ha ▸ ih fun tried ht => h (tried + 1) (Nat.succ_lt_succ ht)
    | some value => exact ha

variable {collection : Collection} {key : String} {value : Bytes} {request : Request}

-- Only where an answer got lost does an error come with other documents.
theorem withstands_expectSuccess {post : Response → Docs → Prop}
    (hs : ∀ version, (docs.answer version collection request).1.status = .success →
      post (docs.answer version collection request).1
          (docs.answer version collection request).2 ∧
        ∀ text, err (.io text) (docs.answer version collection request).2)
    (he : ∀ error, err error docs) :
    (Document.expectSuccess collection request).Withstands post err docs := by
  unfold Document.expectSuccess Document.execute
  refine withstands_bind.mpr fun reply after hr => ?_
  cases hr with
  | answered version =>
    refine withstands_bind.mpr (withstands_check.mpr ?_)
    split
    · next h => exact (hs version h).1
    · next h =>
      rw [Docs.answer_eq_self (.inl h)]
      exact he _
  | tooBig _ => exact he _
  | refused reason => exact he _
  | dropped => exact he _
  | lost version =>
    by_cases h : (docs.answer version collection request).1.status = .success
    · exact (hs version h).2 _
    · rw [Docs.answer_eq_self (.inl h)]
      exact he _

theorem withstands_get {post : Response → Docs → Prop}
    (hs : ∀ found, docs collection key = some found →
      post { value := found.value, version := found.version, flags := found.flags } docs)
    (he : ∀ error, err error docs) :
    (Document.get collection key).Withstands post err docs := by
  refine withstands_expectSuccess (fun version h => ?_) he
  rw [Docs.answer_eq_self (.inr ⟨key, rfl⟩)]
  refine ⟨?_, fun text => he _⟩
  unfold Docs.answer at h ⊢
  dsimp only at h ⊢
  split
  · next hn => rw [hn] at h; cases h
  · next found hf => exact hs found hf

theorem withstands_insert {post : UInt64 → Docs → Prop}
    (hs : docs collection key = none → ∀ after, docs.Put collection key value after →
      (∀ version, post version after) ∧ ∀ text, err (.io text) after)
    (he : ∀ error, err error docs) :
    (Document.insert collection key value).Withstands post err docs := by
  unfold Document.insert
  refine withstands_bind.mpr (withstands_expectSuccess (fun version h => ?_) he)
  by_cases hk : (docs collection key).isSome
  · simp [Docs.answer, hk] at h
  · simp only [Docs.answer, hk, Bool.false_eq_true, ite_false]
    exact (hs (by simpa using hk) _ ⟨_, _, rfl⟩).imp (fun hp => hp _) id

-- A replacement that carries the version of the document.
theorem withstands_replace {post : UInt64 → Docs → Prop} {found : Document}
    (hk : docs collection key = some found)
    (hs : ∀ after, docs.Put collection key value after →
      (∀ version, post version after) ∧ ∀ text, err (.io text) after)
    (he : ∀ error, err error docs) :
    (Document.replace collection key value (some found.version)).Withstands post err docs := by
  unfold Document.replace
  refine withstands_bind.mpr (withstands_expectSuccess (fun version h => ?_) he)
  have ha : docs.answer version collection (.replace key value (some found.version)) =
      ({ version }, docs.set collection key (some ⟨value, version, found.flags⟩)) := by
    simp [Docs.answer, hk]
  rw [ha]
  exact (hs _ ⟨_, _, rfl⟩).imp (fun hp => hp _) id

theorem withstands_stored {post : Bool → Docs → Prop} {stale : FsError → Bool} {write : Call UInt64}
    (h : write.Withstands (fun _ => post true)
      (fun error after => if stale error then post false after else err error after) docs) :
    (Document.stored stale write).Withstands post err docs := by
  unfold Document.stored
  rw [withstands_bind, withstands_attempt]
  refine h.mono (fun _ _ hp => hp) fun error after he => ?_
  dsimp only
  rw [withstands_bind, withstands_check]
  exact he

end Call

end DocTree
