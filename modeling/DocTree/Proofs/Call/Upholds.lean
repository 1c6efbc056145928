import DocTree.Proofs.Call.Document
import DocTree.Proofs.Store.Sized

namespace DocTree

namespace Call

variable {α β σ : Type} {maxSize : Nat} {inv : Docs → Prop} {post mid : α → Docs → Prop}
  {err : FsError → Docs → Prop} {docs : Docs}

-- After every request the documents meet `inv`, and the call ends in a value that meets `post` or
-- in an error that meets `err`, each with the documents that the call leaves.
def Upholds (maxSize : Nat) (inv : Docs → Prop) :
    Call α → (α → Docs → Prop) → (FsError → Docs → Prop) → Docs → Prop
  | done value, post, _, docs => post value docs
  | fail error, _, err, docs => err error docs
  | crash, _, _, _ => False
  | submit collection request next, post, err, docs => ∀ version,
    inv (docs.answerWithin maxSize version collection request).2 ∧
      (next (.answered (docs.answerWithin maxSize version collection request).1)).Upholds maxSize
        inv post err (docs.answerWithin maxSize version collection request).2

-- The states that a call runs through: the one that it finds, and the one after each request.
def states (backend : Backend σ) : Call α → σ → List σ
  | done _, state => [state]
  | fail _, state => [state]
  | crash, state => [state]
  | submit collection request next, state =>
    let (reply, later) := backend collection request state
    state :: (next reply).states backend later

theorem mem_states (backend : Backend σ) (call : Call α) (state : σ) :
    state ∈ call.states backend state := by
  cases call with
  | done value => exact List.mem_singleton_self _
  | fail error => exact List.mem_singleton_self _
  | crash => exact List.mem_singleton_self _
  | submit collection request next => exact List.mem_cons_self

theorem run_mem_states (backend : Backend σ) (call : Call α) (state : σ) :
    (call.run backend state).2 ∈ call.states backend state := by
  induction call generalizing state with
  | done value => exact List.mem_singleton_self _
  | fail error => exact List.mem_singleton_self _
  | crash => exact List.mem_singleton_self _
  | submit collection request next ih => exact List.mem_cons_of_mem _ (ih _ _)

-- No request is for a document of another scope.
theorem docs_states_of_ne {call : Call α} {scope space : String} {image later : Image}
    (hm : later ∈ call.states (Image.backend maxSize scope) image) (hs : space ≠ scope) :
    later.docs space = image.docs space := by
  induction call generalizing image with
  | done value => rw [List.mem_singleton.mp hm]
  | fail error => rw [List.mem_singleton.mp hm]
  | crash => rw [List.mem_singleton.mp hm]
  | submit collection request next ih =>
    rcases List.mem_cons.mp hm with rfl | hm
    · rfl
    · exact (ih _ hm).trans (Image.docs_apply_of_ne hs)

theorem Upholds.run {scope : String} {image : Image} {call : Call α}
    (h : call.Upholds maxSize inv post err (image.docs scope)) :
    (call.run (Image.backend maxSize scope) image).1.Meets post err
      ((call.run (Image.backend maxSize scope) image).2.docs scope) := by
  induction call generalizing image with
  | done value => exact h
  | fail error => exact h
  | crash => exact h
  | submit collection request next ih =>
    have hn := (h (image.lastVersion + 1)).2
    rw [← Image.apply_response, ← Image.docs_apply] at hn
    exact ih _ hn

theorem Upholds.states {scope : String} {image : Image} {call : Call α}
    (h : call.Upholds maxSize inv post err (image.docs scope)) (hi : inv (image.docs scope)) :
    ∀ later ∈ call.states (Image.backend maxSize scope) image, inv (later.docs scope) := by
  induction call generalizing image with
  | done value => exact fun later hm => List.mem_singleton.mp hm ▸ hi
  | fail error => exact fun later hm => List.mem_singleton.mp hm ▸ hi
  | crash => exact h.elim
  | submit collection request next ih =>
    obtain ⟨hi', hn⟩ := h (image.lastVersion + 1)
    rw [← Image.apply_response, ← Image.docs_apply] at hn
    rw [← Image.docs_apply] at hi'
    intro later hm
    rcases List.mem_cons.mp hm with rfl | hm
    · exact hi
    · exact ih _ hn hi' later hm

theorem Upholds.mono {call : Call α} {weaker : α → Docs → Prop} {laxer : FsError → Docs → Prop}
    (h : call.Upholds maxSize inv post err docs)
    (hp : ∀ value after, post value after → weaker value after)
    (he : ∀ error after, err error after → laxer error after) :
    call.Upholds maxSize inv weaker laxer docs := by
  induction call generalizing docs with
  | done value => exact hp _ _ h
  | fail error => exact he _ _ h
  | crash => exact h
  | submit collection request next ih => exact fun version => (h version).imp_right (ih _)

theorem Upholds.mono_inv {call : Call α} {wider : Docs → Prop}
    (h : call.Upholds maxSize inv post err docs) (hi : ∀ after, inv after → wider after) :
    call.Upholds maxSize wider post err docs := by
  induction call generalizing docs with
  | done value => exact h
  | fail error => exact h
  | crash => exact h
  | submit collection request next ih => exact fun version => (h version).imp (hi _) (ih _)

theorem Upholds.and {call : Call α} {other : α → Docs → Prop} {alarm : FsError → Docs → Prop}
    {also : Docs → Prop} (h : call.Upholds maxSize inv post err docs)
    (ho : call.Upholds maxSize also other alarm docs) :
    call.Upholds maxSize inv (fun value after => post value after ∧ other value after)
      (fun error after => err error after ∧ alarm error after) docs := by
  induction call generalizing docs with
  | done value => exact ⟨h, ho⟩
  | fail error => exact ⟨h, ho⟩
  | crash => exact h
  | submit collection request next ih =>
    exact fun version => ⟨(h version).1, ih _ (h version).2 (ho version).2⟩

theorem upholds_bind {call : Call α} {next : α → Call β} {post : β → Docs → Prop} :
    (call >>= next).Upholds maxSize inv post err docs ↔
      call.Upholds maxSize inv (fun value => (next value).Upholds maxSize inv post err) err
        docs := by
  induction call generalizing docs with
  | done value => exact Iff.rfl
  | fail error => exact Iff.rfl
  | crash => exact Iff.rfl
  | submit collection request rest ih => exact forall_congr' fun version => and_congr_right' (ih _)

theorem Upholds.bind {call : Call α} {next : α → Call β} {post : β → Docs → Prop}
    {alarm : FsError → Docs → Prop} (h : call.Upholds maxSize inv mid alarm docs)
    (hn : ∀ value after, mid value after → (next value).Upholds maxSize inv post err after)
    (he : ∀ error after, alarm error after → err error after) :
    (call >>= next).Upholds maxSize inv post err docs :=
  upholds_bind.mpr (h.mono hn he)

@[simp] theorem upholds_pure {value : α} :
    (pure value : Call α).Upholds maxSize inv post err docs ↔ post value docs := Iff.rfl

@[simp] theorem upholds_map {call : Call α} {f : α → β} {post : β → Docs → Prop} :
    (f <$> call).Upholds maxSize inv post err docs ↔
      call.Upholds maxSize inv (fun value => post (f value)) err docs := upholds_bind

@[simp] theorem upholds_check {p : Prop} [Decidable p] {error : FsError}
    {post : Unit → Docs → Prop} :
    (check p error).Upholds maxSize inv post err docs ↔
      if p then post () docs else err error docs := by
  unfold check
  split <;> exact Iff.rfl

@[simp] theorem upholds_attempt {call : Call α} {post : Except FsError α → Docs → Prop} :
    call.attempt.Upholds maxSize inv post err docs ↔
      call.Upholds maxSize inv (fun value => post (.ok value)) (fun error => post (.error error))
        docs := by
  induction call generalizing docs with
  | done value => exact Iff.rfl
  | fail error => exact Iff.rfl
  | crash => exact Iff.rfl
  | submit collection request rest ih => exact forall_congr' fun version => and_congr_right' (ih _)

@[simp] theorem upholds_bestEffort {call : Call α} {post : Unit → Docs → Prop} :
    (bestEffort call).Upholds maxSize inv post err docs ↔
      call.Upholds maxSize inv (fun _ => post ()) (fun _ => post ()) docs := by
  unfold bestEffort
  rw [upholds_bind, upholds_attempt]
  exact Iff.rfl

-- An attempt that answers a value ends the repetition.
theorem upholds_retry {once : Nat → Call (Option α)} {attempts : Nat}
    (h : (once 0).Upholds maxSize inv
      (fun answer after => ∃ value, answer = some value ∧ post value after) err docs) :
    (retry once (attempts + 1)).Upholds maxSize inv post err docs := by
  unfold retry
  apply h.bind
  · intro answer after ha
    obtain ⟨value, rfl, hv⟩ := ha
    exact hv
  · exact fun _ _ he => he

variable {allowed : Collection → Request → Prop}

-- What no allowed request takes away is upheld.
theorem Only.upholds {call : Call α} (h : call.Only allowed)
    (hs : ∀ docs version collection request, allowed collection request → inv docs →
      inv (docs.answerWithin maxSize version collection request).2) (hi : inv docs) :
    call.Upholds maxSize inv (fun _ => inv) (fun _ => inv) docs := by
  induction call generalizing docs with
  | done value => exact hi
  | fail error => exact hi
  | crash => exact h
  | submit collection request next ih =>
    intro version
    have hn := hs docs version collection request h.1 hi
    exact ⟨hn, ih _ (h.2 _) hn⟩

-- Looks leave the documents as they are.
theorem Only.upholds_looks {call : Call α}
    (h : call.Only fun _ request => ∃ key, request = .get key) (docs : Docs) :
    call.Upholds maxSize (· = docs) (fun _ => (· = docs)) (fun _ => (· = docs)) docs := by
  refine h.upholds (fun found version collection request hr he => ?_) rfl
  rw [Docs.answerWithin_eq_self (.inr hr)]
  exact he

-- Without values that are too long, the store is one that answers every request.
theorem Ensures.upholds {call : Call α} (h : call.Ensures (fun _ => False) post err docs)
    (ho : call.Only allowed)
    (hs : ∀ collection request, allowed collection request → request.size ≤ maxSize) :
    call.Upholds maxSize (fun _ => True) post err docs := by
  induction call generalizing docs with
  | done value => exact h
  | fail error => exact h
  | crash => exact h
  | submit collection request next ih =>
    intro version
    rw [Docs.answerWithin_of_le (hs _ _ ho.1)]
    exact ⟨trivial, ih _ (h _ _ (.answered version)) (ho.2 _)⟩

variable {collection : Collection} {key : String} {value : Bytes} {request : Request}

theorem upholds_expectSuccess {post : Response → Docs → Prop}
    (h : ∀ version, inv (docs.answerWithin maxSize version collection request).2 ∧
      if (docs.answerWithin maxSize version collection request).1.status = .success then
        post (docs.answerWithin maxSize version collection request).1
          (docs.answerWithin maxSize version collection request).2
      else
        err (docs.answerWithin maxSize version collection request).1.status.error
          (docs.answerWithin maxSize version collection request).2) :
    (Document.expectSuccess collection request).Upholds maxSize inv post err docs := by
  unfold Document.expectSuccess Document.execute
  refine upholds_bind.mpr fun version => (h version).imp_right fun hs => ?_
  refine upholds_bind.mpr (upholds_check.mpr ?_)
  exact hs

theorem upholds_get {post : Response → Docs → Prop} (hi : inv docs)
    (hs : ∀ found, docs collection key = some found →
      post { value := found.value, version := found.version, flags := found.flags } docs)
    (hn : docs collection key = none → err .notFound docs) :
    (Document.get collection key).Upholds maxSize inv post err docs := by
  apply upholds_expectSuccess
  intro version
  rw [Docs.answerWithin_eq_self (.inr ⟨key, rfl⟩), Docs.answerWithin_of_le (Nat.zero_le _)]
  refine ⟨hi, ?_⟩
  obtain hk | ⟨found, hk⟩ := Option.eq_none_or_eq_some (docs collection key)
  · simp only [Docs.answer, hk]
    exact hn hk
  · simp only [Docs.answer, hk]
    exact hs found hk

theorem upholds_insert {post : UInt64 → Docs → Prop} (hi : inv docs)
    (hs : docs collection key = none → value.length ≤ maxSize → ∀ version after,
      docs.Put collection key value after → inv after ∧ post version after)
    (he : docs collection key ≠ none → value.length ≤ maxSize → err .alreadyExists docs)
    (hb : maxSize < value.length → err .fileTooLarge docs) :
    (Document.insert collection key value).Upholds maxSize inv post err docs := by
  unfold Document.insert
  refine upholds_bind.mpr (upholds_expectSuccess fun version => ?_)
  by_cases hl : value.length ≤ maxSize
  · rw [Docs.answerWithin_of_le hl]
    simp only [Docs.answer]
    by_cases hk : (docs collection key).isSome
    · simp only [hk, ite_true]
      exact ⟨hi, he (Option.isSome_iff_ne_none.mp hk) hl⟩
    · simp only [hk, Bool.false_eq_true, ite_false]
      exact hs (by simpa using hk) hl version _ ⟨_, _, rfl⟩
  · rw [Docs.answerWithin_of_lt (Nat.not_le.mp hl)]
    exact ⟨hi, hb (Nat.not_le.mp hl)⟩

-- A replacement that carries the version of the document.
theorem upholds_replace {post : UInt64 → Docs → Prop} {found : Document}
    (hk : docs collection key = some found) (hi : inv docs)
    (hs : value.length ≤ maxSize → ∀ version after, docs.Put collection key value after →
      inv after ∧ post version after)
    (hb : maxSize < value.length → err .fileTooLarge docs) :
    (Document.replace collection key value (some found.version)).Upholds maxSize inv post err
      docs := by
  unfold Document.replace
  refine upholds_bind.mpr (upholds_expectSuccess fun version => ?_)
  by_cases hl : value.length ≤ maxSize
  · have ha : docs.answerWithin maxSize version collection
        (.replace key value (some found.version)) =
        ({ version }, docs.set collection key (some ⟨value, version, found.flags⟩)) := by
      rw [Docs.answerWithin_of_le hl]
      simp [Docs.answer, hk]
    rw [ha]
    exact hs hl version _ ⟨_, _, rfl⟩
  · rw [Docs.answerWithin_of_lt (Nat.not_le.mp hl)]
    exact ⟨hi, hb (Nat.not_le.mp hl)⟩

theorem upholds_remove {post : Unit → Docs → Prop} (hi : inv docs)
    (hs : docs collection key ≠ none → inv (docs.set collection key none) ∧
      post () (docs.set collection key none))
    (hn : docs collection key = none → err .notFound docs) :
    (Document.remove collection key).Upholds maxSize inv post err docs := by
  unfold Document.remove
  refine upholds_bind.mpr (upholds_expectSuccess fun version => ?_)
  rw [Docs.answerWithin_of_le (Nat.zero_le _)]
  obtain hk | ⟨found, hk⟩ := Option.eq_none_or_eq_some (docs collection key)
  · simp only [Docs.answer, hk]
    exact ⟨hi, hn hk⟩
  · simp only [Docs.answer, hk]
    exact hs (by rw [hk]; exact Option.some_ne_none _)

theorem upholds_stored {post : Bool → Docs → Prop} {stale : FsError → Bool} {write : Call UInt64}
    (h : write.Upholds maxSize inv (fun _ => post true)
      (fun error after => if stale error then post false after else err error after) docs) :
    (Document.stored stale write).Upholds maxSize inv post err docs := by
  unfold Document.stored
  rw [upholds_bind, upholds_attempt]
  refine h.mono (fun _ _ hp => hp) fun error after he => ?_
  dsimp only
  rw [upholds_bind, upholds_check]
  exact he

end Call

end DocTree
