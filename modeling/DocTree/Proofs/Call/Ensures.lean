import DocTree.Proofs.Store.Fates

namespace DocTree

-- An outcome that is no crash, with `post` of a value and `err` of an error.
def Outcome.Meets {α : Type} (post : α → Docs → Prop) (err : FsError → Docs → Prop) :
    Outcome α → Docs → Prop
  | done value => post value
  | failed error => err error
  | crashed => fun _ => False

namespace Outcome.Meets

variable {α : Type} {outcome : Outcome α} {docs : Docs}

-- What holds whether or not a call succeeds.
theorem docs_left {p : Docs → Prop} (h : outcome.Meets (fun _ => p) (fun _ => p) docs) :
    p docs := by
  cases outcome with
  | done value => exact h
  | failed error => exact h
  | crashed => exact h.elim

theorem exists_done {post : α → Docs → Prop}
    (h : outcome.Meets post (fun _ _ => False) docs) :
    ∃ value, outcome = .done value ∧ post value docs := by
  cases outcome with
  | done value => exact ⟨value, rfl, h⟩
  | failed error => exact h.elim
  | crashed => exact h.elim

end Outcome.Meets

namespace Call

variable {α β : Type} {faulty : Request → Prop} {post mid : α → Docs → Prop}
  {err : FsError → Docs → Prop} {docs : Docs}

-- Whatever is done with its requests, the call ends in a value that meets `post` or in an error
-- that meets `err`, each with the documents that the call leaves.
def Ensures (faulty : Request → Prop) :
    Call α → (α → Docs → Prop) → (FsError → Docs → Prop) → Docs → Prop
  | done value, post, _, docs => post value docs
  | fail error, _, err, docs => err error docs
  | crash, _, _, _ => False
  | submit collection request next, post, err, docs =>
    ∀ reply after, docs.Serves faulty collection request reply after →
      (next reply).Ensures faulty post err after

theorem Ensures.run {σ : Type} {backend : Backend σ} {view : σ → Docs} {call : Call α}
    (hb : backend.Serves view faulty) {state : σ}
    (h : call.Ensures faulty post err (view state)) :
    (call.run backend state).1.Meets post err (view (call.run backend state).2) := by
  induction call generalizing state with
  | done value => exact h
  | fail error => exact h
  | crash => exact h
  | submit collection request next ih =>
    simp only [Call.run]
    exact ih _ (h _ _ (hb collection request state))

-- A call that can end in no error gives a value on a store that answers every request.
theorem Ensures.exists_run {call : Call α} {image : Image} {scope : String}
    (h : call.Ensures (fun _ => False) post err (image.docs scope))
    (he : ∀ error after, ¬err error after) :
    ∃ value after, call.run (Image.unlimited scope) image = (.done value, after) ∧
      post value (after.docs scope) := by
  have hrun := h.run (Image.unlimited_serves scope)
  generalize call.run (Image.unlimited scope) image = result at hrun
  obtain ⟨outcome, after⟩ := result
  cases outcome with
  | done value => exact ⟨value, after, rfl, hrun⟩
  | failed error => exact absurd hrun (he error _)
  | crashed => exact hrun.elim

theorem Ensures.mono {call : Call α} {weaker : α → Docs → Prop}
    {laxer : FsError → Docs → Prop} (h : call.Ensures faulty post err docs)
    (hp : ∀ value after, post value after → weaker value after)
    (he : ∀ error after, err error after → laxer error after) :
    call.Ensures faulty weaker laxer docs := by
  induction call generalizing docs with
  | done value => exact hp _ _ h
  | fail error => exact he _ _ h
  | crash => exact h
  | submit collection request next ih => exact fun reply after hs => ih reply (h reply after hs)

theorem Ensures.and {call : Call α} {other : α → Docs → Prop} {alarm : FsError → Docs → Prop}
    (h : call.Ensures faulty post err docs) (ho : call.Ensures faulty other alarm docs) :
    call.Ensures faulty (fun value after => post value after ∧ other value after)
      (fun error after => err error after ∧ alarm error after) docs := by
  induction call generalizing docs with
  | done value => exact ⟨h, ho⟩
  | fail error => exact ⟨h, ho⟩
  | crash => exact h
  | submit collection request next ih =>
    exact fun reply after hs => ih reply (h reply after hs) (ho reply after hs)

theorem ofOption_some_bind {value : α} {next : α → Call β} :
    (ofOption (some value) >>= next) = next value := rfl

theorem ofExcept_ok_bind {value : α} {next : α → Call β} :
    (ofExcept (.ok value) >>= next) = next value := rfl

theorem ofExcept_error_bind {error : FsError} {next : α → Call β} :
    (ofExcept (.error error) >>= next) = fail error := rfl

theorem ensures_bind {call : Call α} {next : α → Call β} {post : β → Docs → Prop} :
    (call >>= next).Ensures faulty post err docs ↔
      call.Ensures faulty (fun value => (next value).Ensures faulty post err) err docs := by
  induction call generalizing docs with
  | done value => exact Iff.rfl
  | fail error => exact Iff.rfl
  | crash => exact Iff.rfl
  | submit collection request rest ih =>
    exact forall_congr' fun reply => forall_congr' fun after => forall_congr' fun _ => ih reply

theorem Ensures.bind {call : Call α} {next : α → Call β} {post : β → Docs → Prop}
    {alarm : FsError → Docs → Prop} (h : call.Ensures faulty mid alarm docs)
    (hn : ∀ value after, mid value after → (next value).Ensures faulty post err after)
    (he : ∀ error after, alarm error after → err error after) :
    (call >>= next).Ensures faulty post err docs :=
  ensures_bind.mpr (h.mono hn he)

@[simp] theorem ensures_pure {value : α} :
    (pure value : Call α).Ensures faulty post err docs ↔ post value docs := Iff.rfl

@[simp] theorem ensures_map {call : Call α} {f : α → β} {post : β → Docs → Prop} :
    (f <$> call).Ensures faulty post err docs ↔
      call.Ensures faulty (fun value => post (f value)) err docs := ensures_bind

@[simp] theorem ensures_check {p : Prop} [Decidable p] {error : FsError}
    {post : Unit → Docs → Prop} :
    (check p error).Ensures faulty post err docs ↔ if p then post () docs else err error docs := by
  unfold check
  split <;> exact Iff.rfl

@[simp] theorem ensures_attempt {call : Call α} {post : Except FsError α → Docs → Prop} :
    call.attempt.Ensures faulty post err docs ↔
      call.Ensures faulty (fun value => post (.ok value)) (fun error => post (.error error))
        docs := by
  induction call generalizing docs with
  | done value => exact Iff.rfl
  | fail error => exact Iff.rfl
  | crash => exact Iff.rfl
  | submit collection request rest ih =>
    exact forall_congr' fun reply => forall_congr' fun after => forall_congr' fun _ => ih reply

@[simp] theorem ensures_bestEffort {call : Call α} {post : Unit → Docs → Prop} :
    (bestEffort call).Ensures faulty post err docs ↔
      call.Ensures faulty (fun _ => post ()) (fun _ => post ()) docs := by
  unfold bestEffort
  rw [ensures_bind, ensures_attempt]
  exact Iff.rfl

-- An attempt that answers a value ends the repetition.
theorem ensures_retry {once : Nat → Call (Option α)} {attempts : Nat}
    (h : (once 0).Ensures faulty
      (fun answer after => ∃ value, answer = some value ∧ post value after) err docs) :
    (retry once (attempts + 1)).Ensures faulty post err docs := by
  unfold retry
  apply h.bind
  · intro answer after ha
    obtain ⟨value, rfl, hv⟩ := ha
    exact hv
  · exact fun _ _ he => he

-- Whatever the replies, the call makes `allowed` requests only, and it does not crash.
def Only (allowed : Collection → Request → Prop) : Call α → Prop
  | done _ => True
  | fail _ => True
  | crash => False
  | submit collection request next =>
    allowed collection request ∧ ∀ reply, (next reply).Only allowed

variable {allowed : Collection → Request → Prop}

theorem only_bind {call : Call α} {next : α → Call β} (h : call.Only allowed)
    (hn : ∀ value, (next value).Only allowed) : (call >>= next).Only allowed := by
  induction call with
  | done value => exact hn value
  | fail error => trivial
  | crash => exact h
  | submit collection request rest ih => exact ⟨h.1, fun reply => ih reply (h.2 reply)⟩

theorem only_attempt {call : Call α} (h : call.Only allowed) : call.attempt.Only allowed := by
  induction call with
  | done value => trivial
  | fail error => trivial
  | crash => exact h
  | submit collection request rest ih => exact ⟨h.1, fun reply => ih reply (h.2 reply)⟩

theorem only_check {p : Prop} [Decidable p] {error : FsError} : (check p error).Only allowed := by
  unfold check
  split <;> trivial

theorem only_retry {once : Nat → Call (Option α)} (h : ∀ tried, (once tried).Only allowed)
    (attempts : Nat) : (retry once attempts).Only allowed := by
  induction attempts generalizing once with
  | zero => trivial
  | succ attempts ih =>
    refine only_bind (h 0) fun answer => ?_
    cases answer with
    | none => exact ih fun tried => h (tried + 1)
    | some value => trivial

end Call

-- Documents that no `allowed` request names are the same.
def Docs.SameBut (allowed : Collection → Request → Prop) (docs after : Docs) : Prop :=
  ∀ collection key, (∀ request, allowed collection request → request.key ≠ key) →
    after collection key = docs collection key

namespace Docs

variable {allowed : Collection → Request → Prop} {docs after later : Docs}

theorem SameBut.refl : docs.SameBut allowed docs := fun _ _ _ => rfl

theorem SameBut.trans (h : docs.SameBut allowed after) (hl : after.SameBut allowed later) :
    docs.SameBut allowed later :=
  fun collection key hk => (hl collection key hk).trans (h collection key hk)

theorem SameBut.value (h : docs.SameBut allowed after) {collection : Collection} {key : String}
    (hk : ∀ request, allowed collection request → request.key ≠ key) :
    after.value collection key = docs.value collection key := by
  unfold Docs.value
  rw [h collection key hk]

theorem Serves.sameBut {faulty : Request → Prop} {collection : Collection} {request : Request}
    {reply : Reply} (hs : docs.Serves faulty collection request reply after)
    (ha : allowed collection request) : docs.SameBut allowed after := by
  intro other key hk
  have hn : ¬(other = collection ∧ key = request.key) := by
    intro hc
    obtain ⟨rfl, rfl⟩ := hc
    exact hk request ha rfl
  cases hs with
  | answered version => exact answer_of_ne hn
  | refused hf reason => rfl
  | dropped hf => rfl
  | lost hf version => exact answer_of_ne hn

end Docs

namespace Call

variable {α : Type} {faulty : Request → Prop} {post : α → Docs → Prop}
  {err : FsError → Docs → Prop} {docs : Docs} {allowed : Collection → Request → Prop}

theorem Only.ensures {call : Call α} (h : call.Only allowed) :
    call.Ensures faulty (fun _ => docs.SameBut allowed) (fun _ => docs.SameBut allowed) docs := by
  induction call generalizing docs with
  | done value => exact .refl
  | fail error => exact .refl
  | crash => exact h
  | submit collection request next ih =>
    intro reply after hs
    have hr := hs.sameBut h.1
    exact (ih reply (h.2 reply)).mono (fun _ _ hn => hr.trans hn) fun _ _ hn => hr.trans hn

-- What a call ensures, and that it leaves the rest alone.
theorem Ensures.frame {call : Call α} (h : call.Ensures faulty post err docs)
    (ho : call.Only allowed) :
    call.Ensures faulty (fun value after => post value after ∧ docs.SameBut allowed after)
      (fun error after => err error after ∧ docs.SameBut allowed after) docs :=
  h.and ho.ensures

end Call

end DocTree
