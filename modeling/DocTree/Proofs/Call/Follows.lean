import DocTree.Proofs.Call.Ensures
import DocTree.Proofs.Run.Contention

namespace DocTree

namespace Recorded

-- A later state of a store, while the versions last.
structure Precedes (header : Header) (store later : Recorded) : Prop where
  reached : later.Reached header
  log : store.log <:+ later.log
  fresh : later.Fresh

-- What a request meets that reaches the store.
def event (store : Recorded) (asked : Asked) : Event where
  asked
  response := some (store.answer asked)
  before := store.image.documentAt? asked.address
  after := (store.ask asked).image.documentAt? asked.address

variable {store : Recorded} {asked : Asked}

theorem carriedOut_event : (store.event asked).carriedOut =
    (asked.request.writes && decide ((store.answer asked).status = .success)) := rfl

-- A request that is not carried out leaves every document as it is.
theorem documentAt?_ask_of_not_carriedOut (h : (store.event asked).carriedOut = false)
    (address : Address) :
    (store.ask asked).image.documentAt? address = store.image.documentAt? address := by
  rw [carriedOut_event, Bool.and_eq_false_iff] at h
  have hsame : (store.answer asked).status ≠ .success ∨ ∃ key, asked.request = .get key := by
    rcases h with hw | hs
    · right
      cases hr : asked.request with
      | get key => exact ⟨key, rfl⟩
      | _ => rw [hr] at hw; cases hw
    · exact .inl (of_decide_eq_false hs)
  exact congrFun (congrFun (docs_ask_eq_self hsame address.scope) _) _

-- A write that is carried out leaves its value, a removal nothing.
theorem value_of_carriedOut (h : (store.event asked).carriedOut = true) :
    (store.event asked).after.map Document.value = asked.request.value? := by
  rw [carriedOut_event, Bool.and_eq_true_iff, decide_eq_true_iff] at h
  exact value_ask_of_success h.1 h.2

end Recorded

-- A store that clients share, and what one of them relies on and keeps to. Both depend on the
-- requests that it has made, the last one first.
structure Contract where
  header : Header
  maxSize : Nat
  scope : String
  -- What the others may make of the store before the next request.
  rely : List Event → Recorded → Recorded → Prop
  -- What the next request may come to.
  safe : List Event → Event → Prop

namespace Contract

def asked (contract : Contract) (collection : Collection) (request : Request) : Asked :=
  ⟨contract.maxSize, contract.scope, collection, request⟩

-- What the client is answered, what it notes of that, and the store that it leaves.
def answer (contract : Contract) (store : Recorded) (collection : Collection) (request : Request) :
    Response :=
  store.answer (contract.asked collection request)

def event (contract : Contract) (store : Recorded) (collection : Collection) (request : Request) :
    Event :=
  store.event (contract.asked collection request)

def next (contract : Contract) (store : Recorded) (collection : Collection) (request : Request) :
    Recorded :=
  store.ask (contract.asked collection request)

-- A later state of the store that a client may find.
structure Allows (contract : Contract) (events : List Event) (store later : Recorded) : Prop where
  precedes : store.Precedes contract.header later
  rely : contract.rely events store later

end Contract

namespace Call

variable {α β : Type} {contract : Contract} {post mid : α → List Event → Recorded → Prop}
  {err : FsError → List Event → Recorded → Prop} {events : List Event} {store : Recorded}

-- Whatever the others make of the store within the contract, each request keeps to it too, and the
-- call ends in a value that meets `post` or in an error that meets `err`.
def Follows (contract : Contract) : Call α → (α → List Event → Recorded → Prop) →
    (FsError → List Event → Recorded → Prop) → List Event → Recorded → Prop
  | done value, post, _, events, store => post value events store
  | fail error, _, err, events, store => err error events store
  | crash, _, _, _, _ => False
  | submit collection request next, post, err, events, store =>
    ∀ later, contract.Allows events store later →
      contract.safe events (contract.event later collection request) ∧
        (next (.answered (contract.answer later collection request))).Follows contract post
          err (contract.event later collection request :: events)
          (contract.next later collection request)

theorem Follows.mono {call : Call α} {weaker : α → List Event → Recorded → Prop}
    {laxer : FsError → List Event → Recorded → Prop}
    (h : call.Follows contract post err events store)
    (hp : ∀ value events store, post value events store → weaker value events store)
    (he : ∀ error events store, err error events store → laxer error events store) :
    call.Follows contract weaker laxer events store := by
  induction call generalizing events store with
  | done value => exact hp _ _ _ h
  | fail error => exact he _ _ _ h
  | crash => exact h
  | submit collection request next ih =>
    exact fun later ha => (h later ha).imp_right (ih _)

theorem follows_bind {call : Call α} {next : α → Call β} {post : β → List Event → Recorded → Prop} :
    (call >>= next).Follows contract post err events store ↔
      call.Follows contract (fun value => (next value).Follows contract post err) err events
        store := by
  induction call generalizing events store with
  | done value => exact Iff.rfl
  | fail error => exact Iff.rfl
  | crash => exact Iff.rfl
  | submit collection request rest ih =>
    exact forall_congr' fun later => forall_congr' fun _ => and_congr_right fun _ => ih _

theorem Follows.bind {call : Call α} {next : α → Call β} {post : β → List Event → Recorded → Prop}
    {alarm : FsError → List Event → Recorded → Prop}
    (h : call.Follows contract mid alarm events store)
    (hn : ∀ value events store, mid value events store →
      (next value).Follows contract post err events store)
    (he : ∀ error events store, alarm error events store → err error events store) :
    (call >>= next).Follows contract post err events store :=
  follows_bind.mpr (h.mono hn he)

theorem follows_map {call : Call α} {f : α → β} {post : β → List Event → Recorded → Prop} :
    (f <$> call).Follows contract post err events store ↔
      call.Follows contract (fun value => post (f value)) err events store := follows_bind

theorem follows_check {p : Prop} [Decidable p] {error : FsError}
    {post : Unit → List Event → Recorded → Prop} :
    (check p error).Follows contract post err events store ↔
      if p then post () events store else err error events store := by
  unfold check
  split <;> exact Iff.rfl

theorem follows_attempt {call : Call α} {post : Except FsError α → List Event → Recorded → Prop} :
    call.attempt.Follows contract post err events store ↔
      call.Follows contract (fun value => post (.ok value)) (fun error => post (.error error))
        events store := by
  induction call generalizing events store with
  | done value => exact Iff.rfl
  | fail error => exact Iff.rfl
  | crash => exact Iff.rfl
  | submit collection request rest ih =>
    exact forall_congr' fun later => forall_congr' fun _ => and_congr_right fun _ => ih _

theorem follows_bestEffort {call : Call α} {post : Unit → List Event → Recorded → Prop} :
    (bestEffort call).Follows contract post err events store ↔
      call.Follows contract (fun _ => post ()) (fun _ => post ()) events store := by
  unfold bestEffort
  rw [follows_bind, follows_attempt]
  exact Iff.rfl

-- A call that makes certain requests only follows what each of them keeps.
theorem Only.follows {call : Call α} {allowed : Collection → Request → Prop}
    (h : call.Only allowed) (inv : List Event → Recorded → Prop)
    (hs : ∀ events store later collection request, allowed collection request →
      inv events store → contract.Allows events store later →
      contract.safe events (contract.event later collection request) ∧
        inv (contract.event later collection request :: events)
          (contract.next later collection request)) (hi : inv events store) :
    call.Follows contract (fun _ => inv) (fun _ => inv) events store := by
  induction call generalizing events store with
  | done value => exact hi
  | fail error => exact hi
  | crash => exact h
  | submit collection request next ih =>
    intro later ha
    obtain ⟨hsafe, hkept⟩ := hs events store later collection request h.1 hi ha
    exact ⟨hsafe, ih _ (h.2 _) hkept⟩

def Keeps (contract : Contract) (call : Call α) (events : List Event) (store : Recorded) : Prop :=
  call.Follows contract (fun _ _ _ => True) (fun _ _ _ => True) events store

theorem Follows.keeps {call : Call α} (h : call.Follows contract post err events store) :
    call.Keeps contract events store :=
  h.mono (fun _ _ _ _ => trivial) fun _ _ _ _ => trivial

theorem Follows.bind_keeps {call : Call α} {next : α → Call β}
    (h : call.Follows contract mid err events store)
    (hn : ∀ value events store, mid value events store → (next value).Keeps contract events store) :
    (call >>= next).Keeps contract events store :=
  h.bind hn fun _ _ _ _ => trivial

theorem Keeps.bind {call : Call α} {next : α → Call β} (h : call.Keeps contract events store)
    (hn : ∀ value events store, (next value).Keeps contract events store) :
    (call >>= next).Keeps contract events store :=
  Follows.bind_keeps h fun value events store _ => hn value events store

theorem Keeps.map {call : Call α} {f : α → β} (h : call.Keeps contract events store) :
    (f <$> call).Keeps contract events store := h.bind fun _ _ _ => trivial

theorem Keeps.bestEffort {call : Call α} (h : call.Keeps contract events store) :
    (bestEffort call).Keeps contract events store := follows_bestEffort.mpr h

theorem Only.keeps {call : Call α} {allowed : Collection → Request → Prop} (h : call.Only allowed)
    (hs : ∀ events store collection request, allowed collection request →
      contract.safe events (contract.event store collection request)) :
    call.Keeps contract events store :=
  h.follows (fun _ _ => True) (fun _ _ _ _ _ hr _ _ => ⟨hs _ _ _ _ hr, trivial⟩) trivial

variable {collection : Collection} {key : String} {request : Request}

theorem follows_execute {post : Response → List Event → Recorded → Prop}
    (h : ∀ later, contract.Allows events store later →
      contract.safe events (contract.event later collection request) ∧
        post (contract.answer later collection request)
          (contract.event later collection request :: events)
          (contract.next later collection request)) :
    (Document.execute collection request).Follows contract post err events store := h

theorem follows_expectSuccess {post : Response → List Event → Recorded → Prop}
    (h : ∀ later, contract.Allows events store later →
      contract.safe events (contract.event later collection request) ∧
        if (contract.answer later collection request).status = .success then
          post (contract.answer later collection request)
            (contract.event later collection request :: events)
            (contract.next later collection request)
        else
          err (contract.answer later collection request).status.error
            (contract.event later collection request :: events)
            (contract.next later collection request)) :
    (Document.expectSuccess collection request).Follows contract post err events store := by
  unfold Document.expectSuccess
  refine follows_bind.mpr (follows_execute fun later ha => (h later ha).imp_right fun hpost => ?_)
  exact follows_bind.mpr (follows_check.mpr hpost)

theorem follows_get {post : Response → List Event → Recorded → Prop}
    (h : ∀ later, contract.Allows events store later →
      contract.safe events (contract.event later collection (.get key)) ∧
        (later.image.docs contract.scope collection key).elim
          (err .notFound (contract.event later collection (.get key) :: events)
            (contract.next later collection (.get key)))
          fun found => post { value := found.value, version := found.version, flags := found.flags }
            (contract.event later collection (.get key) :: events)
            (contract.next later collection (.get key))) :
    (Document.get collection key).Follows contract post err events store := by
  refine follows_expectSuccess fun later ha => (h later ha).imp_right fun hpost => ?_
  unfold Contract.answer Contract.asked
  rw [Recorded.answer_get]
  change Option.elim (later.image.documentAt? ⟨contract.scope, collection, key⟩) _ _ at hpost
  cases hd : later.image.documentAt? ⟨contract.scope, collection, key⟩ with
  | none =>
    rw [hd] at hpost
    exact hpost
  | some found =>
    rw [hd] at hpost
    exact hpost

theorem follows_stored {post : Bool → List Event → Recorded → Prop} {stale : FsError → Bool}
    {write : Call UInt64}
    (h : write.Follows contract (fun _ => post true) (fun error events store =>
      if stale error then post false events store else err error events store) events store) :
    (Document.stored stale write).Follows contract post err events store := by
  unfold Document.stored
  rw [follows_bind, follows_attempt]
  refine h.mono (fun _ _ _ hp => hp) fun error events store he => ?_
  dsimp only
  rw [follows_bind, follows_check]
  exact he

end Call

-- A record that was found, changed and stored by one request.
structure Event.Revises {α : Type} (event : Event) (decode : Bytes → Except FsError α)
    (encode : α → Bytes) (old new : α) : Prop where
  carriedOut : event.carriedOut = true
  before : ∃ found, event.before = some found ∧ decode found.value = .ok old
  after : event.after.map Document.value = some (encode new)

namespace Revision

open Call

variable {α : Type} {contract : Contract} {collection : Collection} {key : String}
  {decode : Bytes → Except FsError α} {change : Nat → α → α} {encode : α → Bytes}
  {post : α → List Event → Recorded → Prop} {err : FsError → List Event → Recorded → Prop}
  {events : List Event} {store : Recorded}

-- The version is the one that was read, so the record is.
theorem revises_of_success {read : Recorded} {found : Document} {record new : α}
    (hread : read.Reached contract.header) (hp : read.Precedes contract.header store)
    (hd : read.image.docs contract.scope collection key = some found)
    (hr : decode found.value = .ok record)
    (hs : (contract.answer store collection
      (.replace key (encode new) (some found.version))).status = .success) :
    (contract.event store collection (.replace key (encode new) (some found.version))).Revises
      decode encode record new := by
  let revision := ofRecord collection key decode (fun _ => id) encode
  have hwrite : (store.answer ⟨contract.maxSize, contract.scope, revision.collection,
      revision.write (some found.version) (encode new)⟩).status = .success := hs
  obtain ⟨hversion, hafter⟩ := Recorded.of_write_success hwrite
  have hvalue := hp.fresh.value_eq ⟨contract.scope, collection, key⟩ hread hp.reached hp.log
    (hversion.trans (congrArg (Option.map Document.version) hd).symm)
  rw [show read.image.documentAt? ⟨contract.scope, collection, key⟩ = some found from hd,
    Option.map_some] at hvalue
  obtain ⟨current, hc, hv⟩ := Option.map_eq_some_iff.mp hvalue
  exact ⟨Bool.and_eq_true_iff.mpr ⟨rfl, decide_eq_true hs⟩, ⟨current, hc, hv ▸ hr⟩, hafter⟩

variable (inv : List Event → Recorded → Prop)
  (hrely : ∀ events store later, inv events store → contract.Allows events store later →
    inv events later)
  (hlook : ∀ events store request, request.key = key → inv events store →
    (contract.event store collection request).carriedOut = false →
    contract.safe events (contract.event store collection request) ∧
      inv (contract.event store collection request :: events)
        (contract.next store collection request))
  (hstored : ∀ tried events store version old, inv events store →
    (contract.event store collection (.replace key (encode (change tried old)) version)).Revises
      decode encode old (change tried old) →
    contract.safe events
      (contract.event store collection (.replace key (encode (change tried old)) version)) ∧
      post (change tried old)
        (contract.event store collection (.replace key (encode (change tried old)) version) ::
          events)
        (contract.next store collection (.replace key (encode (change tried old)) version)))
  (herr : ∀ error events store, inv events store → err error events store)

include hrely hlook hstored herr

-- One attempt stores the change, or leaves everything as it is.
theorem follows_attempt_ofRecord (hi : inv events store) :
    ((ofRecord collection key decode change encode).attempt 0).Follows contract
      (fun answer events store => answer.elim (inv events store) fun value =>
        post value events store) err events store := by
  rw [attempt_ofRecord]
  refine follows_bind.mpr (follows_get fun later ha => ?_)
  obtain ⟨hsafe, hinv⟩ := hlook events later (.get key) rfl (hrely _ _ _ hi ha) rfl
  refine ⟨hsafe, ?_⟩
  cases hd : later.image.docs contract.scope collection key with
  | none => exact herr _ _ _ hinv
  | some found =>
  rw [Option.elim_some]
  cases hr : decode found.value with
  | error error => exact herr _ _ _ hinv
  | ok record =>
  rw [ofExcept_ok_bind]
  refine follows_bind.mpr (follows_stored (follows_bind.mpr (follows_expectSuccess ?_)))
  intro last hlast
  have hlater := hrely _ _ _ hinv hlast
  by_cases hs : (contract.answer last collection
      (.replace key (encode (change 0 record)) (some found.version))).status = .success
  · -- The look itself has changed nothing, so the write names the version of what was found.
    have hsame : (contract.next later collection (.get key)).image.docs contract.scope collection
        key = some found := by
      rw [← hd]
      exact congrFun (congrFun (Recorded.docs_ask_eq_self (.inr ⟨key, rfl⟩) _) _) _
    have hrevises := revises_of_success (ha.precedes.reached.ask _) hlast.precedes hsame hr hs
    rw [if_pos hs]
    exact hstored 0 _ last _ record hlater hrevises
  · have hnot : (contract.event last collection
        (.replace key (encode (change 0 record)) (some found.version))).carriedOut = false :=
      Bool.and_eq_false_imp.mpr fun _ => decide_eq_false hs
    obtain ⟨hsafe, hinv⟩ := hlook _ last _ rfl hlater hnot
    refine ⟨hsafe, ?_⟩
    rw [if_neg hs]
    split
    · exact hinv
    · exact herr _ _ _ hinv

theorem follows_ofRecord (attempts : Nat) (hi : inv events store) :
    (Call.retry (ofRecord collection key decode change encode).attempt attempts).Follows contract
      post err events store := by
  induction attempts generalizing change events store with
  | zero => exact herr _ _ _ hi
  | succ attempts ih =>
    rw [retry_succ]
    refine (follows_attempt_ofRecord inv hrely hlook hstored herr hi).bind ?_ fun _ _ _ he => he
    intro answer events store ha
    cases answer with
    | none => exact ih (fun tried => hstored (tried + 1)) ha
    | some value => exact ha

end Revision

end DocTree
