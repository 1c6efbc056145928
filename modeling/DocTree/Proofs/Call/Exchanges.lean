import DocTree.Proofs.Call.Only
import DocTree.Proofs.Call.Revision

namespace DocTree

structure Exchange where
  collection : Collection
  request : Request
  reply : Reply
  deriving DecidableEq

namespace Call

variable {α β σ : Type}

-- What passes between a call and a store while the call runs, the first exchange first.
def exchanges (backend : Backend σ) : Call α → σ → List Exchange
  | done _, _ => []
  | fail _, _ => []
  | crash, _ => []
  | submit collection request next, state =>
    let (reply, state) := backend collection request state
    ⟨collection, request, reply⟩ :: (next reply).exchanges backend state

-- Whatever the replies, each request is `allowed` right after the exchange before it; `last` is the
-- one before the first request.
def OnlyAfter (allowed : Option Exchange → Collection → Request → Prop) :
    Call α → Option Exchange → Prop
  | done _, _ => True
  | fail _, _ => True
  | crash, _ => False
  | submit collection request next, last =>
    allowed last collection request ∧
      ∀ reply, (next reply).OnlyAfter allowed (some ⟨collection, request, reply⟩)

variable {backend : Backend σ} {state : σ} {call : Call α} {last : Option Exchange}
  {exchange : Exchange}

theorem Only.of_mem_exchanges {allowed : Collection → Request → Prop} (h : call.Only allowed)
    (he : exchange ∈ call.exchanges backend state) :
    allowed exchange.collection exchange.request := by
  induction call generalizing state with
  | done value => cases he
  | fail error => cases he
  | crash => cases he
  | submit collection request next ih =>
    rcases List.mem_cons.mp he with rfl | hr
    · exact h.1
    · exact ih _ (h.2 _) hr

theorem mem_exchanges_bind {next : α → Call β} (he : exchange ∈ call.exchanges backend state) :
    exchange ∈ (call >>= next).exchanges backend state := by
  induction call generalizing state with
  | done value => cases he
  | fail error => cases he
  | crash => cases he
  | submit collection request rest ih =>
    rcases List.mem_cons.mp he with rfl | hr
    · exact List.mem_cons_self ..
    · exact List.mem_cons_of_mem _ (ih _ hr)

-- What comes after a call that goes through follows what passed during it.
theorem mem_exchanges_bind_of_run {next : α → Call β} {value : α} {later : σ}
    (hr : call.run backend state = (.done value, later))
    (he : exchange ∈ (next value).exchanges backend later) :
    exchange ∈ (call >>= next).exchanges backend state := by
  induction call generalizing state with
  | done found =>
    cases hr
    exact he
  | fail error => cases hr
  | crash => cases hr
  | submit collection request rest ih => exact List.mem_cons_of_mem _ (ih _ hr)

variable {allowed : Option Exchange → Collection → Request → Prop}

theorem OnlyAfter.of_exchanges (h : call.OnlyAfter allowed last) {before rest : List Exchange}
    (he : call.exchanges backend state = before ++ exchange :: rest) :
    allowed (before.getLast?.or last) exchange.collection exchange.request := by
  induction call generalizing state last before with
  | done value => exact absurd he (by simp [exchanges])
  | fail error => exact absurd he (by simp [exchanges])
  | crash => exact h.elim
  | submit collection request next ih =>
    cases before with
    | nil =>
      obtain ⟨rfl, -⟩ := List.cons.inj he
      exact h.1
    | cons first before =>
      obtain ⟨rfl, hr⟩ := List.cons.inj he
      have hlast := ih _ (h.2 _) hr
      rw [List.getLast?_cons]
      cases hb : before.getLast? with
      | none => rwa [hb] at hlast
      | some found => rwa [hb] at hlast

theorem Only.onlyAfter {plain : Collection → Request → Prop} (h : call.Only plain)
    (hp : ∀ last collection request, plain collection request → allowed last collection request) :
    call.OnlyAfter allowed last := by
  induction call generalizing last with
  | done value => trivial
  | fail error => trivial
  | crash => exact h
  | submit collection request next ih =>
    exact ⟨hp _ _ _ h.1, fun reply => ih reply (h.2 reply)⟩

theorem OnlyAfter.bind {next : α → Call β} (h : call.OnlyAfter allowed last)
    (hn : ∀ value last, (next value).OnlyAfter allowed last) :
    (call >>= next).OnlyAfter allowed last := by
  induction call generalizing last with
  | done value => exact hn value last
  | fail error => trivial
  | crash => exact h
  | submit collection request rest ih => exact ⟨h.1, fun reply => ih reply (h.2 reply)⟩

theorem onlyAfter_retry {once : Nat → Call (Option α)}
    (h : ∀ tried last, (once tried).OnlyAfter allowed last) (attempts : Nat) :
    (retry once attempts).OnlyAfter allowed last := by
  induction attempts generalizing once last with
  | zero => trivial
  | succ attempts ih =>
    refine (h 0 last).bind fun answer last => ?_
    cases answer with
    | none => exact ih fun tried => h (tried + 1)
    | some value => trivial

theorem onlyAfter_check_bind {p : Prop} [Decidable p] {error : FsError} {next : Unit → Call α}
    (h : p → (next ()).OnlyAfter allowed last) :
    (check p error >>= next).OnlyAfter allowed last := by
  unfold check
  split
  · next hp => exact h hp
  · trivial

theorem onlyAfter_ofExcept_bind {value : Except FsError β} {next : β → Call α}
    (h : ∀ value, (next value).OnlyAfter allowed last) :
    (ofExcept value >>= next).OnlyAfter allowed last := by
  cases value with
  | ok value => exact h value
  | error error => trivial

-- An attempt to change a record writes right after an answer to its read, and with what that told.
theorem onlyAfter_attempt_ofRecord {collection : Collection} {key : String}
    {decode : Bytes → Except FsError α} {change : Nat → α → α} {encode : α → Bytes} {tried : Nat}
    (hget : allowed last collection (.get key))
    (hwrite : ∀ response record, response.status = .success → decode response.value = .ok record →
      allowed (some ⟨collection, .get key, .answered response⟩) collection
        (.replace key (encode (change tried record)) (some response.version))) :
    ((Revision.ofRecord collection key decode change encode).attempt tried).OnlyAfter allowed
      last := by
  unfold Revision.attempt
  rw [Revision.bind_execute]
  refine ⟨hget, fun reply => ?_⟩
  cases reply with
  | refused reason => trivial
  | dropped => trivial
  | answered response =>
    dsimp only
    split
    · next hs =>
      unfold Revision.act
      cases hd : decode response.value with
      | error error => simp [Revision.ofRecord, hd, OnlyAfter]
      | ok record =>
        simp only [Revision.ofRecord, hd, Option.map_some]
        unfold Revision.store
        rw [Revision.bind_execute]
        refine ⟨hwrite response record hs hd, fun reply => ?_⟩
        cases reply with
        | refused reason => trivial
        | dropped => trivial
        | answered response =>
          dsimp only
          split
          · trivial
          · split <;> trivial
    · split <;> trivial

end Call

end DocTree
