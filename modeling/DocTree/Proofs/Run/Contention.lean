import DocTree.Proofs.Store.Shared

namespace DocTree

namespace Docs

variable {docs : Docs} {version : UInt64} {collection : Collection} {key : String} {value : Bytes}
  {request : Request}

theorem eq_none_of_insert_success
    (h : (docs.answer version collection (.insert key value)).1.status = .success) :
    docs collection key = none := by
  obtain hk | ⟨found, hk⟩ := Option.eq_none_or_eq_some (docs collection key)
  · exact hk
  · simp [answer, hk] at h

theorem version_of_replace_success {expected : UInt64}
    (h : (docs.answer version collection (.replace key value (some expected))).1.status =
      .success) :
    (docs collection key).map Document.version = some expected := by
  obtain hk | ⟨found, hk⟩ := Option.eq_none_or_eq_some (docs collection key)
  · simp [answer, hk] at h
  · by_cases he : expected = found.version
    · rw [hk, he, Option.map_some]
    · simp [answer, hk, he] at h

-- What is stored has the value of the request; nothing is left of what is removed.
theorem value_answer_of_success (hw : request.writes = true)
    (hs : (docs.answer version collection request).1.status = .success) :
    (docs.answer version collection request).2.value collection request.key = request.value? := by
  cases request with
  | get key => cases hw
  | insert key value =>
    have hk := eq_none_of_insert_success hs
    simp [answer, hk, value_set, Request.key, Request.value?]
  | replace key value expected =>
    obtain hk | ⟨found, hk⟩ := Option.eq_none_or_eq_some (docs collection key)
    · simp [answer, hk] at hs
    · by_cases he : expected.all (· = found.version)
      · simp [answer, hk, he, value_set, Request.key, Request.value?]
      · simp [answer, hk, he] at hs
  | remove key =>
    obtain hk | ⟨found, hk⟩ := Option.eq_none_or_eq_some (docs collection key)
    · simp [answer, hk] at hs
    · simp [answer, hk, value_set, Request.key, Request.value?]

end Docs

namespace Recorded

variable {store : Recorded} {maxSize : Nat} {scope : String} {collection : Collection}
  {key : String}

theorem answer_get : store.answer ⟨maxSize, scope, collection, .get key⟩ =
    match store.image.documentAt? ⟨scope, collection, key⟩ with
    | none => { status := .notFound }
    | some found => { value := found.value, version := found.version, flags := found.flags } := by
  rw [answer_eq, Docs.answerWithin_of_le (Nat.zero_le _)]
  change ((store.image.docs scope).answer _ collection (.get key)).1 =
    match store.image.docs scope collection key with
    | none => { status := .notFound }
    | some found => { value := found.value, version := found.version, flags := found.flags }
  obtain hk | ⟨found, hk⟩ := Option.eq_none_or_eq_some (store.image.docs scope collection key)
  · simp [Docs.answer, hk]
  · simp [Docs.answer, hk]

theorem value_ask_of_success {asked : Asked} (hw : asked.request.writes = true)
    (hs : (store.answer asked).status = .success) :
    ((store.ask asked).image.docs asked.scope).value asked.collection asked.request.key =
      asked.request.value? := by
  rw [docs_ask]
  rw [answer_eq] at hs
  by_cases hl : asked.request.size ≤ asked.maxSize
  · rw [Docs.answerWithin_of_le hl] at hs ⊢
    exact Docs.value_answer_of_success hw hs
  · rw [Docs.answerWithin_of_lt (Nat.not_le.mp hl)] at hs
    cases hs

-- A write that is carried out finds the version that it names, or no document if it names none.
theorem of_write_success {α : Type} {revision : Revision α} {version : Option UInt64}
    {value : Bytes}
    (h : (store.answer
      ⟨maxSize, scope, revision.collection, revision.write version value⟩).status = .success) :
    (store.image.docs scope revision.collection revision.key).map Document.version = version ∧
      ((store.ask ⟨maxSize, scope, revision.collection,
        revision.write version value⟩).image.docs scope).value revision.collection revision.key =
          some value := by
  constructor
  · rw [answer_eq] at h
    dsimp only at h
    by_cases hs : (revision.write version value).size ≤ maxSize
    · rw [Docs.answerWithin_of_le hs] at h
      cases version with
      | none => exact Option.map_eq_none_iff.mpr (Docs.eq_none_of_insert_success h)
      | some version => exact Docs.version_of_replace_success h
    · rw [Docs.answerWithin_of_lt (Nat.not_le.mp hs)] at h
      cases h
  · cases version with
    | none => exact value_ask_of_success rfl h
    | some version => exact value_ask_of_success rfl h

end Recorded

namespace Shared

variable {shared : Shared} {maxSize : Nat} {scope : String} {collection : Collection}
  {request : Request}

-- A request is answered as the store says, or does not reach it.
theorem run_execute (hl : shared.fates 0 ≠ .lost) :
    (Document.execute collection request).run (backend maxSize scope) shared =
        (.done (shared.found.answer ⟨maxSize, scope, collection, request⟩),
          shared.next ⟨maxSize, scope, collection, request⟩ true) ∨
      ∃ text, (Document.execute collection request).run (backend maxSize scope) shared =
        (.failed (.io text), shared.next ⟨maxSize, scope, collection, request⟩ false) := by
  simp only [Document.execute, Call.run, backend, reply]
  cases hf : shared.fates 0 with
  | answered => exact .inl rfl
  | refused reason => exact .inr ⟨_, rfl⟩
  | dropped => exact .inr ⟨_, rfl⟩
  | lost => exact absurd hf hl

end Shared

namespace Revision

variable {α : Type} {revision : Revision α} {call : Call α} {header : Header} {shared : Shared}
  {maxSize : Nat} {scope : String} {read : Option Document}

def address (revision : Revision α) (scope : String) : Address :=
  ⟨scope, revision.collection, revision.key⟩

-- The write was turned down because the document was no longer as it had been read.
def Rejected (revision : Revision α) (event : Event) : Prop :=
  ∃ response, event.response = some response ∧ response.status ∈ revision.stale

-- How a first attempt can end that found the value `read`, with the writes that it made.
inductive Attempted (revision : Revision α) (read : Option Bytes) :
    Outcome (Option α) → List Event → Prop
  | stored {event value answer} (hc : event.carriedOut)
      (hs : revision.step 0 (event.before.map Document.value) = .done (some value, answer))
      (ha : event.after.map Document.value = some value) :
      Attempted revision read (.done (some answer)) [event]
  | passed {answer} (hs : revision.step 0 read = .done (none, answer)) :
      Attempted revision read (.done (some answer)) []
  | stale {event} (hc : event.carriedOut = false) (hw : event.asked.request.writes)
      (hr : revision.Rejected event) : Attempted revision read (.done none) [event]
  | failed {error events} (hc : ∀ event ∈ events, event.carriedOut = false)
      (he : error ≠ .conflict) : Attempted revision read (.failed error) events
  | crashed (hs : revision.step 0 read = .crashed) : Attempted revision read .crashed []

theorem writes_write (version : Option UInt64) (value : Bytes) :
    (revision.write version value).writes = true := by
  cases version <;> rfl

theorem key_write (version : Option UInt64) (value : Bytes) :
    (revision.write version value).key = revision.key := by
  cases version <;> rfl

theorem error_ne_conflict {status : Status} (h : revision.Regular)
    (hn : status ∉ revision.stale) : status.error ≠ .conflict := by
  intro he
  cases status <;> simp only [Status.error, reduceCtorEq] at he
  exact hn h.mem_stale

-- What an attempt left and where it goes on, with the writes of it as new events.
def After (revision : Revision α) (scope : String) (read : Option Bytes) (shared : Shared)
    (result : Outcome (Option α) × Shared) : Prop :=
  ∃ events, result.2.events = events ++ shared.events ∧
    (∀ event ∈ events, event.asked.address = revision.address scope) ∧
    revision.Attempted read result.1 events

theorem address_write (version : Option UInt64) (value : Bytes) :
    (⟨maxSize, scope, revision.collection, revision.write version value⟩ : Asked).address =
      revision.address scope := by
  unfold Asked.address address
  rw [key_write]

theorem carriedOut_of_ne {asked : Asked} (hk : (shared.found.answer asked).status ≠ .success) :
    (shared.event asked true).carriedOut = false :=
  Bool.and_eq_false_imp.mpr fun _ => decide_eq_false hk

theorem After.of_one {asked : Asked} {arrived : Bool} {outcome : Outcome (Option α)}
    {found : Option Bytes} (ha : asked.address = revision.address scope)
    (h : revision.Attempted found outcome [shared.event asked arrived]) :
    revision.After scope found shared (outcome, shared.next asked arrived) := by
  refine ⟨[shared.event asked arrived], rfl, fun event hm => ?_, h⟩
  rw [List.mem_singleton.mp hm]
  exact ha

-- The version is the one that was read, so the value is, and the change is made to that.
theorem attempted_stored {before : Recorded} {value : Bytes} {answer : α} {asked : Asked}
    (hasked : asked =
      ⟨maxSize, scope, revision.collection, revision.write (read.map Document.version) value⟩)
    (hb : before.Reached header) (hr : shared.store.Reached header)
    (hs : before.log <:+ shared.store.log)
    (hd : before.image.documentAt? (revision.address scope) = read)
    (hstep : revision.step 0 (read.map Document.value) = .done (some value, answer))
    (hf : shared.found.Fresh) (hk : (shared.found.answer asked).status = .success) :
    revision.Attempted (read.map Document.value) (.done (some answer))
      [shared.event asked true] := by
  subst hasked
  obtain ⟨hversion, hafter⟩ := Recorded.of_write_success hk
  have hsame := hf.value_eq (revision.address scope) hb (Shared.reached_found hr)
    (hs.trans (Shared.log_suffix_found shared)) (hd ▸ hversion)
  have hchange : revision.step 0 ((shared.event ⟨maxSize, scope, revision.collection,
      revision.write (read.map Document.version) value⟩ true).before.map Document.value) =
        .done (some value, answer) := by
    unfold Shared.event
    rw [address_write, hsame, hd]
    exact hstep
  refine .stored (Bool.and_eq_true_iff.mpr ⟨writes_write _ _, decide_eq_true hk⟩) hchange ?_
  unfold Shared.event
  rw [address_write]
  exact hafter

-- The write of an attempt, with the version of what was read.
theorem after_store {before : Recorded} {value : Bytes} {answer : α} (h : revision.Regular)
    (hb : before.Reached header) (hr : shared.store.Reached header)
    (hs : before.log <:+ shared.store.log) (hl : shared.fates 0 ≠ .lost)
    (hd : before.image.documentAt? (revision.address scope) = read)
    (hstep : revision.step 0 (read.map Document.value) = .done (some value, answer))
    (hf : ((revision.store (read.map Document.version) value answer).run
      (Shared.backend maxSize scope) shared).2.store.Fresh) :
    revision.After scope (read.map Document.value) shared
      ((revision.store (read.map Document.version) value answer).run
        (Shared.backend maxSize scope) shared) := by
  obtain ⟨asked, hasked⟩ : ∃ asked : Asked, asked =
      ⟨maxSize, scope, revision.collection, revision.write (read.map Document.version) value⟩ :=
    ⟨_, rfl⟩
  have hw : asked.request.writes = true := by rw [hasked]; exact writes_write _ _
  have ha : asked.address = revision.address scope := by rw [hasked]; exact address_write _ _
  unfold store at hf ⊢
  change (Call.run _ (Call.bind _ _) shared).2.store.Fresh at hf
  change After revision scope _ shared (Call.run _ (Call.bind _ _) shared)
  rw [Call.run_bind] at hf ⊢
  rcases Shared.run_execute hl with he | ⟨text, he⟩
  case inr =>
    rw [he, ← hasked]
    refine .of_one ha (.failed (fun event hm => ?_) nofun)
    rw [List.mem_singleton.mp hm]
    exact Bool.and_false _
  rw [he, ← hasked] at hf ⊢
  dsimp only at hf ⊢
  by_cases hk : (shared.found.answer asked).status = .success
  · rw [if_pos hk] at hf ⊢
    have hfound := Recorded.Fresh.of_suffix hf (Shared.found_suffix_next shared asked true)
    exact .of_one ha (attempted_stored hasked hb hr hs hd hstep hfound hk)
  rw [if_neg hk]
  have hnot : (shared.event asked true).carriedOut = false := carriedOut_of_ne hk
  split
  · next hm => exact .of_one ha (.stale hnot hw ⟨_, rfl, hm⟩)
  · next hm =>
    refine .of_one ha (.failed (fun event he => ?_) (error_ne_conflict h hm))
    rw [List.mem_singleton.mp he]
    exact hnot

-- The second half of an attempt: what was read goes into the change, and the version with it.
theorem after_act {before : Recorded} (h : revision.Regular) (hb : before.Reached header)
    (hr : shared.store.Reached header) (hs : before.log <:+ shared.store.log)
    (hl : shared.fates 0 ≠ .lost)
    (hd : before.image.documentAt? (revision.address scope) = read)
    (hf : ((revision.act 0 (read.map fun found => (found.value, found.version))).run
      (Shared.backend maxSize scope) shared).2.store.Fresh) :
    revision.After scope (read.map Document.value) shared
      ((revision.act 0 (read.map fun found => (found.value, found.version))).run
        (Shared.backend maxSize scope) shared) := by
  have hvalue : (read.map fun found => (found.value, found.version)).map Prod.fst =
      read.map Document.value := by rw [Option.map_map]; rfl
  have hversion : (read.map fun found => (found.value, found.version)).map Prod.snd =
      read.map Document.version := by rw [Option.map_map]; rfl
  unfold act at hf ⊢
  rw [hvalue, hversion] at hf ⊢
  cases hstep : revision.step 0 (read.map Document.value) with
  | failed error =>
    refine ⟨[], rfl, List.forall_mem_nil _, .failed (List.forall_mem_nil _) ?_⟩
    rintro rfl
    exact h.ne_conflict _ _ hstep
  | crashed => exact ⟨[], rfl, List.forall_mem_nil _, .crashed hstep⟩
  | done result =>
    obtain ⟨stored, answer⟩ := result
    rw [hstep] at hf
    cases stored with
    | none => exact ⟨[], rfl, List.forall_mem_nil _, .passed hstep⟩
    | some value => exact after_store h hb hr hs hl hd hstep hf

-- What a whole attempt leaves: one read, and then at most one write.
def Tried (revision : Revision α) (scope : String) (shared : Shared)
    (result : Outcome (Option α) × Shared) : Prop :=
  ∃ writes read, result.2.events = writes ++ read :: shared.events ∧
    (∀ event ∈ read :: writes, event.asked.address = revision.address scope) ∧
    read.asked.request = .get revision.key ∧
    revision.Attempted (read.before.map Document.value) result.1 writes

theorem after_attempt (maxSize : Nat) (scope : String) (h : revision.Regular)
    (hr : shared.store.Reached header) (hl : ∀ n, shared.fates n ≠ .lost)
    (hf : ((revision.attempt 0).run (Shared.backend maxSize scope) shared).2.store.Fresh) :
    revision.Tried scope shared
      ((revision.attempt 0).run (Shared.backend maxSize scope) shared) := by
  unfold attempt at hf ⊢
  change (Call.run _ (Call.bind _ _) shared).2.store.Fresh at hf
  change revision.Tried scope shared (Call.run _ (Call.bind _ _) shared)
  rw [Call.run_bind] at hf ⊢
  rcases Shared.run_execute (hl 0) with he | ⟨text, he⟩
  case inr =>
    rw [he]
    refine ⟨[], _, rfl, ?_, rfl, .failed (List.forall_mem_nil _) nofun⟩
    intro event hm
    rw [List.mem_singleton.mp hm]
    rfl
  rw [he, Recorded.answer_get] at hf ⊢
  have hact : ∀ found, shared.found.image.documentAt? (revision.address scope) = found →
      ∀ result, result = (revision.act 0 (found.map fun read => (read.value, read.version))).run
        (Shared.backend maxSize scope)
        (shared.next ⟨maxSize, scope, revision.collection, .get revision.key⟩ true) →
      result.2.store.Fresh → revision.Tried scope shared result := by
    rintro _ rfl result rfl hfresh
    obtain ⟨writes, hw, ho, ha⟩ := after_act h (Shared.reached_found hr) (Shared.reached_next hr)
      (Shared.found_suffix_next shared _ true) (hl 1) rfl hfresh
    exact ⟨writes, _, hw, List.forall_mem_cons.mpr ⟨rfl, ho⟩, rfl, ha⟩
  dsimp only at hf ⊢
  cases hd : shared.found.image.documentAt? ⟨scope, revision.collection, revision.key⟩ with
  | none =>
    rw [hd] at hf
    exact hact none hd _ rfl hf
  | some found =>
    rw [hd] at hf
    exact hact (some found) hd _ rfl hf

-- What a change of a document may come to, with its requests, the last one first. Of all attempts
-- but the last one the write came too late, so the writes tell how often the change was tried.
def Sound (revision : Revision α) (attempts : Nat) (events : List Event) : Outcome α → Prop
  | .done answer =>
    -- One write was carried out, and it made the change to what was there at that moment.
    (∃ event value tried, events.filter Event.carriedOut = [event] ∧
      (events.filter fun event => event.asked.request.writes).length = tried + 1 ∧
      revision.step tried (event.before.map Document.value) = .done (some value, answer) ∧
      event.after.map Document.value = some value) ∨
    -- There is no document, and the change leaves it so.
    (events.filter Event.carriedOut = [] ∧
      (∃ tried, (events.filter fun event => event.asked.request.writes).length = tried ∧
        revision.step tried none = .done (none, answer)) ∧
      ∃ read rest, events = read :: rest ∧ read.asked.request = .get revision.key ∧
        read.before = none)
  | .failed error =>
    events.filter Event.carriedOut = [] ∧
    -- Every write came too late, one in each attempt.
    (error = .conflict →
      (events.filter fun event => event.asked.request.writes).length = attempts ∧
        ∀ event ∈ events, event.asked.request.writes → revision.Rejected event)
  | .crashed =>
    events.filter Event.carriedOut = [] ∧ ∃ tried current, revision.step tried current = .crashed

variable {attempts : Nat} {outcome : Outcome α} {events : List Event}

-- The change as it is tried from the second attempt on.
def later (revision : Revision α) : Revision α :=
  { revision with step := fun tried => revision.step (tried + 1) }

theorem Regular.later (h : revision.Regular) : revision.later.Regular where
  ne_conflict tried := h.ne_conflict (tried + 1)
  writes tried := h.writes (tried + 1)
  mem_stale := h.mem_stale

-- An attempt whose write came too late counts for nothing but its write.
theorem Sound.behind {write read : Event} (h : revision.later.Sound attempts events outcome)
    (hr : read.asked.request = .get revision.key) (hc : write.carriedOut = false)
    (hw : write.asked.request.writes) (hs : revision.Rejected write) :
    revision.Sound (attempts + 1) (events ++ [write, read]) outcome := by
  have hread : read.asked.request.writes = false := by rw [hr]; rfl
  have hcarried : (events ++ [write, read]).filter Event.carriedOut =
      events.filter Event.carriedOut := by
    have hrc : read.carriedOut = false := Bool.and_eq_false_imp.mpr fun ht => by
      rw [hread] at ht
      cases ht
    rw [List.filter_append, List.filter_cons_of_neg (by simp [hc]),
      List.filter_cons_of_neg (by simp [hrc]), List.filter_nil, List.append_nil]
  have hwrites : ((events ++ [write, read]).filter fun event => event.asked.request.writes).length =
      (events.filter fun event => event.asked.request.writes).length + 1 := by
    rw [List.filter_append, List.length_append]
    simp [hw, hread]
  cases outcome with
  | done answer =>
    rcases h with ⟨event, value, tried, he, hcount, hrest⟩ |
      ⟨he, ⟨tried, hcount, hstep⟩, last, rest, rfl, hrest⟩
    · exact .inl ⟨event, value, tried + 1, hcarried.trans he, by rw [hwrites, hcount], hrest⟩
    · exact .inr ⟨hcarried.trans he, ⟨tried + 1, by rw [hwrites, hcount], hstep⟩, last, _, rfl,
        hrest⟩
  | failed error =>
    refine ⟨hcarried.trans h.1, fun hconflict => ?_⟩
    obtain ⟨hcount, hall⟩ := h.2 hconflict
    constructor
    · rw [hwrites, hcount]
    · intro event hm hwriting
      rcases List.mem_append.mp hm with hm | hm
      · exact hall event hm hwriting
      · rcases List.mem_pair.mp hm with rfl | rfl
        · exact hs
        · rw [hread] at hwriting
          cases hwriting
  | crashed =>
    obtain ⟨he, tried, current, hstep⟩ := h
    exact ⟨hcarried.trans he, tried + 1, current, hstep⟩

-- An attempt that ends the change.
theorem Attempted.sound {read : Event} {result : Outcome (Option α)}
    (ha : revision.Attempted (read.before.map Document.value) result events) (attempts : Nat)
    (h : revision.Regular) (hr : read.asked.request = .get revision.key) :
    match result with
    | .done (some answer) => revision.Sound (attempts + 1) (events ++ [read]) (.done answer)
    | .done none => ∃ write, events = [write] ∧ write.carriedOut = false ∧
        write.asked.request.writes ∧ revision.Rejected write
    | .failed error => revision.Sound (attempts + 1) (events ++ [read]) (.failed error)
    | .crashed => revision.Sound (attempts + 1) (events ++ [read]) (.crashed : Outcome α) := by
  have hwrites : read.asked.request.writes = false := by rw [hr]; rfl
  have hread : read.carriedOut = false := by
    unfold Event.carriedOut
    rw [hwrites, Bool.false_and]
  cases ha with
  | stored hc hs ha =>
    refine .inl ⟨_, _, 0, ?_, ?_, hs, ha⟩
    · rw [List.singleton_append, List.filter_cons_of_pos hc,
        List.filter_cons_of_neg (by simp [hread]), List.filter_nil]
    · simp [(Bool.and_eq_true_iff.mp hc).1, hwrites]
  | passed hs =>
    have hbefore : read.before = none := by
      cases hb : read.before with
      | none => rfl
      | some found =>
        rw [hb] at hs
        exact absurd hs (h.writes _ _ _)
    rw [hbefore] at hs
    refine .inr ⟨?_, ⟨0, ?_, hs⟩, read, [], rfl, hr, hbefore⟩
    · rw [List.nil_append, List.filter_cons_of_neg (by simp [hread]), List.filter_nil]
    · rw [List.nil_append, List.filter_cons_of_neg (by simp [hwrites]), List.filter_nil]
      rfl
  | stale hc hw hs => exact ⟨_, rfl, hc, hw, hs⟩
  | failed hc he =>
    refine ⟨?_, fun hconflict => absurd hconflict he⟩
    rw [List.filter_append, List.filter_eq_nil_iff.mpr (by simpa using hc), List.nil_append,
      List.filter_cons_of_neg (by simp [hread]), List.filter_nil]
  | crashed hs =>
    refine ⟨?_, _, _, hs⟩
    rw [List.nil_append, List.filter_cons_of_neg (by simp [hread]), List.filter_nil]

theorem next_fates (maxSize : Nat) (scope : String) (hl : ∀ n, shared.fates n ≠ .lost)
    (call : Call α) (n : Nat) :
    (call.run (Shared.backend maxSize scope) shared).2.fates n ≠ .lost := by
  induction call generalizing shared with
  | done value => exact hl n
  | fail error => exact hl n
  | crash => exact hl n
  | submit collection request rest ih => exact ih _ fun n => hl (n + 1)

theorem reached_run (maxSize : Nat) (scope : String) (hr : shared.store.Reached header)
    (call : Call α) :
    (call.run (Shared.backend maxSize scope) shared).2.store.Reached header := by
  induction call generalizing shared with
  | done value => exact hr
  | fail error => exact hr
  | crash => exact hr
  | submit collection request rest ih => exact ih _ (Shared.reached_next hr)

-- What a client has done since `shared`, to the one document, is sound.
def Leaves (revision : Revision α) (scope : String) (attempts : Nat) (shared : Shared)
    (result : Outcome α × Shared) : Prop :=
  ∃ events, result.2.events = events ++ shared.events ∧
    (∀ event ∈ events, event.asked.address = revision.address scope) ∧
    revision.Sound attempts events result.1

variable {mid : Shared} {result : Outcome α × Shared}

theorem Tried.leaves {ended : Outcome (Option α)} {answer : Outcome α}
    (h : revision.Tried scope shared (ended, mid))
    (hs : ∀ read writes, revision.Attempted (read.before.map Document.value) ended writes →
      read.asked.request = .get revision.key →
      revision.Sound attempts (writes ++ [read]) answer) :
    revision.Leaves scope attempts shared (answer, mid) := by
  obtain ⟨writes, read, he, ho, hread, ha⟩ := h
  refine ⟨writes ++ [read], ?_, ?_, hs read writes ha hread⟩
  · rw [List.append_assoc, List.singleton_append]
    exact he
  · intro event hm
    exact ho event (List.mem_cons.mpr
      ((List.mem_append.mp hm).symm.imp_left List.mem_singleton.mp))

-- An attempt whose write came too late, and then what the others do.
theorem Tried.then_leaves (h : revision.Tried scope shared (.done none, mid))
    (hr : revision.Regular) (hl : revision.later.Leaves scope attempts mid result) :
    revision.Leaves scope (attempts + 1) shared result := by
  obtain ⟨writes, read, he, ho, hread, ha⟩ := h
  obtain ⟨write, rfl, hc, hw, hs⟩ := ha.sound attempts hr hread
  obtain ⟨events, hevents, hown, hsound⟩ := hl
  refine ⟨events ++ [write, read], ?_, ?_, hsound.behind hread hc hw hs⟩
  · rw [hevents, List.append_assoc]
    exact congrArg (events ++ ·) he
  · intro event hm
    rcases List.mem_append.mp hm with hm | hm
    · exact hown event hm
    · refine ho event ?_
      rcases List.mem_pair.mp hm with rfl | rfl
      · exact List.mem_cons_of_mem _ (List.mem_singleton_self _)
      · exact List.mem_cons_self ..

theorem leaves_retry (h : revision.Regular) (attempts : Nat) (hr : shared.store.Reached header)
    (hl : ∀ n, shared.fates n ≠ .lost)
    (hf : ((Call.retry revision.attempt attempts).run
      (Shared.backend maxSize scope) shared).2.store.Fresh) :
    revision.Leaves scope attempts shared ((Call.retry revision.attempt attempts).run
      (Shared.backend maxSize scope) shared) := by
  induction attempts generalizing revision shared with
  | zero => exact ⟨[], rfl, List.forall_mem_nil _, rfl, fun _ => ⟨rfl, List.forall_mem_nil _⟩⟩
  | succ attempts ih =>
    have hone := after_attempt maxSize scope h hr hl
    have hreached := reached_run maxSize scope hr (revision.attempt 0)
    have hfates := next_fates maxSize scope hl (revision.attempt 0)
    rw [Call.retry_succ, Call.run_bind] at hf ⊢
    generalize (revision.attempt 0).run (Shared.backend maxSize scope) shared = tried at *
    obtain ⟨outcome, mid⟩ := tried
    dsimp only at hone hreached hfates hf ⊢
    cases outcome with
    | failed error => exact (hone hf).leaves fun _ _ ha hread => ha.sound attempts h hread
    | crashed => exact (hone hf).leaves fun _ _ ha hread => ha.sound attempts h hread
    | done answer =>
      cases answer with
      | some value => exact (hone hf).leaves fun _ _ ha hread => ha.sound attempts h hread
      | none =>
        have hmid : mid.store.Fresh := Recorded.Fresh.of_suffix hf (Shared.log_suffix_run _ _)
        exact (hone hmid).then_leaves h (ih h.later hreached hfates hf)

end Revision

-- Whatever the other clients do in between, as long as no answer gets lost and the versions last.
theorem no_lost_update {α : Type} {revision : Revision α} {call : Call α}
    (h : revision.MadeBy call) (maxSize : Nat) (scope : String) (header : Header)
    (others : Nat → List Asked) (fates : Nat → Fate) (hl : ∀ n, fates n ≠ .lost)
    (hf : (call.run (Shared.backend maxSize scope)
      (Shared.start header others fates)).2.store.Fresh) :
    (∀ event ∈ (call.run (Shared.backend maxSize scope)
        (Shared.start header others fates)).2.events,
      event.asked.address = revision.address scope) ∧
    revision.Sound 8
      (call.run (Shared.backend maxSize scope) (Shared.start header others fates)).2.events
      (call.run (Shared.backend maxSize scope) (Shared.start header others fates)).1 := by
  have he := h.eq_retry
  subst he
  obtain ⟨events, hevents, hown, hsound⟩ :=
    Revision.leaves_retry h.regular maxAttempts ⟨[], rfl⟩ hl hf
  rw [hevents, Shared.start, List.append_nil]
  exact ⟨hown, hsound⟩

namespace Sample

-- A second goes by from one look at the clock to the next.
def ticking : Readings := fun n => ⟨1600000000 + UInt64.ofNat n, 0⟩

def record : StatRecord := StatRecord.new 0o100644 (ticking 0)

-- Another client makes a record, and changes its mode after it was read.
def rivals : Nat → List Asked
  | 0 => [⟨64, defaultScope, .stats, .insert "/f" record.encode⟩]
  | 1 =>
    [⟨64, defaultScope, .stats,
      .replace "/f" (record.apply (.mode 0o600) (ticking 0)).encode none⟩]
  | _ => []

def race : Outcome StatRecord × Shared :=
  (Metadata.update "/f" (.size 5) ticking).run (Shared.backend 64 defaultScope)
    (Shared.start default rivals fun _ => .answered)

end Sample

-- The first write comes too late, and the second keeps both changes, with the time of its own.
theorem sample_no_lost_update :
    (Revision.ofStat "/f" (.size 5) Sample.ticking).Sound 8 Sample.race.2.events Sample.race.1 ∧
      (Sample.race.2.events.filter fun event => event.asked.request.writes).length = 2 ∧
      Sample.race.1 =
        .done ((Sample.record.apply (.mode 0o600) (Sample.ticking 0)).apply (.size 5)
          (Sample.ticking 1)) := by
  have hf : Sample.race.2.store.Fresh := by
    unfold Recorded.Fresh
    decide +kernel
  exact ⟨(no_lost_update (.update "/f" (.size 5) Sample.ticking) 64 defaultScope default
    Sample.rivals (fun _ => .answered) (fun _ => nofun) hf).2, by decide +kernel, by decide +kernel⟩

end DocTree
