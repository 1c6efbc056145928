import DocTree.Proofs.Run.Crowd
import DocTree.Proofs.Tree.Placed
import Mathlib.Data.List.Infix

namespace DocTree

open Call Revision

namespace Event

-- The record that a request found, and the one that it left.
def found (event : Event) : Option StatRecord :=
  event.before.bind fun document => (StatRecord.decode document.value).toOption

def left (event : Event) : Option StatRecord :=
  event.after.bind fun document => (StatRecord.decode document.value).toOption

end Event

-- The record that the first request of a call found.
def firstSeen (events : List Event) : Option StatRecord := events.getLast?.bind Event.found

namespace Operation

-- How a call changes the record of its path, if it does.
def change? (limits : Limits) (seen : Option StatRecord) : Operation → Option StatChange
  | .read _ _ _ => some .accessed
  | .write _ offset data => do
    let stop := offset.toNat + data.length
    if stop ≤ limits.maxFileLen then return Tree.writeChange (← seen) stop data else none
  | .truncate _ size => some (.size size)
  | .chmod _ mode => some (.mode mode)
  | .utimens _ times => some (.times times)
  | _ => none

def Makes : Operation → Prop
  | .bootstrap | .create _ _ | .mkdir _ _ => True
  | _ => False

def Removes : Operation → Prop
  | .unlink _ | .rmdir _ => True
  | _ => False

-- The file has grown past the end of a write since the write saw that it has to grow.
def Overtaken (seen found : StatRecord) : Operation → Prop
  | .write _ offset data =>
    data ≠ [] ∧ seen.size.toNat < offset.toNat + data.length ∧
      offset.toNat + data.length < found.size.toNat
  | _ => False

instance (seen found : StatRecord) : DecidablePred (Overtaken seen found) := fun operation => by
  cases operation <;> unfold Overtaken <;> infer_instance

end Operation

-- The record was stored by a write that had been overtaken.
def Event.overtaken (operation : Operation) (earlier : List Event) (event : Event) : Bool :=
  event.carriedOut && event.asked.collection = .stats && (firstSeen earlier).any fun seen =>
    event.found.any fun found => decide (operation.Overtaken seen found)

def anyOvertaken (operation : Operation) : List Event → Bool
  | [] => false
  | event :: earlier => event.overtaken operation earlier || anyOvertaken operation earlier

-- A request that makes the record of a path or takes it away.
def Operation.Replaces (operation : Operation) (request : Request) : Prop :=
  (operation.Makes ∧ ∃ value, request = .insert operation.path value) ∨
    operation.Removes ∧ request = .remove operation.path

-- What a call may do to records.
def Event.Changes (limits : Limits) (step : Step) (events : List Event) (event : Event) : Prop :=
  event.carriedOut → event.asked.collection = .stats →
    step.operation.Replaces event.asked.request ∨
      event.asked.request.key = step.operation.path ∧ ∃ change tried old,
        step.operation.change? limits (firstSeen events) = some change ∧
          event.Revises StatRecord.decode StatRecord.encode old
            (old.apply change (step.now tried))

-- A request that changes no record in place.
def Apart (operation : Operation) (collection : Collection) (request : Request) : Prop :=
  collection = .stats → (∃ key, request = .get key) ∨ operation.Replaces request

def Contract.changes (header : Header) (maxSize : Nat) (scope : String) (limits : Limits)
    (step : Step) : Contract where
  header
  maxSize
  scope
  rely _ _ _ := True
  safe := Event.Changes limits step

variable {header : Header} {maxSize : Nat} {scope path : String} {limits : Limits} {step : Step}
  {events : List Event} {store : Recorded} {seen : Option StatRecord}

theorem Event.changes_of_not_carriedOut {event : Event} (h : event.carriedOut = false) :
    event.Changes limits step events := by
  intro hc
  rw [h] at hc
  cases hc

theorem Apart.changes {asked : Asked} (h : Apart step.operation asked.collection asked.request) :
    (store.event asked).Changes limits step events := by
  intro hc hs
  rcases h hs with ⟨key, hr⟩ | hr
  · rw [Recorded.carriedOut_event, hr] at hc
    cases hc
  · exact .inl hr

theorem Call.Only.changes {α : Type} {call : Call α} (h : call.Only (Apart step.operation)) :
    call.Keeps (.changes header maxSize scope limits step) events store :=
  h.keeps fun _ _ _ _ hr => hr.changes

theorem firstSeen_cons {event : Event} {stat : StatRecord} (h : firstSeen events = some stat) :
    firstSeen (event :: events) = some stat := by
  cases events with
  | nil => cases h
  | cons first rest => exact h

-- Such requests leave what the call has seen as it is.
theorem Call.Only.changes_after {α : Type} {call : Call α} {stat : StatRecord}
    (h : call.Only (Apart step.operation)) (hs : firstSeen events = some stat) :
    call.Follows (.changes header maxSize scope limits step)
      (fun _ events _ => firstSeen events = some stat)
      (fun _ events _ => firstSeen events = some stat) events store :=
  h.follows (fun events _ => firstSeen events = some stat)
    (fun _ _ _ _ _ hr hs _ => ⟨hr.changes, firstSeen_cons hs⟩) hs

-- The change of a call, made to the record that is there at that moment.
theorem Metadata.follows_update (step : Step) {change : StatChange} (inv : List Event → Prop)
    (hinv : ∀ event events, inv events → inv (event :: events))
    (hc : ∀ events, inv events →
      step.operation.change? limits (firstSeen events) = some change) (hi : inv events) :
    (update step.operation.path change step.now).Follows
      (.changes header maxSize scope limits step)
      (fun stat events store => inv events ∧
        (∃ tried, ∃ old : StatRecord, stat = old.apply change (step.now tried)) ∧
        (store.image.docs scope).StatAt step.operation.path (some stat))
      (fun _ _ _ => True) events store := by
  rw [(MadeBy.update step.operation.path change step.now).eq_retry]
  refine follows_ofRecord (fun events _ => inv events) (fun _ _ _ hi _ => hi) ?_ ?_
    (fun _ _ _ _ => trivial) maxAttempts hi
  · exact fun events store request _ hi hnot =>
      ⟨Event.changes_of_not_carriedOut hnot, hinv _ _ hi⟩
  · intro tried events store version old hi hr
    exact ⟨fun _ _ => .inr ⟨rfl, change, tried, old, hc events hi, hr⟩, hinv _ _ hi,
      ⟨tried, old, rfl⟩, hr.after⟩

theorem Metadata.keeps_update (step : Step) {change : StatChange}
    (hc : ∀ seen, step.operation.change? limits seen = some change) :
    (update step.operation.path change step.now).Keeps (.changes header maxSize scope limits step)
      events store :=
  (follows_update step (fun _ => True) (fun _ _ _ => trivial) (fun _ _ => hc _) trivial).keeps

-- The record of a path has at least this size.
def Recorded.Reaches (scope path : String) (length : Nat) (store : Recorded) : Prop :=
  ∃ stat, (store.image.docs scope).StatAt path (some stat) ∧ length ≤ stat.size.toNat

-- A write that saw that the file has to grow has recorded its end.
def Operation.Lengthens (scope : String) (operation : Operation) (events : List Event)
    (store : Recorded) : Prop :=
  ∀ path offset data seen, operation = .write path offset data → firstSeen events = some seen →
    data ≠ [] → seen.size.toNat < offset.toNat + data.length →
      store.Reaches scope path (offset.toNat + data.length)

theorem apart_get {operation : Operation} {collection : Collection} {key : String} :
    Apart operation collection (.get key) := fun _ => .inl ⟨key, rfl⟩

theorem apart_insert (operation : Operation) (h : operation.Makes) (value : Bytes) :
    Apart operation .stats (.insert operation.path value) := fun _ => .inr (.inl ⟨h, value, rfl⟩)

theorem apart_remove (operation : Operation) (h : operation.Removes) :
    Apart operation .stats (.remove operation.path) := fun _ => .inr (.inr ⟨h, rfl⟩)

theorem apart_of_ne {operation : Operation} {collection : Collection} {request : Request}
    (h : collection ≠ .stats) : Apart operation collection request := fun hc => absurd hc h

namespace Tree

theorem follows_fileStat :
    (fileStat limits path).Follows (.changes header maxSize scope limits step)
      (fun stat events _ => firstSeen events = some stat) (fun _ _ _ => True) [] store := by
  unfold fileStat
  cases Path.checkLength path limits.maxKeyLen with
  | error error => trivial
  | ok _ =>
  refine follows_bind.mpr (follows_bind.mpr (follows_bind.mpr (follows_get fun later _ => ?_)))
  refine ⟨apart_get.changes, ?_⟩
  change (later.image.docs scope .stats path).elim _ _
  cases hf : later.image.docs scope .stats path with
  | none => trivial
  | some found =>
  rw [Option.elim_some]
  cases hd : StatRecord.decode found.value with
  | error error => trivial
  | ok stat =>
  change Call.Follows _ (do check (¬stat.isDirectory) .isDirectory; return stat) _ _ _ _
  refine follows_bind.mpr (follows_check.mpr ?_)
  split
  · change Option.bind (later.image.docs scope .stats path) _ = some stat
    rw [show later.image.docs scope .stats path = some found from hf, Option.bind_some, hd]
    rfl
  · trivial

variable {now : Readings} {offset : UInt64} {data : Bytes}

theorem toNat_end (hv : limits.Valid) {stop : Nat} (h : stop ≤ limits.maxFileLen) :
    (UInt64.ofNat stop).toNat = stop := by
  have hw := hv.maxFileLen_eq.2
  unfold Word.limit at hw
  exact UInt64.toNat_ofNat_of_lt' (by change stop < 2 ^ 64; omega)

theorem follows_write (hv : limits.Valid) :
    (write limits path offset data now).Follows
      (.changes header maxSize scope limits ⟨now, .write path offset data⟩)
      (fun _ => (Operation.write path offset data).Lengthens scope) (fun _ _ _ => True) []
      store := by
  unfold write
  refine follows_fileStat.bind (fun stat events store hseen => ?_) fun _ _ _ _ => trivial
  dsimp only
  rw [follows_bind, follows_check]
  split
  swap
  · trivial
  next hstop =>
  have hblocks : Content.Permits (Apart (.write path offset data)) path limits.maxBlocks :=
    fun _ _ _ _ => apart_of_ne nofun
  obtain ⟨call, ho, he⟩ := exists_writeContent_eq_map hv hblocks stat hstop
  rw [he, follows_bind, follows_map]
  refine (ho.changes_after hseen).mono (fun _ events store hseen => ?_) fun _ _ _ _ => trivial
  refine (Metadata.follows_update ⟨now, .write path offset data⟩
    (fun events => firstSeen events = some stat) (fun _ _ => firstSeen_cons) ?_ hseen).bind ?_
      fun _ _ _ _ => trivial
  · intro events hseen
    unfold Operation.change?
    simp [hstop, hseen]
  · intro left events store hpost
    obtain ⟨hseen, ⟨tried, old, rfl⟩, hstat⟩ := hpost
    rintro _ _ _ seen heq hfirst hne hlt
    cases heq
    obtain rfl := Option.some_inj.mp (hseen.symm.trans hfirst)
    refine ⟨_, hstat, ?_⟩
    rw [StatRecord.size_apply, writeChange, if_pos ⟨hne, hlt⟩]
    exact (toNat_end hv hstop).ge

theorem keeps_read {size : UInt32} :
    (read limits path offset size now).Keeps
      (.changes header maxSize scope limits ⟨now, .read path offset size⟩) events store := by
  have hupdate : ∀ (data : Bytes) (events : List Event) (store : Recorded), (do
      let _ ← Metadata.update path .accessed now
      return data).Keeps (.changes header maxSize scope limits ⟨now, .read path offset size⟩)
        events store :=
    fun data _ _ => Keeps.bind (Metadata.keeps_update ⟨now, .read path offset size⟩
      fun _ => rfl) fun _ _ _ => trivial
  refine (only_fileStat apart_get).changes.bind fun stat _ _ => ?_
  dsimp only
  split
  · exact hupdate [] _ _
  · exact (Content.only_read fun _ _ => apart_get).changes.bind fun data => hupdate data

theorem keeps_truncate (hv : limits.Valid) {size : UInt64} :
    (truncate limits path size now).Keeps
      (.changes header maxSize scope limits ⟨now, .truncate path size⟩) events store := by
  refine (only_fileStat apart_get).changes.bind fun stat _ _ => ?_
  rw [Keeps, follows_bind, follows_check]
  split
  swap
  · trivial
  next hs =>
  refine (only_resizeContent hv (fun _ _ _ _ => apart_of_ne nofun) hs).changes.bind
    fun _ _ _ => ?_
  exact Metadata.keeps_update ⟨now, .truncate path size⟩ fun _ => rfl

theorem keeps_changeRecord {change : StatChange} {operation : Operation}
    (hp : operation.path = path) (hc : ∀ seen, operation.change? limits seen = some change) :
    (do Call.ofExcept (Path.checkLength path limits.maxKeyLen)
        Metadata.update path change now).Keeps
      (.changes header maxSize scope limits ⟨now, operation⟩) events store := by
  subst hp
  exact only_ofExcept.changes.bind fun _ _ _ => Metadata.keeps_update ⟨now, operation⟩ hc

end Tree

open DocTree.Tree in
theorem Operation.keeps_changes (hv : limits.Valid) (now : Readings) (operation : Operation)
    (store : Recorded) :
    (operation.call limits now).Keeps (.changes header maxSize scope limits ⟨now, operation⟩) []
      store := by
  have hdentries : ∀ {operation request}, Apart operation .dentries request := apart_of_ne nofun
  have hblocks : ∀ {operation path count}, Content.Permits (Apart operation) path count :=
    fun _ _ _ _ => apart_of_ne nofun
  cases operation with
  | bootstrap =>
    have honly : (Tree.bootstrap (now 0)).Only (Apart .bootstrap) :=
      only_bootstrap apart_get (apart_insert .bootstrap trivial _) hdentries
    exact honly.changes.map
  | getattr path owner => exact (only_getattr apart_get).changes.map
  | openFile path flags => exact (only_openFile apart_get).changes.map
  | create path mode =>
    have honly : (Tree.create limits path mode (now 0)).Only (Apart (.create path mode)) :=
      only_create apart_get apart_get (fun _ => apart_insert (.create path mode) trivial _)
        fun _ _ => hdentries
    exact honly.changes.map
  | mkdir path mode =>
    have honly : (Tree.mkdir limits path mode (now 0)).Only (Apart (.mkdir path mode)) :=
      only_mkdir apart_get apart_get (fun _ => apart_insert (.mkdir path mode) trivial _)
        hdentries fun _ _ => hdentries
    exact honly.changes.map
  | unlink path =>
    have honly : (Tree.unlink limits path).Only (Apart (.unlink path)) :=
      only_unlink apart_get apart_get hblocks (fun _ _ => hdentries)
        (apart_remove (.unlink path) trivial)
    exact honly.changes.map
  | rmdir path =>
    have honly : (Tree.rmdir limits path).Only (Apart (.rmdir path)) :=
      only_rmdir apart_get apart_get apart_get hdentries (fun _ _ => hdentries)
        (apart_remove (.rmdir path) trivial)
    exact honly.changes.map
  | read path offset size => exact keeps_read.map
  | write path offset data => exact (follows_write hv).keeps.map
  | truncate path size => exact (keeps_truncate hv).map
  | chmod path mode => exact (keeps_changeRecord rfl fun _ => rfl).map
  | utimens path times => exact (keeps_changeRecord rfl fun _ => rfl).map
  | readdir path offset => exact (only_readdir apart_get apart_get).changes.map

-- Only a write has something to tell in the end.
theorem Operation.follows_changes (hv : limits.Valid) (step : Step) (store : Recorded) :
    (step.operation.call limits step.now).Follows (.changes header maxSize scope limits step)
      (fun _ => step.operation.Lengthens scope) (fun _ _ _ => True) [] store := by
  have hkeeps : (step.operation.call limits step.now).Keeps
      (.changes header maxSize scope limits step) [] store :=
    step.operation.keeps_changes hv step.now store
  by_cases hw : ∃ path offset data, step.operation = .write path offset data
  · obtain ⟨now, operation⟩ := step
    obtain ⟨path, offset, data, rfl⟩ := hw
    exact follows_map.mpr (Tree.follows_write hv)
  · exact hkeeps.mono (fun _ _ _ _ path offset data _ he => absurd ⟨path, offset, data, he⟩ hw)
      fun _ _ _ _ => trivial

namespace Operation

-- A call that may make a file shorter than it is, or take it away, by what it is there for.
def Cuts (path : String) : Operation → Prop
  | .truncate file _ | .unlink file | .rmdir file => file = path
  | _ => False

instance (path : String) : DecidablePred (Cuts path) := fun operation => by
  cases operation <;> unfold Cuts <;> infer_instance

theorem cuts_of_removes {operation : Operation} (h : operation.Removes) :
    operation.Cuts operation.path := by
  cases operation <;> trivial

-- A write makes the record that it replaces smaller exactly if it was overtaken.
theorem write_size_le_iff (hv : limits.Valid) {offset : UInt64} {data : Bytes}
    {change : StatChange} {seen found : StatRecord}
    (h : (write path offset data).change? limits (some seen) = some change) :
    found.size ≤ change.sizeAfter found.size ↔ ¬(write path offset data).Overtaken seen found := by
  simp only [change?, Option.bind_eq_bind, Option.bind_some, Option.pure_def] at h
  split at h
  case isFalse => cases h
  case isTrue hstop =>
  obtain rfl := Option.some_inj.mp h
  have hend := Tree.toNat_end hv hstop
  rw [UInt64.le_iff_toNat_le]
  unfold Tree.writeChange Overtaken
  split
  · next hg =>
    rw [StatChange.sizeAfter, hend]
    obtain ⟨hne, hlt⟩ := hg
    simp only [hne, hlt, ne_eq, not_false_eq_true, true_and, not_lt]
  · next hg =>
    exact iff_of_true (Nat.le_refl _) fun ho => hg ⟨ho.1, ho.2.1⟩

theorem size_le_of_not_cuts (hv : limits.Valid) {operation : Operation} {change : StatChange}
    {seen : Option StatRecord} {found : StatRecord} (hc : ¬operation.Cuts operation.path)
    (h : operation.change? limits seen = some change)
    (ho : ∀ stat, seen = some stat → ¬operation.Overtaken stat found) :
    found.size ≤ change.sizeAfter found.size := by
  cases operation with
  | write path offset data =>
    cases seen with
    | none => simp [change?] at h
    | some stat => exact (write_size_le_iff hv h).mpr (ho stat rfl)
  | truncate path size => exact absurd rfl hc
  | read path offset size =>
    cases h
    exact UInt64.le_refl _
  | chmod path mode =>
    cases h
    exact UInt64.le_refl _
  | utimens path times =>
    cases h
    exact UInt64.le_refl _
  | _ => cases h

end Operation

namespace Pact

def changes (header : Header) (maxSize : Nat) (scope : String) (limits : Limits)
    (post : Step → List Event → Recorded → Prop) : Pact where
  header
  maxSize
  scope
  joins _ := True
  inv store := store.Reached header
  rely _ _ _ _ := True
  safe := Event.Changes limits
  post step _ := post step

theorem changes_sound (hv : limits.Valid) {post : Step → List Event → Recorded → Prop}
    {good : Crowd → Prop} (hf : ∀ crowd, good crowd → crowd.store.Fresh)
    (hp : ∀ step events store, step.operation.Lengthens scope events store →
      post step events store)
    (hs : ∀ crowd asked one other,
      (changes header maxSize scope limits post).Meets good crowd asked one other →
        post other.step other.events crowd.store →
          post other.step other.events (crowd.store.ask asked)) :
    (changes header maxSize scope limits post).Sound limits good where
  starts step store _ _ := (Operation.follows_changes hv step store).mono
    (fun _ => hp step) fun _ _ _ h => h
  refl _ _ _ _ := trivial
  trans _ _ _ _ _ _ _ := trivial
  keeps _ _ _ asked _ hr _ := hr.ask asked
  others _ _ _ _ _ _ := trivial
  settles crowd asked one other _ := hs crowd asked one other
  reached _ h := h
  fresh := hf

end Pact

-- Each time the call stores a record, its size is smaller than the one that it replaces exactly if
-- the call was overtaken.
def Client.ShrinksIffOvertaken (client : Client) : Prop :=
  ∀ later event earlier, client.events = later ++ event :: earlier → event.carriedOut →
    event.asked.collection = .stats →
      ∃ found left, event.found = some found ∧ event.left = some left ∧
        (left.size < found.size ↔ event.overtaken client.step.operation earlier)

namespace Crowd

-- No client is there to cut this file short, and no write of it was overtaken.
def Undisturbed (path : String) (crowd : Crowd) : Prop :=
  ∀ client ∈ crowd.clients, ¬client.step.operation.Cuts path ∧
    (client.step.operation.path = path → ¬anyOvertaken client.step.operation client.events)

instance (path : String) : DecidablePred (Undisturbed path) :=
  fun crowd => inferInstanceAs (Decidable (∀ client ∈ crowd.clients, _))

end Crowd

-- What is made was not there.
theorem Recorded.before_of_insert {asked : Asked} {key : String} {value : Bytes}
    (hr : asked.request = .insert key value) (h : (store.event asked).carriedOut = true) :
    (store.event asked).before = none := by
  obtain ⟨maxSize, scope, collection, request⟩ := asked
  dsimp only at hr
  subst hr
  rw [carriedOut_event, Bool.and_eq_true_iff, decide_eq_true_iff, answer_eq] at h
  have hs := h.2
  unfold Docs.answerWithin at hs
  split at hs
  case isFalse => cases hs
  case isTrue hl =>
  unfold Docs.answer at hs
  dsimp only at hs
  split at hs
  · cases hs
  · next hn => exact Option.not_isSome_iff_eq_none.mp hn

theorem Event.Revises.records {event : Event} {old new : StatRecord}
    (h : event.Revises StatRecord.decode StatRecord.encode old new) :
    event.found = some old ∧ event.left = some new := by
  obtain ⟨found, hf, hd⟩ := h.before
  obtain ⟨after, ha, he⟩ := Option.map_eq_some_iff.mp h.after
  unfold Event.found Event.left
  rw [hf, ha, Option.bind_some, Option.bind_some, hd, he, StatRecord.decode_encode]
  exact ⟨rfl, rfl⟩

theorem Event.overtaken_iff {operation : Operation} {event : Event} {stat : StatRecord}
    (hc : event.carriedOut = true) (hs : event.asked.collection = .stats)
    (hf : event.found = some stat) :
    event.overtaken operation events = true ↔
      ∃ seen, firstSeen events = some seen ∧ operation.Overtaken seen stat := by
  rw [Event.overtaken, hc, hs, hf]
  cases firstSeen events <;> simp

-- Whatever is carried out then, the file does not get shorter.
theorem Recorded.Reaches.ask (hv : limits.Valid) {length : Nat} {asked : Asked}
    (h : store.Reaches scope path length) (hs : asked.scope = scope)
    (hc : (store.event asked).Changes limits step events) (hcut : ¬step.operation.Cuts path)
    (ho : step.operation.path = path →
      (store.event asked).overtaken step.operation events = false) :
    (store.ask asked).Reaches scope path length := by
  obtain ⟨stat, hstat, hle⟩ := h
  subst hs
  by_cases hsame : (store.ask asked).image.documentAt? ⟨asked.scope, .stats, path⟩ =
      store.image.documentAt? ⟨asked.scope, .stats, path⟩
  · exact ⟨stat, (congrArg (Option.map Document.value) hsame).trans hstat, hle⟩
  have ha : (⟨asked.scope, .stats, path⟩ : Address) = asked.address := by
    by_contra hne
    exact hsame (documentAt?_ask_of_ne hne)
  have hcarried : (store.event asked).carriedOut = true := by
    by_contra hnot
    exact hsame (documentAt?_ask_of_not_carriedOut (Bool.eq_false_iff.mpr hnot) _)
  obtain ⟨-, hcollection, rfl⟩ := Address.mk.inj ha
  have hbefore : (store.event asked).before.map Document.value = some stat.encode := by
    unfold Recorded.event
    rw [← ha]
    exact hstat
  -- A record that is there is not made, the one who removes it would cut the file, and what is left
  -- is a change of it.
  rcases hc hcarried hcollection.symm with
    (⟨-, value, hr⟩ | ⟨hm, hr⟩) | ⟨hp, change, tried, old, hch, hrev⟩
  · have hr : asked.request = .insert step.operation.path value := hr
    rw [before_of_insert hr hcarried] at hbefore
    cases hbefore
  · have hkey : asked.request.key = step.operation.path := congrArg Request.key hr
    exact absurd (hkey ▸ Operation.cuts_of_removes hm) hcut
  have hp : asked.request.key = step.operation.path := hp
  obtain ⟨found, hf, hd⟩ := hrev.before
  rw [hf, Option.map_some, Option.some_inj] at hbefore
  rw [hbefore, StatRecord.decode_encode] at hd
  obtain rfl := Except.ok.inj hd
  have hsize : stat.size ≤ (stat.apply change (step.now tried)).size := by
    rw [StatRecord.size_apply]
    refine Operation.size_le_of_not_cuts hv (hp ▸ hcut) hch fun seen hseen hover => ?_
    have hnot := ho hp.symm
    rw [(Event.overtaken_iff hcarried hcollection.symm hrev.records.1).mpr ⟨seen, hseen, hover⟩]
      at hnot
    cases hnot
  refine ⟨stat.apply change (step.now tried), ?_, hle.trans (UInt64.le_iff_toNat_le.mp hsize)⟩
  have hafter := hrev.after
  unfold Recorded.event at hafter
  rw [← ha] at hafter
  exact hafter

theorem Event.Changes.shrinks_iff (hv : limits.Valid) {event : Event} {offset : UInt64}
    {data : Bytes} (h : event.Changes limits step events)
    (hw : step.operation = .write path offset data) (hc : event.carriedOut = true)
    (hs : event.asked.collection = .stats) :
    ∃ found left, event.found = some found ∧ event.left = some left ∧
      (left.size < found.size ↔ event.overtaken step.operation events) := by
  obtain ⟨now, operation⟩ := step
  dsimp only at hw
  subst hw
  rcases h hc hs with (⟨hm, -⟩ | ⟨hm, -⟩) | ⟨-, change, tried, old, hch, hr⟩
  · exact hm.elim
  · exact hm.elim
  refine ⟨old, _, hr.records.1, hr.records.2, ?_⟩
  rw [Event.overtaken_iff hc hs hr.records.1, StatRecord.size_apply, ← UInt64.not_le]
  dsimp only at hch ⊢
  cases hseen : firstSeen events with
  | none =>
    rw [hseen] at hch
    simp [Operation.change?] at hch
  | some seen =>
    rw [hseen] at hch
    rw [Operation.write_size_le_iff hv hch, not_not]
    simp

-- Where nobody cuts a file short and no write of it is overtaken, what a write has come to lasts.
theorem Pact.grows_sound (hv : limits.Valid) (path : String) :
    (changes header maxSize scope limits fun step events store => step.operation.path = path →
      step.operation.Lengthens scope events store).Sound limits fun crowd =>
        crowd.store.Fresh ∧ crowd.Undisturbed path := by
  refine changes_sound hv (fun _ h => h.1) (fun _ _ _ h _ => h) ?_
  intro crowd asked one other hm hpost hp file offset data seen hw hseen hne hlt
  obtain ⟨first, second, -, hfirst, -, rest, -, hafter⟩ := hm.members
  obtain rfl : file = path := by rw [← hp, hw]; rfl
  refine (hpost hp _ offset data seen hw hseen hne hlt).ask hv hm.scope hm.safe
    (hm.before.2 one (List.mem_of_getElem? hfirst)).1 fun hpath => ?_
  have hnot := (hafter ⟨one.step, rest, crowd.store.event asked :: one.events⟩
    (List.mem_set (List.getElem?_eq_some_iff.mp hfirst).1 _)).2 hpath
  exact (Bool.or_eq_false_iff.mp (Bool.eq_false_iff.mpr hnot)).1

-- Whatever the order of requests, a write stores a smaller size than the one that it replaces
-- exactly if it was overtaken; where none was, and nobody cuts the file short, the file reaches the
-- end of each write that had to make it grow and succeeded.
theorem write_shrinks_iff_overtaken (hv : limits.validate = .ok ()) (maxSize : Nat) (scope : String)
    {header : Header} {store : Recorded} (hr : store.Reached header) (moves : List Move)
    (hf : (Crowd.play limits maxSize scope ⟨store, []⟩ moves).store.Fresh) :
    (∀ client ∈ (Crowd.play limits maxSize scope ⟨store, []⟩ moves).clients,
      ∀ path offset data, client.step.operation = .write path offset data →
        client.ShrinksIffOvertaken) ∧
    ∀ path, (∀ front, front <+: moves →
        (Crowd.play limits maxSize scope ⟨store, []⟩ front).Undisturbed path) →
      ∀ client ∈ (Crowd.play limits maxSize scope ⟨store, []⟩ moves).clients,
        client.step.operation.path = path → ∀ answer, client.answer? = some answer →
          client.step.operation.Lengthens scope client.events
            (Crowd.play limits maxSize scope ⟨store, []⟩ moves).store := by
  have hv := limits.validate_eq_ok_iff.mp hv
  have hstart : ∀ post, (Pact.changes header maxSize scope limits post).Holds ⟨store, []⟩ :=
    fun _ => ⟨hr, fun _ _ hc => nomatch hc⟩
  have hfresh : ∀ front, front <+: moves →
      (Crowd.play limits maxSize scope ⟨store, []⟩ front).store.Fresh :=
    fun front hp => hf.of_suffix (Crowd.log_suffix_play _ hp)
  constructor
  · intro client hm path offset data hw later event earlier he hc hs
    have hsound : (Pact.changes header maxSize scope limits fun _ _ _ => True).Sound limits
        fun crowd => crowd.store.Fresh :=
      Pact.changes_sound hv (fun _ h => h) (fun _ _ _ _ => trivial) fun _ _ _ _ _ _ => trivial
    have hplay := hsound.play (hstart _) moves (fun _ _ => trivial) hfresh
    obtain ⟨number, hn⟩ := List.getElem?_of_mem hm
    have hkept := (hplay.binds number client hn).kept
    rw [he] at hkept
    exact (hkept.of_append later).shrinks_iff hv hw hc hs
  · intro path hu client hm hp answer hd
    have hplay := (Pact.grows_sound hv path).play (hstart _) moves (fun _ _ => trivial)
      fun front hpre => ⟨hfresh front hpre, hu front hpre⟩
    obtain ⟨number, hn⟩ := List.getElem?_of_mem hm
    have hfollows := (hplay.binds number client hn).follows
    rw [Client.rest_eq_of_answer? hd] at hfollows
    exact hfollows hp

namespace Sample

open Move (turns)

-- Client 0 starts the tree, client 1 makes a file, and two more come to write to it, one byte and
-- five.
def writers : List Move :=
  .start ⟨Sample.now, .bootstrap⟩ :: turns 0 3 ++
    .start ⟨Sample.now, .create "/f" 0o100644⟩ :: turns 1 5 ++
    [.start ⟨Sample.now, .write "/f" 0 [97]⟩,
      .start ⟨Sample.now, .write "/f" 0 [98, 99, 100, 101, 102]⟩]

def written (moves : List Move) : Crowd :=
  Crowd.play Sample.limits 64 defaultScope ⟨Recorded.new default, []⟩ moves

-- Both writes find an empty file, and the longer one is done last.
def longerLast : List Move := writers ++ turns 3 1 ++ turns 2 6 ++ turns 3 8

def shorterLast : List Move := writers ++ turns 2 1 ++ turns 3 8 ++ turns 2 8

end Sample

theorem sample_write_reaches_its_end :
    Sample.limits.validate = .ok () ∧ (Recorded.new default).Reached default ∧
      (Sample.written Sample.longerLast).store.Fresh ∧
      (∀ front, front <+: Sample.longerLast → (Sample.written front).Undisturbed "/f") ∧
      (Sample.written Sample.longerLast).clients.map Client.answer? =
        [some .nothing, some (.stat (StatRecord.new 0o100644 (Sample.now 0))), some (.count 1),
          some (.count 5)] ∧
      ∃ stat, ((Sample.written Sample.longerLast).store.image.docs defaultScope).StatAt "/f"
        (some stat) ∧ 5 ≤ stat.size.toNat := by
  have hv : Sample.limits.validate = .ok () := by decide
  have hr : (Recorded.new default).Reached default := ⟨[], rfl⟩
  have hf : (Sample.written Sample.longerLast).store.Fresh := by
    unfold Recorded.Fresh
    decide +kernel
  have hu : ∀ front, front <+: Sample.longerLast → (Sample.written front).Undisturbed "/f" := by
    have hall : ∀ front ∈ Sample.longerLast.inits, (Sample.written front).Undisturbed "/f" := by
      decide +kernel
    exact fun front hp => hall front ((List.mem_inits _ _).mpr hp)
  have hany : ((Sample.written Sample.longerLast).clients.any fun client => decide
      (client.step.operation = .write "/f" 0 [98, 99, 100, 101, 102] ∧
        client.answer? = some (.count 5) ∧
        firstSeen client.events = some (StatRecord.new 0o100644 (Sample.now 0)))) = true := by
    decide +kernel
  obtain ⟨client, hm, hc⟩ := List.any_eq_true.mp hany
  obtain ⟨hw, ha, hs⟩ := of_decide_eq_true hc
  have hp : client.step.operation.path = "/f" := congrArg Operation.path hw
  refine ⟨hv, hr, hf, hu, by decide +kernel, ?_⟩
  exact (write_shrinks_iff_overtaken hv 64 defaultScope hr Sample.longerLast hf).2 "/f" hu client hm
    hp _ ha _ _ _ _ hw hs (by decide) (by decide)

-- Both writes succeed, and the shorter one takes the size back.
theorem sample_write_shrinks :
    (Sample.written Sample.shorterLast).clients.map Client.answer? =
      [some .nothing, some (.stat (StatRecord.new 0o100644 (Sample.now 0))), some (.count 1),
        some (.count 5)] ∧
      ((Sample.written Sample.shorterLast).store.image.docs defaultScope).StatAt "/f"
        (some ((StatRecord.new 0o100644 (Sample.now 0)).apply (.size 1) (Sample.now 0))) := by
  unfold Docs.StatAt
  decide +kernel

end DocTree
