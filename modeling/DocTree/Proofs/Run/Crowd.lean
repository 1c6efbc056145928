import DocTree.Proofs.Call.Follows
import DocTree.Proofs.Run.Steps

namespace DocTree

-- A call under way: what is left of it, and the requests that it has made, the last one first.
structure Client where
  step : Step
  rest : Call Answer
  events : List Event

namespace Client

def new (limits : Limits) (step : Step) : Client := ⟨step, step.operation.call limits step.now, []⟩

def underway (client : Client) : Bool :=
  match client.rest with
  | .submit _ _ _ => true
  | _ => false

def answer? (client : Client) : Option Answer :=
  match client.rest with
  | .done answer => some answer
  | _ => none

theorem rest_eq_of_answer? {client : Client} {answer : Answer} (h : client.answer? = some answer) :
    client.rest = .done answer := by
  unfold answer? at h
  split at h
  · next hr => rw [hr, Option.some_inj.mp h]
  · cases h

-- The client after its next request, and the store; a call that has ended makes none.
def advance (maxSize : Nat) (scope : String) (client : Client) (store : Recorded) :
    Client × Recorded :=
  match client.rest with
  | .submit collection request next =>
    let asked : Asked := ⟨maxSize, scope, collection, request⟩
    (⟨client.step, next (.answered (store.answer asked)), store.event asked :: client.events⟩,
      store.ask asked)
  | _ => (client, store)

end Client

-- A client that has the store for itself.
def Recorded.backend (maxSize : Nat) (scope : String) : Backend Recorded :=
  fun collection request store =>
    let asked : Asked := ⟨maxSize, scope, collection, request⟩
    (.answered (store.answer asked), store.ask asked)

structure Crowd where
  store : Recorded
  clients : List Client

inductive Move where
  | start (step : Step)
  | advance (number : Nat)

-- One client makes this many requests in a row.
def Move.turns (number count : Nat) : List Move := List.replicate count (.advance number)

namespace Crowd

-- The next request of the client with this number, if there is one.
def advance (maxSize : Nat) (scope : String) (crowd : Crowd) (number : Nat) : Crowd :=
  match crowd.clients[number]? with
  | some client =>
    let (client, store) := client.advance maxSize scope crowd.store
    ⟨store, crowd.clients.set number client⟩
  | none => crowd

def move (limits : Limits) (maxSize : Nat) (scope : String) (crowd : Crowd) : Move → Crowd
  | .start step => { crowd with clients := crowd.clients ++ [Client.new limits step] }
  | .advance number => crowd.advance maxSize scope number

def play (limits : Limits) (maxSize : Nat) (scope : String) (crowd : Crowd) (moves : List Move) :
    Crowd :=
  moves.foldl (move limits maxSize scope) crowd

variable {limits : Limits} {maxSize : Nat} {scope : String} {crowd : Crowd} {number : Nat}
  {client : Client}

-- A client makes its next request; nothing happens in the name of one whose call has ended, nor of
-- one that is not there.
theorem advance_cases (maxSize : Nat) (scope : String) (crowd : Crowd) (number : Nat) :
    crowd.advance maxSize scope number = crowd ∨
      ∃ client collection request next, crowd.clients[number]? = some client ∧
        client.rest = .submit collection request next ∧
        crowd.advance maxSize scope number =
          let asked : Asked := ⟨maxSize, scope, collection, request⟩
          ⟨crowd.store.ask asked, crowd.clients.set number ⟨client.step,
            next (.answered (crowd.store.answer asked)),
            crowd.store.event asked :: client.events⟩⟩ := by
  cases hc : crowd.clients[number]? with
  | none =>
    left
    rw [advance, hc]
  | some client =>
    have hstays : client.advance maxSize scope crowd.store = (client, crowd.store) →
        crowd.advance maxSize scope number = crowd := by
      intro he
      obtain ⟨hlt, rfl⟩ := List.getElem?_eq_some_iff.mp hc
      rw [advance, hc]
      dsimp only
      rw [he]
      exact congrArg (Crowd.mk crowd.store) (List.set_getElem_self hlt)
    cases hr : client.rest with
    | submit collection request next =>
      refine .inr ⟨client, collection, request, next, rfl, hr, ?_⟩
      rw [advance, hc]
      dsimp only
      rw [Client.advance, hr]
    | _ =>
      left
      apply hstays
      rw [Client.advance, hr]

theorem log_suffix_move (crowd : Crowd) (move : Move) :
    crowd.store.log <:+ (crowd.move limits maxSize scope move).store.log := by
  cases move with
  | start step => exact List.suffix_rfl
  | advance number =>
    have hlog : (crowd.move limits maxSize scope (.advance number)).store.log =
        (crowd.advance maxSize scope number).store.log := rfl
    rcases advance_cases maxSize scope crowd number with he | ⟨_, _, _, _, -, -, he⟩
    · exact (hlog.trans (congrArg (·.store.log) he)) ▸ List.suffix_rfl
    · exact (hlog.trans (congrArg (·.store.log) he)) ▸ List.suffix_cons _ _

theorem log_suffix_play (crowd : Crowd) {front moves : List Move} (h : front <+: moves) :
    (crowd.play limits maxSize scope front).store.log <:+
      (crowd.play limits maxSize scope moves).store.log := by
  obtain ⟨more, rfl⟩ := h
  unfold play
  rw [List.foldl_append]
  generalize front.foldl (move limits maxSize scope) crowd = crowd
  induction more generalizing crowd with
  | nil => exact List.suffix_rfl
  | cons first rest ih => exact (log_suffix_move crowd first).trans (ih _)

end Crowd

-- What all clients of a store agree on: which calls they make, what always holds of the store, and
-- for each call what it relies on, what it keeps to and what it comes to.
structure Pact where
  header : Header
  maxSize : Nat
  scope : String
  joins : Step → Prop
  inv : Recorded → Prop
  rely : Step → List Event → Recorded → Recorded → Prop
  safe : Step → List Event → Event → Prop
  post : Step → Answer → List Event → Recorded → Prop

namespace Pact

def contract (pact : Pact) (step : Step) : Contract :=
  ⟨pact.header, pact.maxSize, pact.scope, pact.rely step, pact.safe step⟩

-- Each request kept to the pact when it was made.
def Kept (pact : Pact) (step : Step) : List Event → Prop
  | [] => True
  | event :: earlier => pact.safe step earlier event ∧ pact.Kept step earlier

theorem Kept.of_append {pact : Pact} {step : Step} {event : Event} {earlier : List Event}
    (later : List Event) (h : pact.Kept step (later ++ event :: earlier)) :
    pact.safe step earlier event := by
  induction later with
  | nil => exact h.1
  | cons last later ih => exact ih h.2

-- A client that has kept to the pact, and will.
structure Binds (pact : Pact) (store : Recorded) (client : Client) : Prop where
  kept : pact.Kept client.step client.events
  follows : client.rest.Follows (pact.contract client.step) (pact.post client.step)
    (fun _ _ _ => True) client.events store

-- A client looks on while another one makes a request, in a crowd that is in a `good` state before
-- and after it.
structure Meets (pact : Pact) (good : Crowd → Prop) (crowd : Crowd) (asked : Asked)
    (one other : Client) : Prop where
  inv : pact.inv crowd.store
  before : good crowd
  members : ∃ first second : Nat, first ≠ second ∧ crowd.clients[first]? = some one ∧
    crowd.clients[second]? = some other ∧ ∃ rest, good ⟨crowd.store.ask asked,
      crowd.clients.set first ⟨one.step, rest, crowd.store.event asked :: one.events⟩⟩
  scope : asked.scope = pact.scope
  underway : one.underway = true
  safe : pact.safe one.step one.events (crowd.store.event asked)

-- The pact holds together, as long as the crowd is in `good` states only.
structure Sound (pact : Pact) (limits : Limits) (good : Crowd → Prop) : Prop where
  starts : ∀ (step : Step) (store : Recorded), pact.joins step → pact.inv store →
    (step.operation.call limits step.now).Follows (pact.contract step) (pact.post step)
      (fun _ _ _ => True) [] store
  refl : ∀ (step : Step) (events : List Event) (store : Recorded), pact.inv store →
    pact.rely step events store store
  trans : ∀ (step : Step) (events : List Event) (store mid later : Recorded),
    pact.rely step events store mid → pact.rely step events mid later →
      pact.rely step events store later
  keeps : ∀ (step : Step) (events : List Event) (store : Recorded) (asked : Asked),
    asked.scope = pact.scope → pact.inv store → pact.safe step events (store.event asked) →
      pact.inv (store.ask asked)
  others : ∀ (crowd : Crowd) (asked : Asked) (one other : Client),
    pact.Meets good crowd asked one other → other.underway →
      pact.rely other.step other.events crowd.store (crowd.store.ask asked)
  settles : ∀ (crowd : Crowd) (asked : Asked) (one other : Client) (value : Answer),
    pact.Meets good crowd asked one other →
      pact.post other.step value other.events crowd.store →
        pact.post other.step value other.events (crowd.store.ask asked)
  reached : ∀ store : Recorded, pact.inv store → store.Reached pact.header
  fresh : ∀ crowd : Crowd, good crowd → crowd.store.Fresh

-- The state of a crowd whose clients are all bound.
structure Holds (pact : Pact) (crowd : Crowd) : Prop where
  inv : pact.inv crowd.store
  binds : ∀ (number : Nat) (client : Client), crowd.clients[number]? = some client →
    pact.Binds crowd.store client

variable {pact : Pact} {limits : Limits} {good : Crowd → Prop} {crowd : Crowd}

-- A client stays bound by the pact when another one makes a request.
theorem Sound.binds_other (h : pact.Sound limits good) {asked : Asked} {one other : Client}
    (hm : pact.Meets good crowd asked one other) (hb : pact.Binds crowd.store other) :
    pact.Binds (crowd.store.ask asked) other := by
  refine ⟨hb.kept, ?_⟩
  have hfollows := hb.follows
  cases hr : other.rest with
  | done value =>
    rw [hr] at hfollows
    exact h.settles crowd asked one other value hm hfollows
  | fail error => trivial
  | crash => rwa [hr] at hfollows
  | submit collection request next =>
    rw [hr] at hfollows
    have hrely := h.others crowd asked one other hm (by rw [Client.underway, hr])
    -- What it may find next is later than the store that it could find up to now.
    intro later hlater
    refine hfollows later ⟨⟨hlater.precedes.reached, ?_, hlater.precedes.fresh⟩, ?_⟩
    · exact (List.suffix_cons _ _).trans hlater.precedes.log
    · exact h.trans _ _ _ _ _ hrely hlater.rely

theorem Sound.advance (h : pact.Sound limits good) (hh : pact.Holds crowd) {number : Nat}
    (hg : good crowd) (ha : good (crowd.advance pact.maxSize pact.scope number)) :
    pact.Holds (crowd.advance pact.maxSize pact.scope number) := by
  rcases Crowd.advance_cases pact.maxSize pact.scope crowd number with
    he | ⟨client, collection, request, next, hc, hr, he⟩
  · rwa [he]
  rw [he] at ha ⊢
  have hb := hh.binds number client hc
  have hfollows := hb.follows
  rw [hr] at hfollows
  -- Of all the stores that the client may find, it finds the present one.
  obtain ⟨hsafe, hnext⟩ := hfollows crowd.store
    ⟨⟨h.reached _ hh.inv, List.suffix_rfl, h.fresh crowd hg⟩, h.refl _ _ _ hh.inv⟩
  refine ⟨h.keeps _ _ _ _ rfl hh.inv hsafe, fun second other ho => ?_⟩
  dsimp only at ho
  rw [List.getElem?_set] at ho
  split at ho
  · rw [if_pos (List.getElem?_eq_some_iff.mp hc).1, Option.some_inj] at ho
    subst ho
    exact ⟨⟨hsafe, hb.kept⟩, hnext⟩
  · next hne =>
    have hu : client.underway = true := by rw [Client.underway, hr]
    exact h.binds_other ⟨hh.inv, hg, ⟨number, second, hne, hc, ho, _, ha⟩, rfl, hu, hsafe⟩
      (hh.binds second other ho)

theorem Sound.start (h : pact.Sound limits good) (hh : pact.Holds crowd) {step : Step}
    (hj : pact.joins step) :
    pact.Holds ⟨crowd.store, crowd.clients ++ [Client.new limits step]⟩ := by
  refine ⟨hh.inv, fun number client hc => ?_⟩
  dsimp only at hc
  rw [List.getElem?_append] at hc
  split at hc
  · exact hh.binds number client hc
  · rw [List.getElem?_singleton] at hc
    split at hc
    · obtain rfl := Option.some_inj.mp hc
      exact ⟨trivial, h.starts step _ hj hh.inv⟩
    · cases hc

-- Whatever the order of the requests.
theorem Sound.play (h : pact.Sound limits good) (hh : pact.Holds crowd) (moves : List Move)
    (hj : ∀ step, .start step ∈ moves → pact.joins step)
    (hg : ∀ front, front <+: moves → good (crowd.play limits pact.maxSize pact.scope front)) :
    pact.Holds (crowd.play limits pact.maxSize pact.scope moves) := by
  -- On the last move, as the crowd has to be in a `good` state before it as well as after it.
  induction moves using List.reverseRecOn with
  | nil => exact hh
  | append_singleton moves last ih =>
    have hfront : moves <+: moves ++ [last] := List.prefix_append _ _
    have hbefore := ih (fun step hm => hj step (List.mem_append_left _ hm))
      fun front hf => hg front (hf.trans hfront)
    have hafter := hg _ List.prefix_rfl
    unfold Crowd.play at hbefore hafter ⊢
    rw [List.foldl_concat] at hafter ⊢
    cases last with
    | start step => exact h.start hbefore (hj step (by simp))
    | advance number => exact h.advance hbefore (hg moves hfront) hafter

end Pact

end DocTree
