import DocTree.Proofs.Call.Revision
import DocTree.Proofs.Store.Fates
import DocTree.Proofs.Store.History

namespace DocTree

-- The request reaches the store.
def Fate.arrives : Fate → Bool
  | answered => true
  | refused _ => false
  | dropped => false
  | lost => true

-- Whether a request is there to change its document.
def Request.writes : Request → Bool
  | get _ => false
  | insert _ _ => true
  | replace _ _ _ => true
  | remove _ => true

-- A request of the client in question, and what it met.
structure Event where
  asked : Asked
  -- The answer of the store, if the request reached it.
  response : Option Response
  -- The document that the request names, right before it and right after it.
  before : Option Document
  after : Option Document

def Event.carriedOut (event : Event) : Bool :=
  event.asked.request.writes && event.response.any Response.isSuccess

structure Shared where
  store : Recorded
  -- What the other clients ask for before the next request of this one, and before those after it.
  others : Nat → List Asked
  fates : Nat → Fate
  -- The requests of this client, the last one first.
  events : List Event

namespace Shared

def start (header : Header) (others : Nat → List Asked) (fates : Nat → Fate) : Shared :=
  ⟨Recorded.new header, others, fates, []⟩

-- The store as the next request finds it.
def found (shared : Shared) : Recorded := (shared.others 0).foldl Recorded.ask shared.store

def event (shared : Shared) (asked : Asked) (arrived : Bool) : Event where
  asked
  response := if arrived then some (shared.found.answer asked) else none
  before := shared.found.image.documentAt? asked.address
  after :=
    (if arrived then shared.found.ask asked else shared.found).image.documentAt? asked.address

def next (shared : Shared) (asked : Asked) (arrived : Bool) : Shared where
  store := if arrived then shared.found.ask asked else shared.found
  others n := shared.others (n + 1)
  fates n := shared.fates (n + 1)
  events := shared.event asked arrived :: shared.events

def reply (shared : Shared) (asked : Asked) : Reply :=
  match shared.fates 0 with
  | .answered => .answered (shared.found.answer asked)
  | .refused reason => .refused reason
  | .dropped => .dropped
  | .lost => .dropped

def backend (maxSize : Nat) (scope : String) : Backend Shared :=
  fun collection request shared =>
    let asked : Asked := ⟨maxSize, scope, collection, request⟩
    (shared.reply asked, shared.next asked (shared.fates 0).arrives)

end Shared

namespace Recorded

-- A store whose account goes back to when it was new.
def Reached (header : Header) (store : Recorded) : Prop := ∃ requests, store = after header requests

variable {header : Header} {store later : Recorded}

theorem Reached.ask (h : store.Reached header) (asked : Asked) :
    (store.ask asked).Reached header := by
  obtain ⟨requests, rfl⟩ := h
  exact ⟨asked :: requests, rfl⟩

theorem Reached.askAll (h : store.Reached header) (requests : List Asked) :
    (requests.foldl Recorded.ask store).Reached header := by
  induction requests generalizing store with
  | nil => exact h
  | cons asked requests ih => exact ih (h.ask asked)

theorem log_suffix_askAll (store : Recorded) (requests : List Asked) :
    store.log <:+ (requests.foldl ask store).log := by
  induction requests generalizing store with
  | nil => exact List.suffix_rfl
  | cons asked requests ih => exact (List.suffix_cons _ _).trans (ih (store.ask asked))

theorem Fresh.of_suffix (h : later.Fresh) (hs : store.log <:+ later.log) : store.Fresh := by
  have hl := (hs.filter Entry.wrote).length_le
  unfold Fresh versions written at h ⊢
  rw [List.length_map] at h ⊢
  omega

-- Between a read and a later look, a document with the same version has the same value.
theorem Fresh.value_eq (h : later.Fresh) (address : Address) (hr : store.Reached header)
    (hl : later.Reached header) (hs : store.log <:+ later.log)
    (hv : (later.image.documentAt? address).map Document.version =
      (store.image.documentAt? address).map Document.version) :
    (later.image.documentAt? address).map Document.value =
      (store.image.documentAt? address).map Document.value := by
  obtain ⟨requests, rfl⟩ := hr
  obtain ⟨more, rfl⟩ := hl
  cases hn : (after header requests).image.documentAt? address with
  | none =>
    rw [hn, Option.map_none, Option.map_eq_none_iff] at hv
    rw [hv]
  | some read =>
    rw [hn, Option.map_some] at hv
    obtain ⟨current, hc, hcv⟩ := Option.map_eq_some_iff.mp hv
    obtain ⟨old, ho, -, hov, hor⟩ := mem_of_lastWrite (lastWrite_of_documentAt? hn)
    obtain ⟨new, hw, -, hnv, hnr⟩ := mem_of_lastWrite (lastWrite_of_documentAt? hc)
    -- Both versions were handed out by one write.
    have he : old = new :=
      h.eq_of_version ((hs.filter Entry.wrote).subset ho) hw (hor.trans (hcv.symm.trans hnr.symm))
    rw [hc, Option.map_some, Option.map_some, ← hov, ← hnv, he]

end Recorded

namespace Shared

open Recorded (Reached Fresh)

variable {α : Type} {header : Header} {shared : Shared} {asked : Asked} {arrived : Bool}
  {maxSize : Nat} {scope : String}

theorem reached_found (h : shared.store.Reached header) : shared.found.Reached header :=
  h.askAll _

theorem log_suffix_found (shared : Shared) : shared.store.log <:+ shared.found.log :=
  Recorded.log_suffix_askAll _ _

theorem reached_next (h : shared.store.Reached header) :
    (shared.next asked arrived).store.Reached header := by
  unfold next
  dsimp only
  split
  · exact (reached_found h).ask asked
  · exact reached_found h

theorem found_suffix_next (shared : Shared) (asked : Asked) (arrived : Bool) :
    shared.found.log <:+ (shared.next asked arrived).store.log := by
  unfold next
  dsimp only
  split
  · exact List.suffix_cons _ _
  · exact List.suffix_rfl

theorem log_suffix_run (call : Call α) (shared : Shared) :
    shared.store.log <:+ (call.run (backend maxSize scope) shared).2.store.log := by
  induction call generalizing shared with
  | done value => exact List.suffix_rfl
  | fail error => exact List.suffix_rfl
  | crash => exact List.suffix_rfl
  | submit collection request rest ih =>
    exact ((log_suffix_found shared).trans (found_suffix_next shared _ _)).trans (ih _ _)

end Shared

end DocTree
