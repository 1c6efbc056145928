import DocTree.Call.Run
import DocTree.Tree.Content
import DocTree.Tree.Directory

namespace DocTree

-- A change of one document. `step` tells from how often it was tried before and from the value that
-- was read, if there was one, what to store and what to answer; without a value to store, the
-- document stays as it is.
structure Revision (α : Type) where
  collection : Collection
  key : String
  step : Nat → Option Bytes → Outcome (Option Bytes × α)
  -- The answers to a write which say that the document has changed since it was read.
  stale : List Status

theorem Call.retry_succ {α : Type} (once : Nat → Call (Option α)) (attempts : Nat) :
    retry once (attempts + 1) = (once 0).bind fun answer =>
      answer.elim (retry (fun tried => once (tried + 1)) attempts) done := by
  rw [retry]
  refine congrArg (once 0).bind ?_
  funext answer
  cases answer <;> rfl

namespace Revision

variable {α β : Type}

def write (revision : Revision α) (version : Option UInt64) (value : Bytes) : Request :=
  match version with
  | some version => .replace revision.key value (some version)
  | none => .insert revision.key value

-- Tries to store a value; `none` if the document is no longer as it was read.
def store (revision : Revision α) (version : Option UInt64) (value : Bytes) (answer : α) :
    Call (Option α) := do
  let response ← Document.execute revision.collection (revision.write version value)
  if response.status = .success then return some answer
  else if response.status ∈ revision.stale then return none
  else Call.fail response.status.error

def act (revision : Revision α) (tried : Nat) (current : Option (Bytes × UInt64)) :
    Call (Option α) :=
  match revision.step tried (current.map Prod.fst) with
  | .done (some value, answer) => revision.store (current.map Prod.snd) value answer
  | .done (none, answer) => return some answer
  | .failed error => Call.fail error
  | .crashed => Call.crash

def attempt (revision : Revision α) (tried : Nat) : Call (Option α) := do
  let response ← Document.execute revision.collection (.get revision.key)
  if response.status = .success then revision.act tried (some (response.value, response.version))
  else if response.status = .notFound then revision.act tried none
  else Call.fail response.status.error

-- A change of a document that is there and holds a record.
def ofRecord (collection : Collection) (key : String) (decode : Bytes → Except FsError α)
    (change : Nat → α → α) (encode : α → Bytes) : Revision α where
  collection
  key
  step tried
    | none => .failed .notFound
    | some bytes =>
      match decode bytes with
      | .ok record => .done (some (encode (change tried record)), change tried record)
      | .error error => .failed error
  stale := [.versionMismatch]

def ofStat (path : String) (change : StatChange) (now : Readings) : Revision StatRecord :=
  ofRecord .stats path StatRecord.decode (fun tried => (·.apply change (now tried)))
    StatRecord.encode

def ofDentry (directory : String) (change : Dentry → Dentry) : Revision Dentry :=
  ofRecord .dentries directory Dentry.decode (fun _ => change) Dentry.encode

-- A change of a block. If it is not there it counts as empty, or with `create` unset is left alone.
def ofBlock (path : String) (index : Nat) (create : Bool)
    (change : Bytes → Option (Bytes × β)) : Revision (Option β) where
  collection := .blocks
  key := Path.blockKey path index
  step _ current :=
    if current = none ∧ create = false then .done (none, none)
    else
      match change (current.getD []) with
      | some (block, answer) => .done (some block, some answer)
      | none => .crashed
  stale := [.versionMismatch, .exists]

theorem bind_execute (collection : Collection) (request : Request) (next : Response → Call α) :
    (Document.execute collection request >>= next) = .submit collection request fun
      | .answered response => next response
      | .refused reason => .fail (.io (Document.describe collection request ++ ": " ++ reason))
      | .dropped => .fail (.io (Document.describe collection request ++ ": " ++
          Document.noAnswer)) := by
  change Call.submit collection request _ = Call.submit collection request _
  congr 1
  funext reply
  cases reply <;> rfl

-- A request that must succeed, as a choice on the answer.
theorem expectSuccess_eq (collection : Collection) (request : Request) :
    Document.expectSuccess collection request = (do
      let response ← Document.execute collection request
      if response.status = .success then return response
      else Call.fail response.status.error) := by
  unfold Document.expectSuccess Call.check
  congr 1
  funext response
  split <;> rfl

-- Whether a write was stored, as a choice on the answer to it.
theorem stored_eq {stale : FsError → Bool} {statuses : List Status} {collection : Collection}
    {request : Request} (answer : α)
    (hs : ∀ status, status ≠ .success → stale status.error = decide (status ∈ statuses))
    (hio : ∀ text, stale (.io text) = false) :
    (do
      let stored ← Document.stored stale do
        return (← Document.expectSuccess collection request).version
      return if stored then some answer else none) = (do
      let response ← Document.execute collection request
      if response.status = .success then return some answer
      else if response.status ∈ statuses then return none
      else Call.fail response.status.error) := by
  rw [bind_execute]
  change Call.submit collection request _ = Call.submit collection request _
  congr 1
  funext reply
  cases reply with
  | answered response =>
    by_cases hk : response.status = .success
    · simp [Call.check, hk, bind, pure, Call.bind, Call.attempt]
    · by_cases hm : response.status ∈ statuses <;>
        simp [Call.check, hk, hm, hs, bind, pure, Call.bind, Call.attempt]
  | refused reason => simp [Call.check, hio, bind, pure, Call.bind, Call.attempt]
  | dropped => simp [Call.check, hio, bind, pure, Call.bind, Call.attempt]

theorem isConflict_error (status : Status) (h : status ≠ .success) :
    Metadata.isConflict status.error = decide (status ∈ [Status.versionMismatch]) := by
  cases status <;> simp_all [Metadata.isConflict, Status.error]

theorem isStale_error (status : Status) (h : status ≠ .success) :
    Content.isStale status.error = decide (status ∈ [Status.versionMismatch, .exists]) := by
  cases status <;> simp_all [Content.isStale, Status.error]

theorem attempt_ofRecord {collection : Collection} {key : String}
    {decode : Bytes → Except FsError α} {change : Nat → α → α} {encode : α → Bytes}
    (tried : Nat) :
    (ofRecord collection key decode change encode).attempt tried = (do
      let response ← Document.get collection key
      let record ← Call.ofExcept (decode response.value)
      let stored ← Document.stored Metadata.isConflict
        (Document.replace collection key (encode (change tried record)) (some response.version))
      return if stored then some (change tried record) else none) := by
  unfold attempt Document.get
  rw [expectSuccess_eq, bind_assoc]
  congr 1
  funext response
  by_cases hk : response.status = .success
  · simp only [hk, ite_true, pure_bind]
    unfold act
    cases hd : decode response.value with
    | error error => simp [ofRecord, hd, Call.ofExcept, bind, Call.bind]
    | ok record =>
      simp only [ofRecord, hd, Option.map_some, Call.ofExcept]
      exact (stored_eq _ isConflict_error fun _ => rfl).symm
  · by_cases hn : response.status = .notFound
    · simp [hn, act, ofRecord, Status.error, bind, Call.bind]
    · simp [hk, hn, bind, Call.bind]

theorem updateOnce_eq (path : String) (change : StatChange) (now : Readings) (tried : Nat) :
    Metadata.updateOnce path change (now tried) = (ofStat path change now).attempt tried := by
  unfold Metadata.updateOnce Metadata.get
  simp only [ofStat, attempt_ofRecord, bind_assoc, pure_bind]

theorem modifyOnce_eq (directory : String) (change : Dentry → Dentry) (tried : Nat) :
    Directory.modifyOnce directory change = (ofDentry directory change).attempt tried := by
  unfold Directory.modifyOnce Directory.getVersioned
  simp only [ofDentry, attempt_ofRecord, bind_assoc, pure_bind]

theorem fetch_eq (path : String) (index : Nat) : Content.fetch path index = (do
    let response ← Document.execute .blocks (.get (Path.blockKey path index))
    if response.status = .success then return some (response.value, response.version)
    else if response.status = .notFound then return none
    else Call.fail response.status.error) := by
  unfold Content.fetch Document.get
  rw [bind_execute]
  change Call.submit _ _ _ = Call.submit _ _ _
  congr 1
  funext reply
  cases reply with
  | answered response =>
    cases hs : response.status <;>
      simp [Call.check, hs, bind, pure, Call.bind, Call.attempt, Status.error]
  | refused reason => rfl
  | dropped => rfl

theorem modifyBlockOnce_eq (path : String) (index : Nat) (create : Bool)
    (change : Bytes → Option (Bytes × β)) (tried : Nat) :
    Content.modifyOnce path index create change =
      (ofBlock path index create change).attempt tried := by
  unfold Content.modifyOnce attempt
  rw [fetch_eq, bind_assoc]
  congr 1
  funext response
  by_cases hk : response.status = .success
  · simp only [hk, ite_true, pure_bind]
    unfold act
    cases hc : change response.value with
    | none => simp [ofBlock, hc, Call.ofOption, bind, Call.bind]
    | some changed =>
      simp only [ofBlock, hc, Option.map_some, Option.getD_some, Call.ofOption, reduceCtorEq,
        false_and, ite_false]
      exact stored_eq _ isStale_error fun _ => rfl
  · by_cases hn : response.status = .notFound
    · simp only [hn, reduceCtorEq, ite_false, ite_true, pure_bind]
      unfold act
      cases create with
      | false => simp [ofBlock]
      | true =>
        cases hc : change [] with
        | none => simp [ofBlock, hc, Call.ofOption, bind, Call.bind]
        | some changed =>
          simp only [ofBlock, hc, Option.map_none, Option.getD_none, Call.ofOption, reduceCtorEq,
            and_false, ite_false, ite_true]
          exact stored_eq _ isStale_error fun _ => rfl
    · simp [hk, hn, bind, Call.bind]

-- The calls that change one document.
inductive MadeBy : {α : Type} → Revision α → Call α → Prop
  | update (path : String) (change : StatChange) (now : Readings) :
      MadeBy (ofStat path change now) (Metadata.update path change now)
  | addChild (directory name : String) :
      MadeBy (ofDentry directory (·.addChild name)) (Directory.addChild directory name)
  | removeChild (directory name : String) :
      MadeBy (ofDentry directory (·.removeChild name)) (Directory.removeChild directory name)
  | modify {β : Type} (path : String) (index : Nat) (create : Bool)
      (change : Bytes → Option (Bytes × β)) :
      MadeBy (ofBlock path index create change) (Content.modify path index create change)

variable {revision : Revision α} {call : Call α}

theorem MadeBy.eq_retry (h : revision.MadeBy call) :
    call = Call.retry revision.attempt maxAttempts := by
  cases h with
  | update path change now =>
    exact congrArg (Call.retry · _) (funext (updateOnce_eq path change now))
  | addChild directory name => exact congrArg (Call.retry · _) (funext (modifyOnce_eq directory _))
  | removeChild directory name =>
    exact congrArg (Call.retry · _) (funext (modifyOnce_eq directory _))
  | modify path index create change =>
    exact congrArg (Call.retry · _) (funext (modifyBlockOnce_eq path index create change))

-- What an attempt relies on: no change fails with the error that stands for too many attempts, a
-- value that was found is always written back, and a lost race is known as such.
structure Regular (revision : Revision α) : Prop where
  ne_conflict : ∀ tried current, revision.step tried current ≠ .failed .conflict
  writes : ∀ tried current answer, revision.step tried (some current) ≠ .done (none, answer)
  mem_stale : .versionMismatch ∈ revision.stale

theorem regular_ofRecord {collection : Collection} {key : String}
    {decode : Bytes → Except FsError α} {change : Nat → α → α} {encode : α → Bytes}
    (hd : ∀ bytes, decode bytes ≠ .error .conflict) :
    (ofRecord collection key decode change encode).Regular := by
  constructor
  case mem_stale => exact List.mem_singleton_self _
  case ne_conflict =>
    intro tried current
    cases current with
    | none => exact nofun
    | some bytes =>
      have h := hd bytes
      unfold ofRecord
      dsimp only
      cases hr : decode bytes with
      | ok record => exact nofun
      | error error =>
        rw [hr] at h
        exact fun he => h (congrArg Except.error (Outcome.failed.inj he))
  case writes =>
    intro tried bytes answer
    unfold ofRecord
    dsimp only
    split <;> exact nofun

theorem regular_ofBlock {path : String} {index : Nat} {create : Bool}
    {change : Bytes → Option (Bytes × β)} : (ofBlock path index create change).Regular := by
  constructor
  case mem_stale => exact List.mem_cons_self ..
  case ne_conflict =>
    intro tried current
    unfold ofBlock
    dsimp only
    split
    · exact nofun
    · split <;> exact nofun
  case writes =>
    intro tried current answer
    unfold ofBlock
    dsimp only
    rw [if_neg (fun h => nomatch h.1)]
    split <;> exact nofun

theorem MadeBy.regular (h : revision.MadeBy call) : revision.Regular := by
  have hstat : ∀ bytes, StatRecord.decode bytes ≠ .error .conflict := by
    intro bytes
    unfold StatRecord.decode
    split
    · exact nofun
    · split <;> exact nofun
  have hdentry : ∀ bytes, Dentry.decode bytes ≠ .error .conflict := by
    intro bytes
    unfold Dentry.decode
    split <;> exact nofun
  cases h with
  | update path change now => exact regular_ofRecord hstat
  | addChild directory name => exact regular_ofRecord hdentry
  | removeChild directory name => exact regular_ofRecord hdentry
  | modify path index create change => exact regular_ofBlock

end Revision

end DocTree
