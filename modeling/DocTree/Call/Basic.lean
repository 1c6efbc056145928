import DocTree.Store.Request

namespace DocTree

-- A call as a tree of requests: each inner node submits one and goes on according to the reply, and
-- nothing in the tree says what answers. A crash stands for a cut outside a block, a result that is
-- no 64-bit word, or a loop that makes no progress.
inductive Call (α : Type) where
  | done (value : α)
  | fail (error : FsError)
  | crash
  | submit (collection : Collection) (request : Request) (next : Reply → Call α)

namespace Call

variable {α β : Type}

def bind : Call α → (α → Call β) → Call β
  | done value, next => next value
  | fail error, _ => fail error
  | crash, _ => crash
  | submit collection request rest, next =>
    submit collection request fun reply => (rest reply).bind next

instance : Monad Call where
  pure := done
  bind := bind

theorem bind_assoc {γ : Type} (call : Call α) (first : α → Call β) (second : β → Call γ) :
    (call.bind first).bind second = call.bind fun value => (first value).bind second := by
  induction call with
  | done value => rfl
  | fail error => rfl
  | crash => rfl
  | submit collection request rest ih =>
    simp only [bind]
    congr 1
    funext reply
    exact ih reply

theorem bind_done (call : Call α) : call.bind done = call := by
  induction call with
  | done value => rfl
  | fail error => rfl
  | crash => rfl
  | submit collection request rest ih =>
    simp only [bind]
    congr 1
    funext reply
    exact ih reply

instance : LawfulMonad Call :=
  LawfulMonad.mk' Call (fun call => bind_done call) (fun _ _ => rfl)
    (fun call first second => bind_assoc call first second)

-- The call with its error, if it ends in one, as an answer.
def attempt : Call α → Call (Except FsError α)
  | done value => done (.ok value)
  | fail error => done (.error error)
  | crash => crash
  | submit collection request next => submit collection request fun reply => (next reply).attempt

def ofExcept : Except FsError α → Call α
  | .ok value => done value
  | .error error => fail error

-- A step that must stay in range.
def ofOption : Option α → Call α
  | some value => done value
  | none => crash

def check (condition : Prop) [Decidable condition] (error : FsError) : Call Unit :=
  if condition then done () else fail error

-- Runs a call for its effect on the store only; an error of it does not count.
def bestEffort (call : Call α) : Call Unit := do let _ ← call.attempt

-- Repeats `once` until it answers a value, at most `attempts` times. It is told how often it was
-- tried before.
def retry (once : Nat → Call (Option α)) : Nat → Call α
  | 0 => fail .conflict
  | attempts + 1 => do
    match ← once 0 with
    | some value => return value
    | none => retry (fun tried => once (tried + 1)) attempts

end Call

end DocTree
