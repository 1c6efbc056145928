import DocTree.Call.Basic

namespace DocTree.Document

def describe (collection : Collection) (request : Request) : String :=
  request.kind ++ " " ++ collection.name ++ "/" ++ request.key

def noAnswer : String := "store dropped the request without answering"

-- Fails only if there is no answer, whatever the status of an answer is.
def execute (collection : Collection) (request : Request) : Call Response :=
  .submit collection request fun
    | .answered response => .done response
    | .refused reason => .fail (.io (describe collection request ++ ": " ++ reason))
    | .dropped => .fail (.io (describe collection request ++ ": " ++ noAnswer))

def expectSuccess (collection : Collection) (request : Request) : Call Response := do
  let response ← execute collection request
  Call.check (response.status = .success) response.status.error
  return response

def get (collection : Collection) (key : String) : Call Response :=
  expectSuccess collection (.get key)

def insert (collection : Collection) (key : String) (value : Bytes) : Call UInt64 := do
  return (← expectSuccess collection (.insert key value)).version

def replace (collection : Collection) (key : String) (value : Bytes) (version : Option UInt64) :
    Call UInt64 := do
  return (← expectSuccess collection (.replace key value version)).version

def remove (collection : Collection) (key : String) : Call Unit := do
  let _ ← expectSuccess collection (.remove key)

-- Carries out a write and tells whether it was stored; `stale` are the errors that say that the
-- document has changed since it was read.
def stored (stale : FsError → Bool) (write : Call UInt64) : Call Bool := do
  match ← write.attempt with
  | .ok _ => return true
  | .error error =>
    Call.check (stale error) error
    return false

end DocTree.Document
