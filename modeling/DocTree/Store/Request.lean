import DocTree.Bytes.Basic
import DocTree.Error

namespace DocTree

inductive Collection where
  -- Stat records, under the path.
  | stats
  -- Directory documents, under the path of the directory.
  | dentries
  -- The content of files, under the path and the number of the block.
  | blocks
  deriving DecidableEq, Repr

def Collection.name : Collection → String
  | stats => "stats"
  | dentries => "dentries"
  | blocks => "blocks"

inductive Request where
  | get (key : String)
  -- Stores a value under a key that has none.
  | insert (key : String) (value : Bytes)
  -- Overwrites a document. With a version, only if that is still its version.
  | replace (key : String) (value : Bytes) (version : Option UInt64)
  | remove (key : String)
  deriving DecidableEq, Repr

namespace Request

def key : Request → String
  | get key => key
  | insert key _ => key
  | replace key _ _ => key
  | remove key => key

def kind : Request → String
  | get _ => "get"
  | insert _ _ => "insert"
  | replace _ _ _ => "replace"
  | remove _ => "remove"

end Request

inductive Status where
  | success
  | notFound
  | exists
  | versionMismatch
  | tooBig
  | failure (reason : String)
  deriving DecidableEq, Repr

def Status.error : Status → FsError
  | notFound => .notFound
  | .exists => .alreadyExists
  | versionMismatch => .conflict
  | tooBig => .fileTooLarge
  | failure reason => .io reason
  | success => .io "unexpected success status"

structure Response where
  status : Status := .success
  -- The value of the document, for a get that succeeds.
  value : Bytes := []
  version : UInt64 := 0
  flags : UInt32 := 0
  deriving DecidableEq, Repr, Inhabited

def Response.isSuccess (response : Response) : Bool := response.status = .success

inductive Reply where
  -- The request did not reach the store.
  | refused (reason : String)
  -- The request was submitted, and no answer came.
  | dropped
  | answered (response : Response)
  deriving DecidableEq, Repr

end DocTree
