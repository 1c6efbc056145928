import DocTree.Call.Document
import DocTree.Document.Stat
import DocTree.Limits

namespace DocTree.Metadata

def get (path : String) : Call (StatRecord × UInt64) := do
  let response ← Document.get .stats path
  let stat ← Call.ofExcept (StatRecord.decode response.value)
  return (stat, response.version)

def insert (path : String) (mode : UInt32) (now : TimeSpec) : Call StatRecord := do
  let stat := StatRecord.new mode now
  let _ ← Document.insert .stats path stat.encode
  return stat

def isConflict (error : FsError) : Bool := error = .conflict

def updateOnce (path : String) (change : StatChange) (now : TimeSpec) :
    Call (Option StatRecord) := do
  let (stat, version) ← get path
  let stat := stat.apply change now
  let stored ← Document.stored isConflict (Document.replace .stats path stat.encode (some version))
  return if stored then some stat else none

-- Changes a record; if another client changes it in between, from a fresh read again. Each attempt
-- reads the clock anew.
def update (path : String) (change : StatChange) (now : Readings) : Call StatRecord :=
  Call.retry (fun tried => updateOnce path change (now tried)) maxAttempts

def remove (path : String) : Call Unit := Document.remove .stats path

end DocTree.Metadata
