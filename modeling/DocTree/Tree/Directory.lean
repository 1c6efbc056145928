import DocTree.Document.Dentry
import DocTree.Tree.Metadata

namespace DocTree.Directory

def getVersioned (directory : String) : Call (Dentry × UInt64) := do
  let response ← Document.get .dentries directory
  let dentry ← Call.ofExcept (Dentry.decode response.value)
  return (dentry, response.version)

def get (directory : String) : Call Dentry := do return (← getVersioned directory).1

def create (directory parent : String) : Call Dentry := do
  let dentry := Dentry.new directory parent
  let _ ← Document.insert .dentries directory dentry.encode
  return dentry

def modifyOnce (directory : String) (change : Dentry → Dentry) : Call (Option Dentry) := do
  let (dentry, version) ← getVersioned directory
  let dentry := change dentry
  let stored ← Document.stored Metadata.isConflict
    (Document.replace .dentries directory dentry.encode (some version))
  return if stored then some dentry else none

-- Changes a document; if another client changes it in between, from a fresh read again.
def modify (directory : String) (change : Dentry → Dentry) : Call Dentry :=
  Call.retry (fun _ => modifyOnce directory change) maxAttempts

def addChild (directory name : String) : Call Dentry :=
  modify directory fun dentry => dentry.addChild name

def removeChild (directory name : String) : Call Dentry :=
  modify directory fun dentry => dentry.removeChild name

def remove (directory : String) : Call Unit := Document.remove .dentries directory

end DocTree.Directory
