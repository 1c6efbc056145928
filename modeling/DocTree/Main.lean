import DocTree.CommandLine
import DocTree.Disk.Format
import Std.Time.DateTime.Timestamp

namespace DocTree.CommandLine

-- The wall clock, which reads as the epoch if it is set before that.
def wallClock : IO TimeSpec := do
  let nanos := (← Std.Time.Timestamp.now).toNanosecondsSinceUnixEpoch.toInt.toNat
  return ⟨UInt64.ofNat (nanos / nanosPerSecond), UInt32.ofNat (nanos % nanosPerSecond)⟩

-- What a folder holds under some names.
def observe (folder : String) (names : List String) : IO Disk := do
  let mut disk : Disk := ∅
  for name in names do
    try
      let content ← IO.FS.readBinFile (folder ++ name)
      disk := disk.insert [name] (.file content.data.toList)
    catch
      | .noFileOrDirectory .. => pure ()
      | _ => disk := disk.insert [name] .folder
  return disk

-- Writes the files that are new or changed, and removes those that are gone.
def carryOut (folder : String) (before after : Disk) : IO Unit := do
  let path (place : Place) : String := folder ++ "/".intercalate place
  for (place, entry) in after.toList do
    if let .file content := entry then
      if before[place]? ≠ some entry then
        IO.FS.writeBinFile (path place) ⟨content.toArray⟩
  for place in before.keys do
    unless after.contains place do
      IO.FS.removeFile (path place)

-- Makes an image file, or checks that one can be mounted. To serve it takes the interface of the
-- kernel, which is no part of this.
def Command.run (command : Command) : IO (Option String) := do
  let start ← wallClock
  let now : Readings := fun _ => start
  match command with
  | .format image blockSize maxBlocks =>
    let (folder, name) := splitPath image
    let before ← observe folder [name, stagingPath name]
    let (result, after) := Volume.format name blockSize maxBlocks now before
    carryOut folder before after
    match result with
    | .ok () => return none
    | .error error => return some (error.inFolder folder).message
  | .mount image mountPoint _ =>
    let (folder, name) := splitPath image
    match Volume.mount name now (← observe folder [name]) with
    | .ok _ => return some ("no kernel interface to serve " ++ mountPoint)
    | .error error => return some (error.inFolder folder).message

def usage : String :=
  "usage: mkfs -p IMAGE [-b BLOCK_SIZE] [-m MAX_BLOCKS] | mount -p IMAGE -m MOUNT_POINT [-a]"

end DocTree.CommandLine

open DocTree.CommandLine in
def main (arguments : List String) : IO UInt32 := do
  match read arguments with
  | .error .helpWanted =>
    IO.println usage
    return 0
  | .error _ =>
    IO.eprintln usage
    return 2
  | .ok command =>
    match ← command.run with
    | none => return 0
    | some problem =>
      IO.eprintln ("Error: " ++ problem)
      return 1
