import DocTree.Disk.Volume
import DocTree.Kernel.Mounted

namespace DocTree.Volume

def run {α : Type} (volume : Volume) (call : Call α) : Except VolumeError α × Volume :=
  match call.run (backend maxDocumentSize defaultScope) volume with
  | (.done value, volume) => (.ok value, volume)
  | (.failed error, volume) => (.error (.call error), volume)
  | (.crashed, volume) => (.error .crashed, volume)

-- Makes an image file with an empty root directory in it. The clock is read for the header, for the
-- new image on the disk, for the root directory and for the image that goes to the disk with it.
def format (path : String) (blockSize maxBlocks : UInt64) (now : Readings) (disk : Disk) :
    Except VolumeError Unit × Disk :=
  -- A block is stored as one document.
  if blockSize = 0 ∨ maxDocumentSize < blockSize.toNat then
    (.error (.badBlockSize blockSize), disk)
  else if maxBlocks = 0 ∨ maxBlockCount < maxBlocks.toNat then
    (.error (.badBlockCount maxBlocks), disk)
  else
    match create path (Header.new blockSize maxBlocks (now 0)) (now 1) disk with
    | (.error error, disk) => (.error error, disk)
    | (.ok volume, disk) =>
      match volume.run (Mounted.new volume.limits (now 2)) with
      | (.error error, _) => (.error error, disk)
      | (.ok _, volume) =>
        let (answer, _, disk) := volume.flush (now 3) disk
        (answer, disk)

def mount (path : String) (now : Readings) (disk : Disk) :
    Except VolumeError (Mounted × Volume) := do
  let volume ← load path (now 0) disk
  match volume.run (Mounted.new volume.limits (now 1)) with
  | (.error error, _) => .error error
  | (.ok mounted, volume) => .ok (mounted, volume)

end DocTree.Volume

namespace DocTree.VolumeError

-- A number with all but its 53 leading binary digits rounded away, ties to even.
def roundToDouble (n : Nat) : Nat :=
  let unit := 1 <<< (n.log2 - 52)
  let quotient := n / unit
  let rest := n % unit
  if unit < 2 * rest ∨ unit = 2 * rest ∧ quotient % 2 = 1 then (quotient + 1) * unit
  else quotient * unit

-- The same problem, of a file whose path was taken from this folder.
def inFolder (folder : String) : VolumeError → VolumeError
  | cannotCreate path error => cannotCreate (folder ++ path) error
  | cannotOpen path error => cannotOpen (folder ++ path) error
  | corrupt path error => corrupt (folder ++ path) error
  | notAnImage path magic => notAnImage (folder ++ path) magic
  | error => error

def message : VolumeError → String
  | call error => error.message
  | crashed => "crashed"
  | disk error => error.message
  | cannotCreate path _ => "can't create store image " ++ path
  | cannotOpen path _ => "can't open store image " ++ path
  | corrupt path _ => "corrupt store image " ++ path
  | notAnImage path magic =>
    path ++ " is not a store image (magic 0x" ++ String.ofList (Nat.toDigits 16 magic.toNat) ++ ")"
  | badBlockSize size =>
    "Block size must be between 1 B and 20.00 MiB, got " ++
      toString (roundToDouble size.toNat) ++ " B"
  | badBlockCount count =>
    "A file may span between 1 and 65536 blocks, got " ++ toString count.toNat

end DocTree.VolumeError
