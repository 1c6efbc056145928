import DocTree.Call.Run
import DocTree.Disk.Files
import DocTree.Limits
import DocTree.Store.Sealed

namespace DocTree

inductive VolumeError where
  | call (error : FsError)
  -- A call left its range.
  | crashed
  | disk (error : DiskError)
  | cannotCreate (path : String) (error : DiskError)
  | cannotOpen (path : String) (error : DiskError)
  | corrupt (path : String) (error : SealError)
  | notAnImage (path : String) (magic : UInt32)
  | badBlockSize (size : UInt64)
  | badBlockCount (count : UInt64)
  deriving DecidableEq

-- An image in memory together with the file it was read from.
structure Volume where
  path : String
  image : Image

namespace Volume

-- Writes the image to a second file and renames that over the first, so a flush that fails leaves
-- the old image in place. The image in memory notes the time even then.
def flush (volume : Volume) (now : TimeSpec) (disk : Disk) :
    Except VolumeError Unit × Volume × Disk :=
  let header := { volume.image.header with modifiedAt := some now }
  let volume := { volume with image := { volume.image with header } }
  let staging := stagingPath volume.path
  let (content, _) := volume.image.writeTo []
  match disk.write staging content with
  | .error error => (.error (.disk error), volume, disk)
  | .ok written =>
    match written.rename staging volume.path with
    | .error error => (.error (.disk error), volume, written)
    | .ok disk => (.ok (), volume, disk)

def create (path : String) (header : Header) (now : TimeSpec) (disk : Disk) :
    Except VolumeError Volume × Disk :=
  match disk.createNew path with
  | .error error => (.error (.cannotCreate path error), disk)
  | .ok disk =>
    match flush ⟨path, Image.new header⟩ now disk with
    | (.error error, _, disk) => (.error error, disk)
    | (.ok (), volume, disk) => (.ok volume, disk)

def load (path : String) (now : TimeSpec) (disk : Disk) : Except VolumeError Volume :=
  match disk.map path with
  | .error .noDevice => .error (.disk .noDevice)
  | .error error => .error (.cannotOpen path error)
  | .ok content =>
    match Image.deserialize content with
    | .error error => .error (.corrupt path error)
    | .ok (object, _) =>
      let header := object.image.header
      if header.magic ≠ Header.magicNumber then
        .error (.notAnImage path header.magic)
      else
        .ok ⟨path, { object.image with header := { header with lastMountedAt := some now } }⟩

def backend (maxSize : Nat) (scope : String) : Backend Volume := fun collection request volume =>
  let (reply, image) := Image.backend maxSize scope collection request volume.image
  (reply, { volume with image })

def limits (volume : Volume) : Limits where
  blockSize := volume.image.header.blockSize.toNat
  maxBlocks := volume.image.header.maxBlocks.toNat

end Volume

end DocTree
