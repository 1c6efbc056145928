import DocTree.Store.Image

namespace DocTree

-- An image with a digest behind it, which is computed over the image and a digest of zeros.
structure Sealed where
  image : Image
  digest : Digest

inductive SealError where
  -- The bytes do not follow the layout.
  | layout
  | digest
  deriving DecidableEq, Repr

def SealError.message : SealError → String
  | layout => "decode failed"
  | digest => "deserialized object digest verification failed"

namespace Sealed

instance : Layout Sealed where
  encode object := Layout.encode object.image ++ Layout.encode object.digest
  decode bytes := do
    let (image, rest) ← Layout.decode bytes
    let (digest, rest) ← Layout.decode rest
    return (⟨image, digest⟩, rest)

instance : Streamed Sealed where
  stream sink object := Streamed.stream (Streamed.stream sink object.image) object.digest

-- The digest that belongs to an image.
def digestOf (image : Image) : Digest := DocTree.digest (Sealed.mk image .zero)

def ofImage (image : Image) : Sealed := ⟨image, digestOf image⟩

end Sealed

namespace Image

def serialize (image : Image) : Bytes := Layout.encode (Sealed.ofImage image)

-- Writes the image behind what a sink already holds, and answers how many bytes that took.
def writeTo (image : Image) (content : Bytes) : Bytes × Nat :=
  let sink := Streamed.stream (.behind content) (Sealed.ofImage image)
  (sink.content, sink.written)

-- Reads an image from the front of `bytes`, and how many bytes it takes.
def deserialize (bytes : Bytes) : Except SealError (Sealed × Nat) :=
  match Layout.decode (α := Sealed) bytes with
  | none => .error .layout
  | some (object, rest) =>
    if object.digest = Sealed.digestOf object.image then
      .ok (object, bytes.length - rest.length)
    else
      .error .digest

end Image

end DocTree
