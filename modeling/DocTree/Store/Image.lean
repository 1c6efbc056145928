import DocTree.Store.Request
import DocTree.Time

namespace DocTree

structure Header where
  magic : UInt32
  createdAt : TimeSpec
  modifiedAt : Option TimeSpec
  lastMountedAt : Option TimeSpec
  blockSize : UInt64
  -- How many blocks one file may span.
  maxBlocks : UInt64
  deriving DecidableEq, Inhabited

namespace Header

def magicNumber : UInt32 := 0xd0cf5001

def new (blockSize maxBlocks : UInt64) (now : TimeSpec) : Header :=
  ⟨magicNumber, now, none, none, blockSize, maxBlocks⟩

instance : Layout Header where
  encode header :=
    Layout.encode header.magic ++ Layout.encode header.createdAt ++
      Layout.encode header.modifiedAt ++ Layout.encode header.lastMountedAt ++
      Layout.encode header.blockSize ++ Layout.encode header.maxBlocks
  decode bytes := do
    let (magic, rest) ← Layout.decode bytes
    let (createdAt, rest) ← Layout.decode rest
    let (modifiedAt, rest) ← Layout.decode rest
    let (lastMountedAt, rest) ← Layout.decode rest
    let (blockSize, rest) ← Layout.decode rest
    let (maxBlocks, rest) ← Layout.decode rest
    return (⟨magic, createdAt, modifiedAt, lastMountedAt, blockSize, maxBlocks⟩, rest)

instance : Streamed Header where
  stream sink header :=
    let sink := Streamed.stream sink header.magic
    let sink := Streamed.stream sink header.createdAt
    let sink := Streamed.stream sink header.modifiedAt
    let sink := Streamed.stream sink header.lastMountedAt
    let sink := Streamed.stream sink header.blockSize
    Streamed.stream sink header.maxBlocks

end Header

structure Document where
  value : Bytes
  version : UInt64
  flags : UInt32
  deriving DecidableEq, Inhabited

instance : Layout Document where
  encode document :=
    Layout.encode document.value ++ Layout.encode document.version ++ Layout.encode document.flags
  decode bytes := do
    let (value, rest) ← Layout.decode bytes
    let (version, rest) ← Layout.decode rest
    let (flags, rest) ← Layout.decode rest
    return (⟨value, version, flags⟩, rest)

instance : Streamed Document where
  stream sink document :=
    let sink := Streamed.stream sink document.value
    let sink := Streamed.stream sink document.version
    Streamed.stream sink document.flags

abbrev Documents := Std.ExtTreeMap String Document

-- A version is handed out with every insert and replace that is stored, over all namespaces, and
-- none is handed out twice.
structure Image where
  header : Header
  -- The last version handed out.
  lastVersion : UInt64
  namespaces : Std.ExtTreeMap String Documents

namespace Image

def new (header : Header) : Image := ⟨header, 0, ∅⟩

def empty : Image := new default

instance : Layout Image where
  encode image :=
    Layout.encode image.header ++ Layout.encode image.lastVersion ++ Layout.encode image.namespaces
  decode bytes := do
    let (header, rest) ← Layout.decode bytes
    let (lastVersion, rest) ← Layout.decode rest
    let (namespaces, rest) ← Layout.decode rest
    return (⟨header, lastVersion, namespaces⟩, rest)

instance : Streamed Image where
  stream sink image :=
    let sink := Streamed.stream sink image.header
    let sink := Streamed.stream sink image.lastVersion
    Streamed.stream sink image.namespaces

def namespaceOf (scope : String) (collection : Collection) : String :=
  scope ++ "." ++ collection.name

def documents (image : Image) (scope : String) (collection : Collection) : Documents :=
  image.namespaces.getD (namespaceOf scope collection) ∅

def document? (image : Image) (scope : String) (collection : Collection) (key : String) :
    Option Document :=
  (image.documents scope collection)[key]?

def setDocuments (image : Image) (scope : String) (collection : Collection)
    (documents : Documents) : Image :=
  { image with namespaces := image.namespaces.insert (namespaceOf scope collection) documents }

def put (image : Image) (scope : String) (collection : Collection) (key : String) (value : Bytes)
    (flags : UInt32) : Image × Response :=
  let version := image.lastVersion + 1
  let documents := (image.documents scope collection).insert key ⟨value, version, flags⟩
  ({ image.setDocuments scope collection documents with lastVersion := version }, { version })

-- Carries out one request; `maxSize` is the length of the longest value that is stored.
def apply (image : Image) (maxSize : Nat) (scope : String) (collection : Collection)
    (request : Request) : Image × Response :=
  -- Any request makes its namespace, if only an empty one.
  let image := image.setDocuments scope collection (image.documents scope collection)
  match request, image.document? scope collection request.key with
  | .get _, none => (image, { status := .notFound })
  | .get _, some document =>
    (image, { value := document.value, version := document.version, flags := document.flags })
  | .insert key value, found =>
    if value.length > maxSize then (image, { status := .tooBig })
    else if found.isSome then (image, { status := .exists })
    else image.put scope collection key value 0
  | .replace key value expected, found =>
    if value.length > maxSize then (image, { status := .tooBig })
    else
      match found with
      | none => (image, { status := .notFound })
      | some document =>
        if expected.all (· = document.version) then
          image.put scope collection key value document.flags
        else
          (image, { status := .versionMismatch })
  | .remove _, none => (image, { status := .notFound })
  | .remove key, some _ =>
    (image.setDocuments scope collection ((image.documents scope collection).erase key), {})

-- The scope and the collection that a namespace belongs to.
def ofNamespace? (space : String) : Option (String × Collection) :=
  [Collection.stats, .dentries, .blocks].findSome? fun collection =>
    let ending := "." ++ collection.name
    if space.endsWith ending then
      some (String.ofList (space.toList.take (space.length - ending.length)), collection)
    else
      none

def rank : Collection → Nat
  | .stats => 0
  | .dentries => 1
  | .blocks => 2

-- All documents with their namespaces and keys: by scope, then collection, then key.
def listing (image : Image) : List (String × String × Document) :=
  let spaces := image.namespaces.toList.filterMap fun (space, documents) =>
    (ofNamespace? space).map fun (scope, collection) => (scope, rank collection, space, documents)
  let sorted := spaces.mergeSort fun a b => a.1 < b.1 ∨ a.1 = b.1 ∧ a.2.1 ≤ b.2.1
  sorted.flatMap fun (_, _, space, documents) =>
    documents.toList.map fun (key, document) => (space, key, document)

end Image

end DocTree
