import DocTree.Bytes.Layout
import DocTree.Document.Token
import DocTree.Error

namespace DocTree

-- The document of a directory. The names of its children stand in the order in which they were
-- added.
structure Dentry where
  directory : String
  parent : String
  children : List String
  deriving DecidableEq, Repr, Inhabited

namespace Dentry

def new (directory parent : String) : Dentry := ⟨directory, parent, []⟩

def contains (dentry : Dentry) (name : String) : Bool := dentry.children.contains name

def addChild (dentry : Dentry) (name : String) : Dentry :=
  { dentry with children := dentry.children ++ [name] }

def removeChild (dentry : Dentry) (name : String) : Dentry :=
  { dentry with children := dentry.children.filter (· ≠ name) }

instance : Layout Dentry where
  encode dentry :=
    Layout.encode dentry.directory ++ Layout.encode dentry.parent ++
      Layout.encode (UInt64.ofNat dentry.children.length) ++ dentry.children.flatMap Layout.encode
  decode bytes := do
    let (directory, rest) ← Layout.decode bytes
    let (parent, rest) ← Layout.decode rest
    let (count, rest) ← Layout.decode (α := UInt64) rest
    let (children, rest) ← takeTexts count.toNat [] rest
    return (⟨directory, parent, children⟩, rest)
where
  takeTexts : Nat → List String → Bytes → Option (List String × Bytes)
    | 0, found, bytes => some (found.reverse, bytes)
    | count + 1, found, bytes => do
      let (text, rest) ← Layout.decode bytes
      takeTexts count (text :: found) rest

def hexDigit (n : Nat) : UInt8 := UInt8.ofNat (if n < 10 then 0x30 + n else 0x61 + (n - 10))

-- A byte between quotes: quotes, backslashes and control characters are escaped.
def escape (byte : UInt8) : Bytes :=
  if byte = 0x22 ∨ byte = 0x5c then [0x5c, byte]
  else if byte = 0x08 then [0x5c, 0x62]
  else if byte = 0x0c then [0x5c, 0x66]
  else if byte = 0x0a then [0x5c, 0x6e]
  else if byte = 0x0d then [0x5c, 0x72]
  else if byte = 0x09 then [0x5c, 0x74]
  else if byte < 0x20 then
    [0x5c, 0x75, 0x30, 0x30, hexDigit (byte.toNat / 16), hexDigit (byte.toNat % 16)]
  else [byte]

def quote (text : String) : Bytes := 0x22 :: (Utf8.encode text).flatMap escape ++ [0x22]

def quoteAll : List String → Bytes
  | [] => []
  | [text] => quote text
  | text :: more => quote text ++ 0x2c :: quoteAll more

def encode (dentry : Dentry) : Bytes :=
  0x7b :: quote "cr" ++ 0x3a :: quote dentry.directory ++
    0x2c :: quote "pr" ++ 0x3a :: quote dentry.parent ++
    0x2c :: quote "ch" ++ 0x3a :: 0x5b :: quoteAll dentry.children ++ [0x5d, 0x7d]

-- An open list or object around the value being skipped.
inductive Frame where
  | list
  | object
  deriving DecidableEq

-- Where the reader stands while it skips a value: in front of one, behind one, behind an opening
-- bracket or brace, or in front of a member's name or its colon.
inductive Place where
  | value
  | after
  | opened
  | name
  | colon

-- Skips tokens up to the end of the value that begins at `place` inside `frames`, and answers what
-- follows. No nesting is too deep.
def skip (frames : List Frame) (place : Place) : List Token → Option (List Token)
  | [] =>
    match frames, place with
    | [], .after => some []
    | _, _ => none
  | token :: rest =>
    match frames, place, token with
    | [], .after, token => some (token :: rest)
    | frames, .value, .text _ => skip frames .after rest
    | frames, .value, .scalar => skip frames .after rest
    | frames, .value, .openBracket => skip (.list :: frames) .opened rest
    | frames, .value, .openBrace => skip (.object :: frames) .opened rest
    | .list :: frames, .after, .comma => skip (.list :: frames) .value rest
    | .object :: frames, .after, .comma => skip (.object :: frames) .name rest
    | .list :: frames, .after, .closeBracket => skip frames .after rest
    | .object :: frames, .after, .closeBrace => skip frames .after rest
    | .list :: frames, .opened, .closeBracket => skip frames .after rest
    | .list :: frames, .opened, .text _ => skip (.list :: frames) .after rest
    | .list :: frames, .opened, .scalar => skip (.list :: frames) .after rest
    | .list :: frames, .opened, .openBracket => skip (.list :: .list :: frames) .opened rest
    | .list :: frames, .opened, .openBrace => skip (.object :: .list :: frames) .opened rest
    | .object :: frames, .opened, .closeBrace => skip frames .after rest
    | .object :: frames, .opened, .text _ => skip (.object :: frames) .colon rest
    | frames, .name, .text _ => skip frames .colon rest
    | frames, .colon, .colon => skip frames .value rest
    | _, _, _ => none

def skipValue (tokens : List Token) : Option (List Token) := skip [] .value tokens

-- The texts of a list, up to its closing bracket, and what follows it.
def texts (found : List String) : List Token → Option (List String × List Token)
  | .text (some text) :: .closeBracket :: rest => some ((text :: found).reverse, rest)
  | .text (some text) :: .comma :: rest => texts (text :: found) rest
  | _ => none

def textList : List Token → Option (List String × List Token)
  | .closeBracket :: rest => some ([], rest)
  | tokens => texts [] tokens

structure Members where
  directory : Option String := none
  parent : Option String := none
  children : Option (List String) := none

def Members.complete (members : Members) : Option Dentry := do
  return ⟨← members.directory, ← members.parent, ← members.children⟩

-- Reads the value of the member called `name`; the second answer is what follows it.
def member (members : Members) (name : String) (tokens : List Token) :
    Option (Members × List Token) :=
  match name, tokens with
  | "cr", .text (some text) :: rest =>
    if members.directory.isSome then none else some ({ members with directory := some text }, rest)
  | "pr", .text (some text) :: rest =>
    if members.parent.isSome then none else some ({ members with parent := some text }, rest)
  | "ch", .openBracket :: rest =>
    if members.children.isSome then none
    else (textList rest).map fun (names, rest) => ({ members with children := some names }, rest)
  | "cr", _ => none
  | "pr", _ => none
  | "ch", _ => none
  | _, tokens => (skipValue tokens).map fun rest => (members, rest)

theorem skip_length_le {frames : List Frame} {place : Place} {tokens rest : List Token}
    (h : skip frames place tokens = some rest) : rest.length ≤ tokens.length := by
  fun_induction skip frames place tokens <;> simp_all <;> omega

theorem texts_length_le {found names : List String} {tokens rest : List Token}
    (h : texts found tokens = some (names, rest)) : rest.length ≤ tokens.length := by
  fun_induction texts found tokens <;> simp_all <;> omega

theorem textList_length_le {names : List String} {tokens rest : List Token}
    (h : textList tokens = some (names, rest)) : rest.length ≤ tokens.length := by
  unfold textList at h
  split at h
  · simp_all
  · exact texts_length_le h

theorem member_length_le {members found : Members} {name : String} {tokens rest : List Token}
    (h : member members name tokens = some (found, rest)) : rest.length ≤ tokens.length := by
  unfold member at h
  split at h
  case h_1 | h_2 =>
    split at h
    · cases h
    · cases h
      exact Nat.le_succ _
  case h_3 =>
    split at h
    · cases h
    · obtain ⟨⟨names, after⟩, ht, he⟩ := Option.map_eq_some_iff.mp h
      obtain ⟨_, rfl⟩ := Prod.mk.inj he
      exact Nat.le_succ_of_le (textList_length_le ht)
  case h_7 =>
    obtain ⟨after, hs, he⟩ := Option.map_eq_some_iff.mp h
    obtain ⟨_, rfl⟩ := Prod.mk.inj he
    exact skip_length_le hs
  all_goals cases h

-- Reads the members of an object from a member's name on; the closing brace ends the document.
def members (found : Members) (tokens : List Token) : Option Dentry :=
  match tokens with
  | .text (some name) :: .colon :: rest =>
    match _h : member found name rest with
    | some (found, .comma :: rest) => members found rest
    | some (found, [.closeBrace]) => found.complete
    | _ => none
  | _ => none
termination_by tokens.length
decreasing_by
  have := member_length_le _h
  simp only [List.length_cons] at *
  omega

def ofTokens? : List Token → Option Dentry
  | .openBrace :: rest => members {} rest
  | .openBracket :: .text (some directory) :: .comma :: .text (some parent) :: .comma ::
      .openBracket :: rest =>
    match textList rest with
    | some (children, [.closeBracket]) => some ⟨directory, parent, children⟩
    | _ => none
  | _ => none

def decode (bytes : Bytes) : Except FsError Dentry :=
  match (Token.scanAll [] bytes).bind ofTokens? with
  | some dentry => .ok dentry
  | none => .error (.corrupt "bad dentry")

end Dentry

end DocTree
