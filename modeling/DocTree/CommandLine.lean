import DocTree.Limits
import Std.Data.ExtTreeMap

namespace DocTree.CommandLine

-- Why arguments name no command. Help and version texts are asked for in the same way.
inductive Refusal where
  | helpWanted
  | versionWanted
  -- No arguments at all: help is shown without being asked for.
  | nothingGiven
  | unknownCommand
  | unknownArgument
  | missingValue
  | badValue
  -- A switch was given a value.
  | extraValue
  | repeated
  | missingOption
  deriving DecidableEq, Repr

inductive Command where
  | format (image : String) (blockSize maxBlocks : UInt64)
  | mount (image mountPoint : String) (autoUnmount : Bool)
  deriving DecidableEq, Repr

inductive ValueForm where
  | text
  | number
  deriving DecidableEq

inductive Action where
  | value (form : ValueForm)
  | switch
  | help
  | version
  deriving DecidableEq

structure Flag where
  short : Char
  long : String
  action : Action
  deriving DecidableEq

def helpFlag : Flag := ⟨'h', "help", .help⟩

def versionFlag : Flag := ⟨'V', "version", .version⟩

def topFlags : List Flag := [helpFlag, versionFlag]

def imageFlag : Flag := ⟨'p', "image-file-path", .value .text⟩

def blockSizeFlag : Flag := ⟨'b', "block-size", .value .number⟩

def maxBlocksFlag : Flag := ⟨'m', "max-blocks", .value .number⟩

def mountPointFlag : Flag := ⟨'m', "mount-point", .value .text⟩

def autoUnmountFlag : Flag := ⟨'a', "auto-unmount", .switch⟩

def formatFlags : List Flag := [imageFlag, blockSizeFlag, maxBlocksFlag, helpFlag, versionFlag]

def mountFlags : List Flag := [imageFlag, mountPointFlag, autoUnmountFlag, helpFlag, versionFlag]

inductive Argument where
  -- Two dashes: what follows are no options.
  | escape
  -- A name behind two dashes, with the value behind an equals sign.
  | long (name : List Char) (value : Option (List Char))
  | shorts (chars : List Char)
  | plain
  deriving DecidableEq

def Argument.ofChars : List Char → Argument
  | ['-', '-'] => escape
  | '-' :: '-' :: rest =>
    long (rest.takeWhile (· ≠ '=')) ((rest.dropWhile (· ≠ '=')).tail?)
  | ['-'] => plain
  | '-' :: chars => shorts chars
  | _ => plain

-- A decimal number that a word can hold, with at most a plus sign in front.
def number? (chars : List Char) : Option UInt64 :=
  let digits : List Char :=
    match chars with
    | '+' :: rest => rest
    | chars => chars
  let value : Nat := digits.foldl (fun n c => n * 10 + (c.toNat - '0'.toNat)) 0
  if digits ≠ [] ∧ digits.all Char.isDigit ∧ value < Word.limit then some (UInt64.ofNat value)
  else none

def ValueForm.accepts : ValueForm → List Char → Bool
  | text, _ => true
  | number, chars => (number? chars).isSome

structure Options where
  -- Values by the long name of their option; a switch has the empty value.
  given : Std.ExtTreeMap String (List Char) := ∅
  -- An option that waits for its value, and the value once that has come.
  pending : Option (Flag × Option (List Char)) := none

namespace Options

def set (options : Options) (flag : Flag) (value : List Char) : Except Refusal Options :=
  if options.given.contains flag.long then .error .repeated
  else
    match flag.action with
    | .value form =>
      if form.accepts value then
        .ok { options with given := options.given.insert flag.long value }
      else
        .error .badValue
    | _ => .ok { options with given := options.given.insert flag.long value }

-- Looks at the option that was waiting for its value. A value that is an argument of its own is
-- looked at only when the next option begins or the arguments end.
def settle (options : Options) : Except Refusal Options :=
  match options.pending with
  | none => .ok options
  | some (_, none) => .error .missingValue
  | some (flag, some value) => { options with pending := none }.set flag value

def isWaiting (options : Options) : Bool :=
  match options.pending with
  | some (_, none) => true
  | _ => false

def supply (options : Options) (value : List Char) : Options :=
  { options with pending := options.pending.map fun (flag, _) => (flag, some value) }

def act (options : Options) (flag : Flag) : Except Refusal Options := do
  let options ← options.settle
  match flag.action with
  | .help => .error .helpWanted
  | .version => .error .versionWanted
  | .switch => options.set flag []
  | .value _ => return { options with pending := some (flag, none) }

def attach (options : Options) (flag : Flag) (value : List Char) : Except Refusal Options := do
  (← options.settle).set flag value

-- Reads the characters behind one dash: switches, up to an option that takes the rest as its value.
def readShorts (flags : List Flag) (options : Options) : List Char → Except Refusal Options
  | [] => .ok options
  | c :: rest =>
    match flags.find? (·.short = c) with
    | none => .error .unknownArgument
    | some flag =>
      match flag.action, rest with
      | .value _, '=' :: value => options.attach flag value
      | .value _, [] => options.act flag
      | .value _, value => options.attach flag value
      | _, rest => do readShorts flags (← options.act flag) rest

def readLong (flags : List Flag) (options : Options) (name : List Char)
    (value : Option (List Char)) : Except Refusal Options :=
  match flags.find? (·.long.toList = name) with
  | none => .error .unknownArgument
  | some flag =>
    match flag.action, value with
    | .value _, some value => options.attach flag value
    | _, some _ => .error .extraValue
    | _, none => options.act flag

def read (flags : List Flag) (options : Options) : List (List Char) → Except Refusal Options
  | [] => options.settle
  | argument :: rest =>
    match Argument.ofChars argument with
    | .escape => if rest.isEmpty then options.settle else .error .unknownArgument
    | .long name value => do read flags (← options.readLong flags name value) rest
    | .shorts chars => do read flags (← options.readShorts flags chars) rest
    | .plain =>
      if options.isWaiting then read flags (options.supply argument) rest
      else .error .unknownArgument

def text? (options : Options) (flag : Flag) : Option String :=
  (options.given[flag.long]?).map String.ofList

def text (options : Options) (flag : Flag) : Except Refusal String :=
  (options.text? flag).elim (.error .missingOption) .ok

def number (options : Options) (flag : Flag) (default : Nat) : UInt64 :=
  ((options.given[flag.long]?).bind number?).getD (UInt64.ofNat default)

end Options

def readFormat (arguments : List (List Char)) : Except Refusal Command := do
  let options ← Options.read formatFlags {} arguments
  let image ← options.text imageFlag
  return .format image (options.number blockSizeFlag maxDocumentSize)
    (options.number maxBlocksFlag defaultBlockCount)

def readMount (arguments : List (List Char)) : Except Refusal Command := do
  let options ← Options.read mountFlags {} arguments
  let image ← options.text imageFlag
  let mountPoint ← options.text mountPointFlag
  return .mount image mountPoint (options.text? autoUnmountFlag).isSome

-- Names that have a help text: nothing, or one command.
def readHelp : List String → Refusal
  | [] => .helpWanted
  | [name] => if name ∈ ["mkfs", "mount", "help"] then .helpWanted else .unknownCommand
  | _ => .unknownCommand

-- Reads what stands behind two dashes in front of any command. No command may stand there.
def readEscaped : List String → Refusal
  | [] => .nothingGiven
  | name :: _ => if name ∈ ["mkfs", "mount", "help"] then .unknownArgument else .unknownCommand

-- Reads a whole command line, without the name of the program.
def read (arguments : List String) : Except Refusal Command :=
  match arguments with
  | [] => .error .nothingGiven
  | "mkfs" :: rest => readFormat (rest.map String.toList)
  | "mount" :: rest => readMount (rest.map String.toList)
  | "help" :: rest => .error (readHelp rest)
  | argument :: rest =>
    match Argument.ofChars argument.toList with
    | .escape => .error (readEscaped rest)
    | .plain => .error .unknownCommand
    | .long name value =>
      match Options.readLong topFlags {} name value with
      | .error refusal => .error refusal
      | .ok _ => .error .nothingGiven
    | .shorts chars =>
      match Options.readShorts topFlags {} chars with
      | .error refusal => .error refusal
      | .ok _ => .error .nothingGiven

end DocTree.CommandLine
