import DocTree.Bytes.Utf8

namespace DocTree

-- One step of the text between two quotes.
inductive Piece where
  | byte (byte : UInt8)
  | unit (unit : Nat)
  deriving DecidableEq

inductive Token where
  | openBrace
  | closeBrace
  | openBracket
  | closeBracket
  | colon
  | comma
  -- What stands between two quotes, if it is the form of a text.
  | text (content : Option String)
  -- A number, `true`, `false` or `null`.
  | scalar
  deriving DecidableEq

namespace Token

def isBlank (byte : UInt8) : Bool := byte = 0x20 ∨ byte = 0x09 ∨ byte = 0x0a ∨ byte = 0x0d

def isDigit (byte : UInt8) : Bool := 0x30 ≤ byte ∧ byte ≤ 0x39

def hexDigit? (byte : UInt8) : Option Nat :=
  if isDigit byte then some (byte.toNat - 0x30)
  else if 0x61 ≤ byte ∧ byte ≤ 0x66 then some (byte.toNat - 0x61 + 10)
  else if 0x41 ≤ byte ∧ byte ≤ 0x46 then some (byte.toNat - 0x41 + 10)
  else none

def shortEscape? (byte : UInt8) : Option UInt8 :=
  if byte = 0x22 ∨ byte = 0x5c ∨ byte = 0x2f then some byte
  else if byte = 0x62 then some 0x08
  else if byte = 0x66 then some 0x0c
  else if byte = 0x6e then some 0x0a
  else if byte = 0x72 then some 0x0d
  else if byte = 0x74 then some 0x09
  else none

def hexUnit? (a b c d : UInt8) : Option Nat := do
  return (((← hexDigit? a) * 16 + (← hexDigit? b)) * 16 + (← hexDigit? c)) * 16 + (← hexDigit? d)

-- Scans up to the closing quote. `seen` holds the pieces before, last one first. Control characters
-- must be escaped.
def scanText (seen : List Piece) : Bytes → Option (List Piece × Bytes)
  | [] => none
  | 0x22 :: rest => some (seen.reverse, rest)
  | 0x5c :: 0x75 :: a :: b :: c :: d :: rest =>
    match hexUnit? a b c d with
    | some unit => scanText (.unit unit :: seen) rest
    | none => none
  | 0x5c :: escape :: rest =>
    match shortEscape? escape with
    | some byte => scanText (.byte byte :: seen) rest
    | none => none
  | byte :: rest => if byte < 0x20 ∨ byte = 0x5c then none else scanText (.byte byte :: seen) rest

def isHighSurrogate (unit : Nat) : Bool := 0xd800 ≤ unit ∧ unit < 0xdc00

def isLowSurrogate (unit : Nat) : Bool := 0xdc00 ≤ unit ∧ unit < 0xe000

def joinSurrogates (high low : Nat) : Char :=
  Char.ofNat (0x10000 + (high - 0xd800) * 0x400 + (low - 0xdc00))

-- The UTF-8 bytes that pieces stand for, after the reversed bytes `done`.
def bytesOf? (done : Bytes) : List Piece → Option Bytes
  | [] => some done.reverse
  | .byte byte :: rest => bytesOf? (byte :: done) rest
  | .unit unit :: rest =>
    if isLowSurrogate unit then
      none
    else if isHighSurrogate unit then
      match rest with
      | .unit low :: rest =>
        if isLowSurrogate low then
          bytesOf? ((Utf8.encode (joinSurrogates unit low).toString).reverse ++ done) rest
        else
          none
      | _ => none
    else
      bytesOf? ((Utf8.encode (Char.ofNat unit).toString).reverse ++ done) rest

def textOf? (pieces : List Piece) : Option String := do Utf8.decode (← bytesOf? [] pieces)

-- What follows one or more digits.
def afterDigits? : Bytes → Option Bytes
  | [] => none
  | byte :: rest => if isDigit byte then some (rest.dropWhile isDigit) else none

-- What follows the digits in front of the point. A leading zero stands alone.
def afterWhole? : Bytes → Option Bytes
  | 0x30 :: rest => if rest.head?.any isDigit then none else some rest
  | bytes => afterDigits? bytes

def afterFraction? : Bytes → Option Bytes
  | 0x2e :: rest => afterDigits? rest
  | bytes => some bytes

def afterSign : Bytes → Bytes
  | 0x2b :: rest => rest
  | 0x2d :: rest => rest
  | bytes => bytes

def afterExponent? : Bytes → Option Bytes
  | 0x65 :: rest => afterDigits? (afterSign rest)
  | 0x45 :: rest => afterDigits? (afterSign rest)
  | bytes => some bytes

def afterNumber? (bytes : Bytes) : Option Bytes :=
  ((afterWhole? bytes).bind afterFraction?).bind afterExponent?

def scan (byte : UInt8) (rest : Bytes) : Option (Token × Bytes) :=
  match byte with
  | 0x7b => some (openBrace, rest)
  | 0x7d => some (closeBrace, rest)
  | 0x5b => some (openBracket, rest)
  | 0x5d => some (closeBracket, rest)
  | 0x3a => some (colon, rest)
  | 0x2c => some (comma, rest)
  | 0x22 => (scanText [] rest).map fun (pieces, rest) => (text (textOf? pieces), rest)
  | 0x2d => (afterNumber? rest).map fun rest => (scalar, rest)
  | 0x74 =>
    match rest with
    | 0x72 :: 0x75 :: 0x65 :: rest => some (scalar, rest)
    | _ => none
  | 0x66 =>
    match rest with
    | 0x61 :: 0x6c :: 0x73 :: 0x65 :: rest => some (scalar, rest)
    | _ => none
  | 0x6e =>
    match rest with
    | 0x75 :: 0x6c :: 0x6c :: rest => some (scalar, rest)
    | _ => none
  | byte => (afterNumber? (byte :: rest)).map fun rest => (scalar, rest)

theorem scanText_length_lt {seen pieces : List Piece} {bytes rest : Bytes}
    (h : scanText seen bytes = some (pieces, rest)) : rest.length < bytes.length := by
  fun_induction scanText seen bytes <;> simp_all <;> omega

theorem afterDigits?_length_lt {bytes rest : Bytes} (h : afterDigits? bytes = some rest) :
    rest.length < bytes.length := by
  cases bytes with
  | nil => simp [afterDigits?] at h
  | cons byte tail =>
    simp only [afterDigits?, Option.ite_none_right_eq_some, Option.some.injEq] at h
    have := (List.dropWhile_sublist (l := tail) isDigit).length_le
    rw [← h.2, List.length_cons]
    omega

theorem afterWhole?_length_lt {bytes rest : Bytes} (h : afterWhole? bytes = some rest) :
    rest.length < bytes.length := by
  unfold afterWhole? at h
  split at h
  · split at h <;> simp_all
  · exact afterDigits?_length_lt h

theorem afterFraction?_length_le {bytes rest : Bytes} (h : afterFraction? bytes = some rest) :
    rest.length ≤ bytes.length := by
  unfold afterFraction? at h
  split at h
  · have := afterDigits?_length_lt h
    rw [List.length_cons]
    omega
  · simp_all

theorem length_afterSign_le (bytes : Bytes) : (afterSign bytes).length ≤ bytes.length := by
  unfold afterSign
  split <;> simp

theorem afterExponent?_length_le {bytes rest : Bytes} (h : afterExponent? bytes = some rest) :
    rest.length ≤ bytes.length := by
  unfold afterExponent? at h
  split at h
  · have := afterDigits?_length_lt h
    have := length_afterSign_le ‹_›
    rw [List.length_cons]
    omega
  · have := afterDigits?_length_lt h
    have := length_afterSign_le ‹_›
    rw [List.length_cons]
    omega
  · simp_all

theorem afterNumber?_length_lt {bytes rest : Bytes} (h : afterNumber? bytes = some rest) :
    rest.length < bytes.length := by
  simp only [afterNumber?, Option.bind_eq_some_iff] at h
  obtain ⟨fraction, ⟨whole, hw, hf⟩, he⟩ := h
  have := afterWhole?_length_lt hw
  have := afterFraction?_length_le hf
  have := afterExponent?_length_le he
  omega

-- A token takes its first byte and possibly more.
theorem scan_length_le {byte : UInt8} {bytes rest : Bytes} {token : Token}
    (h : scan byte bytes = some (token, rest)) : rest.length ≤ bytes.length := by
  unfold scan at h
  split at h
  case h_7 =>
    obtain ⟨⟨pieces, after⟩, hs, he⟩ := Option.map_eq_some_iff.mp h
    obtain ⟨_, rfl⟩ := Prod.mk.inj he
    exact Nat.le_of_lt (scanText_length_lt hs)
  case h_8 =>
    obtain ⟨after, hs, he⟩ := Option.map_eq_some_iff.mp h
    obtain ⟨_, rfl⟩ := Prod.mk.inj he
    exact Nat.le_of_lt (afterNumber?_length_lt hs)
  case h_12 =>
    obtain ⟨after, hs, he⟩ := Option.map_eq_some_iff.mp h
    obtain ⟨_, rfl⟩ := Prod.mk.inj he
    exact Nat.le_of_lt_succ (afterNumber?_length_lt hs)
  case h_9 | h_10 | h_11 =>
    split at h
    · cases h
      simp only [List.length_cons]
      omega
    · cases h
  all_goals
    cases h
    exact Nat.le_refl _

def scanAll (seen : List Token) (bytes : Bytes) : Option (List Token) :=
  match bytes with
  | [] => some seen.reverse
  | byte :: rest =>
    if isBlank byte then
      scanAll seen rest
    else
      match _hs : scan byte rest with
      | some (token, after) => scanAll (token :: seen) after
      | none => none
termination_by bytes.length
decreasing_by
  · simp
  · have := scan_length_le _hs
    simp only [List.length_cons]
    omega

end Token

end DocTree
