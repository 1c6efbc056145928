import DocTree.Proofs.Document.Dentry

namespace DocTree.Json

-- White space, which may stand between any two tokens.
def Blank (bytes : Bytes) : Prop := ∀ byte ∈ bytes, byte ∈ [0x20, 0x09, 0x0a, 0x0d]

-- What stands between quotes is made of characters and of units of sixteen bits.
inductive Sign where
  | char (char : Char)
  | unit (unit : Nat)

-- The letters behind a backslash that stand for one character each.
def shortEscapes : List (UInt8 × Char) :=
  [(0x22, '"'), (0x5c, '\\'), (0x2f, '/'), (0x62, '\x08'), (0x66, '\x0c'), (0x6e, '\n'),
    (0x72, '\r'), (0x74, '\t')]

-- From `0`, and from `a` or `A` for ten.
def HexDigit (byte : UInt8) (digit : Nat) : Prop :=
  digit < 10 ∧ byte.toNat = 0x30 + digit ∨
    10 ≤ digit ∧ digit < 16 ∧ (byte.toNat = 0x57 + digit ∨ byte.toNat = 0x37 + digit)

inductive Spells : List Sign → Bytes → Prop
  | nil : Spells [] []
  | plain {char : Char} {signs : List Sign} {bytes : Bytes} (hcontrol : 0x20 ≤ char.toNat)
      (hquote : char ≠ '"') (hbackslash : char ≠ '\\') (hs : Spells signs bytes) :
      Spells (.char char :: signs) (String.utf8EncodeChar char ++ bytes)
  | short {letter : UInt8} {char : Char} {signs : List Sign} {bytes : Bytes}
      (hl : (letter, char) ∈ shortEscapes) (hs : Spells signs bytes) :
      Spells (.char char :: signs) (0x5c :: letter :: bytes)
  | unit {a b c d : UInt8} {i j k l : Nat} {signs : List Sign} {bytes : Bytes}
      (ha : HexDigit a i) (hb : HexDigit b j) (hc : HexDigit c k) (hd : HexDigit d l)
      (hs : Spells signs bytes) :
      Spells (.unit (((i * 16 + j) * 16 + k) * 16 + l) :: signs)
        (0x5c :: 0x75 :: a :: b :: c :: d :: bytes)

-- A unit is a character by itself or one of two surrogates. A surrogate without the other is none.
inductive Means : List Sign → List Char → Prop
  | nil : Means [] []
  | char {char : Char} {signs : List Sign} {chars : List Char} (hs : Means signs chars) :
      Means (.char char :: signs) (char :: chars)
  | unit {char : Char} {signs : List Sign} {chars : List Char} (hs : Means signs chars) :
      Means (.unit char.toNat :: signs) (char :: chars)
  | pair {high low : Nat} {char : Char} {signs : List Sign} {chars : List Char}
      (hhigh : 0xd800 ≤ high ∧ high < 0xdc00) (hlow : 0xdc00 ≤ low ∧ low < 0xe000)
      (hchar : char.toNat = 0x10000 + (high - 0xd800) * 0x400 + (low - 0xdc00))
      (hs : Means signs chars) : Means (.unit high :: .unit low :: signs) (char :: chars)

def Quoted (signs : List Sign) (bytes : Bytes) : Prop :=
  ∃ inside, Spells signs inside ∧ bytes = 0x22 :: inside ++ [0x22]

def Text (text : String) (bytes : Bytes) : Prop :=
  ∃ signs, Quoted signs bytes ∧ Means signs text.toList

-- One after the other, with commas between them; at least one.
inductive Separated {α : Type} (P : α → Bytes → Prop) : List α → Bytes → Prop
  | last {item : α} {bytes : Bytes} (h : P item bytes) : Separated P [item] bytes
  | cons {item : α} {items : List α} {bytes more : Bytes} (h : P item bytes)
      (hm : Separated P items more) : Separated P (item :: items) (bytes ++ 0x2c :: more)

def Padded (P : Bytes → Prop) (bytes : Bytes) : Prop :=
  ∃ a inside b, Blank a ∧ P inside ∧ Blank b ∧ bytes = a ++ inside ++ b

def TextList (texts : List String) (bytes : Bytes) : Prop :=
  ∃ inside, bytes = 0x5b :: inside ++ [0x5d] ∧
    (texts = [] ∧ Blank inside ∨ Separated (fun text => Padded (Text text)) texts inside)

def Digits (bytes : Bytes) : Prop := bytes ≠ [] ∧ ∀ byte ∈ bytes, 0x30 ≤ byte ∧ byte ≤ 0x39

-- A zero in front stands alone.
def Whole (bytes : Bytes) : Prop := bytes = [0x30] ∨ Digits bytes ∧ bytes.head? ≠ some 0x30

def Fraction (bytes : Bytes) : Prop := bytes = [] ∨ ∃ digits, Digits digits ∧ bytes = 0x2e :: digits

def Exponent (bytes : Bytes) : Prop :=
  bytes = [] ∨ ∃ mark ∈ [0x65, 0x45], ∃ sign ∈ [[], [0x2b], [0x2d]], ∃ digits, Digits digits ∧
    bytes = mark :: (sign ++ digits)

def Number (bytes : Bytes) : Prop :=
  ∃ sign ∈ [[], [0x2d]], ∃ whole fraction exponent, Whole whole ∧ Fraction fraction ∧
    Exponent exponent ∧ bytes = sign ++ (whole ++ (fraction ++ exponent))

def words : List Bytes := ["true", "false", "null"].map Utf8.encode

inductive Kind where
  | value
  -- What stands between the brackets of a list or the braces of an object that is not empty.
  | elements
  | members

inductive Written : Kind → Bytes → Prop
  | text {signs : List Sign} {bytes : Bytes} (hq : Quoted signs bytes) : Written .value bytes
  | number {bytes : Bytes} (hn : Number bytes) : Written .value bytes
  | word {bytes : Bytes} (hw : bytes ∈ words) : Written .value bytes
  | emptyList {blank : Bytes} (hb : Blank blank) : Written .value (0x5b :: blank ++ [0x5d])
  | list {inside : Bytes} (hi : Written .elements inside) :
      Written .value (0x5b :: inside ++ [0x5d])
  | emptyObject {blank : Bytes} (hb : Blank blank) : Written .value (0x7b :: blank ++ [0x7d])
  | object {inside : Bytes} (hi : Written .members inside) :
      Written .value (0x7b :: inside ++ [0x7d])
  | lastElement {a value b : Bytes} (ha : Blank a) (hv : Written .value value) (hb : Blank b) :
      Written .elements (a ++ value ++ b)
  | element {a value b more : Bytes} (ha : Blank a) (hv : Written .value value) (hb : Blank b)
      (hm : Written .elements more) : Written .elements (a ++ value ++ b ++ 0x2c :: more)
  | lastMember {signs : List Sign} {a name b c value d : Bytes} (ha : Blank a)
      (hn : Quoted signs name) (hb : Blank b) (hc : Blank c) (hv : Written .value value)
      (hd : Blank d) : Written .members (a ++ name ++ b ++ 0x3a :: (c ++ value ++ d))
  | member {signs : List Sign} {a name b c value d more : Bytes} (ha : Blank a)
      (hn : Quoted signs name) (hb : Blank b) (hc : Blank c) (hv : Written .value value)
      (hd : Blank d) (hm : Written .members more) :
      Written .members (a ++ name ++ b ++ 0x3a :: (c ++ value ++ d) ++ 0x2c :: more)

section

open Token

variable {signs : List Sign} {bytes rest : Bytes} {seen : List Token} {text : String}

-- Behind a number there is nothing that could go on with it.
def Stops (rest : Bytes) : Prop :=
  ∀ byte ∈ rest.head?, isDigit byte = false ∧ byte ∉ [0x2e, 0x65, 0x45]

def Scans (bytes : Bytes) (tokens : List Token) : Prop :=
  ∀ seen rest, Stops rest → scanAll seen (bytes ++ rest) = scanAll (tokens.reverse ++ seen) rest

def Sign.pieces : Sign → List Piece
  | .char letter => (String.utf8EncodeChar letter).map .byte
  | .unit value => [.unit value]

theorem hexDigit?_eq {byte : UInt8} {digit : Nat} (h : HexDigit byte digit) :
    hexDigit? byte = some digit := by
  unfold hexDigit? isDigit
  simp only [UInt8.le_iff_toNat_le, UInt8.reduceToNat, decide_eq_true_eq]
  unfold HexDigit at h
  split_ifs
  all_goals try rw [Option.some.injEq]
  all_goals omega

-- A character is one byte below 0x80 or some bytes above.
theorem utf8EncodeChar_cases (char : Char) :
    char.toNat < 0x80 ∧ String.utf8EncodeChar char = [UInt8.ofNat char.toNat] ∨
      0x80 ≤ char.toNat ∧ ∀ byte ∈ String.utf8EncodeChar char, 0x80 ≤ byte.toNat := by
  have hc : char.toNat = char.val.toNat := rfl
  by_cases h : char.val.toNat ≤ 0x7f
  · refine .inl ⟨by omega, ?_⟩
    rw [String.utf8EncodeChar, if_pos h, hc]
  · refine .inr ⟨by omega, fun byte hb => ?_⟩
    unfold String.utf8EncodeChar at hb
    dsimp only at hb
    rw [if_neg h] at hb
    split_ifs at hb <;> simp only [List.mem_cons, List.not_mem_nil, or_false] at hb <;>
      rcases hb with rfl | rfl | rfl | rfl <;> simp [UInt8.toNat_ofNat] <;> omega

theorem scanText_plain {pieces : List Piece} {inside : Bytes}
    (h : ∀ byte ∈ inside, 0x20 ≤ byte.toNat ∧ byte ≠ 0x22 ∧ byte ≠ 0x5c) :
    scanText pieces (inside ++ rest) = scanText ((inside.map .byte).reverse ++ pieces) rest := by
  induction inside generalizing pieces with
  | nil => rfl
  | cons byte inside ih =>
    obtain ⟨hcontrol, hquote, hbackslash⟩ := h byte (List.mem_cons_self ..)
    have hb : ¬(byte < 0x20 ∨ byte = 0x5c) := by
      rw [UInt8.lt_iff_toNat_lt]
      exact not_or.mpr ⟨Nat.not_lt.mpr hcontrol, hbackslash⟩
    have hinside := fun other ho => h other (List.mem_cons_of_mem byte ho)
    rw [List.cons_append, scanText, if_neg hb, ih hinside]
    · simp
    · exact hquote
    · exact fun _ _ _ _ _ he _ => hbackslash he
    · exact fun _ _ he _ => hbackslash he

theorem plain_of_mem {char : Char} (hcontrol : 0x20 ≤ char.toNat) (hquote : char ≠ '"')
    (hbackslash : char ≠ '\\') :
    ∀ byte ∈ String.utf8EncodeChar char, 0x20 ≤ byte.toNat ∧ byte ≠ 0x22 ∧ byte ≠ 0x5c := by
  have hq : char.toNat ≠ 0x22 := fun h => hquote (Char.toNat_inj.mp h)
  have hs : char.toNat ≠ 0x5c := fun h => hbackslash (Char.toNat_inj.mp h)
  intro byte hb
  rw [← UInt8.toNat_inj.ne, ← UInt8.toNat_inj.ne]
  rcases utf8EncodeChar_cases char with ⟨hl, he⟩ | ⟨-, hbytes⟩
  · rw [he, List.mem_singleton] at hb
    subst hb
    rw [UInt8.toNat_ofNat', Nat.mod_eq_of_lt (by omega)]
    exact ⟨hcontrol, hq, hs⟩
  · have := hbytes byte hb
    refine ⟨by omega, ?_, ?_⟩ <;> simp <;> omega

theorem scanText_of_spells {pieces : List Piece} (h : Spells signs bytes) :
    scanText pieces (bytes ++ 0x22 :: rest) =
      some (pieces.reverse ++ signs.flatMap Sign.pieces, rest) := by
  induction h generalizing pieces with
  | nil => simp [scanText]
  | plain hcontrol hquote hbackslash hs ih =>
    rw [List.append_assoc, scanText_plain (plain_of_mem hcontrol hquote hbackslash), ih]
    simp [Sign.pieces]
  | short hl hs ih =>
    simp only [shortEscapes, List.mem_cons, Prod.mk.injEq, List.not_mem_nil, or_false] at hl
    rcases hl with ⟨rfl, rfl⟩ | ⟨rfl, rfl⟩ | ⟨rfl, rfl⟩ | ⟨rfl, rfl⟩ | ⟨rfl, rfl⟩ | ⟨rfl, rfl⟩ |
      ⟨rfl, rfl⟩ | ⟨rfl, rfl⟩ <;>
      simp [scanText, shortEscape?, ih, Sign.pieces, String.utf8EncodeChar]
  | unit ha hb hc hd hs ih =>
    simp only [List.cons_append]
    rw [scanText, hexUnit?, hexDigit?_eq ha, hexDigit?_eq hb, hexDigit?_eq hc, hexDigit?_eq hd]
    simp [ih, Sign.pieces]

theorem bytesOf?_bytes (done inside : Bytes) (pieces : List Piece) :
    bytesOf? done (inside.map .byte ++ pieces) = bytesOf? (inside.reverse ++ done) pieces := by
  induction inside generalizing done with
  | nil => rfl
  | cons byte inside ih =>
    rw [List.map_cons, List.cons_append, bytesOf?, ih]
    simp

theorem bytesOf?_of_means {chars : List Char} {done : Bytes} (h : Means signs chars) :
    bytesOf? done (signs.flatMap Sign.pieces) =
      some (done.reverse ++ chars.flatMap String.utf8EncodeChar) := by
  have hchar : ∀ char : Char, Utf8.encode char.toString = String.utf8EncodeChar char := by
    intro char
    simpa using Utf8.encode_ofList [char]
  induction h generalizing done with
  | nil => simp [bytesOf?]
  | char hs ih =>
    rw [List.flatMap_cons, Sign.pieces, bytesOf?_bytes, ih]
    simp
  | @unit char signs chars hs ih =>
    have hn : isLowSurrogate char.toNat = false ∧ isHighSurrogate char.toNat = false := by
      have hv : char.toNat < 0xd800 ∨ 0xdfff < char.toNat ∧ char.toNat < 0x110000 := char.valid
      simp only [isLowSurrogate, isHighSurrogate, decide_eq_false_iff_not]
      omega
    rw [List.flatMap_cons, Sign.pieces, List.singleton_append]
    unfold bytesOf?
    simp only [hn.1, hn.2, Bool.false_eq_true, ite_false]
    rw [Char.ofNat_toNat, hchar, ih]
    simp
  | @pair high low char signs chars hhigh hlow hc hs ih =>
    have hn : isLowSurrogate high = false ∧ isHighSurrogate high = true ∧
        isLowSurrogate low = true := by
      simp only [isLowSurrogate, isHighSurrogate, decide_eq_false_iff_not, decide_eq_true_eq]
      omega
    have hj : joinSurrogates high low = char := by
      rw [joinSurrogates, ← hc, Char.ofNat_toNat]
    simp only [List.flatMap_cons, Sign.pieces, List.singleton_append]
    rw [bytesOf?]
    simp only [hn.1, hn.2.1, hn.2.2, Bool.false_eq_true, ite_false, ite_true]
    rw [hj, hchar, ih]
    simp

-- Whatever stands between its quotes, a string is one token.
theorem scans_quoted (h : Quoted signs bytes) :
    Scans bytes [.text (textOf? (signs.flatMap Sign.pieces))] := by
  obtain ⟨inside, hs, rfl⟩ := h
  intro seen rest _
  rw [List.append_assoc, List.cons_append]
  refine scanAll_cons _ (by decide) ?_
  rw [scan, List.singleton_append, scanText_of_spells hs]
  rfl

theorem scans_text (h : Text text bytes) : Scans bytes [.text (some text)] := by
  obtain ⟨signs, hq, hm⟩ := h
  have hbytes := @bytesOf?_of_means signs text.toList [] hm
  rw [← Utf8.encode_ofList, String.ofList_toList, List.reverse_nil, List.nil_append] at hbytes
  have htext : textOf? (signs.flatMap Sign.pieces) = some text := by
    rw [textOf?, hbytes]
    exact Utf8.decode_encode text
  exact htext ▸ scans_quoted hq

theorem scanAll_blank {blank : Bytes} (h : Blank blank) :
    scanAll seen (blank ++ rest) = scanAll seen rest := by
  induction blank with
  | nil => rfl
  | cons byte blank ih =>
    have hb : isBlank byte = true := by
      simpa [isBlank] using h byte (List.mem_cons_self ..)
    have hblank := ih fun other ho => h other (List.mem_cons_of_mem _ ho)
    rw [List.cons_append, scanAll, if_pos hb, hblank]

theorem stops_append {blank : Bytes} (h : Blank blank) (hr : Stops rest) :
    Stops (blank ++ rest) := by
  cases blank with
  | nil => exact hr
  | cons byte blank =>
    intro first hf
    obtain rfl : byte = first := by simpa using hf
    have hb := h byte (List.mem_cons_self ..)
    simp only [List.mem_cons, List.not_mem_nil, or_false] at hb
    rcases hb with rfl | rfl | rfl | rfl <;> decide

theorem isDigit_of_digits (h : Digits bytes) : ∀ byte ∈ bytes, isDigit byte = true :=
  fun byte hb => decide_eq_true (h.2 byte hb)

theorem afterDigits?_append (h : Digits bytes)
    (hr : ∀ byte ∈ rest.head?, isDigit byte = false) :
    afterDigits? (bytes ++ rest) = some rest := by
  have hall := isDigit_of_digits h
  cases bytes with
  | nil => exact absurd rfl h.1
  | cons byte more =>
    have hmore : ∀ other ∈ more, isDigit other = true := fun other ho =>
      hall other (List.mem_cons_of_mem _ ho)
    have hrest : rest.dropWhile isDigit = rest := by
      cases rest with
      | nil => rfl
      | cons first tail => rw [List.dropWhile_cons_of_neg (by simp [hr first (by simp)])]
    rw [List.cons_append, afterDigits?, if_pos (hall byte (List.mem_cons_self ..)),
      List.dropWhile_append_of_pos hmore, hrest]

theorem afterWhole?_append (h : Whole bytes)
    (hr : ∀ byte ∈ rest.head?, isDigit byte = false) :
    afterWhole? (bytes ++ rest) = some rest := by
  rcases h with rfl | ⟨hd, hz⟩
  · rw [List.singleton_append, afterWhole?, if_neg]
    cases rest with
    | nil => simp
    | cons first tail => simp [hr first (by simp)]
  · rw [afterWhole?, afterDigits?_append hd hr]
    intro tail ht
    obtain ⟨byte, more, rfl⟩ := List.exists_cons_of_ne_nil hd.1
    have := (List.cons.inj ht).1
    exact hz (by simp [this])

theorem afterFraction?_append (h : Fraction bytes)
    (hr : ∀ byte ∈ rest.head?, isDigit byte = false ∧ byte ≠ 0x2e) :
    afterFraction? (bytes ++ rest) = some rest := by
  rcases h with rfl | ⟨digits, hd, rfl⟩
  · rw [List.nil_append, afterFraction?]
    rintro tail rfl
    exact (hr 0x2e rfl).2 rfl
  · rw [List.cons_append, afterFraction?, afterDigits?_append hd fun byte hb => (hr byte hb).1]

theorem afterSign_digits (h : Digits bytes) : afterSign (bytes ++ rest) = bytes ++ rest := by
  obtain ⟨byte, more, rfl⟩ := List.exists_cons_of_ne_nil h.1
  have hd := isDigit_of_digits h byte (List.mem_cons_self ..)
  rw [List.cons_append]
  unfold afterSign
  split
  · next he => cases he; cases hd
  · next he => cases he; cases hd
  · rfl

theorem afterExponent?_append (h : Exponent bytes) (hr : Stops rest) :
    afterExponent? (bytes ++ rest) = some rest := by
  rcases h with rfl | ⟨mark, hmark, sign, hsign, digits, hd, rfl⟩
  · rw [List.nil_append, afterExponent?]
    · rintro tail rfl
      exact absurd (hr 0x65 rfl).2 (by decide)
    · rintro tail rfl
      exact absurd (hr 0x45 rfl).2 (by decide)
  · have hdigits : afterDigits? (digits ++ rest) = some rest :=
      afterDigits?_append hd fun byte hb => (hr byte hb).1
    have hafter : afterSign (sign ++ (digits ++ rest)) = digits ++ rest := by
      simp only [List.mem_cons, List.not_mem_nil, or_false] at hsign
      rcases hsign with rfl | rfl | rfl
      · rw [List.nil_append, afterSign_digits hd]
      · rfl
      · rfl
    rw [List.cons_append, List.append_assoc]
    simp only [List.mem_cons, List.not_mem_nil, or_false] at hmark
    rcases hmark with rfl | rfl <;> rw [afterExponent?, hafter, hdigits]

theorem stops_of_fraction (h : Fraction bytes) {after : Bytes}
    (hr : ∀ byte ∈ after.head?, isDigit byte = false) :
    ∀ byte ∈ (bytes ++ after).head?, isDigit byte = false := by
  rcases h with rfl | ⟨digits, -, rfl⟩
  · exact hr
  · rintro byte ⟨⟩
    decide

theorem stops_of_exponent (h : Exponent bytes) (hr : Stops rest) :
    ∀ byte ∈ (bytes ++ rest).head?, isDigit byte = false ∧ byte ≠ 0x2e := by
  rcases h with rfl | ⟨mark, hmark, sign, -, digits, -, rfl⟩
  · intro byte hb
    obtain ⟨hd, hm⟩ := hr byte hb
    exact ⟨hd, fun he => hm (by simp [he])⟩
  · rintro byte ⟨⟩
    simp only [List.mem_cons, List.not_mem_nil, or_false] at hmark
    rcases hmark with rfl | rfl <;> decide

theorem exists_cons_of_whole (h : Whole bytes) :
    ∃ byte more, bytes = byte :: more ∧ isDigit byte = true := by
  rcases h with rfl | ⟨hd, -⟩
  · exact ⟨0x30, [], rfl, by decide⟩
  · obtain ⟨byte, more, rfl⟩ := List.exists_cons_of_ne_nil hd.1
    exact ⟨byte, more, rfl, isDigit_of_digits hd byte (List.mem_cons_self ..)⟩

theorem isBlank_of_isDigit {byte : UInt8} (h : isDigit byte = true) : isBlank byte = false := by
  simp only [isBlank, decide_eq_false_iff_not]
  rintro (rfl | rfl | rfl | rfl) <;> cases h

theorem scan_digit {byte : UInt8} (h : isDigit byte = true) :
    scan byte rest = (afterNumber? (byte :: rest)).map fun rest => (.scalar, rest) := by
  unfold scan
  split
  case h_12 => rfl
  all_goals cases h

theorem scans_number (h : Number bytes) : Scans bytes [.scalar] := by
  obtain ⟨sign, hsign, whole, fraction, exponent, hw, hf, he, rfl⟩ := h
  intro seen rest hr
  have hexponent := stops_of_exponent he hr
  have hnumber : afterNumber? (whole ++ (fraction ++ (exponent ++ rest))) = some rest := by
    have hfraction := stops_of_fraction hf fun byte hb => (hexponent byte hb).1
    rw [afterNumber?, afterWhole?_append hw hfraction, Option.bind_some,
      afterFraction?_append hf hexponent, Option.bind_some, afterExponent?_append he hr]
  simp only [List.append_assoc]
  simp only [List.mem_cons, List.not_mem_nil, or_false] at hsign
  rcases hsign with rfl | rfl
  · obtain ⟨byte, more, rfl, hd⟩ := exists_cons_of_whole hw
    rw [List.cons_append] at hnumber
    rw [List.nil_append, List.cons_append]
    refine scanAll_cons _ (isBlank_of_isDigit hd) ?_
    rw [scan_digit hd, hnumber]
    rfl
  · rw [List.singleton_append]
    refine scanAll_cons _ (by decide) ?_
    rw [scan, hnumber]
    rfl

theorem scans_word (h : bytes ∈ words) : Scans bytes [.scalar] := by
  intro seen rest _
  have hwords : words = [[0x74, 0x72, 0x75, 0x65], [0x66, 0x61, 0x6c, 0x73, 0x65],
      [0x6e, 0x75, 0x6c, 0x6c]] := by decide
  simp only [hwords, List.mem_cons, List.not_mem_nil, or_false] at h
  rcases h with rfl | rfl | rfl <;> exact scanAll_cons _ (by decide) rfl

-- A value with blanks around it.
theorem scans_padded {a value b : Bytes} {tokens : List Token} (ha : Blank a)
    (hv : Scans value tokens) (hb : Blank b) : Scans (a ++ value ++ b) tokens := by
  intro seen rest hr
  simp only [List.append_assoc]
  rw [scanAll_blank ha, hv _ _ (stops_append hb hr), scanAll_blank hb]

-- A byte that is a token by itself.
structure Mark (byte : UInt8) (token : Token) : Prop where
  not_blank : isBlank byte = false
  stops : isDigit byte = false ∧ byte ∉ [0x2e, 0x65, 0x45]
  scan_eq : ∀ rest, scan byte rest = some (token, rest)

theorem mark_openBracket : Mark 0x5b .openBracket := ⟨by decide, by decide, fun _ => rfl⟩

theorem mark_closeBracket : Mark 0x5d .closeBracket := ⟨by decide, by decide, fun _ => rfl⟩

theorem mark_openBrace : Mark 0x7b .openBrace := ⟨by decide, by decide, fun _ => rfl⟩

theorem mark_closeBrace : Mark 0x7d .closeBrace := ⟨by decide, by decide, fun _ => rfl⟩

theorem mark_colon : Mark 0x3a .colon := ⟨by decide, by decide, fun _ => rfl⟩

theorem mark_comma : Mark 0x2c .comma := ⟨by decide, by decide, fun _ => rfl⟩

section

variable {byte opening closing : UInt8} {token left right : Token} {tokens others : List Token}
  {more inside : Bytes}

theorem scans_mark (h : Mark byte token) (hs : Scans bytes tokens) :
    Scans (byte :: bytes) (token :: tokens) := by
  intro seen rest hr
  rw [List.cons_append, scanAll_cons token h.not_blank (h.scan_eq _), hs _ _ hr]
  simp

theorem scans_append (hs : Scans bytes tokens) (h : Mark byte token) (hm : Scans more others) :
    Scans (bytes ++ byte :: more) (tokens ++ token :: others) := by
  intro seen rest hr
  have hstop : Stops (byte :: more ++ rest) := by
    rintro first ⟨⟩
    exact h.stops
  rw [List.append_assoc, hs _ _ hstop, scans_mark h hm _ _ hr]
  simp

theorem scans_enclosed (hl : Mark opening left) (hi : Scans inside tokens)
    (hr : Mark closing right) :
    Scans (opening :: inside ++ [closing]) (left :: (tokens ++ [right])) :=
  scans_mark hl (scans_append hi hr fun _ _ _ => rfl)

end

theorem scans_blank {blank : Bytes} (h : Blank blank) : Scans blank [] :=
  fun _ _ _ => scanAll_blank h

open Dentry

-- Up to the end of a value, or of what stands inside brackets or braces, wherever the reader may be
-- when it gets there.
def Skips : Kind → List Token → Prop
  | .value, tokens => ∀ frames rest,
      skip frames .value (tokens ++ rest) = skip frames .after rest ∧
      skip (.list :: frames) .opened (tokens ++ rest) = skip (.list :: frames) .after rest
  | .elements, tokens => ∀ frames rest,
      skip (.list :: frames) .opened (tokens ++ .closeBracket :: rest) = skip frames .after rest ∧
      skip (.list :: frames) .value (tokens ++ .closeBracket :: rest) = skip frames .after rest
  | .members, tokens => ∀ frames rest,
      skip (.object :: frames) .opened (tokens ++ .closeBrace :: rest) = skip frames .after rest ∧
      skip (.object :: frames) .name (tokens ++ .closeBrace :: rest) = skip frames .after rest

theorem skips_scalar : Skips .value [.scalar] := fun frames rest => by simp [skip]

theorem skips_text (content : Option String) : Skips .value [.text content] :=
  fun frames rest => by simp [skip]

theorem skips_list {inside : List Token} (h : Skips .elements inside ∨ inside = []) :
    Skips .value (.openBracket :: (inside ++ [.closeBracket])) := by
  intro frames rest
  simp only [List.cons_append, List.append_assoc, List.nil_append]
  rw [skip, skip]
  rcases h with h | rfl
  · exact ⟨(h _ _).1, (h _ _).1⟩
  · simp [skip]

theorem skips_object {inside : List Token} (h : Skips .members inside ∨ inside = []) :
    Skips .value (.openBrace :: (inside ++ [.closeBrace])) := by
  intro frames rest
  simp only [List.cons_append, List.append_assoc, List.nil_append]
  rw [skip, skip]
  rcases h with h | rfl
  · exact ⟨(h _ _).1, (h _ _).1⟩
  · simp [skip]

theorem skips_lastElement {value : List Token} (h : Skips .value value) :
    Skips .elements value := by
  intro frames rest
  rw [(h frames _).2, (h (.list :: frames) _).1]
  simp [skip]

theorem skips_element {value more : List Token} (h : Skips .value value)
    (hm : Skips .elements more) : Skips .elements (value ++ .comma :: more) := by
  intro frames rest
  rw [List.append_assoc, (h frames _).2, (h (.list :: frames) _).1]
  simp [skip, (hm frames rest).2]

theorem skips_lastMember {content : Option String} {value : List Token} (h : Skips .value value) :
    Skips .members (.text content :: .colon :: value) := by
  intro frames rest
  simp [skip, (h (.object :: frames) _).1]

theorem skips_member {content : Option String} {value more : List Token} (h : Skips .value value)
    (hm : Skips .members more) :
    Skips .members (.text content :: .colon :: (value ++ .comma :: more)) := by
  intro frames rest
  simp [skip, (h (.object :: frames) _).1, (hm frames rest).2]

theorem scans_texts {texts : List String}
    (h : Separated (fun text => Padded (Text text)) texts bytes) : Scans bytes (listed texts) := by
  induction h with
  | @last text bytes h =>
    obtain ⟨a, inside, b, ha, ht, hb, rfl⟩ := h
    exact scans_padded ha (scans_text ht) hb
  | @cons text texts bytes more h hm ih =>
    obtain ⟨a, inside, b, ha, ht, hb, rfl⟩ := h
    have hne : texts ≠ [] := by cases hm <;> exact List.cons_ne_nil _ _
    have hall := scans_append (scans_padded ha (scans_text ht) hb) mark_comma ih
    rwa [listed]
    exact hne

theorem scans_textList {texts : List String} (h : TextList texts bytes) :
    Scans bytes (.openBracket :: (listed texts ++ [.closeBracket])) := by
  obtain ⟨inside, rfl, hi⟩ := h
  refine scans_enclosed mark_openBracket ?_ mark_closeBracket
  rcases hi with ⟨rfl, hb⟩ | ht
  · exact scans_blank hb
  · exact scans_texts ht

-- The induction is on the value. Inside brackets and braces the reader takes the same way.
theorem exists_skips {kind : Kind} (h : Written kind bytes) :
    ∃ tokens, Scans bytes tokens ∧ Skips kind tokens := by
  induction h with
  | text hq => exact ⟨_, scans_quoted hq, skips_text _⟩
  | number hn => exact ⟨_, scans_number hn, skips_scalar⟩
  | word hw => exact ⟨_, scans_word hw, skips_scalar⟩
  | emptyList hb =>
    have hs := scans_enclosed mark_openBracket (scans_blank hb) mark_closeBracket
    exact ⟨_, hs, skips_list (.inr rfl)⟩
  | list hi ih =>
    obtain ⟨tokens, hs, hk⟩ := ih
    exact ⟨_, scans_enclosed mark_openBracket hs mark_closeBracket, skips_list (.inl hk)⟩
  | emptyObject hb =>
    have hs := scans_enclosed mark_openBrace (scans_blank hb) mark_closeBrace
    exact ⟨_, hs, skips_object (.inr rfl)⟩
  | object hi ih =>
    obtain ⟨tokens, hs, hk⟩ := ih
    exact ⟨_, scans_enclosed mark_openBrace hs mark_closeBrace, skips_object (.inl hk)⟩
  | lastElement ha hv hb ih =>
    obtain ⟨tokens, hs, hk⟩ := ih
    exact ⟨_, scans_padded ha hs hb, skips_lastElement hk⟩
  | element ha hv hb hm ih ihm =>
    obtain ⟨tokens, hs, hk⟩ := ih
    obtain ⟨others, hsm, hkm⟩ := ihm
    exact ⟨_, scans_append (scans_padded ha hs hb) mark_comma hsm, skips_element hk hkm⟩
  | lastMember ha hn hb hc hv hd ih =>
    obtain ⟨tokens, hs, hk⟩ := ih
    have hname := scans_padded ha (scans_quoted hn) hb
    exact ⟨_, scans_append hname mark_colon (scans_padded hc hs hd), skips_lastMember hk⟩
  | member ha hn hb hc hv hd hm ih ihm =>
    obtain ⟨tokens, hs, hk⟩ := ih
    obtain ⟨others, hsm, hkm⟩ := ihm
    have hname := scans_padded ha (scans_quoted hn) hb
    have hmember := scans_append hname mark_colon (scans_padded hc hs hd)
    exact ⟨_, scans_append hmember mark_comma hsm, skips_member hk hkm⟩

end

end DocTree.Json
