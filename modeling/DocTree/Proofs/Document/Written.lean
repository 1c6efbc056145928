import DocTree.Proofs.Document.Json

namespace DocTree.Dentry

open Json Token

def keys : List String := ["cr", "pr", "ch"]

variable {dentry : Dentry} {name : String} {names : List String} {bytes : Bytes}

-- The value of the member with this name. One of another name says nothing of the directory.
inductive ValueOf (dentry : Dentry) : String → Bytes → Prop
  | directory {bytes : Bytes} (ht : Text dentry.directory bytes) : ValueOf dentry "cr" bytes
  | parent {bytes : Bytes} (ht : Text dentry.parent bytes) : ValueOf dentry "pr" bytes
  | children {bytes : Bytes} (ht : TextList dentry.children bytes) : ValueOf dentry "ch" bytes
  | other {name : String} {bytes : Bytes} (hn : name ∉ keys) (hv : Written .value bytes) :
      ValueOf dentry name bytes

def MemberOf (dentry : Dentry) (name : String) (bytes : Bytes) : Prop :=
  ∃ key value, Padded (Text name) key ∧ Padded (ValueOf dentry name) value ∧
    bytes = key ++ 0x3a :: value

-- An object with each of the three members once.
def Document (dentry : Dentry) : Bytes → Prop :=
  Padded fun bytes => ∃ names inside, (∀ key ∈ keys, names.count key = 1) ∧
    Separated (MemberOf dentry) names inside ∧ bytes = 0x7b :: inside ++ [0x7d]

-- What has been found when the members with these names are still to come.
def awaiting (dentry : Dentry) (names : List String) : Members where
  directory := if "cr" ∈ names then none else some dentry.directory
  parent := if "pr" ∈ names then none else some dentry.parent
  children := if "ch" ∈ names then none else some dentry.children

theorem skip_after (rest : List Token) : skip [] .after rest = some rest := by
  cases rest <;> simp [skip]

theorem member_of_not_mem {found : Members} {tokens : List Token} (h : name ∉ keys) :
    member found name tokens = (skipValue tokens).map fun rest => (found, rest) := by
  simp only [keys, List.mem_cons, List.not_mem_nil, or_false, not_or] at h
  unfold member
  split
  case h_7 => rfl
  all_goals simp at h

theorem awaiting_of_not_mem (h : name ∉ keys) :
    awaiting dentry (name :: names) = awaiting dentry names := by
  simp only [keys, List.mem_cons, List.not_mem_nil, or_false, not_or] at h
  simp [awaiting, Ne.symm h.1, Ne.symm h.2.1, Ne.symm h.2.2]

theorem exists_member (h : ValueOf dentry name bytes) :
    ∃ tokens, Scans bytes tokens ∧ ∀ names rest, (name ∈ keys → name ∉ names) →
      member (awaiting dentry (name :: names)) name (tokens ++ rest) =
        some (awaiting dentry names, rest) := by
  cases h with
  | directory ht =>
    refine ⟨_, scans_text ht, fun names rest hn => ?_⟩
    have hnames := hn (by decide)
    simp [member, awaiting, hnames]
  | parent ht =>
    refine ⟨_, scans_text ht, fun names rest hn => ?_⟩
    have hnames := hn (by decide)
    simp [member, awaiting, hnames]
  | children ht =>
    refine ⟨_, scans_textList ht, fun names rest hn => ?_⟩
    have hnames := hn (by decide)
    simp [member, awaiting, hnames, textList_listed]
  | other hn hv =>
    obtain ⟨tokens, hs, hk⟩ := exists_skips hv
    refine ⟨tokens, hs, fun names rest _ => ?_⟩
    rw [member_of_not_mem hn, skipValue, (hk [] rest).1, skip_after, awaiting_of_not_mem hn]
    rfl

theorem scans_memberOf (h : MemberOf dentry name bytes) :
    ∃ tokens, Scans bytes (.text (some name) :: .colon :: tokens) ∧
      ∀ names rest, (name ∈ keys → name ∉ names) →
        member (awaiting dentry (name :: names)) name (tokens ++ rest) =
          some (awaiting dentry names, rest) := by
  obtain ⟨_, _, ⟨a, key, b, ha, hk, hb, rfl⟩, ⟨c, value, d, hc, hv, hd, rfl⟩, rfl⟩ := h
  obtain ⟨tokens, hs, hm⟩ := exists_member hv
  exact ⟨tokens, scans_append (scans_padded ha (scans_text hk) hb) mark_colon
    (scans_padded hc hs hd), hm⟩

-- The induction is on the members; what was found is always what is no longer awaited.
theorem exists_members (h : Separated (MemberOf dentry) names bytes)
    (hn : ∀ key ∈ keys, names.count key ≤ 1) :
    ∃ tokens, Scans bytes tokens ∧
      members (awaiting dentry names) (tokens ++ [.closeBrace]) = some dentry := by
  induction h with
  | @last name bytes h =>
    obtain ⟨tokens, hs, hm⟩ := scans_memberOf h
    refine ⟨_, hs, ?_⟩
    rw [List.cons_append, List.cons_append, members_last (hm [] _ fun _ => List.not_mem_nil)]
    rfl
  | @cons name names bytes more h hmore ih =>
    obtain ⟨tokens, hs, hm⟩ := scans_memberOf h
    have hrest : ∀ key ∈ keys, names.count key ≤ 1 := fun key hk =>
      Nat.le_trans (List.count_le_count_cons ..) (hn key hk)
    have hname : name ∈ keys → name ∉ names := by
      intro hk
      have hcount := hn name hk
      rw [List.count_cons_self] at hcount
      exact List.count_eq_zero.mp (by omega)
    obtain ⟨others, hothers, hfound⟩ := ih hrest
    refine ⟨_, scans_append hs mark_comma hothers, ?_⟩
    simp only [List.cons_append, List.append_assoc]
    rw [members_cons (hm names _ hname), hfound]

theorem decode_of_document (h : Document dentry bytes) : decode bytes = .ok dentry := by
  obtain ⟨a, _, b, ha, ⟨names, inside, hkeys, hi, rfl⟩, hb, rfl⟩ := h
  obtain ⟨tokens, hs, hm⟩ := exists_members hi fun key hk => Nat.le_of_eq (hkeys key hk)
  have hall := scans_padded ha (scans_enclosed mark_openBrace hs mark_closeBrace) hb [] [] nofun
  have hmem : ∀ key ∈ keys, key ∈ names := fun key hk =>
    List.count_pos_iff.mp (by rw [hkeys key hk]; exact Nat.one_pos)
  have hnone : awaiting dentry names = {} := by
    simp [awaiting, hmem "cr" (by decide), hmem "pr" (by decide), hmem "ch" (by decide)]
  rw [List.append_nil, List.append_nil, scanAll, List.reverse_reverse] at hall
  rw [hnone] at hm
  rw [decode, hall, Option.bind_some, ofTokens?, hm]

theorem escape_of_plain {byte : UInt8}
    (h : 0x20 ≤ byte.toNat ∧ byte ≠ 0x22 ∧ byte ≠ 0x5c) : escape byte = [byte] := by
  obtain ⟨hcontrol, hquote, hbackslash⟩ := h
  have hl : ¬byte < 0x20 := fun hl => Nat.not_lt.mpr hcontrol (UInt8.lt_iff_toNat_lt.mp hl)
  have hne : ∀ control : UInt8, control < 0x20 → byte ≠ control := fun control hc he => hl (he ▸ hc)
  unfold escape
  rw [if_neg (not_or.mpr ⟨hquote, hbackslash⟩), if_neg (hne _ (by decide)),
    if_neg (hne _ (by decide)), if_neg (hne _ (by decide)), if_neg (hne _ (by decide)),
    if_neg (hne _ (by decide)), if_neg hl]

theorem flatMap_escape_of_plain
    (h : ∀ byte ∈ bytes, 0x20 ≤ byte.toNat ∧ byte ≠ 0x22 ∧ byte ≠ 0x5c) :
    bytes.flatMap escape = bytes := by
  induction bytes with
  | nil => rfl
  | cons byte bytes ih =>
    rw [List.flatMap_cons, escape_of_plain (h byte (List.mem_cons_self ..)),
      ih fun other ho => h other (List.mem_cons_of_mem _ ho)]
    rfl

theorem escape_control : ∀ n < 0x20,
    (∃ pair ∈ shortEscapes, pair.2 = Char.ofNat n ∧ escape (UInt8.ofNat n) = [0x5c, pair.1]) ∨
      escape (UInt8.ofNat n) = [0x5c, 0x75, 0x30, 0x30, hexDigit (n / 16), hexDigit (n % 16)] := by
  decide

theorem hexDigit_hexDigit : ∀ n < 16, HexDigit (hexDigit n) n := by
  unfold HexDigit
  decide

theorem spells_escape (char : Char) : ∃ sign, (∀ signs bytes, Spells signs bytes →
    Spells (sign :: signs) ((String.utf8EncodeChar char).flatMap escape ++ bytes)) ∧
    (sign = .char char ∨ sign = .unit char.toNat) := by
  by_cases hplain : 0x20 ≤ char.toNat ∧ char ≠ '"' ∧ char ≠ '\\'
  · obtain ⟨hcontrol, hquote, hbackslash⟩ := hplain
    refine ⟨.char char, fun signs bytes hs => ?_, .inl rfl⟩
    rw [flatMap_escape_of_plain (plain_of_mem hcontrol hquote hbackslash)]
    exact .plain hcontrol hquote hbackslash hs
  by_cases hcontrol : char.toNat < 0x20
  · have hbyte : String.utf8EncodeChar char = [UInt8.ofNat char.toNat] := by
      rcases utf8EncodeChar_cases char with h | h
      · exact h.2
      · omega
    rw [hbyte, List.flatMap_singleton]
    rcases escape_control _ hcontrol with ⟨⟨letter, char'⟩, hl, hc, he⟩ | he
    · obtain rfl : char' = char := hc.trans (Char.ofNat_toNat char)
      exact ⟨.char char', fun signs bytes hs => he ▸ .short hl hs, .inl rfl⟩
    · refine ⟨.unit char.toNat, fun signs bytes hs => ?_, .inr rfl⟩
      have hzero : HexDigit 0x30 0 := .inl ⟨by decide, rfl⟩
      have hhigh := hexDigit_hexDigit (char.toNat / 16) (by omega)
      have hlow := hexDigit_hexDigit (char.toNat % 16) (by omega)
      have hn : ((0 * 16 + 0) * 16 + char.toNat / 16) * 16 + char.toNat % 16 = char.toNat := by
        omega
      have hunit := Spells.unit hzero hzero hhigh hlow hs
      rw [hn] at hunit
      rw [he]
      exact hunit
  · obtain rfl | rfl : char = '"' ∨ char = '\\' := by
      by_contra hne
      exact hplain ⟨Nat.not_lt.mp hcontrol, not_or.mp hne⟩
    · have hl : (0x22, '"') ∈ shortEscapes := by decide
      exact ⟨.char '"', fun signs bytes hs => .short hl hs, .inl rfl⟩
    · have hl : (0x5c, '\\') ∈ shortEscapes := by decide
      exact ⟨.char '\\', fun signs bytes hs => .short hl hs, .inl rfl⟩

theorem text_quote (text : String) : Text text (quote text) := by
  have hspells : ∀ chars : List Char, ∃ signs,
      Spells signs ((chars.flatMap String.utf8EncodeChar).flatMap escape) ∧ Means signs chars := by
    intro chars
    induction chars with
    | nil => exact ⟨[], .nil, .nil⟩
    | cons char chars ih =>
      obtain ⟨signs, hs, hm⟩ := ih
      obtain ⟨sign, hsign, hmean⟩ := spells_escape char
      refine ⟨sign :: signs, ?_, ?_⟩
      · rw [List.flatMap_cons, List.flatMap_append]
        exact hsign _ _ hs
      · rcases hmean with rfl | rfl
        · exact .char hm
        · exact .unit hm
  obtain ⟨signs, hs, hm⟩ := hspells text.toList
  refine ⟨signs, ⟨_, hs, ?_⟩, hm⟩
  rw [← Utf8.encode_ofList, String.ofList_toList]
  rfl

theorem padded_self {P : Bytes → Prop} (h : P bytes) : Padded P bytes :=
  ⟨[], bytes, [], nofun, h, nofun, by simp⟩

theorem separated_quoteAll (text : String) (more : List String) :
    Separated (fun text => Padded (Text text)) (text :: more) (quoteAll (text :: more)) := by
  induction more generalizing text with
  | nil => exact .last (padded_self (text_quote text))
  | cons next others ih => exact .cons (padded_self (text_quote text)) (ih next)

theorem textList_quoteAll (texts : List String) :
    TextList texts (0x5b :: quoteAll texts ++ [0x5d]) := by
  refine ⟨_, rfl, ?_⟩
  cases texts with
  | nil => exact .inl ⟨rfl, nofun⟩
  | cons text more => exact .inr (separated_quoteAll text more)

theorem memberOf_quote (h : ValueOf dentry name bytes) :
    MemberOf dentry name (quote name ++ 0x3a :: bytes) :=
  ⟨_, _, padded_self (text_quote name), padded_self h, rfl⟩

theorem document_encode (dentry : Dentry) : Document dentry dentry.encode := by
  have hmembers : Separated (MemberOf dentry) keys _ :=
    .cons (memberOf_quote (.directory (text_quote dentry.directory)))
      (.cons (memberOf_quote (.parent (text_quote dentry.parent)))
        (.last (memberOf_quote (.children (textList_quoteAll dentry.children)))))
  refine padded_self ⟨keys, _, by decide, hmembers, ?_⟩
  simp [encode]

theorem decode_encode (dentry : Dentry) : decode dentry.encode = .ok dentry :=
  decode_of_document (document_encode dentry)

-- No text is lost on its way, and a document written by other hands reads as the stored one.
theorem every_document_reads_back (dentry : Dentry) :
    decode dentry.encode = .ok dentry ∧ Document dentry dentry.encode ∧
      ∀ bytes, Document dentry bytes → decode bytes = .ok dentry :=
  ⟨decode_encode dentry, document_encode dentry, fun _ => decode_of_document⟩

-- The members stand in another order, one more is among them, and a slash is escaped.
def sample : Bytes :=
  Utf8.encode "\x7b\"x\": [0],\"ch\":[\"b\"],\"pr\":\"\\/\",\"cr\":\"/a\"\x7d"

theorem sample_document :
    Document ⟨"/a", "/", ["b"]⟩ sample ∧ decode sample = .ok ⟨"/a", "/", ["b"]⟩ := by
  have hslash : Text "/" [0x22, 0x5c, 0x2f, 0x22] :=
    ⟨[.char '/'], ⟨_, .short (by decide : (0x2f, '/') ∈ shortEscapes) .nil, rfl⟩, .char .nil⟩
  have hzero : Written .value [0x30] :=
    .number ⟨[], by decide, [0x30], [], [], .inl rfl, .inl rfl, .inl rfl, rfl⟩
  have hlist : Written .value [0x5b, 0x30, 0x5d] :=
    .list (@Written.lastElement [] _ [] nofun hzero nofun)
  have hspace : Blank [0x20] := List.forall_mem_singleton.mpr List.mem_cons_self
  have hmembers : Separated (MemberOf ⟨"/a", "/", ["b"]⟩) ["x", "ch", "pr", "cr"] _ :=
    .cons ⟨_, _, padded_self (text_quote "x"),
        ⟨[0x20], _, [], hspace, .other (by decide) hlist, nofun, rfl⟩, rfl⟩
      (.cons (memberOf_quote (.children (textList_quoteAll ["b"])))
        (.cons (memberOf_quote (.parent hslash))
          (.last (memberOf_quote (.directory (text_quote "/a"))))))
  have h : Document ⟨"/a", "/", ["b"]⟩ sample :=
    padded_self ⟨_, _, by decide, hmembers, by decide⟩
  exact ⟨h, (every_document_reads_back _).2.2 sample h⟩

end DocTree.Dentry
