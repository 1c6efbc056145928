import DocTree.Document.Dentry
import Mathlib.Data.List.Basic

namespace DocTree

namespace Token

theorem scanAll_cons {seen : List Token} {byte : UInt8} {rest after : Bytes} (token : Token)
    (hb : isBlank byte = false) (hs : scan byte rest = some (token, after)) :
    scanAll seen (byte :: rest) = scanAll (token :: seen) after := by
  rw [scanAll, hb]
  simp only [Bool.false_eq_true, ite_false]
  split
  · next heq => rw [hs] at heq; cases heq; rfl
  · next heq => rw [hs] at heq; cases heq

-- The tokens of a list of texts, without the brackets.
def listed : List String → List Token
  | [] => []
  | [name] => [.text (some name)]
  | name :: more => .text (some name) :: .comma :: listed more

end Token

namespace Dentry

theorem texts_listed (found : List String) (text : String) (more : List String)
    (rest : List Token) :
    texts found (Token.listed (text :: more) ++ .closeBracket :: rest) =
      some (found.reverse ++ text :: more, rest) := by
  induction more generalizing found text with
  | nil => simp [Token.listed, texts]
  | cons next others ih => simp [Token.listed, texts, ih]

theorem textList_listed (names : List String) (rest : List Token) :
    textList (Token.listed names ++ .closeBracket :: rest) = some (names, rest) := by
  cases names with
  | nil => simp [Token.listed, textList]
  | cons text more =>
    have h := texts_listed [] text more rest
    cases more <;> simpa [textList, Token.listed] using h

theorem members_cons {found now : Members} {name : String} {rest after : List Token}
    (h : member found name rest = some (now, .comma :: after)) :
    members found (.text (some name) :: .colon :: rest) = members now after := by
  rw [members]
  split
  · next heq => rw [h] at heq; cases heq; rfl
  · next heq => rw [h] at heq; cases heq
  · next hne _ => exact absurd h (hne _ _)

theorem members_last {found now : Members} {name : String} {rest : List Token}
    (h : member found name rest = some (now, [.closeBrace])) :
    members found (.text (some name) :: .colon :: rest) = now.complete := by
  rw [members]
  split
  · next heq => rw [h] at heq; cases heq
  · next heq => rw [h] at heq; cases heq; rfl
  · next hne => exact absurd h (hne _)

theorem length_escape_le (byte : UInt8) : (escape byte).length ≤ 6 := by
  unfold escape
  split_ifs <;> simp

-- A byte is escaped with at most six, and two quotes are added.
theorem length_quote_le (text : String) : (quote text).length ≤ 6 * text.utf8ByteSize + 2 := by
  have hescaped : ∀ bytes : Bytes, (bytes.flatMap escape).length ≤ 6 * bytes.length := by
    intro bytes
    induction bytes with
    | nil => exact Nat.le_refl _
    | cons byte rest ih =>
      have hbyte := length_escape_le byte
      rw [List.flatMap_cons, List.length_append, List.length_cons]
      omega
  have htext := hescaped (Utf8.encode text)
  rw [Utf8.length_encode] at htext
  unfold quote
  rw [List.length_append, List.length_cons, List.length_singleton]
  omega

theorem length_encode_new (directory parent : String) : (new directory parent).encode.length =
    (quote directory).length + (quote parent).length + 21 := by
  unfold encode new
  simp only [List.length_append, List.length_cons, List.length_nil, quoteAll]
  have hcr : (quote "cr").length = 4 := by decide
  have hpr : (quote "pr").length = 4 := by decide
  have hch : (quote "ch").length = 4 := by decide
  omega

theorem length_quoteAll_cons (text : String) (more : List String) :
    (quoteAll (text :: more)).length =
      (quote text).length + if more = [] then 0 else (quoteAll more).length + 1 := by
  cases more with
  | nil => rfl
  | cons next rest => simp [quoteAll]

theorem length_quoteAll_le {names all : List String} (h : names.Sublist all) :
    (quoteAll names).length ≤ (quoteAll all).length := by
  induction h with
  | slnil => exact Nat.le_refl _
  | @cons names all text h ih =>
    rw [length_quoteAll_cons]
    split
    · next hn =>
      subst hn
      rw [List.sublist_nil.mp h]
      exact Nat.zero_le _
    · omega
  | @cons_cons names all text h ih =>
    rw [length_quoteAll_cons, length_quoteAll_cons]
    by_cases hn : names = []
    · rw [if_pos hn]
      omega
    · have ha : all ≠ [] := by
        rintro rfl
        exact hn (List.sublist_nil.mp h)
      rw [if_neg hn, if_neg ha]
      omega

theorem length_encode_removeChild_le (dentry : Dentry) (name : String) :
    (dentry.removeChild name).encode.length ≤ dentry.encode.length := by
  have hsub : (dentry.removeChild name).children.Sublist dentry.children := List.filter_sublist
  have hl := length_quoteAll_le hsub
  have hd : (dentry.removeChild name).directory = dentry.directory := rfl
  have hp : (dentry.removeChild name).parent = dentry.parent := rfl
  unfold encode
  rw [hd, hp]
  simp only [List.length_append, List.length_cons]
  omega

end Dentry

end DocTree
