import DocTree.Proofs.Run.Steps
import DocTree.Proofs.Tree.Files

namespace DocTree

open Blocks
open Function (update)

-- The path that a call is about.
def Operation.path : Operation → String
  | .bootstrap => Path.root
  | .getattr path _ | .openFile path _ | .create path _ | .mkdir path _ | .unlink path
  | .rmdir path | .read path _ _ | .write path _ _ | .truncate path _ | .chmod path _
  | .utimens path _ | .readdir path _ => path

def Operation.NulFree (operation : Operation) : Prop := Path.NulFree operation.path

instance : DecidablePred Operation.NulFree :=
  fun operation => inferInstanceAs (Decidable (Path.NulFree operation.path))

-- What a call that goes through makes of the bytes of a file that is there.
def Operation.onBytes (bytes : Bytes) : Operation → Bytes
  | .write _ offset data => bytes.write offset.toNat data
  | .truncate _ size => bytes.resize size.toNat
  | _ => bytes

-- What it tells of them.
def Operation.Tells (bytes : Bytes) : Operation → Answer → Prop
  | .read _ offset size, answer => answer = .data ((bytes.drop offset.toNat).take size.toNat)
  | .write _ _ data, answer => answer = .count data.length
  | .truncate _ size, answer => ∃ stat, answer = .stat stat ∧ stat.size = size
  | _, _ => True

-- The byte string at each path that has a regular file.
abbrev Contents := String → Option Bytes

namespace Contents

-- What a call that succeeds makes of the byte strings: all but four leave every one alone.
def after (contents : Contents) (operation : Operation) : Contents :=
  match operation with
  | .create path _ => update contents path (some [])
  | .unlink path => update contents path none
  | .write path _ _ | .truncate path _ =>
    update contents path ((contents path).map fun bytes => operation.onBytes bytes)
  | _ => contents

-- A call that fails changes no byte.
def next (contents : Contents) (operation : Operation) : Outcome Answer → Contents
  | .done _ => contents.after operation
  | _ => contents

def Answers (contents : Contents) (operation : Operation) (answer : Answer) : Prop :=
  match operation with
  | .read path _ _ | .write path _ _ | .truncate path _ =>
    ∃ bytes, contents path = some bytes ∧ operation.Tells bytes answer
  | _ => True

-- Why a call on bytes may fail: there is no such file, or it would grow too long.
def Refuses (limits : Limits) (contents : Contents) : Operation → Prop
  | .read path _ _ => contents path = none
  | .write path offset data =>
    contents path = none ∨ limits.maxFileLen < offset.toNat + data.length
  | .truncate path size => contents path = none ∨ limits.maxFileLen < size.toNat
  | _ => True

-- How a call may end.
def Allows (limits : Limits) (contents : Contents) (operation : Operation) : Outcome Answer → Prop
  | .done answer => contents.Answers operation answer
  | .failed _ => contents.Refuses limits operation
  | .crashed => False

theorem after_of_ne {contents : Contents} {operation : Operation} {path : String}
    (h : path ≠ operation.path) : contents.after operation path = contents path := by
  cases operation <;> first | rfl | exact Function.update_of_ne h _ _

-- The byte strings after calls one after the other, each as it ends.
def follow {σ : Type} (limits : Limits) (backend : Backend σ) :
    List Step → σ → Contents → Contents
  | [], _, contents => contents
  | step :: rest, state, contents =>
    follow limits backend rest (step.run limits backend state).2
      (contents.next step.operation (step.run limits backend state).1)

end Contents

-- The byte strings of a client that starts with a new store.
def Image.contents (limits : Limits) (scope : String) (header : Header) (now : Readings)
    (history : List Step) : Contents :=
  Contents.follow limits (Image.unlimited scope) (⟨now, .bootstrap⟩ :: history) (Image.new header)
    fun _ => none

namespace Docs

-- What is stored for one path: a regular file with its bytes in dense blocks, or no regular file
-- and no block.
def Keeps (limits : Limits) (path : String) : Option Bytes → Docs → Prop
  | some bytes, docs => docs.Holds limits path bytes ∧ docs.blocks path = of limits.blockSize bytes
  | none, docs => (∀ stat, docs.StatAt path (some stat) → stat.isRegularFile = false) ∧
    docs.blocks path = fun _ => none

structure Stored (limits : Limits) (contents : Contents) (docs : Docs) : Prop where
  kept : ∀ path, Path.NulFree path → docs.Keeps limits path (contents path)
  named : ∀ path stat, docs.StatAt path (some stat) → Path.NulFree path
  keyed : ∀ key, docs.value .blocks key ≠ none →
    ∃ path index, Path.NulFree path ∧ key = Path.blockKey path index

variable {docs after : Docs} {limits : Limits} {contents : Contents} {path : String}
  {content : Option Bytes} {old new : StatRecord}

theorem statAt_iff (h : after.value .stats path = docs.value .stats path)
    {record : Option StatRecord} : after.StatAt path record ↔ docs.StatAt path record := by
  unfold StatAt
  rw [h]

theorem Keeps.blocks_eq (h : docs.Keeps limits path content) :
    docs.blocks path = of limits.blockSize (content.getD []) := by
  cases content with
  | some bytes => exact h.2
  | none =>
    rw [h.2]
    funext index
    simp [of]

-- What is kept depends on one record and on the blocks of one path.
theorem Keeps.of_same (h : docs.Keeps limits path content)
    (hs : after.value .stats path = docs.value .stats path)
    (hb : after.blocks path = docs.blocks path) : after.Keeps limits path content := by
  cases content with
  | some bytes =>
    obtain ⟨⟨⟨stat, hstat, hreg, hsize⟩, hcov, hl⟩, hdense⟩ := h
    exact ⟨⟨⟨stat, (statAt_iff hs).mpr hstat, hreg, hsize⟩, hb ▸ hcov, hl⟩, hb.trans hdense⟩
  | none => exact ⟨fun stat hstat => h.1 stat ((statAt_iff hs).mp hstat), hb.trans h.2⟩

-- A record may change, as long as its kind and its size do not.
theorem Keeps.of_record (h : docs.Keeps limits path content) (ho : docs.StatAt path (some old))
    (hn : after.StatAt path (some new)) (hk : new.kind = old.kind) (hz : new.size = old.size)
    (hb : after.blocks path = docs.blocks path) : after.Keeps limits path content := by
  have hr : new.isRegularFile = old.isRegularFile := by
    unfold StatRecord.isRegularFile
    rw [hk]
  cases content with
  | some bytes =>
    obtain ⟨⟨⟨stat, hstat, hreg, hsize⟩, hcov, hl⟩, hdense⟩ := h
    obtain rfl := Option.some_inj.mp (ho.inj hstat)
    refine ⟨⟨⟨new, hn, hr.trans hreg, ?_⟩, hb ▸ hcov, hl⟩, hb.trans hdense⟩
    rw [hz, hsize]
  | none =>
    refine ⟨fun stat hstat => ?_, hb.trans h.2⟩
    obtain rfl := Option.some_inj.mp (hn.inj hstat)
    exact hr.trans (h.1 old ho)

theorem SameOthers.sameBlocks (h : docs.SameOthers path after)
    (hb : after.blocks path = docs.blocks path) : docs.SameBlocks after := by
  intro key
  by_cases hk : ∃ index, key = Path.blockKey path index
  · obtain ⟨index, rfl⟩ := hk
    exact congrFun hb index
  · exact h key fun index hi => hk ⟨index, hi⟩

-- Other paths do not notice a change that one path is in order after.
theorem Stored.update (h : docs.Stored limits contents) (hp : Path.NulFree path)
    (hs : ∀ other, other ≠ path → after.value .stats other = docs.value .stats other)
    (hb : docs.SameOthers path after) (hk : after.Keeps limits path content) :
    after.Stored limits (Function.update contents path content) := by
  constructor
  case kept =>
    intro other ho
    by_cases he : other = path
    · subst he
      rwa [Function.update_self]
    · rw [Function.update_of_ne he]
      exact (h.kept other ho).of_same (hs other he) (hb.blocks hp ho he)
  case named =>
    intro other stat hstat
    by_cases he : other = path
    · exact he ▸ hp
    · exact h.named other stat ((statAt_iff (hs other he)).mp hstat)
  case keyed =>
    intro key hkey
    by_cases he : ∃ index, key = Path.blockKey path index
    · obtain ⟨index, rfl⟩ := he
      exact ⟨path, index, hp, rfl⟩
    · rw [hb key fun index hi => he ⟨index, hi⟩] at hkey
      exact h.keyed key hkey

-- So is a change after which the path keeps what it kept.
theorem Stored.of_keeps (h : docs.Stored limits contents) (hp : Path.NulFree path)
    (hs : ∀ other, other ≠ path → after.value .stats other = docs.value .stats other)
    (hb : docs.SameOthers path after) (hk : after.Keeps limits path (contents path)) :
    after.Stored limits contents := by
  have hu := h.update hp hs hb hk
  rwa [Function.update_eq_self] at hu

theorem Stored.of_same (h : docs.Stored limits contents)
    (hs : ∀ path, after.value .stats path = docs.value .stats path) (hb : docs.SameBlocks after) :
    after.Stored limits contents := by
  constructor
  case kept => exact fun path hp => (h.kept path hp).of_same (hs path) (hb.blocks path)
  case named => exact fun path stat hstat => h.named path stat ((statAt_iff (hs path)).mp hstat)
  case keyed =>
    intro key hkey
    rw [hb key] at hkey
    exact h.keyed key hkey

-- Where there is a regular file, and where there is none.
theorem Stored.exists_bytes (h : docs.Stored limits contents) (hs : docs.StatAt path (some old))
    (hr : old.isRegularFile) : ∃ bytes, contents path = some bytes ∧
      old.size.toNat = bytes.length ∧ docs.blocks path = of limits.blockSize bytes ∧
      bytes.length ≤ limits.maxFileLen := by
  have hk := h.kept path (h.named path old hs)
  cases hc : contents path with
  | none =>
    rw [hc] at hk
    rw [hk.1 old hs] at hr
    cases hr
  | some bytes =>
    rw [hc] at hk
    obtain ⟨⟨⟨stat, hstat, -, hsize⟩, -, hl⟩, hdense⟩ := hk
    obtain rfl := Option.some_inj.mp (hs.inj hstat)
    exact ⟨bytes, rfl, hsize, hdense, hl⟩

end Docs

end DocTree
