import DocTree.Proofs.Document.Time
import DocTree.Proofs.Tree.Files
import DocTree.Proofs.Tree.Placed

namespace DocTree

open Call

-- A request that changes neither a record nor the document of a directory.
def Aside (collection : Collection) (request : Request) : Prop :=
  collection = .blocks ∨ ∃ key, request = .get key

theorem aside_get {collection : Collection} {key : String} : Aside collection (.get key) :=
  .inr ⟨key, rfl⟩

theorem permits_aside (path : String) (count : Nat) : Content.Permits Aside path count :=
  fun _ _ _ _ => .inl rfl

inductive Call.Revises (limits : Limits) (now : Readings) : ∀ {α : Type}, Call α → Prop where
  | aside {α : Type} {call : Call α} (h : call.Only Aside) : Revises limits now call
  | update (path : String) {change : StatChange} (hc : change.Sound limits) :
      Revises limits now (Metadata.update path change now)
  | bind {α β : Type} {call : Call α} {next : α → Call β} (h : Revises limits now call)
      (hn : ∀ value, Revises limits now (next value)) : Revises limits now (call >>= next)
  | check {α : Type} {p : Prop} [Decidable p] {error : FsError} {next : Unit → Call α}
      (hn : p → Revises limits now (next ())) : Revises limits now (check p error >>= next)

-- The calls that take or make no path.
def Operation.Revising : Operation → Prop
  | bootstrap => False
  | create _ _ => False
  | mkdir _ _ => False
  | unlink _ => False
  | rmdir _ => False
  | _ => True

-- A call that asks for times that are instants.
def Operation.Timely : Operation → Prop
  | utimens _ (some (accessed, modified)) => accessed.Sound ∧ modified.Sound
  | _ => True

namespace Tree

variable {limits : Limits} {path : String} {now : Readings}

theorem revises_changeRecord {change : StatChange} (hc : change.Sound limits) :
    (do Call.ofExcept (Path.checkLength path limits.maxKeyLen)
        Metadata.update path change now).Revises limits now :=
  .bind (.aside only_ofExcept) fun _ => .update path hc

theorem revises_read {offset : UInt64} {size : UInt32} :
    (read limits path offset size now).Revises limits now := by
  have haccessed : StatChange.accessed.Sound limits := trivial
  rw [read_eq]
  refine .bind (.aside (only_fileStat aside_get)) fun stat => .bind (.aside ?_) fun data =>
    .bind (.update path haccessed) fun _ => .aside trivial
  unfold readContent
  split
  · trivial
  · exact Content.only_read fun _ _ => aside_get

theorem revises_write (hv : limits.Valid) {offset : UInt64} {data : Bytes} :
    (write limits path offset data now).Revises limits now := by
  refine .bind (.aside (only_fileStat aside_get)) fun stat => .check fun hl => ?_
  obtain ⟨call, ho, he⟩ :=
    exists_writeContent_eq_map hv (permits_aside path limits.maxBlocks) stat hl
  rw [he]
  -- The length that is recorded is the one that was checked.
  have hc : (writeChange stat (offset.toNat + data.length) data).Sound limits := by
    unfold writeChange
    split
    · exact Nat.le_trans (Nat.mod_le _ _) hl
    · trivial
  rw [bind_map_left]
  exact .bind (.aside ho) fun _ => .bind (.update path hc) fun _ => .aside trivial

theorem revises_truncate (hv : limits.Valid) {size : UInt64} :
    (truncate limits path size now).Revises limits now :=
  .bind (.aside (only_fileStat aside_get)) fun _ => .check fun hl =>
    .bind (.aside (only_resizeContent hv (permits_aside path limits.maxBlocks) hl)) fun _ =>
      .update path hl

end Tree

open DocTree.Tree in
theorem Operation.revises {limits : Limits} {now : Readings} (hv : limits.Valid)
    (operation : Operation) (hr : operation.Revising) (ht : operation.Timely) :
    (operation.call limits now).Revises limits now := by
  have hmap : ∀ {α : Type} {call : Call α} {f : α → Answer}, call.Revises limits now →
      (f <$> call).Revises limits now := fun h => .bind h fun _ => .aside trivial
  cases operation with
  | getattr path owner => exact hmap (.aside (only_getattr aside_get))
  | openFile path flags => exact hmap (.aside (only_openFile aside_get))
  | read path offset size => exact hmap revises_read
  | write path offset data => exact hmap (revises_write hv)
  | truncate path size => exact hmap (revises_truncate hv)
  | chmod path mode => exact hmap (revises_changeRecord trivial)
  | utimens path times =>
    refine hmap (revises_changeRecord ?_)
    cases times with
    | none => trivial
    | some times => exact ht
  | readdir path offset => exact hmap (.aside (only_readdir aside_get aside_get))
  | _ => exact hr.elim

end DocTree
