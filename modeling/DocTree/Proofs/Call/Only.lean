import DocTree.Proofs.Call.Document
import DocTree.Tree.Operation

namespace DocTree.Call

variable {α β σ : Type} {allowed : Collection → Request → Prop} {backend : Backend σ}
  {call : Call α}

theorem Only.mono {wider : Collection → Request → Prop} (h : call.Only allowed)
    (hw : ∀ collection request, allowed collection request → wider collection request) :
    call.Only wider := by
  induction call with
  | done value => trivial
  | fail error => trivial
  | crash => exact h
  | submit collection request next ih => exact ⟨hw _ _ h.1, fun reply => ih reply (h.2 reply)⟩

theorem Only.run (keeps : σ → Prop) (h : call.Only allowed)
    (hb : ∀ collection request state, allowed collection request → keeps state →
      keeps (backend collection request state).2) {state : σ} (hk : keeps state) :
    keeps (call.run backend state).2 := by
  induction call generalizing state with
  | done value => exact hk
  | fail error => exact hk
  | crash => exact hk
  | submit collection request next ih => exact ih _ (h.2 _) (hb _ _ _ h.1 hk)

theorem Only.run_ne_crashed (h : call.Only allowed) (state : σ) :
    (call.run backend state).1 ≠ .crashed := by
  induction call generalizing state with
  | done value => exact nofun
  | fail error => exact nofun
  | crash => exact h.elim
  | submit collection request next ih => exact ih _ (h.2 _) _

theorem only_check_bind {p : Prop} [Decidable p] {error : FsError} {next : Unit → Call α}
    (h : p → (next ()).Only allowed) : (check p error >>= next).Only allowed := by
  unfold check
  split
  · next hp => exact h hp
  · trivial

theorem only_ofExcept {value : Except FsError α} : (ofExcept value).Only allowed := by
  cases value <;> trivial

theorem only_bestEffort (h : call.Only allowed) : (bestEffort call).Only allowed :=
  only_bind (only_attempt h) fun _ => trivial

theorem only_map {f : α → β} (h : call.Only allowed) : (f <$> call).Only allowed :=
  only_bind h fun _ => trivial

end DocTree.Call

namespace DocTree

open Call

variable {allowed : Collection → Request → Prop} {path directory : String}

namespace Metadata

theorem only_get (h : allowed .stats (.get path)) : (get path).Only allowed :=
  only_bind (Call.only_get h) fun _ => only_bind only_ofExcept fun _ => trivial

theorem only_insert {mode : UInt32} {now : TimeSpec}
    (h : allowed .stats (.insert path (StatRecord.new mode now).encode)) :
    (insert path mode now).Only allowed :=
  only_bind (Call.only_insert h) fun _ => trivial

theorem only_update {change : StatChange} {now : Readings} (h : allowed .stats (.get path))
    (hr : ∀ value version, allowed .stats (.replace path value version)) :
    (update path change now).Only allowed := by
  refine only_retry (fun _ => only_bind (only_get h) fun found => ?_) _
  exact only_bind (only_stored (only_replace (hr _ _))) fun _ => trivial

theorem only_remove (h : allowed .stats (.remove path)) : (remove path).Only allowed :=
  Call.only_remove h

end Metadata

namespace Directory

theorem only_getVersioned (h : allowed .dentries (.get directory)) :
    (getVersioned directory).Only allowed :=
  only_bind (Call.only_get h) fun _ => only_bind only_ofExcept fun _ => trivial

theorem only_get (h : allowed .dentries (.get directory)) : (get directory).Only allowed :=
  only_bind (only_getVersioned h) fun _ => trivial

theorem only_create {parent : String}
    (h : allowed .dentries (.insert directory (Dentry.new directory parent).encode)) :
    (create directory parent).Only allowed :=
  only_bind (Call.only_insert h) fun _ => trivial

theorem only_modify {change : Dentry → Dentry} (h : allowed .dentries (.get directory))
    (hr : ∀ value version, allowed .dentries (.replace directory value version)) :
    (modify directory change).Only allowed := by
  refine only_retry (fun _ => only_bind (only_getVersioned h) fun found => ?_) _
  exact only_bind (only_stored (only_replace (hr _ _))) fun _ => trivial

theorem only_remove (h : allowed .dentries (.remove directory)) : (remove directory).Only allowed :=
  Call.only_remove h

end Directory

namespace Tree

variable {limits : Limits} (hrecord : allowed .stats (.get path))

include hrecord

theorem only_fileStat : (fileStat limits path).Only allowed :=
  only_bind only_ofExcept fun _ => only_bind (Metadata.only_get hrecord) fun _ =>
    only_bind only_check fun _ => trivial

theorem only_requireDirectory : (requireDirectory path).Only allowed :=
  only_bind (Metadata.only_get hrecord) fun _ => only_check

theorem only_refuseDirectory : (refuseDirectory path).Only allowed := by
  refine only_bind (only_attempt (Metadata.only_get hrecord)) fun answer => ?_
  cases answer with
  | ok found => exact only_check
  | error error => trivial

theorem only_getattr {owner : Caller} : (getattr limits path owner).Only allowed :=
  only_bind only_ofExcept fun _ => only_bind (Metadata.only_get hrecord) fun _ => trivial

theorem only_openFile {flags : Int32} : (openFile limits path flags).Only allowed := by
  refine only_bind only_ofExcept fun _ => only_bind (Metadata.only_get hrecord) fun found => ?_
  exact only_bind only_ofExcept fun _ => only_bind only_check fun _ =>
    only_bind only_check fun _ => trivial

theorem only_readdir {offset : UInt64} (hdentry : allowed .dentries (.get path)) :
    (readdir limits path offset).Only allowed :=
  only_bind only_ofExcept fun _ => only_bind (only_requireDirectory hrecord) fun _ =>
    only_bind (Directory.only_get hdentry) fun _ => trivial

end Tree

end DocTree
