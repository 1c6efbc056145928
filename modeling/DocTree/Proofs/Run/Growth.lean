import DocTree.Proofs.Run.Files

namespace DocTree

open Call

-- All bytes of a regular file below its recorded size.
structure Docs.Visible (limits : Limits) (path : String) (bytes : Bytes) (docs : Docs) : Prop where
  stat : ∃ stat, docs.StatAt path (some stat) ∧ stat.isRegularFile ∧
    stat.size.toNat = bytes.length
  bytes_eq : bytes = (docs.blocks path).below limits.blockSize bytes.length

namespace Operation

-- A call on a file that makes it no shorter.
def Grows (path : String) (docs : Docs) : Operation → Prop
  | .read other _ _ => other = path
  | .write other _ _ => other = path
  | .truncate other size =>
    other = path ∧ ∀ stat, docs.StatAt path (some stat) → stat.size.toNat ≤ size.toNat
  | _ => False

-- What a call may leave of the bytes of a file if it fails before it changes the record.
def Leaves (bytes left : Bytes) : Operation → Prop
  | .write _ offset data => bytes.Partly offset.toNat data left
  | _ => left = bytes

end Operation

-- How a call on a file ends: in full; or without a change of the record and with part of the bytes
-- at most; or in full after all, with the answer lost. `file` says what a store has for bytes.
def Step.Ends (file : Bytes → Docs → Prop) (path : String) (bytes : Bytes) (step : Step)
    (docs : Docs) : Outcome Answer → Docs → Prop
  | .done answer, after => step.operation.Tells bytes answer ∧
    file (step.operation.onBytes bytes) after
  | .failed _, after =>
    docs.Recorded step.operation step.now path after ∧ file (step.operation.onBytes bytes) after ∨
      after .stats path = docs .stats path ∧
        ∃ left, step.operation.Leaves bytes left ∧ file left after
  | .crashed, _ => False

def Request.isRemoval : Request → Bool
  | remove _ => true
  | _ => false

-- The stores that such calls on one file lead to, while requests other than removals meet any fate.
inductive Unreliable.Grown (limits : Limits) (scope path : String) (start : Unreliable) :
    Unreliable → Prop
  | start : Grown limits scope path start start
  | step {store : Unreliable} (step : Step) (h : Grown limits scope path start store)
      (hg : step.operation.Grows path (store.image.docs scope)) :
      Grown limits scope path start (step.run limits (backend Request.isRemoval scope) store).2

variable {limits : Limits} {path scope : String} {bytes : Bytes} {docs : Docs}

theorem Docs.Holds.visible (hs : 0 < limits.blockSize) (h : docs.Holds limits path bytes) :
    docs.Visible limits path bytes :=
  ⟨h.stat, (h.blocks.below_eq hs).symm⟩

theorem Operation.ensures_grown {faulty : Request → Prop} (hv : limits.Valid)
    (h : docs.Holds limits path bytes) (hrem : ∀ key, ¬faulty (.remove key)) {operation : Operation}
    (hg : operation.Grows path docs) (now : Readings) :
    (operation.call limits now).Ensures faulty
      (fun answer after => operation.Tells bytes answer ∧
        after.Holds limits path (operation.onBytes bytes))
      (fun _ after =>
        docs.Recorded operation now path after ∧
            after.Holds limits path (operation.onBytes bytes) ∨
          after .stats path = docs .stats path ∧
            ∃ left, operation.Leaves bytes left ∧ after.Holds limits path left) docs := by
  cases operation with
  | read other offset size =>
    obtain rfl := hg
    apply ensures_map.mpr
    apply (Tree.ensures_read_file hv h).mono
    · intro data after hpost
      obtain ⟨hdata, hheld, -⟩ := hpost
      exact ⟨congrArg Answer.data hdata, hheld⟩
    · intro _ after hpost
      obtain ⟨hheld, hrecord | hrecord, -⟩ := hpost
      · exact .inr ⟨hrecord, bytes, rfl, hheld⟩
      · exact .inl ⟨hrecord, hheld⟩
  | write other offset data =>
    obtain rfl := hg
    apply ensures_map.mpr
    apply (Tree.ensures_write_file hv h hrem).mono
    · intro count after hpost
      obtain ⟨hcount, -, hheld, -⟩ := hpost
      exact ⟨congrArg Answer.count hcount, hheld⟩
    · intro _ after hpost
      rcases hpost with ⟨rfl, -⟩ | ⟨-, hfull | ⟨hrecord, left, hpart, hheld⟩⟩
      · exact .inr ⟨rfl, bytes, .refl, h⟩
      · exact .inl hfull
      · exact .inr ⟨hrecord, left, hpart, hheld⟩
  | truncate other size =>
    obtain ⟨rfl, hsize⟩ := hg
    obtain ⟨stat, hstat, -, hlength⟩ := h.stat
    have hle : bytes.length ≤ size.toNat := hlength ▸ hsize stat hstat
    apply ensures_map.mpr
    apply (Tree.ensures_truncate_file hv h hrem).mono
    · intro changed after hpost
      obtain ⟨hchanged, -, hheld, -⟩ := hpost
      exact ⟨⟨changed, rfl, hchanged⟩, hheld⟩
    · intro _ after hpost
      rcases hpost with ⟨rfl, -⟩ | ⟨-, hend⟩
      · exact .inr ⟨rfl, bytes, rfl, h⟩
      · rcases hend hle with hfull | ⟨hrecord, hheld⟩
        · exact .inl hfull
        · exact .inr ⟨hrecord, bytes, rfl, hheld⟩
  | _ => exact hg.elim

namespace Step

variable {file other : Bytes → Docs → Prop} {step : Step} {outcome : Outcome Answer} {after : Docs}

theorem Ends.mono (h : step.Ends file path bytes docs outcome after)
    (hf : ∀ bytes, file bytes after → other bytes after) :
    step.Ends other path bytes docs outcome after := by
  cases outcome with
  | done answer => exact ⟨h.1, hf _ h.2⟩
  | failed error =>
    rcases h with ⟨hrecord, hfull⟩ | ⟨hrecord, left, hleft, hpart⟩
    · exact .inl ⟨hrecord, hf _ hfull⟩
    · exact .inr ⟨hrecord, left, hleft, hf _ hpart⟩
  | crashed => exact h

theorem Ends.exists_file (h : step.Ends file path bytes docs outcome after) :
    ∃ left, file left after := by
  cases outcome with
  | done answer => exact ⟨_, h.2⟩
  | failed error =>
    rcases h with ⟨-, hfull⟩ | ⟨-, left, -, hpart⟩
    · exact ⟨_, hfull⟩
    · exact ⟨left, hpart⟩
  | crashed => exact h.elim

theorem run_grown (hv : limits.Valid) (step : Step) {store : Unreliable}
    (h : (store.image.docs scope).Holds limits path bytes)
    (hg : step.operation.Grows path (store.image.docs scope)) :
    step.Ends (Docs.Holds limits path) path bytes (store.image.docs scope)
      (step.run limits (Unreliable.backend Request.isRemoval scope) store).1
      ((step.run limits (Unreliable.backend Request.isRemoval scope) store).2.image.docs scope)
    := by
  have hrem : ∀ key, ¬(Request.remove key).isRemoval = false := fun key hf => nomatch hf
  have hrun := (Operation.ensures_grown hv h hrem hg step.now).run
    (Unreliable.backend_serves Request.isRemoval scope)
  unfold Step.run
  generalize (step.operation.call limits step.now).run
    (Unreliable.backend Request.isRemoval scope) store = result at *
  obtain ⟨outcome, store⟩ := result
  cases outcome <;> exact hrun

end Step

-- What lies past the recorded size changes nothing of this, so it holds after any number of calls.
theorem Unreliable.Grown.holds {start store : Unreliable} (hv : limits.Valid)
    (hg : Grown limits scope path start store)
    (h : (start.image.docs scope).Holds limits path bytes) :
    ∃ bytes, (store.image.docs scope).Holds limits path bytes := by
  induction hg with
  | start => exact ⟨bytes, h⟩
  | step step _ hgrows ih =>
    obtain ⟨before, hb⟩ := ih
    exact (step.run_grown hv hb hgrows).exists_file

-- Whatever failed before, a call acts on the visible bytes of a file, and if it fails it leaves
-- them as they were, or changed in part where it was to write, or changed in full.
theorem failed_growth_stays_hidden (hv : limits.validate = .ok ()) (scope : String)
    (header : Header) (now : Readings) {history : List Step}
    (hp : ∀ step ∈ history, step.operation.NulFree) {path : String} {stat : StatRecord}
    (hs : ((Image.reached limits scope header now history).docs scope).StatAt path (some stat))
    (hr : stat.isRegularFile) (fates : Nat → Fate) {store : Unreliable}
    (hg : Unreliable.Grown limits scope path
      ⟨Image.reached limits scope header now history, fates⟩ store)
    (step : Step) (hstep : step.operation.Grows path (store.image.docs scope)) :
    ∃ bytes, (store.image.docs scope).Visible limits path bytes ∧
      step.Ends (Docs.Visible limits path) path bytes (store.image.docs scope)
        (step.run limits (Unreliable.backend Request.isRemoval scope) store).1
        ((step.run limits (Unreliable.backend Request.isRemoval scope) store).2.image.docs scope)
    := by
  have hv := limits.validate_eq_ok_iff.mp hv
  have hblock := hv.blockSize_pos
  have hstored := (Image.reached_inOrder hv scope header now hp).stored
  obtain ⟨start, hstart, -⟩ := hstored.exists_bytes hs hr
  have hkept := hstored.kept path (hstored.named path stat hs)
  rw [hstart] at hkept
  obtain ⟨bytes, hb⟩ := hg.holds hv hkept.1
  exact ⟨bytes, hb.visible hblock, (step.run_grown hv hb hstep).mono fun _ hh => hh.visible hblock⟩

-- The first write past the end may not change the record. The block that it leaves is not seen.
theorem sample_growth_stays_hidden :
    (Sample.image.docs defaultScope).StatAt "/f" (some Sample.stat) ∧
      Sample.stat.isRegularFile ∧
      ∃ store bytes, Unreliable.Grown Sample.limits defaultScope "/f" (Sample.store 6) store ∧
        (store.image.docs defaultScope).blocks "/f" 3 ≠ none ∧
        (store.image.docs defaultScope).StatAt "/f" (some Sample.stat) ∧
        (store.image.docs defaultScope).Visible Sample.limits "/f" bytes := by
  have hs : (Sample.image.docs defaultScope).StatAt "/f" (some Sample.stat) := by
    unfold Docs.StatAt
    decide +kernel
  have hr : Sample.stat.isRegularFile := by decide
  have hg : Unreliable.Grown Sample.limits defaultScope "/f" (Sample.store 6) _ :=
    .step ⟨Sample.now, .write "/f" 13 [90]⟩ .start rfl
  obtain ⟨bytes, hvisible, -⟩ := failed_growth_stays_hidden (by decide) defaultScope default
    Sample.now (by decide) hs hr _ hg ⟨Sample.now, .read "/f" 0 20⟩ rfl
  refine ⟨hs, hr, _, bytes, hg, ?_, ?_, hvisible⟩
  · decide +kernel
  · unfold Docs.StatAt
    decide +kernel

end DocTree
