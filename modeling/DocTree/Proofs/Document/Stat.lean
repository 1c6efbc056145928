import DocTree.Document.Stat

namespace DocTree

namespace Mode

-- Bits that are put together along a mask come apart along it.
theorem merge_and (mode other mask : UInt32) :
    (mode &&& mask ||| other &&& ~~~mask) &&& mask = mode &&& mask := by
  apply UInt32.toBitVec_inj.mp
  simp only [UInt32.toBitVec_and, UInt32.toBitVec_or, UInt32.toBitVec_not]
  ext i hi
  simp only [BitVec.getElem_and, BitVec.getElem_or, BitVec.getElem_not]
  cases mode.toBitVec[i] <;> cases other.toBitVec[i] <;> cases mask.toBitVec[i] <;> rfl

theorem typeBits_typeBits_or (mode other : UInt32) :
    typeBits (typeBits mode ||| permissions other) = typeBits mode :=
  merge_and mode other typeMask

theorem permissions_typeBits_or (mode other : UInt32) :
    permissions (typeBits mode ||| permissions other) = permissions other := by
  have h := merge_and other mode (~~~typeMask)
  rw [UInt32.not_not, UInt32.or_comm] at h
  exact h

theorem kind_typeBits_or (mode other : UInt32) :
    kind (typeBits mode ||| permissions other) = kind mode := by
  unfold kind
  rw [typeBits_typeBits_or]

theorem kind_directory_or (mode : UInt32) : kind (directory ||| permissions mode) = .directory := by
  have h := kind_typeBits_or directory mode
  have hd : typeBits directory = directory := by decide
  rw [hd] at h
  rw [h]
  decide

theorem kind_regularFile {mode : UInt32} (h : typeBits mode = regularFile) :
    kind mode = .regularFile := by
  have hd : regularFile ≠ directory := by decide
  unfold kind
  rw [h, if_neg hd, if_pos rfl]

end Mode

namespace StatChange

-- The size after a change.
def sizeAfter (change : StatChange) (old : UInt64) : UInt64 :=
  match change with
  | .size length => length
  | _ => old

end StatChange

-- The time that an update leaves of an old one.
def TimeUpdate.apply (update : TimeUpdate) (old now : TimeSpec) : TimeSpec :=
  match update with
  | .now => now
  | .omit => old
  | .at time => time

namespace StatRecord

-- The change time is set along with any of the two times, and stays if both do.
theorem apply_times (stat : StatRecord) (accessed modified : TimeUpdate) (now : TimeSpec) :
    stat.apply (.times (some (accessed, modified))) now =
      { stat with
        accessedAt := accessed.apply stat.accessedAt now
        modifiedAt := modified.apply stat.modifiedAt now
        changedAt := if accessed = .omit ∧ modified = .omit then stat.changedAt else now } := by
  cases accessed <;> cases modified <;> rfl

-- Two times that are left out are a change of nothing.
theorem apply_times_omit (stat : StatRecord) (now : TimeSpec) :
    stat.apply (.times (some (.omit, .omit))) now = stat := rfl

theorem isRegularFile_new {mode : UInt32} (hm : Mode.typeBits mode = Mode.regularFile)
    (now : TimeSpec) : (StatRecord.new mode now).isRegularFile := by
  simp [isRegularFile, kind, new, Mode.kind_regularFile hm]

theorem isDirectory_new (mode : UInt32) (now : TimeSpec) :
    (StatRecord.new (Mode.directory ||| Mode.permissions mode) now).isDirectory := by
  simp [isDirectory, kind, new, Mode.kind_directory_or]

theorem kind_apply (stat : StatRecord) (change : StatChange) (now : TimeSpec) :
    (stat.apply change now).kind = stat.kind := by
  unfold kind
  cases change with
  | mode mode => exact Mode.kind_typeBits_or _ _
  | times times =>
    cases times with
    | none => rfl
    | some pair => rw [apply_times]
  | _ => rfl

theorem size_apply (stat : StatRecord) (change : StatChange) (now : TimeSpec) :
    (stat.apply change now).size = change.sizeAfter stat.size := by
  cases change with
  | times times =>
    cases times with
    | none => rfl
    | some pair => rw [apply_times]; rfl
  | _ => rfl

theorem isDirectory_apply (stat : StatRecord) (change : StatChange) (now : TimeSpec) :
    (stat.apply change now).isDirectory = stat.isDirectory := by
  unfold isDirectory
  rw [kind_apply]

theorem isRegularFile_apply (stat : StatRecord) (change : StatChange) (now : TimeSpec) :
    (stat.apply change now).isRegularFile = stat.isRegularFile := by
  unfold isRegularFile
  rw [kind_apply]

theorem corrupt_of_decode {bytes : Bytes} {error : FsError} (h : decode bytes = .error error) :
    ∃ what, error = .corrupt what := by
  unfold decode at h
  split at h
  · exact ⟨_, (Except.error.inj h).symm⟩
  · split at h
    · cases h
    · exact ⟨_, (Except.error.inj h).symm⟩

theorem not_isDirectory_of_isRegularFile {stat : StatRecord} (h : stat.isRegularFile = true) :
    stat.isDirectory = false := by
  simp only [isRegularFile, decide_eq_true_eq] at h
  simp [isDirectory, h]

theorem not_isRegularFile_of_isDirectory {stat : StatRecord} (h : stat.isDirectory = true) :
    stat.isRegularFile = false := by
  simp only [isDirectory, decide_eq_true_eq] at h
  simp [isRegularFile, h]

end StatRecord

end DocTree
