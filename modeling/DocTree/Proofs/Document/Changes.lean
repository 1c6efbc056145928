import DocTree.Proofs.Document.Stat
import Mathlib.Data.List.Basic

namespace DocTree

namespace TimeSpec

variable {first second third : TimeSpec}

instance : LE TimeSpec := ⟨fun first second => (first.compare second).isLE⟩

instance (first second : TimeSpec) : Decidable (first ≤ second) :=
  inferInstanceAs (Decidable ((first.compare second).isLE = true))

theorem le_iff : first ≤ second ↔
    first.sec < second.sec ∨ first.sec = second.sec ∧ first.nsec ≤ second.nsec := by
  change ((Ord.compare first.sec second.sec).then _).isLE = true ↔ _
  rw [Ordering.isLE_then_iff_or, Std.compare_eq_lt, Std.compare_eq_iff_eq, Std.isLE_compare]

theorem le_refl (time : TimeSpec) : time ≤ time := le_iff.mpr (.inr ⟨rfl, UInt32.le_refl _⟩)

theorem le_trans (h : first ≤ second) (hs : second ≤ third) : first ≤ third := by
  rw [le_iff] at h hs ⊢
  simp only [UInt64.lt_iff_toNat_lt, ← UInt64.toNat_inj, UInt32.le_iff_toNat_le] at h hs ⊢
  omega

end TimeSpec

-- The time that an update puts in, unless it leaves the old one.
def TimeUpdate.set? (update : TimeUpdate) (now : TimeSpec) : Option TimeSpec :=
  match update with
  | .now => some now
  | .omit => none
  | .at time => some time

namespace StatChange

-- What a change that is made at `now` puts into each part of a record, unless it leaves the part as
-- it was.
def permissions? : StatChange → TimeSpec → Option UInt32
  | .mode bits, _ => some (Mode.permissions bits)
  | _, _ => none

def size? : StatChange → TimeSpec → Option UInt64
  | .size length, _ => some length
  | _, _ => none

def accessedAt? : StatChange → TimeSpec → Option TimeSpec
  | .accessed, now => some now
  | .times none, now => some now
  | .times (some (update, _)), now => update.set? now
  | _, _ => none

def modifiedAt? : StatChange → TimeSpec → Option TimeSpec
  | .size _, now => some now
  | .modified, now => some now
  | .times none, now => some now
  | .times (some (_, update)), now => update.set? now
  | _, _ => none

def changedAt? : StatChange → TimeSpec → Option TimeSpec
  | .accessed, _ => none
  | .times (some (.omit, .omit)), _ => none
  | _, now => some now

end StatChange

namespace StatRecord

variable (stat : StatRecord) (change : StatChange) (now : TimeSpec)

-- A record after a change, part by part.
theorem apply_eq : stat.apply change now =
    { mode := (change.permissions? now).elim stat.mode (Mode.typeBits stat.mode ||| ·)
      accessedAt := (change.accessedAt? now).getD stat.accessedAt
      modifiedAt := (change.modifiedAt? now).getD stat.modifiedAt
      changedAt := (change.changedAt? now).getD stat.changedAt
      size := (change.size? now).getD stat.size } := by
  cases change with
  | times times =>
    rcases times with _ | ⟨accessed, modified⟩
    · rfl
    · cases accessed <;> cases modified <;> rfl
  | _ => rfl

theorem mode_apply : (stat.apply change now).mode =
    (change.permissions? now).elim stat.mode (Mode.typeBits stat.mode ||| ·) := by
  rw [apply_eq]

theorem typeBits_apply : Mode.typeBits (stat.apply change now).mode = Mode.typeBits stat.mode := by
  rw [mode_apply]
  cases change with
  | mode mode => exact Mode.typeBits_typeBits_or _ _
  | _ => rfl

theorem permissions_apply :
    (stat.apply change now).permissions = (change.permissions? now).getD stat.permissions := by
  unfold permissions
  rw [mode_apply]
  cases change with
  | mode mode => exact Mode.permissions_typeBits_or _ _
  | _ => rfl

theorem size_apply_eq : (stat.apply change now).size = (change.size? now).getD stat.size := by
  rw [apply_eq]

theorem accessedAt_apply :
    (stat.apply change now).accessedAt = (change.accessedAt? now).getD stat.accessedAt := by
  rw [apply_eq]

theorem modifiedAt_apply :
    (stat.apply change now).modifiedAt = (change.modifiedAt? now).getD stat.modifiedAt := by
  rw [apply_eq]

theorem changedAt_apply :
    (stat.apply change now).changedAt = (change.changedAt? now).getD stat.changedAt := by
  rw [apply_eq]

end StatRecord

namespace StatChange

variable {β : Type} (set? : StatChange → TimeSpec → Option β)

-- What the last of some changes has set that sets it at all. Each comes with the time at which it
-- is made.
def last? (history : List (StatChange × TimeSpec)) : Option β :=
  (history.filterMap fun made => set? made.1 made.2).getLast?

theorem last?_cons (made : StatChange × TimeSpec) (history : List (StatChange × TimeSpec)) :
    last? set? (made :: history) = (last? set? history).or (set? made.1 made.2) := by
  unfold last?
  rw [List.filterMap_cons]
  cases set? made.1 made.2 with
  | none => exact Option.or_none.symm
  | some value =>
    dsimp only
    rw [List.getLast?_cons]
    cases (history.filterMap _).getLast? <;> rfl

end StatChange

namespace StatRecord

variable {stat : StatRecord} {made : StatChange × TimeSpec}
  {history earlier rest : List (StatChange × TimeSpec)}

def applyAll (stat : StatRecord) (history : List (StatChange × TimeSpec)) : StatRecord :=
  history.foldl (fun stat made => stat.apply made.1 made.2) stat

theorem applyAll_append : stat.applyAll (earlier ++ rest) = (stat.applyAll earlier).applyAll rest :=
  List.foldl_append

-- A part that each change sets or leaves is what was last set.
theorem applyAll_part {β : Type} {part : StatRecord → β}
    {set? : StatChange → TimeSpec → Option β}
    (h : ∀ stat change now, part (stat.apply change now) = (set? change now).getD (part stat))
    (stat : StatRecord) (history : List (StatChange × TimeSpec)) :
    part (stat.applyAll history) = (StatChange.last? set? history).getD (part stat) := by
  induction history generalizing stat with
  | nil => rfl
  | cons made rest ih =>
    rw [StatChange.last?_cons, Option.getD_or, ← h]
    exact ih _

theorem typeBits_applyAll (stat : StatRecord) (history : List (StatChange × TimeSpec)) :
    Mode.typeBits (stat.applyAll history).mode = Mode.typeBits stat.mode := by
  induction history generalizing stat with
  | nil => rfl
  | cons made rest ih => exact (ih _).trans (typeBits_apply stat made.1 made.2)

-- No change is made before the one in front of it, and none before the change time of the record.
def Forward (stat : StatRecord) (history : List (StatChange × TimeSpec)) : Prop :=
  (stat.changedAt :: history.map Prod.snd).Pairwise (· ≤ ·)

instance (stat : StatRecord) (history : List (StatChange × TimeSpec)) :
    Decidable (stat.Forward history) :=
  inferInstanceAs (Decidable (List.Pairwise _ _))

-- The change time is set to the time of the change or stays.
theorem changedAt_apply_cases (stat : StatRecord) (change : StatChange) (now : TimeSpec) :
    (stat.apply change now).changedAt = stat.changedAt ∨
      (stat.apply change now).changedAt = now := by
  rw [changedAt_apply]
  unfold StatChange.changedAt?
  split
  · exact .inl rfl
  · exact .inl rfl
  · exact .inr rfl

theorem Forward.step (h : stat.Forward (made :: rest)) :
    (stat.apply made.1 made.2).Forward rest ∧
      stat.changedAt ≤ (stat.apply made.1 made.2).changedAt := by
  unfold Forward at h ⊢
  rw [List.map_cons, List.pairwise_cons] at h
  obtain ⟨hfirst, hnext⟩ := h
  rcases changedAt_apply_cases stat made.1 made.2 with he | he <;> rw [he]
  · refine ⟨List.pairwise_cons.mpr ⟨fun time hm => ?_, hnext.of_cons⟩, TimeSpec.le_refl _⟩
    exact hfirst time (List.mem_cons_of_mem _ hm)
  · exact ⟨hnext, hfirst made.2 (List.mem_cons_self ..)⟩

theorem Forward.run (h : stat.Forward (earlier ++ rest)) :
    (stat.applyAll earlier).Forward rest ∧
      stat.changedAt ≤ (stat.applyAll earlier).changedAt := by
  induction earlier generalizing stat with
  | nil => exact ⟨h, TimeSpec.le_refl _⟩
  | cons made earlier ih =>
    obtain ⟨hnext, hle⟩ := Forward.step h
    obtain ⟨hrest, hlast⟩ := ih hnext
    exact ⟨hrest, TimeSpec.le_trans hle hlast⟩

open StatChange in
theorem record_after_changes (stat : StatRecord) (history : List (StatChange × TimeSpec)) :
    let last := stat.applyAll history
    Mode.typeBits last.mode = Mode.typeBits stat.mode ∧
      last.permissions = (last? permissions? history).getD stat.permissions ∧
      last.size = (last? size? history).getD stat.size ∧
      last.accessedAt = (last? accessedAt? history).getD stat.accessedAt ∧
      last.modifiedAt = (last? modifiedAt? history).getD stat.modifiedAt ∧
      last.changedAt = (last? changedAt? history).getD stat.changedAt ∧
      (stat.Forward history → ∀ earlier later, earlier <+: later → later <+: history →
        (stat.applyAll earlier).changedAt ≤ (stat.applyAll later).changedAt) := by
  intro last
  refine ⟨typeBits_applyAll stat history, applyAll_part permissions_apply stat history,
    applyAll_part size_apply_eq stat history, applyAll_part accessedAt_apply stat history,
    applyAll_part modifiedAt_apply stat history, applyAll_part changedAt_apply stat history, ?_⟩
  rintro h earlier later ⟨more, rfl⟩ ⟨rest, rfl⟩
  rw [List.append_assoc] at h
  rw [applyAll_append]
  exact h.run.1.run.2

end StatRecord

namespace Sample

def regular : StatRecord := StatRecord.new 0o100644 ⟨1, 0⟩

-- The file type in the new mode and the times that are left out count for nothing.
def changes : List (StatChange × TimeSpec) :=
  [(.size 5, ⟨2, 0⟩), (.times (some (.omit, .at ⟨9, 7⟩)), ⟨2, 0⟩), (.mode 0o040600, ⟨3, 0⟩),
    (.accessed, ⟨3, 8⟩), (.times (some (.omit, .omit)), ⟨6, 0⟩)]

end Sample

open Sample in
theorem sample_record_after_changes :
    regular.Forward changes ∧
      (regular.applyAll changes).permissions = 0o600 ∧ (regular.applyAll changes).size = 5 ∧
      (regular.applyAll changes).accessedAt = ⟨3, 8⟩ ∧
      (regular.applyAll changes).modifiedAt = ⟨9, 7⟩ ∧
      (regular.applyAll changes).changedAt = ⟨3, 0⟩ ∧
      ∀ earlier later, earlier <+: later → later <+: changes →
        (regular.applyAll earlier).changedAt ≤ (regular.applyAll later).changedAt := by
  have hf : regular.Forward changes := by decide
  obtain ⟨-, hp, hs, ha, hm, hc, hle⟩ := StatRecord.record_after_changes regular changes
  exact ⟨hf, hp, hs, ha, hm, hc, hle hf⟩

end DocTree
