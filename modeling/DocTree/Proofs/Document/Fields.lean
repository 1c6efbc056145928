import DocTree.Proofs.Bytes.Fixed
import DocTree.Proofs.Call.Exchanges
import DocTree.Proofs.Document.Changes
import DocTree.Proofs.Tree.Withstood

namespace DocTree

open Call

namespace StatRecord

inductive Field where
  | mode
  | accessedAt
  | modifiedAt
  | changedAt
  | size
  deriving DecidableEq, Repr

namespace Field

def all : List Field := [mode, accessedAt, modifiedAt, changedAt, size]

-- The position of the first byte of a field, and how many bytes it has.
def start : Field → Nat
  | mode => 0
  | accessedAt => 4
  | modifiedAt => 16
  | changedAt => 28
  | size => 40

def width : Field → Nat
  | mode => 4
  | accessedAt => 12
  | modifiedAt => 12
  | changedAt => 12
  | size => 8

def Covers (field : Field) (position : Nat) : Prop :=
  field.start ≤ position ∧ position < field.start + field.width

instance (field : Field) (position : Nat) : Decidable (field.Covers position) :=
  inferInstanceAs (Decidable (_ ∧ _))

def bytes (field : Field) (stat : StatRecord) : Bytes :=
  match field with
  | mode => Layout.encode stat.mode
  | accessedAt => Layout.encode stat.accessedAt
  | modifiedAt => Layout.encode stat.modifiedAt
  | changedAt => Layout.encode stat.changedAt
  | size => Layout.encode stat.size

theorem length_bytes (field : Field) (stat : StatRecord) :
    (field.bytes stat).length = field.width := by
  cases field <;> exact Layout.length_encode _

theorem exists_covers {position : Nat} (h : position < StatRecord.width) :
    ∃ field : Field, field.Covers position := by
  unfold StatRecord.width at h
  obtain hp | hp | hp | hp | hp : position < 4 ∨ 4 ≤ position ∧ position < 16 ∨
    16 ≤ position ∧ position < 28 ∨ 28 ≤ position ∧ position < 40 ∨ 40 ≤ position := by omega
  · exact ⟨mode, Nat.zero_le _, hp⟩
  · exact ⟨accessedAt, hp⟩
  · exact ⟨modifiedAt, hp⟩
  · exact ⟨changedAt, hp⟩
  · exact ⟨size, hp, h⟩

end Field

theorem encode_eq (stat : StatRecord) : stat.encode = Field.all.flatMap (·.bytes stat) := by
  simp [encode, Layout.encode, Field.all, Field.bytes]

-- A field stands in its place.
theorem exists_encode_eq (stat : StatRecord) (field : Field) : ∃ front rest,
    stat.encode = front ++ (field.bytes stat ++ rest) ∧ front.length = field.start := by
  obtain ⟨before, behind, hall, hstart⟩ :
      ∃ before behind, Field.all = before ++ field :: behind ∧
        (before.map Field.width).sum = field.start := by
    cases field with
    | mode => exact ⟨[], _, rfl, rfl⟩
    | accessedAt => exact ⟨[.mode], _, rfl, rfl⟩
    | modifiedAt => exact ⟨[.mode, .accessedAt], _, rfl, rfl⟩
    | changedAt => exact ⟨[.mode, .accessedAt, .modifiedAt], _, rfl, rfl⟩
    | size => exact ⟨[.mode, .accessedAt, .modifiedAt, .changedAt], _, rfl, rfl⟩
  refine ⟨before.flatMap (·.bytes stat), behind.flatMap (·.bytes stat), ?_, ?_⟩
  · rw [encode_eq, hall, List.flatMap_append, List.flatMap_cons]
  · rw [List.length_flatMap, ← hstart]
    simp only [Field.length_bytes]

theorem getElem?_encode (stat : StatRecord) {field : Field} {position : Nat}
    (h : field.Covers position) :
    stat.encode[position]? = (field.bytes stat)[position - field.start]? := by
  obtain ⟨hlow, hhigh⟩ := h
  obtain ⟨front, rest, he, hf⟩ := stat.exists_encode_eq field
  rw [he, List.getElem?_append_right (hf ▸ hlow), hf, List.getElem?_append_left]
  rw [Field.length_bytes]
  omega

-- Any 48 bytes are a record.
theorem exists_decode {bytes : Bytes} (h : bytes.length = width) :
    ∃ stat, decode bytes = .ok stat ∧ stat.encode = bytes := by
  obtain ⟨stat, he, hd⟩ := Layout.exists_decode (α := StatRecord) bytes h
  have hbytes := hd []
  rw [List.append_nil] at hbytes
  refine ⟨stat, ?_, he⟩
  unfold decode
  rw [if_neg (not_not.mpr h), hbytes]

theorem decode_of_length_ne {bytes : Bytes} (h : bytes.length ≠ width) :
    decode bytes = .error (.corrupt s!"stat record is {bytes.length} bytes, expected {width}") :=
  if_pos h

theorem decode_eq_ok_iff {bytes : Bytes} {stat : StatRecord} :
    decode bytes = .ok stat ↔ stat.encode = bytes := by
  refine ⟨fun h => ?_, fun h => h ▸ stat.decode_encode⟩
  by_cases hl : bytes.length = width
  · obtain ⟨found, hd, he⟩ := exists_decode hl
    rw [hd] at h
    cases h
    exact he
  · rw [decode_of_length_ne hl] at h
    cases h

end StatRecord

namespace StatChange

def Sets (change : StatChange) (now : TimeSpec) : StatRecord.Field → Bool
  | .mode => (change.permissions? now).isSome
  | .accessedAt => (change.accessedAt? now).isSome
  | .modifiedAt => (change.modifiedAt? now).isSome
  | .changedAt => (change.changedAt? now).isSome
  | .size => (change.size? now).isSome

-- The bytes of a record that was changed: those of the fields that the change does not set are the
-- same.
structure Rewrites (change : StatChange) (now : TimeSpec) (old new : Bytes) : Prop where
  record : ∃ stat, StatRecord.decode old = .ok stat ∧ new = (stat.apply change now).encode
  length : new.length = old.length
  same : ∀ position, (∀ field, change.Sets now field → ¬field.Covers position) →
    new[position]? = old[position]?

end StatChange

variable {change : StatChange} {now : TimeSpec} {path : String}

theorem StatRecord.bytes_apply {stat : StatRecord} {field : Field}
    (h : ¬change.Sets now field) : field.bytes (stat.apply change now) = field.bytes stat := by
  cases field with
  | mode =>
    have hn : change.permissions? now = none := Option.not_isSome_iff_eq_none.mp h
    simp only [Field.bytes, mode_apply, hn, Option.elim_none]
  | accessedAt =>
    have hn : change.accessedAt? now = none := Option.not_isSome_iff_eq_none.mp h
    simp only [Field.bytes, accessedAt_apply, hn, Option.getD_none]
  | modifiedAt =>
    have hn : change.modifiedAt? now = none := Option.not_isSome_iff_eq_none.mp h
    simp only [Field.bytes, modifiedAt_apply, hn, Option.getD_none]
  | changedAt =>
    have hn : change.changedAt? now = none := Option.not_isSome_iff_eq_none.mp h
    simp only [Field.bytes, changedAt_apply, hn, Option.getD_none]
  | size =>
    have hn : change.size? now = none := Option.not_isSome_iff_eq_none.mp h
    simp only [Field.bytes, size_apply_eq, hn, Option.getD_none]

theorem StatChange.rewrites {old : Bytes} {stat : StatRecord}
    (h : StatRecord.decode old = .ok stat) :
    change.Rewrites now old (stat.apply change now).encode := by
  have he := StatRecord.decode_eq_ok_iff.mp h
  have hlength : (stat.apply change now).encode.length = old.length := by
    rw [← he, StatRecord.length_encode, StatRecord.length_encode]
  refine ⟨⟨stat, h, rfl⟩, hlength, fun position hs => ?_⟩
  by_cases hp : position < StatRecord.width
  · obtain ⟨field, hf⟩ := StatRecord.Field.exists_covers hp
    have hset : ¬change.Sets now field := fun ht => hs field ht hf
    rw [← he, StatRecord.getElem?_encode _ hf, StatRecord.getElem?_encode _ hf,
      StatRecord.bytes_apply hset]
  · have hend : old.length ≤ position := by
      rw [← he, StatRecord.length_encode]
      exact Nat.not_lt.mp hp
    rw [List.getElem?_eq_none hend,
      List.getElem?_eq_none (Nat.le_trans (Nat.le_of_eq hlength) hend)]

-- What an update asks for: to read the record, and right after an answer to store what it was told,
-- changed, under the version that it was told.
def StatChange.Asks (change : StatChange) (now : Readings) (path : String)
    (last : Option Exchange) (collection : Collection) (request : Request) : Prop :=
  collection = .stats ∧ (request = .get path ∨
    ∃ response value tried, last = some ⟨.stats, .get path, .answered response⟩ ∧
      response.status = .success ∧ request = .replace path value (some response.version) ∧
      change.Rewrites (now tried) response.value value)

namespace Metadata

theorem onlyAfter_update_asks {now : Readings} {last : Option Exchange} :
    (update path change now).OnlyAfter (change.Asks now path) last := by
  refine onlyAfter_retry (fun tried last => ?_) _
  rw [Revision.updateOnce_eq]
  refine onlyAfter_attempt_ofRecord ⟨rfl, .inl rfl⟩ fun response stat hs hd => ?_
  exact ⟨rfl, .inr ⟨response, _, tried, rfl, hs, rfl, StatChange.rewrites hd⟩⟩

-- The documents are the same, but for the record, which may have been changed.
def LeavesRewritten (change : StatChange) (now : Readings) (path : String) (docs after : Docs) :
    Prop :=
  (∀ collection key, ¬(collection = .stats ∧ key = path) →
    after collection key = docs collection key) ∧
  ∃ found last tried, docs .stats path = some found ∧ after .stats path = some last ∧
    change.Rewrites (now tried) found.value last.value

theorem withstands_update_bytes {now : Readings} (docs : Docs) :
    (update path change now).Withstands
      (fun stat after => LeavesRewritten change now path docs after ∧
        after.value .stats path = some stat.encode)
      (fun _ after => after = docs ∨ LeavesRewritten change now path docs after) docs := by
  refine withstands_update (fun tried _ stat found after hk hd ha => ?_) fun _ => .inl rfl
  have hvalue := ha.value_self
  obtain ⟨last, hl, hv⟩ := Option.map_eq_some_iff.mp hvalue
  have hleaves : LeavesRewritten change now path docs after :=
    ⟨fun collection key hn => ha.apply_of_ne hn, found, last, tried, hk, hl,
      hv ▸ StatChange.rewrites hd⟩
  exact ⟨⟨hleaves, hvalue⟩, fun _ => .inr hleaves⟩

end Metadata

-- Whatever answers the requests of an update, and however, it asks to change those bytes only that
-- it sets. With a store behind a line that can fail, they are what it leaves changed, if anything.
theorem StatRecord.bytes_are_records :
    (∀ stat : StatRecord,
      stat.encode.length = 48 ∧ StatRecord.decode stat.encode = .ok stat) ∧
    (∀ bytes : Bytes,
      ((∃ stat, StatRecord.decode bytes = .ok stat) ↔ bytes.length = 48) ∧
      (∀ stat, StatRecord.decode bytes = .ok stat → stat.encode = bytes) ∧
      (bytes.length ≠ 48 → StatRecord.decode bytes = .error
        (.corrupt s!"stat record is {bytes.length} bytes, expected {StatRecord.width}"))) ∧
    ∀ (path : String) (change : StatChange) (now : Readings),
      (∀ {σ : Type} (backend : Backend σ) (state : σ) before exchange rest,
        (Metadata.update path change now).exchanges backend state = before ++ exchange :: rest →
          change.Asks now path before.getLast? exchange.collection exchange.request) ∧
      ∀ maxSize scope (store : Unreliable),
        let docs := store.image.docs scope
        let result := (Metadata.update path change now).run (Unreliable.within maxSize scope) store
        result.1.Meets
          (fun stat after => Metadata.LeavesRewritten change now path docs after ∧
            after.value .stats path = some stat.encode)
          (fun _ after => after = docs ∨ Metadata.LeavesRewritten change now path docs after)
          (result.2.image.docs scope) := by
  refine ⟨fun stat => ⟨stat.length_encode, stat.decode_encode⟩, fun bytes => ⟨?_, ?_, ?_⟩,
    fun path change now => ⟨?_, ?_⟩⟩
  · constructor
    · rintro ⟨stat, hd⟩
      rw [← decode_eq_ok_iff.mp hd]
      exact stat.length_encode
    · intro hl
      obtain ⟨stat, hd, -⟩ := exists_decode hl
      exact ⟨stat, hd⟩
  · exact fun stat hd => decode_eq_ok_iff.mp hd
  · exact decode_of_length_ne
  · intro σ backend state before exchange rest he
    have hafter : (Metadata.update path change now).OnlyAfter (change.Asks now path) none :=
      Metadata.onlyAfter_update_asks
    have h := hafter.of_exchanges he
    rwa [Option.or_none] at h
  · exact fun maxSize scope store => (Metadata.withstands_update_bytes _).run_within store

namespace Sample

def kept : Image :=
  ((Metadata.insert "/f" 0o100644 ⟨1, 0⟩).run (Image.backend 64 "tree") (Image.new default)).2

-- The new size gets stored and the answer does not arrive.
def cutOff : Unreliable := ⟨kept, fun n => if n = 1 then .lost else .answered⟩

def afterwards : Readings := fun count => ⟨UInt64.ofNat (2 + count), 0⟩

def cutOffUpdate : Outcome StatRecord × Unreliable :=
  (Metadata.update "/f" (.size 5) afterwards).run (Unreliable.within 64 "tree") cutOff

end Sample

open Sample in
theorem sample_bytes_are_records :
    regular.encode.length = 48 ∧
      (regular.encode.take 47).length ≠ 48 ∧
      StatRecord.decode (regular.encode.take 47) =
        .error (.corrupt "stat record is 47 bytes, expected 48") ∧
      (∃ stat, StatRecord.decode (List.replicate 48 255) = .ok stat ∧
        stat.encode = List.replicate 48 255) ∧
      (∃ first second,
        (Metadata.update "/f" (.size 5) afterwards).exchanges (Unreliable.within 64 "tree") cutOff =
          [first, second] ∧
        (StatChange.size 5).Asks afterwards "/f" (some first) second.collection second.request) ∧
      cutOffUpdate.2.image.docs "tree" ≠ kept.docs "tree" ∧
      cutOffUpdate.1.Meets
        (fun stat after =>
          Metadata.LeavesRewritten (.size 5) afterwards "/f" (kept.docs "tree") after ∧
            after.value .stats "/f" = some stat.encode)
        (fun _ after => after = kept.docs "tree" ∨
          Metadata.LeavesRewritten (.size 5) afterwards "/f" (kept.docs "tree") after)
        (cutOffUpdate.2.image.docs "tree") := by
  obtain ⟨hencode, hdecode, hupdate⟩ := StatRecord.bytes_are_records
  obtain ⟨hasks, hleaves⟩ := hupdate "/f" (.size 5) afterwards
  have hshort : (regular.encode.take 47).length ≠ 48 := by decide +kernel
  obtain ⟨stat, hd⟩ := (hdecode (List.replicate 48 255)).1.mpr rfl
  refine ⟨(hencode regular).1, hshort, ?_, ⟨stat, hd, (hdecode _).2.1 stat hd⟩, ?_, ?_,
    hleaves 64 "tree" cutOff⟩
  · rw [(hdecode _).2.2 hshort]
    decide +kernel
  · obtain ⟨first, second, he⟩ : ∃ first second,
        (Metadata.update "/f" (.size 5) afterwards).exchanges (Unreliable.within 64 "tree") cutOff =
          [first, second] := ⟨_, _, rfl⟩
    exact ⟨first, second, he, hasks (Unreliable.within 64 "tree") cutOff [first] second [] he⟩
  · intro h
    have hv := congrArg (fun docs => docs .stats "/f") h
    revert hv
    decide +kernel

end DocTree
