import DocTree.Proofs.Bytes.Layout
import DocTree.Proofs.Call.Document
import DocTree.Proofs.Document.Written
import DocTree.Tree.Directory

namespace DocTree

open Call

-- The stat record of a path, or that there is none.
def Docs.StatAt (docs : Docs) (path : String) (record : Option StatRecord) : Prop :=
  docs.value .stats path = record.map StatRecord.encode

-- The document of a directory, or that there is none.
def Docs.DentryAt (docs : Docs) (directory : String) (record : Option Dentry) : Prop :=
  docs.value .dentries directory = record.map Dentry.encode

namespace Metadata

variable {faulty : Request → Prop} {err : FsError → Docs → Prop} {docs : Docs} {path : String}
  {record : Option StatRecord}

theorem found_of_value {stat : StatRecord} (hp : docs.StatAt path record)
    (hr : record = some stat) :
    ∃ found, docs .stats path = some found ∧ found.value = stat.encode := by
  rw [hr] at hp
  exact Option.map_eq_some_iff.mp hp

theorem none_of_value (hp : docs.StatAt path record) (hr : record = none) :
    docs .stats path = none := by
  rw [hr] at hp
  exact Docs.value_eq_none_iff.mp hp

theorem ensures_get {post : StatRecord × UInt64 → Docs → Prop}
    (hp : docs.StatAt path record)
    (hs : ∀ stat found, record = some stat → docs .stats path = some found →
      post (stat, found.version) docs)
    (hn : record = none → err .notFound docs)
    (hf : faulty (.get path) → ∀ text, err (.io text) docs) :
    (get path).Ensures faulty post err docs := by
  unfold get
  refine ensures_bind.mpr (Call.ensures_get ?_ ?_ hf)
  · intro found hk
    cases hr : record with
    | none => exact absurd hk (by simp [none_of_value hp hr])
    | some stat =>
      obtain ⟨other, ho, hv⟩ := found_of_value hp hr
      rw [hk, Option.some_inj] at ho
      rw [ho, hv, StatRecord.decode_encode]
      exact hs stat other hr (ho ▸ hk)
  · intro hk
    cases hr : record with
    | none => exact hn hr
    | some stat =>
      obtain ⟨other, ho, -⟩ := found_of_value hp hr
      exact absurd hk (by simp [ho])

theorem ensures_insert {post : StatRecord → Docs → Prop} {mode : UInt32} {now : TimeSpec}
    (hs : docs .stats path = none → ∀ after,
      docs.Put .stats path (StatRecord.new mode now).encode after →
      post (StatRecord.new mode now) after)
    (he : docs .stats path ≠ none → err .alreadyExists docs)
    (hf : (∃ request, faulty request) → ∀ text, err (.io text) docs ∧
      (docs .stats path = none → ∀ after,
        docs.Put .stats path (StatRecord.new mode now).encode after → err (.io text) after)) :
    (insert path mode now).Ensures faulty post err docs := by
  unfold insert
  refine ensures_bind.mpr (Call.ensures_insert ?_ he fun h => hf ⟨_, h⟩)
  intro hn version after ha
  exact hs hn after ha

theorem ensures_update {post : StatRecord → Docs → Prop} {change : StatChange} {now : Readings}
    (hp : docs.StatAt path record)
    (hs : ∀ stat after, record = some stat →
      docs.Put .stats path (stat.apply change (now 0)).encode after →
      post (stat.apply change (now 0)) after)
    (hn : record = none → err .notFound docs)
    (hf : (∃ request, faulty request) → ∀ text, err (.io text) docs ∧
      ∀ stat after, record = some stat →
        docs.Put .stats path (stat.apply change (now 0)).encode after → err (.io text) after) :
    (update path change now).Ensures faulty post err docs := by
  apply ensures_retry
  unfold updateOnce
  refine ensures_bind.mpr (ensures_get hp ?_ hn fun h text => (hf ⟨_, h⟩ text).1)
  intro stat found hr hk
  apply ensures_bind.mpr
  apply ensures_stored
  apply ensures_replace hk
  · intro version after ha
    exact ⟨_, rfl, hs stat after hr ha⟩
  · intro h text
    refine ⟨?_, fun after ha => ?_⟩
    · exact (hf ⟨_, h⟩ text).1
    · exact (hf ⟨_, h⟩ text).2 stat after hr ha

theorem ensures_remove {post : Unit → Docs → Prop}
    (hs : docs .stats path ≠ none → post () (docs.set .stats path none))
    (hn : docs .stats path = none → err .notFound docs)
    (hf : (∃ request, faulty request) → ∀ text, err (.io text) docs ∧
      err (.io text) (docs.set .stats path none)) :
    (remove path).Ensures faulty post err docs :=
  Call.ensures_remove hs hn fun h => hf ⟨_, h⟩

end Metadata

namespace Directory

variable {faulty : Request → Prop} {err : FsError → Docs → Prop} {docs : Docs}
  {directory : String} {record : Option Dentry}

theorem found_of_value {dentry : Dentry} (hp : docs.DentryAt directory record)
    (hr : record = some dentry) :
    ∃ found, docs .dentries directory = some found ∧ found.value = dentry.encode := by
  rw [hr] at hp
  exact Option.map_eq_some_iff.mp hp

theorem none_of_value (hp : docs.DentryAt directory record)
    (hr : record = none) : docs .dentries directory = none := by
  rw [hr] at hp
  exact Docs.value_eq_none_iff.mp hp

theorem ensures_getVersioned {post : Dentry × UInt64 → Docs → Prop}
    (hp : docs.DentryAt directory record)
    (hs : ∀ dentry found, record = some dentry → docs .dentries directory = some found →
      post (dentry, found.version) docs)
    (hn : record = none → err .notFound docs)
    (hf : faulty (.get directory) → ∀ text, err (.io text) docs) :
    (getVersioned directory).Ensures faulty post err docs := by
  unfold getVersioned
  refine ensures_bind.mpr (Call.ensures_get ?_ ?_ hf)
  · intro found hk
    cases hr : record with
    | none => exact absurd hk (by simp [none_of_value hp hr])
    | some dentry =>
      obtain ⟨other, ho, hv⟩ := found_of_value hp hr
      rw [hk, Option.some_inj] at ho
      rw [ho, hv, Dentry.decode_encode]
      exact hs dentry other hr (ho ▸ hk)
  · intro hk
    cases hr : record with
    | none => exact hn hr
    | some dentry =>
      obtain ⟨other, ho, -⟩ := found_of_value hp hr
      exact absurd hk (by simp [ho])

theorem ensures_get {post : Dentry → Docs → Prop}
    (hp : docs.DentryAt directory record)
    (hs : ∀ dentry, record = some dentry → post dentry docs)
    (hn : record = none → err .notFound docs)
    (hf : (∃ request, faulty request) → ∀ text, err (.io text) docs) :
    (get directory).Ensures faulty post err docs := by
  unfold get
  refine ensures_bind.mpr (ensures_getVersioned hp ?_ hn fun h => hf ⟨_, h⟩)
  intro dentry found hr hk
  exact hs dentry hr

theorem ensures_create {post : Dentry → Docs → Prop} {parent : String}
    (hs : docs .dentries directory = none → ∀ after,
      docs.Put .dentries directory (Dentry.new directory parent).encode after →
      post (Dentry.new directory parent) after)
    (he : docs .dentries directory ≠ none → err .alreadyExists docs)
    (hf : (∃ request, faulty request) → ∀ text, err (.io text) docs ∧
      (docs .dentries directory = none → ∀ after,
        docs.Put .dentries directory (Dentry.new directory parent).encode after →
        err (.io text) after)) :
    (create directory parent).Ensures faulty post err docs := by
  unfold create
  refine ensures_bind.mpr (Call.ensures_insert ?_ he fun h => hf ⟨_, h⟩)
  intro hn version after ha
  exact hs hn after ha

theorem ensures_modify {post : Dentry → Docs → Prop} {change : Dentry → Dentry}
    (hp : docs.DentryAt directory record)
    (hs : ∀ dentry after, record = some dentry →
      docs.Put .dentries directory (change dentry).encode after → post (change dentry) after)
    (hn : record = none → err .notFound docs)
    (hf : (∃ request, faulty request) → ∀ text, err (.io text) docs ∧
      ∀ dentry after, record = some dentry →
        docs.Put .dentries directory (change dentry).encode after → err (.io text) after) :
    (modify directory change).Ensures faulty post err docs := by
  apply ensures_retry
  unfold modifyOnce
  refine ensures_bind.mpr (ensures_getVersioned hp ?_ hn fun h text => (hf ⟨_, h⟩ text).1)
  intro dentry found hr hk
  apply ensures_bind.mpr
  apply ensures_stored
  apply ensures_replace hk
  · intro version after ha
    exact ⟨_, rfl, hs dentry after hr ha⟩
  · intro h text
    refine ⟨?_, fun after ha => ?_⟩
    · exact (hf ⟨_, h⟩ text).1
    · exact (hf ⟨_, h⟩ text).2 dentry after hr ha

theorem ensures_remove {post : Unit → Docs → Prop}
    (hs : docs .dentries directory ≠ none → post () (docs.set .dentries directory none))
    (hn : docs .dentries directory = none → err .notFound docs)
    (hf : (∃ request, faulty request) → ∀ text, err (.io text) docs ∧
      err (.io text) (docs.set .dentries directory none)) :
    (remove directory).Ensures faulty post err docs :=
  Call.ensures_remove hs hn fun h => hf ⟨_, h⟩

end Directory

end DocTree
