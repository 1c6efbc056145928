import DocTree.Proofs.Content.Block
import DocTree.Proofs.Document.Stat
import DocTree.Proofs.Tree.Records

namespace DocTree

open Function (update)

structure Catalog where
  stats : String → Option StatRecord
  dentries : String → Option Dentry

-- A store whose stat records and directory documents are those of a catalog, and no others.
structure Docs.Shows (docs : Docs) (catalog : Catalog) : Prop where
  stats : ∀ path, docs.StatAt path (catalog.stats path)
  dentries : ∀ directory, docs.DentryAt directory (catalog.dentries directory)

-- Two stores with the same blocks.
def Docs.SameBlocks (docs after : Docs) : Prop :=
  ∀ key, after.value .blocks key = docs.value .blocks key

namespace Catalog

def empty : Catalog := ⟨fun _ => none, fun _ => none⟩

def setStat (catalog : Catalog) (path : String) (record : Option StatRecord) : Catalog :=
  { catalog with stats := update catalog.stats path record }

def setDentry (catalog : Catalog) (directory : String) (record : Option Dentry) : Catalog :=
  { catalog with dentries := update catalog.dentries directory record }

-- A change of the document of a directory, if it has one.
def modifyDentry (catalog : Catalog) (directory : String) (change : Dentry → Dentry) : Catalog :=
  catalog.setDentry directory ((catalog.dentries directory).map change)

variable {catalog : Catalog} {path other directory : String} {record : Option StatRecord}
  {dentry : Option Dentry} {change : Dentry → Dentry}

theorem stats_setStat : (catalog.setStat path record).stats other =
    if other = path then record else catalog.stats other := by
  simp only [setStat, Function.update_apply]

@[simp] theorem dentries_setStat : (catalog.setStat path record).dentries = catalog.dentries := rfl

@[simp] theorem stats_setDentry : (catalog.setDentry directory dentry).stats = catalog.stats := rfl

theorem dentries_setDentry : (catalog.setDentry directory dentry).dentries other =
    if other = directory then dentry else catalog.dentries other := by
  simp only [setDentry, Function.update_apply]

@[simp] theorem stats_modifyDentry : (catalog.modifyDentry directory change).stats =
    catalog.stats := rfl

theorem dentries_modifyDentry : (catalog.modifyDentry directory change).dentries other =
    if other = directory then (catalog.dentries directory).map change
    else catalog.dentries other := dentries_setDentry

theorem setStat_self (h : catalog.stats path = record) : catalog.setStat path record = catalog := by
  unfold setStat
  rw [← h, Function.update_eq_self]

theorem setDentry_self (h : catalog.dentries directory = dentry) :
    catalog.setDentry directory dentry = catalog := by
  unfold setDentry
  rw [← h, Function.update_eq_self]

end Catalog

namespace Docs

variable {docs after : Docs} {catalog other : Catalog} {path directory : String}
  {stat : StatRecord} {dentry : Dentry}

theorem StatAt.inj {first second : Option StatRecord} (h : docs.StatAt path first)
    (ho : docs.StatAt path second) : first = second := by
  have he : first.map StatRecord.encode = second.map StatRecord.encode := h.symm.trans ho
  refine Option.map_injective (fun a b hab => ?_) he
  have ha := StatRecord.decode_encode a
  rw [hab, StatRecord.decode_encode] at ha
  exact (Except.ok.inj ha).symm

theorem Shows.stats_eq (h : docs.Shows catalog) {record : Option StatRecord}
    (hp : docs.StatAt path record) : catalog.stats path = record :=
  (h.stats path).inj hp

theorem DentryAt.inj {first second : Option Dentry} (h : docs.DentryAt directory first)
    (ho : docs.DentryAt directory second) : first = second := by
  have he : first.map Dentry.encode = second.map Dentry.encode := h.symm.trans ho
  refine Option.map_injective (fun a b hab => ?_) he
  have ha := Dentry.decode_encode a
  rw [hab, Dentry.decode_encode] at ha
  exact (Except.ok.inj ha).symm

theorem Shows.dentries_eq (h : docs.Shows catalog) {record : Option Dentry}
    (hp : docs.DentryAt directory record) : catalog.dentries directory = record :=
  (h.dentries directory).inj hp

theorem Shows.of_value (h : docs.Shows catalog)
    (hs : ∀ key, after.value .stats key = docs.value .stats key)
    (hd : ∀ key, after.value .dentries key = docs.value .dentries key) : after.Shows catalog :=
  ⟨fun path => (hs path).trans (h.stats path), fun path => (hd path).trans (h.dentries path)⟩

theorem SameBut.shows (h : docs.SameBut (Content.OnBlocks path) after) (hd : docs.Shows catalog) :
    after.Shows catalog := by
  refine hd.of_value (fun key => h.value ?_) fun key => h.value ?_ <;>
    · intro request hr
      cases hr.1

theorem SameBut.statAt (h : docs.SameBut (Content.OnBlocks path) after) {name : String}
    {record : Option StatRecord} (hp : docs.StatAt name record) : after.StatAt name record := by
  refine (h.value ?_).trans hp
  intro request hr
  cases hr.1

theorem SameBut.stats_eq (h : docs.SameBut (Content.OnBlocks path) after) (name : String) :
    after .stats name = docs .stats name := by
  apply h .stats name
  intro request hr
  cases hr.1

theorem SameBlocks.blocks (h : docs.SameBlocks after) (path : String) :
    after.blocks path = docs.blocks path := by
  funext index
  exact h _

theorem Put.statAt (h : docs.Put .stats path stat.encode after) : after.StatAt path (some stat) :=
  h.value_self

theorem Put.shows_stat (h : docs.Put .stats path stat.encode after) (hd : docs.Shows catalog) :
    after.Shows (catalog.setStat path (some stat)) := by
  constructor
  · intro name
    unfold StatAt
    rw [h.value, Catalog.stats_setStat]
    by_cases hn : name = path
    · simp [hn]
    · simp only [hn, and_false, ite_false]
      exact hd.stats name
  · intro name
    unfold DentryAt
    rw [h.value, if_neg (by simp)]
    exact hd.dentries name

theorem Put.shows_dentry (h : docs.Put .dentries directory dentry.encode after)
    (hd : docs.Shows catalog) : after.Shows (catalog.setDentry directory (some dentry)) := by
  constructor
  · intro name
    unfold StatAt
    rw [h.value, if_neg (by simp)]
    exact hd.stats name
  · intro name
    unfold DentryAt
    rw [h.value, Catalog.dentries_setDentry]
    by_cases hn : name = directory
    · simp [hn]
    · simp only [hn, and_false, ite_false]
      exact hd.dentries name

theorem Put.shows_modify (change : Dentry → Dentry)
    (h : docs.Put .dentries directory (change dentry).encode after) (hd : docs.Shows catalog)
    (hp : catalog.dentries directory = some dentry) :
    after.Shows (catalog.modifyDentry directory change) := by
  unfold Catalog.modifyDentry
  rw [hp]
  exact h.shows_dentry hd

theorem Shows.removeStat (hd : docs.Shows catalog) :
    (docs.set .stats path none).Shows (catalog.setStat path none) := by
  constructor
  · intro name
    unfold StatAt
    rw [value_set, Catalog.stats_setStat]
    by_cases hn : name = path
    · simp [hn]
    · simp only [hn, and_false, ite_false]
      exact hd.stats name
  · intro name
    unfold DentryAt
    rw [value_set, if_neg (by simp)]
    exact hd.dentries name

theorem Shows.removeDentry (hd : docs.Shows catalog) :
    (docs.set .dentries directory none).Shows (catalog.setDentry directory none) := by
  constructor
  · intro name
    unfold StatAt
    rw [value_set, if_neg (by simp)]
    exact hd.stats name
  · intro name
    unfold DentryAt
    rw [value_set, Catalog.dentries_setDentry]
    by_cases hn : name = directory
    · simp [hn]
    · simp only [hn, and_false, ite_false]
      exact hd.dentries name

theorem SameBlocks.refl : docs.SameBlocks docs := fun _ => rfl

theorem SameBlocks.trans {later : Docs} (h : docs.SameBlocks after) (hl : after.SameBlocks later) :
    docs.SameBlocks later :=
  fun key => (hl key).trans (h key)

theorem Put.sameBlocks {collection : Collection} {key : String} {content : Bytes}
    (h : docs.Put collection key content after) (hc : collection ≠ .blocks) :
    docs.SameBlocks after := by
  intro name
  rw [h.value, if_neg fun hn => hc hn.1.symm]

theorem sameBlocks_set {collection : Collection} {key : String} {document : Option Document}
    (hc : collection ≠ .blocks) : docs.SameBlocks (docs.set collection key document) := by
  intro name
  rw [value_set, if_neg fun hn => hc hn.1.symm]

end Docs

end DocTree
