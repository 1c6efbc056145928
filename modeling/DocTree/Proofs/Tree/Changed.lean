import DocTree.Proofs.Tree.WellFormed
import DocTree.Tree.Operation

namespace DocTree

-- A path that is free, in a directory.
def Path.Free (limits : Limits) (kinds : String → Option FileKind) (path : String) : Prop :=
  kinds path = none ∧ ∃ parent leaf, Path.split path limits.maxKeyLen = .ok (parent, leaf) ∧
    kinds parent = some .directory

theorem Path.not_free_of_split_error {limits : Limits} {kinds : String → Option FileKind}
    {path : String} {error : FsError} (hs : Path.split path limits.maxKeyLen = .error error) :
    ¬Path.Free limits kinds path := by
  intro hf
  obtain ⟨-, parent, leaf, hsplit, -⟩ := hf
  rw [hs] at hsplit
  cases hsplit

namespace Operation

-- The calls that put paths into the tree and take them out, and the one that lists it.
def OnTree : Operation → Prop
  | .create _ _ | .mkdir _ _ | .unlink _ | .rmdir _ | .readdir _ _ => True
  | _ => False

-- What such a call needs of the tree: of the paths that exist, and as what.
def Allowed (limits : Limits) (kinds : String → Option FileKind) : Operation → Prop
  | .create path mode => Mode.typeBits mode = Mode.regularFile ∧ Path.Free limits kinds path
  | .mkdir path _ => Path.Free limits kinds path
  | .unlink path => (∃ parts, Path.split path limits.maxKeyLen = .ok parts) ∧
      ∃ kind, kinds path = some kind ∧ kind ≠ .directory
  | .rmdir path => (∃ parts, Path.split path limits.maxKeyLen = .ok parts) ∧
      kinds path = some .directory ∧
      ∀ other, kinds other ≠ none → Path.nameIn? path other = none
  | .readdir path _ => path.utf8ByteSize ≤ limits.maxKeyLen ∧ kinds path = some .directory
  | _ => True

end Operation

namespace Catalog

def addFile (catalog : Catalog) (path parent leaf : String) (stat : StatRecord) : Catalog :=
  (catalog.setStat path (some stat)).modifyDentry parent (·.addChild leaf)

def addDirectory (catalog : Catalog) (path parent leaf : String) (stat : StatRecord) : Catalog :=
  ((catalog.setStat path (some stat)).setDentry path (some (Dentry.new path parent))).modifyDentry
    parent (·.addChild leaf)

def removeFile (catalog : Catalog) (path parent leaf : String) : Catalog :=
  (catalog.modifyDentry parent (·.removeChild leaf)).setStat path none

def removeDirectory (catalog : Catalog) (path parent leaf : String) : Catalog :=
  (catalog.setDentry path none).removeFile path parent leaf

-- The change that a call makes to the record of a path.
inductive Updates : Operation → String → StatChange → Prop
  | read {path offset size} : Updates (.read path offset size) path .accessed
  | write {path offset data} : Updates (.write path offset data) path .modified
  | grow {path offset data size} : Updates (.write path offset data) path (.size size)
  | truncate {path size} : Updates (.truncate path size) path (.size size)
  | chmod {path mode} : Updates (.chmod path mode) path (.mode mode)
  | utimens {path times} : Updates (.utimens path times) path (.times times)

-- A call that only looks at the tree, once there is a root.
def Looks : Operation → Prop
  | .bootstrap | .getattr _ _ | .openFile _ _ | .readdir _ _ => True
  | _ => False

inductive Changed (limits : Limits) (now : Readings) (catalog : Catalog) :
    Operation → Catalog → Prop
  | looked {operation} (h : Looks operation) : Changed limits now catalog operation catalog
  | updated {operation path change stat} (h : Updates operation path change)
      (hp : catalog.stats path = some stat)
      (hd : (∃ size, change = .size size) → stat.isDirectory = false) :
      Changed limits now catalog operation (catalog.setStat path (some (stat.apply change (now 0))))
  | created {path parent leaf mode}
      (hs : Path.split path limits.maxKeyLen = .ok (parent, leaf))
      (hm : Mode.typeBits mode = Mode.regularFile) (hp : catalog.HasDirectory parent)
      (hn : catalog.stats path = none) :
      Changed limits now catalog (.create path mode)
        (catalog.addFile path parent leaf (StatRecord.new mode (now 0)))
  | made {path parent leaf mode} (hs : Path.split path limits.maxKeyLen = .ok (parent, leaf))
      (hp : catalog.HasDirectory parent) (hn : catalog.stats path = none) :
      Changed limits now catalog (.mkdir path mode) (catalog.addDirectory path parent leaf
        (StatRecord.new (Mode.directory ||| Mode.permissions mode) (now 0)))
  | unlinked {path parent leaf stat}
      (hs : Path.split path limits.maxKeyLen = .ok (parent, leaf))
      (hp : catalog.stats path = some stat) (hd : stat.isDirectory = false) :
      Changed limits now catalog (.unlink path) (catalog.removeFile path parent leaf)
  | removed {path parent leaf dentry}
      (hs : Path.split path limits.maxKeyLen = .ok (parent, leaf))
      (hp : catalog.dentries path = some dentry) (hc : dentry.children = []) :
      Changed limits now catalog (.rmdir path) (catalog.removeDirectory path parent leaf)

-- What exists, and as what.
def kindOf (catalog : Catalog) (path : String) : Option FileKind :=
  (catalog.stats path).map StatRecord.kind

variable {limits : Limits} {catalog : Catalog} {path parent leaf : String} {stat : StatRecord}

theorem not_hasDirectory_of_stat (hp : catalog.stats path = some stat)
    (hd : stat.isDirectory = false) : ¬catalog.HasDirectory path := by
  intro hc
  obtain ⟨found, hf, hfd⟩ := hc
  rw [hp, Option.some_inj] at hf
  rw [← hf, hd] at hfd
  cases hfd

theorem not_hasDirectory_of_none (hn : catalog.stats path = none) : ¬catalog.HasDirectory path := by
  intro hc
  obtain ⟨found, hf, -⟩ := hc
  rw [hn] at hf
  cases hf

theorem kindOf_eq_none : catalog.kindOf path = none ↔ catalog.stats path = none := by
  simp [kindOf]

theorem hasDirectory_iff : catalog.HasDirectory path ↔ catalog.kindOf path = some .directory := by
  simp [HasDirectory, kindOf, StatRecord.isDirectory]

theorem hasDirectory_of_free (hs : Path.split path limits.maxKeyLen = .ok (parent, leaf))
    (hf : Path.Free limits catalog.kindOf path) : catalog.HasDirectory parent := by
  obtain ⟨-, directory, name, hsplit, hd⟩ := hf
  rw [hs] at hsplit
  cases hsplit
  exact hasDirectory_iff.mpr hd

namespace WellFormed

theorem added_addFile (h : catalog.WellFormed limits)
    (hs : Path.split path limits.maxKeyLen = .ok (parent, leaf))
    (hp : catalog.HasDirectory parent) (hn : catalog.stats path = none)
    (hk : stat.isRegularFile) :
    Added limits catalog (catalog.addFile path parent leaf stat) path parent leaf stat none := by
  have hd := StatRecord.not_isDirectory_of_isRegularFile hk
  have hno := h.dentries_eq_none (not_hasDirectory_of_none hn)
  have hsame : (catalog.setStat path (some stat)).setDentry path none =
      catalog.setStat path (some stat) := setDentry_self hno
  have ha := added none hs hp hn (show none = if stat.isDirectory then _ else none by simp [hd])
  rwa [hsame] at ha

theorem removed_removeFile (h : catalog.WellFormed limits)
    (hs : Path.split path limits.maxKeyLen = .ok (parent, leaf))
    (hd : ¬catalog.HasDirectory path) :
    Removed limits catalog (catalog.removeFile path parent leaf) path parent leaf := by
  have hno := h.dentries_eq_none hd
  have hr := removed hs fun dentry hdentry => by rw [hno] at hdentry; cases hdentry
  rwa [setDentry_self hno] at hr

end WellFormed

theorem added_addDirectory (hs : Path.split path limits.maxKeyLen = .ok (parent, leaf))
    (hp : catalog.HasDirectory parent) (hn : catalog.stats path = none)
    (hk : stat.isDirectory) :
    Added limits catalog (catalog.addDirectory path parent leaf stat) path parent leaf stat
      (some (Dentry.new path parent)) :=
  added _ hs hp hn (by rw [if_pos hk])

theorem removed_removeDirectory (hs : Path.split path limits.maxKeyLen = .ok (parent, leaf))
    {dentry : Dentry} (hp : catalog.dentries path = some dentry) (hc : dentry.children = []) :
    Removed limits catalog (catalog.removeDirectory path parent leaf) path parent leaf := by
  refine removed hs fun found hf => ?_
  rw [hp, Option.some_inj] at hf
  rw [← hf, hc]

namespace Changed

variable {now : Readings} {operation : Operation} {after : Catalog}

theorem wellFormed (h : catalog.Changed limits now operation after)
    (hw : catalog.WellFormed limits) : after.WellFormed limits := by
  cases h with
  | looked h => exact hw
  | updated h hp hd =>
    refine hw.setStat hp (StatRecord.kind_apply _ _ _) fun hdir => ?_
    rw [StatRecord.isDirectory_apply] at hdir
    rw [StatRecord.size_apply]
    cases h <;> first | rfl | (rw [hd ⟨_, rfl⟩] at hdir; cases hdir)
  | created hs hm hp hn =>
    have hk := StatRecord.isRegularFile_new hm (now 0)
    exact (hw.added_addFile hs hp hn hk).wellFormed hw (.inl hk) rfl
  | @made path parent leaf mode hs hp hn =>
    have hk := StatRecord.isDirectory_new mode (now 0)
    exact (added_addDirectory hs hp hn hk).wellFormed hw (.inr hk) rfl
  | unlinked hs hp hd =>
    exact (hw.removed_removeFile hs (not_hasDirectory_of_stat hp hd)).wellFormed hw
  | removed hs hp hc => exact (removed_removeDirectory hs hp hc).wellFormed hw

-- What changes the shape of the tree was allowed by it.
theorem allowed (h : catalog.Changed limits now operation after) (hw : catalog.WellFormed limits)
    (hl : ¬Looks operation) : operation.Allowed limits catalog.kindOf := by
  cases h with
  | looked h => exact absurd h hl
  | updated h hp hd => cases h <;> trivial
  | created hs hm hp hn =>
    exact ⟨hm, kindOf_eq_none.mpr hn, _, _, hs, hasDirectory_iff.mp hp⟩
  | made hs hp hn => exact ⟨kindOf_eq_none.mpr hn, _, _, hs, hasDirectory_iff.mp hp⟩
  | @unlinked path parent leaf stat hs hp hd =>
    refine ⟨⟨_, hs⟩, stat.kind, ?_, fun hk => ?_⟩
    · rw [kindOf, hp, Option.map_some]
    · rw [StatRecord.isDirectory, hk] at hd
      cases hd
  | @removed path parent leaf dentry hs hp hc =>
    have hdir : catalog.HasDirectory path := (hw.documented path).mp (hp ▸ Option.some_ne_none _)
    exact ⟨⟨_, hs⟩, hasDirectory_iff.mp hdir, fun other hn =>
      (hw.children_eq_nil_iff hp).mp hc other (kindOf_eq_none.not.mp hn)⟩

-- At one path at most a record comes or goes; no other path changes.
theorem sameKinds (h : catalog.Changed limits now operation after) : catalog.SameKinds after := by
  intro other old new ho hn
  have hnew : ∀ path record, after.stats = (catalog.setStat path record).stats →
      (∀ stat, record = some stat → catalog.stats path = none ∨
        ∃ before, catalog.stats path = some before ∧ stat.kind = before.kind) →
      new.kind = old.kind := by
    intro path record ha hk
    rw [ha, stats_setStat] at hn
    by_cases hp : other = path
    · subst hp
      rw [if_pos rfl] at hn
      rcases hk new hn with hz | ⟨before, hb, hkb⟩
      · rw [hz] at ho
        cases ho
      · rw [ho, Option.some_inj] at hb
        rw [hkb, hb]
    · rw [if_neg hp, ho, Option.some_inj] at hn
      rw [hn]
  cases h with
  | looked h => exact SameKinds.refl other old new ho hn
  | updated h hp hd =>
    refine hnew _ _ rfl fun stat hs => .inr ⟨_, hp, ?_⟩
    rw [← Option.some_inj.mp hs, StatRecord.kind_apply]
  | created hs hm hp hfree => exact hnew _ _ rfl fun _ _ => .inl hfree
  | made hs hp hfree => exact hnew _ _ rfl fun _ _ => .inl hfree
  | unlinked hs hp hd => exact hnew _ none rfl fun _ hz => nomatch hz
  | removed hs hp hc => exact hnew _ none rfl fun _ hz => nomatch hz

end Changed

end Catalog

end DocTree
