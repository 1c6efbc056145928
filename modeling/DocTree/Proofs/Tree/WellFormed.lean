import DocTree.Proofs.Path
import DocTree.Proofs.Tree.Catalog

namespace DocTree.Catalog

open Function (update)

def HasDirectory (catalog : Catalog) (path : String) : Prop :=
  ∃ stat, catalog.stats path = some stat ∧ stat.isDirectory

structure WellFormed (limits : Limits) (catalog : Catalog) : Prop where
  root : catalog.HasDirectory Path.root
  -- Whatever exists lies in an existing directory, which lists it once.
  placed : ∀ path stat, catalog.stats path = some stat → path ≠ Path.root →
    ∃ parent leaf dentry, Path.split path limits.maxKeyLen = .ok (parent, leaf) ∧
      catalog.HasDirectory parent ∧ catalog.dentries parent = some dentry ∧
      dentry.children.count leaf = 1
  -- Whatever a directory lists exists.
  listed : ∀ directory dentry name, catalog.dentries directory = some dentry →
    name ∈ dentry.children →
      Path.split (Path.join directory name) limits.maxKeyLen = .ok (directory, name) ∧
        catalog.stats (Path.join directory name) ≠ none
  documented : ∀ path, catalog.dentries path ≠ none ↔ catalog.HasDirectory path
  named : ∀ path dentry, catalog.dentries path = some dentry →
    dentry.directory = path ∧ dentry.parent = Path.parent path
  kinds : ∀ path stat, catalog.stats path = some stat → stat.isRegularFile ∨ stat.isDirectory
  empty : ∀ path stat, catalog.stats path = some stat → stat.isDirectory → stat.size = 0

-- No path that exists in both has changed its kind.
def SameKinds (catalog after : Catalog) : Prop :=
  ∀ path old new, catalog.stats path = some old → after.stats path = some new → new.kind = old.kind

variable {limits : Limits} {catalog : Catalog} {path parent leaf : String}
  {stat old : StatRecord}

theorem SameKinds.refl : catalog.SameKinds catalog := by
  intro path old new ho hn
  rw [ho, Option.some_inj] at hn
  rw [hn]

namespace WellFormed

theorem dentry_of_hasDirectory (h : catalog.WellFormed limits) (hd : catalog.HasDirectory path) :
    ∃ dentry, catalog.dentries path = some dentry :=
  Option.ne_none_iff_exists'.mp ((h.documented path).mpr hd)

theorem dentries_eq_none (h : catalog.WellFormed limits) (hd : ¬catalog.HasDirectory path) :
    catalog.dentries path = none := by
  by_contra hn
  exact hd ((h.documented path).mp hn)

-- A name that is free in the tree is free in the directory.
theorem not_listed (h : catalog.WellFormed limits)
    (hs : Path.split path limits.maxKeyLen = .ok (parent, leaf)) (hn : catalog.stats path = none)
    {dentry : Dentry} (hd : catalog.dentries parent = some dentry) : leaf ∉ dentry.children := by
  intro hm
  apply (h.listed parent dentry leaf hd hm).2
  rw [Path.join_of_split hs, hn]

theorem length_le_of_ne_root (h : catalog.WellFormed limits) (hp : catalog.stats path = some stat)
    (hr : path ≠ Path.root) : path.utf8ByteSize ≤ limits.maxKeyLen := by
  obtain ⟨parent, leaf, dentry, hs, -⟩ := h.placed path stat hp hr
  exact (Path.split_eq_ok hs).1

-- No path that exists is too long to be looked at.
theorem length_le_of_exists (h : catalog.WellFormed limits) (hl : 0 < limits.maxKeyLen)
    (hp : catalog.stats path = some stat) : path.utf8ByteSize ≤ limits.maxKeyLen := by
  by_cases hr : path = Path.root
  · rw [hr]
    exact hl
  · exact h.length_le_of_ne_root hp hr

-- What lies in a directory is listed there.
theorem placed_in (h : catalog.WellFormed limits) {other name : String}
    (hn : catalog.stats other ≠ none) (hin : Path.nameIn? path other = some name) :
    catalog.HasDirectory path ∧
      ∃ dentry, catalog.dentries path = some dentry ∧ name ∈ dentry.children := by
  obtain ⟨stat, hs⟩ := Option.ne_none_iff_exists'.mp hn
  have hroot := Path.ne_root_of_split (Path.nameIn?_eq_some.mp hin)
  obtain ⟨parent, leaf, dentry, hsplit, hp, hd, hc⟩ := h.placed other stat hs hroot
  rw [Path.nameIn?_of_split hsplit path] at hin
  split at hin
  · next he =>
    subst he
    cases hin
    exact ⟨hp, dentry, hd, List.count_pos_iff.mp (by omega)⟩
  · cases hin

-- A directory lists nothing if nothing lies in it.
theorem children_eq_nil_iff (h : catalog.WellFormed limits) {dentry : Dentry}
    (hd : catalog.dentries path = some dentry) :
    dentry.children = [] ↔
      ∀ other, catalog.stats other ≠ none → Path.nameIn? path other = none := by
  constructor
  · intro hc other hn
    by_contra hne
    obtain ⟨name, hname⟩ := Option.ne_none_iff_exists'.mp hne
    obtain ⟨-, found, hf, hm⟩ := h.placed_in hn hname
    rw [hd, Option.some_inj] at hf
    rw [← hf, hc] at hm
    cases hm
  · intro hno
    refine List.eq_nil_iff_forall_not_mem.mpr fun name hm => ?_
    obtain ⟨hs, hn⟩ := h.listed path dentry name hd hm
    have hin := hno _ hn
    rw [Path.nameIn?_of_split hs path, if_pos rfl] at hin
    cases hin

theorem setStat (h : catalog.WellFormed limits) (hp : catalog.stats path = some old)
    (hk : stat.kind = old.kind) (hz : stat.isDirectory → stat.size = old.size) :
    (catalog.setStat path (some stat)).WellFormed limits := by
  have hd : stat.isDirectory = old.isDirectory := by
    unfold StatRecord.isDirectory
    rw [hk]
  have hr : stat.isRegularFile = old.isRegularFile := by
    unfold StatRecord.isRegularFile
    rw [hk]
  have hdir : ∀ other, (catalog.setStat path (some stat)).HasDirectory other ↔
      catalog.HasDirectory other := by
    intro other
    unfold HasDirectory
    rw [stats_setStat]
    by_cases ho : other = path
    · subst ho
      simp [hp, hd]
    · rw [if_neg ho]
  have hnone : ∀ other, (catalog.setStat path (some stat)).stats other = none ↔
      catalog.stats other = none := by
    intro other
    rw [stats_setStat]
    by_cases ho : other = path
    · subst ho
      simp [hp]
    · rw [if_neg ho]
  have hold : ∀ other found, (catalog.setStat path (some stat)).stats other = some found →
      ∃ before, catalog.stats other = some before ∧ found.isDirectory = before.isDirectory ∧
        found.isRegularFile = before.isRegularFile ∧
        (found.isDirectory → found.size = before.size) := by
    intro other found hf
    rw [stats_setStat] at hf
    by_cases ho : other = path
    · subst ho
      rw [if_pos rfl, Option.some_inj] at hf
      subst hf
      exact ⟨old, hp, hd, hr, hz⟩
    · rw [if_neg ho] at hf
      exact ⟨found, hf, rfl, rfl, fun _ => rfl⟩
  constructor
  case root => exact (hdir _).mpr h.root
  case placed =>
    intro other found hf hne
    obtain ⟨before, hb, -⟩ := hold other found hf
    obtain ⟨parent, leaf, dentry, hs, hpd, hde, hc⟩ := h.placed other before hb hne
    exact ⟨parent, leaf, dentry, hs, (hdir _).mpr hpd, hde, hc⟩
  case listed =>
    intro directory dentry name hde hm
    obtain ⟨hs, hne⟩ := h.listed directory dentry name hde hm
    exact ⟨hs, fun hn => hne ((hnone _).mp hn)⟩
  case documented => exact fun other => (h.documented other).trans (hdir other).symm
  case named => exact h.named
  case kinds =>
    intro other found hf
    obtain ⟨before, hb, hdb, hrb, -⟩ := hold other found hf
    rw [hdb, hrb]
    exact h.kinds other before hb
  case empty =>
    intro other found hf hfd
    obtain ⟨before, hb, hdb, -, hsb⟩ := hold other found hf
    rw [hsb hfd]
    exact h.empty other before hb (hdb ▸ hfd)

end WellFormed

-- A new record at `path`, listed as `leaf` in `parent`. A directory comes with a document of its
-- own.
structure Added (limits : Limits) (catalog after : Catalog) (path parent leaf : String)
    (stat : StatRecord) (own : Option Dentry) : Prop where
  split : Path.split path limits.maxKeyLen = .ok (parent, leaf)
  into : catalog.HasDirectory parent
  free : catalog.stats path = none
  own_eq : own = if stat.isDirectory then some (Dentry.new path parent) else none
  stats : ∀ other, after.stats other = if other = path then some stat else catalog.stats other
  dentries : ∀ other, after.dentries other =
    if other = parent then (catalog.dentries parent).map (·.addChild leaf)
    else if other = path then own else catalog.dentries other

namespace Added

variable {after : Catalog} {own : Option Dentry} {other : String}

theorem hasDirectory (ha : Added limits catalog after path parent leaf stat own)
    (hd : catalog.HasDirectory other) : after.HasDirectory other := by
  obtain ⟨found, hf, hfd⟩ := hd
  have hne : other ≠ path := by
    intro he
    rw [he, ha.free] at hf
    cases hf
  refine ⟨found, ?_, hfd⟩
  rw [ha.stats, if_neg hne, hf]

theorem dentry_parent (ha : Added limits catalog after path parent leaf stat own)
    (h : catalog.WellFormed limits) :
    ∃ above, catalog.dentries parent = some above ∧
      after.dentries parent = some (above.addChild leaf) ∧ leaf ∉ above.children := by
  obtain ⟨above, hd⟩ := h.dentry_of_hasDirectory ha.into
  refine ⟨above, hd, ?_, h.not_listed ha.split ha.free hd⟩
  rw [ha.dentries, if_pos rfl, hd, Option.map_some]

theorem placed (ha : Added limits catalog after path parent leaf stat own)
    (h : catalog.WellFormed limits) {found : StatRecord} (hf : after.stats other = some found)
    (hr : other ≠ Path.root) :
    ∃ into name dentry, Path.split other limits.maxKeyLen = .ok (into, name) ∧
      after.HasDirectory into ∧ after.dentries into = some dentry ∧
      dentry.children.count name = 1 := by
  obtain ⟨above, hd, had, hfree⟩ := ha.dentry_parent h
  rw [ha.stats] at hf
  by_cases hop : other = path
  · subst hop
    refine ⟨parent, leaf, above.addChild leaf, ha.split, ha.hasDirectory ha.into, had, ?_⟩
    rw [Dentry.addChild, List.count_append, List.count_eq_zero_of_not_mem hfree]
    simp
  · rw [if_neg hop] at hf
    obtain ⟨into, name, dentry, hso, hpo, hdo, hco⟩ := h.placed other found hf hr
    by_cases hi : into = parent
    · subst hi
      rw [hd, Option.some_inj] at hdo
      subst hdo
      have hl : name ≠ leaf := by
        intro he
        rw [he] at hso
        exact hop ((Path.join_of_split hso).symm.trans (Path.join_of_split ha.split))
      refine ⟨into, name, above.addChild leaf, hso, ha.hasDirectory hpo, had, ?_⟩
      rw [Dentry.addChild, List.count_append, hco]
      simp [Ne.symm hl]
    · have hip : into ≠ path := by
        intro he
        obtain ⟨_, hs, -⟩ := hpo
        rw [he, ha.free] at hs
        cases hs
      refine ⟨into, name, dentry, hso, ha.hasDirectory hpo, ?_, hco⟩
      rw [ha.dentries, if_neg hi, if_neg hip, hdo]

-- What was listed is still there.
theorem listed_of_mem (ha : Added limits catalog after path parent leaf stat own)
    (h : catalog.WellFormed limits) {dentry : Dentry} {name : String}
    (hd : catalog.dentries other = some dentry) (hm : name ∈ dentry.children) :
    Path.split (Path.join other name) limits.maxKeyLen = .ok (other, name) ∧
      after.stats (Path.join other name) ≠ none := by
  obtain ⟨hs, hn⟩ := h.listed other dentry name hd hm
  refine ⟨hs, ?_⟩
  rw [ha.stats]
  split
  · exact Option.some_ne_none _
  · exact hn

theorem listed (ha : Added limits catalog after path parent leaf stat own)
    (h : catalog.WellFormed limits) {dentry : Dentry} {name : String}
    (hd : after.dentries other = some dentry) (hm : name ∈ dentry.children) :
    Path.split (Path.join other name) limits.maxKeyLen = .ok (other, name) ∧
      after.stats (Path.join other name) ≠ none := by
  by_cases ho : other = parent
  · subst ho
    obtain ⟨above, hb, had, -⟩ := ha.dentry_parent h
    rw [had, Option.some_inj] at hd
    subst hd
    rw [Dentry.addChild, List.mem_append, List.mem_singleton] at hm
    rcases hm with hm | hm
    · exact ha.listed_of_mem h hb hm
    · rw [hm, Path.join_of_split ha.split, ha.stats, if_pos rfl]
      exact ⟨ha.split, Option.some_ne_none _⟩
  · rw [ha.dentries, if_neg ho] at hd
    by_cases hop : other = path
    · rw [if_pos hop, ha.own_eq] at hd
      split at hd
      · rw [Option.some_inj] at hd
        subst hd
        cases hm
      · cases hd
    · rw [if_neg hop] at hd
      exact ha.listed_of_mem h hd hm

theorem documented (ha : Added limits catalog after path parent leaf stat own)
    (h : catalog.WellFormed limits) : after.dentries other ≠ none ↔ after.HasDirectory other := by
  by_cases ho : other = parent
  · subst ho
    obtain ⟨above, -, had, -⟩ := ha.dentry_parent h
    rw [had]
    exact iff_of_true (Option.some_ne_none _) (ha.hasDirectory ha.into)
  · rw [ha.dentries, if_neg ho]
    unfold HasDirectory
    rw [ha.stats]
    by_cases hop : other = path
    · rw [if_pos hop, if_pos hop, ha.own_eq]
      simp only [Option.some_inj, exists_eq_left']
      split <;> simp_all
    · rw [if_neg hop, if_neg hop]
      exact h.documented other

theorem named (ha : Added limits catalog after path parent leaf stat own)
    (h : catalog.WellFormed limits) {dentry : Dentry} (hd : after.dentries other = some dentry) :
    dentry.directory = other ∧ dentry.parent = Path.parent other := by
  by_cases ho : other = parent
  · subst ho
    obtain ⟨above, hb, had, -⟩ := ha.dentry_parent h
    rw [had, Option.some_inj] at hd
    subst hd
    exact h.named other above hb
  · rw [ha.dentries, if_neg ho] at hd
    by_cases hop : other = path
    · subst hop
      rw [if_pos rfl, ha.own_eq] at hd
      split at hd
      · rw [Option.some_inj] at hd
        subst hd
        exact ⟨rfl, (Path.parent_of_split ha.split).symm⟩
      · cases hd
    · rw [if_neg hop] at hd
      exact h.named other dentry hd

theorem wellFormed (ha : Added limits catalog after path parent leaf stat own)
    (h : catalog.WellFormed limits) (hk : stat.isRegularFile ∨ stat.isDirectory)
    (hz : stat.size = 0) : after.WellFormed limits := by
  constructor
  case root => exact ha.hasDirectory h.root
  case placed => exact fun other found hf hr => ha.placed h hf hr
  case listed => exact fun directory dentry name hd hm => ha.listed h hd hm
  case documented => exact fun other => ha.documented h
  case named => exact fun other dentry hd => ha.named h hd
  case kinds =>
    intro other found hf
    rw [ha.stats] at hf
    split at hf
    · rw [Option.some_inj] at hf
      exact hf ▸ hk
    · exact h.kinds other found hf
  case empty =>
    intro other found hf hfd
    rw [ha.stats] at hf
    split at hf
    · rw [Option.some_inj] at hf
      exact hf ▸ hz
    · exact h.empty other found hf hfd

end Added

theorem added (own : Option Dentry) (hs : Path.split path limits.maxKeyLen = .ok (parent, leaf))
    (hp : catalog.HasDirectory parent) (hn : catalog.stats path = none)
    (ho : own = if stat.isDirectory then some (Dentry.new path parent) else none) :
    Added limits catalog (((catalog.setStat path (some stat)).setDentry path own).modifyDentry
      parent (·.addChild leaf)) path parent leaf stat own := by
  have hne := Path.parent_ne_of_split hs
  constructor
  case split => exact hs
  case into => exact hp
  case free => exact hn
  case own_eq => exact ho
  case stats =>
    intro other
    rw [stats_modifyDentry, stats_setDentry, stats_setStat]
  case dentries =>
    intro other
    rw [dentries_modifyDentry, dentries_setDentry, dentries_setDentry, if_neg hne,
      dentries_setStat]

-- No record at `path` any more, and `parent` without `leaf`.
structure Removed (limits : Limits) (catalog after : Catalog) (path parent leaf : String) :
    Prop where
  split : Path.split path limits.maxKeyLen = .ok (parent, leaf)
  empty : ∀ dentry, catalog.dentries path = some dentry → dentry.children = []
  stats : ∀ other, after.stats other = if other = path then none else catalog.stats other
  dentries : ∀ other, after.dentries other =
    if other = parent then (catalog.dentries parent).map (·.removeChild leaf)
    else if other = path then none else catalog.dentries other

namespace Removed

variable {after : Catalog} {other name : String}

theorem hasDirectory_iff (hr : Removed limits catalog after path parent leaf) (ho : other ≠ path) :
    after.HasDirectory other ↔ catalog.HasDirectory other := by
  unfold HasDirectory
  rw [hr.stats, if_neg ho]

-- A name in the tree is kept, unless it is the one that goes.
theorem join_ne (hr : Removed limits catalog after path parent leaf)
    (hs : Path.split (Path.join other name) limits.maxKeyLen = .ok (other, name))
    (hor : other ≠ parent ∨ name ≠ leaf) : Path.join other name ≠ path := by
  intro he
  rw [he, hr.split] at hs
  obtain ⟨hp, hl⟩ : parent = other ∧ leaf = name := by simpa using hs
  rcases hor with hor | hor
  · exact hor hp.symm
  · exact hor hl.symm

theorem placed (hr : Removed limits catalog after path parent leaf)
    (h : catalog.WellFormed limits) {found : StatRecord} (hf : after.stats other = some found)
    (hroot : other ≠ Path.root) :
    ∃ into name dentry, Path.split other limits.maxKeyLen = .ok (into, name) ∧
      after.HasDirectory into ∧ after.dentries into = some dentry ∧
      dentry.children.count name = 1 := by
  have hop : other ≠ path := by
    intro he
    rw [hr.stats, if_pos he] at hf
    cases hf
  rw [hr.stats, if_neg hop] at hf
  obtain ⟨into, name, dentry, hso, hpo, hdo, hco⟩ := h.placed other found hf hroot
  have hip : into ≠ path := by
    intro he
    rw [hr.empty dentry (he ▸ hdo)] at hco
    cases hco
  by_cases hi : into = parent
  · subst hi
    have hl : name ≠ leaf := by
      intro he
      rw [he] at hso
      exact hop ((Path.join_of_split hso).symm.trans (Path.join_of_split hr.split))
    refine ⟨into, name, dentry.removeChild leaf, hso, (hr.hasDirectory_iff hip).mpr hpo, ?_, ?_⟩
    · rw [hr.dentries, if_pos rfl, hdo, Option.map_some]
    · rw [Dentry.removeChild, List.count_filter (by simpa using hl), hco]
  · refine ⟨into, name, dentry, hso, (hr.hasDirectory_iff hip).mpr hpo, ?_, hco⟩
    rw [hr.dentries, if_neg hi, if_neg hip, hdo]

theorem listed_of_mem (hr : Removed limits catalog after path parent leaf)
    (h : catalog.WellFormed limits) {dentry : Dentry}
    (hd : catalog.dentries other = some dentry) (hm : name ∈ dentry.children)
    (hor : other ≠ parent ∨ name ≠ leaf) :
    Path.split (Path.join other name) limits.maxKeyLen = .ok (other, name) ∧
      after.stats (Path.join other name) ≠ none := by
  obtain ⟨hs, hn⟩ := h.listed other dentry name hd hm
  rw [hr.stats, if_neg (hr.join_ne hs hor)]
  exact ⟨hs, hn⟩

theorem listed (hr : Removed limits catalog after path parent leaf)
    (h : catalog.WellFormed limits) {dentry : Dentry}
    (hd : after.dentries other = some dentry) (hm : name ∈ dentry.children) :
    Path.split (Path.join other name) limits.maxKeyLen = .ok (other, name) ∧
      after.stats (Path.join other name) ≠ none := by
  rw [hr.dentries] at hd
  by_cases ho : other = parent
  · rw [if_pos ho, ← ho] at hd
    obtain ⟨before, hb, hbd⟩ := Option.map_eq_some_iff.mp hd
    rw [← hbd, Dentry.removeChild, List.mem_filter] at hm
    exact hr.listed_of_mem h hb hm.1 (.inr (by simpa using hm.2))
  · rw [if_neg ho] at hd
    split at hd
    · cases hd
    · exact hr.listed_of_mem h hd hm (.inl ho)

theorem documented (hr : Removed limits catalog after path parent leaf)
    (h : catalog.WellFormed limits) : after.dentries other ≠ none ↔ after.HasDirectory other := by
  have hne := Path.parent_ne_of_split hr.split
  rw [hr.dentries]
  by_cases hop : other = path
  · subst hop
    rw [if_neg (Ne.symm hne), if_pos rfl]
    apply iff_of_false (fun hn => hn rfl)
    intro hd
    obtain ⟨found, hf, -⟩ := hd
    rw [hr.stats, if_pos rfl] at hf
    cases hf
  · rw [hr.hasDirectory_iff hop, ← h.documented other, if_neg hop]
    split
    · next hp =>
      subst hp
      rw [ne_eq, Option.map_eq_none_iff]
    · rfl

theorem named (hr : Removed limits catalog after path parent leaf)
    (h : catalog.WellFormed limits) {dentry : Dentry} (hd : after.dentries other = some dentry) :
    dentry.directory = other ∧ dentry.parent = Path.parent other := by
  rw [hr.dentries] at hd
  by_cases ho : other = parent
  · rw [if_pos ho, ← ho] at hd
    obtain ⟨before, hb, hbd⟩ := Option.map_eq_some_iff.mp hd
    rw [← hbd]
    exact h.named other before hb
  · rw [if_neg ho] at hd
    split at hd
    · cases hd
    · exact h.named other dentry hd

theorem wellFormed (hr : Removed limits catalog after path parent leaf)
    (h : catalog.WellFormed limits) : after.WellFormed limits := by
  constructor
  case root => exact (hr.hasDirectory_iff (Path.ne_root_of_split hr.split).symm).mpr h.root
  case placed => exact fun other found hf hroot => hr.placed h hf hroot
  case listed => exact fun directory dentry name hd hm => hr.listed h hd hm
  case documented => exact fun other => hr.documented h
  case named => exact fun other dentry hd => hr.named h hd
  case kinds =>
    intro other found hf
    rw [hr.stats] at hf
    split at hf
    · cases hf
    · exact h.kinds other found hf
  case empty =>
    intro other found hf hfd
    rw [hr.stats] at hf
    split at hf
    · cases hf
    · exact h.empty other found hf hfd

end Removed

theorem removed (hs : Path.split path limits.maxKeyLen = .ok (parent, leaf))
    (hempty : ∀ dentry, catalog.dentries path = some dentry → dentry.children = []) :
    Removed limits catalog (((catalog.setDentry path none).modifyDentry parent
      (·.removeChild leaf)).setStat path none) path parent leaf := by
  have hne := Path.parent_ne_of_split hs
  constructor
  case split => exact hs
  case empty => exact hempty
  case stats =>
    intro other
    rw [stats_setStat, stats_modifyDentry, stats_setDentry]
  case dentries =>
    intro other
    rw [dentries_setStat, dentries_modifyDentry, dentries_setDentry, dentries_setDentry,
      if_neg hne]

end DocTree.Catalog
