import DocTree.Call.Run
import DocTree.Proofs.Tree.Changed
import Mathlib.Data.List.Nodup

namespace DocTree

abbrev Ledger := List (String × FileKind)

namespace Ledger

def paths (ledger : Ledger) : List String := ledger.map Prod.fst

def kindOf (ledger : Ledger) (path : String) : Option FileKind :=
  (ledger.find? (·.1 = path)).map Prod.snd

-- The names of the paths in a directory.
def listing (ledger : Ledger) (directory : String) : List String :=
  ledger.paths.filterMap (Path.nameIn? directory)

def without (ledger : Ledger) (path : String) : Ledger := ledger.filter (·.1 ≠ path)

-- One more call and its outcome.
def record (ledger : Ledger) : Operation → Outcome Answer → Ledger
  | .bootstrap, .done _ =>
    if ledger.kindOf Path.root = none then ledger ++ [(Path.root, .directory)] else ledger
  | .create path _, .done _ => ledger ++ [(path, .regularFile)]
  | .mkdir path _, .done _ => ledger ++ [(path, .directory)]
  | .unlink path, .done _ => ledger.without path
  | .rmdir path, .done _ => ledger.without path
  | _, _ => ledger

-- A ledger that has what a catalog has, and lists it as the directories of the catalog do.
structure Tells (ledger : Ledger) (catalog : Catalog) : Prop where
  nodup : ledger.paths.Nodup
  kinds : ∀ path, ledger.kindOf path = catalog.kindOf path
  listings : ∀ directory dentry, catalog.dentries directory = some dentry →
    dentry.children = ledger.listing directory

variable {ledger : Ledger} {path other parent leaf directory : String} {kind : FileKind}

theorem kindOf_eq_none : ledger.kindOf path = none ↔ path ∉ ledger.paths := by
  simp only [kindOf, paths, Option.map_eq_none_iff, List.find?_eq_none, decide_eq_true_eq,
    List.mem_map, not_exists, not_and]

theorem kindOf_append (ledger : Ledger) (path : String) (kind : FileKind) (other : String) :
    Ledger.kindOf (ledger ++ [(path, kind)]) other =
      (ledger.kindOf other).or (if other = path then some kind else none) := by
  simp only [kindOf, List.find?_append, Option.map_or, List.find?_singleton]
  congr 1
  by_cases h : other = path
  · simp [h]
  · simp [h, Ne.symm h]

theorem kindOf_without (ledger : Ledger) (path other : String) :
    (ledger.without path).kindOf other = if other = path then none else ledger.kindOf other := by
  unfold kindOf without
  rw [List.find?_filter]
  by_cases h : other = path
  · subst h
    rw [if_pos rfl, Option.map_eq_none_iff, List.find?_eq_none]
    simp
  · rw [if_neg h]
    congr 2
    funext entry
    by_cases he : entry.1 = other
    · simp [he, h]
    · simp [he]

theorem paths_append (ledger : Ledger) (path : String) (kind : FileKind) :
    Ledger.paths (ledger ++ [(path, kind)]) = ledger.paths ++ [path] := by
  simp [paths]

theorem paths_without (ledger : Ledger) (path : String) :
    (ledger.without path).paths = ledger.paths.filter (· ≠ path) := by
  simp only [paths, without, List.filter_map]
  rfl

theorem listing_append (ledger : Ledger) (path : String) (kind : FileKind) (directory : String) :
    Ledger.listing (ledger ++ [(path, kind)]) directory =
      ledger.listing directory ++ (Path.nameIn? directory path).toList := by
  rw [listing, paths_append, List.filterMap_append]
  rfl

-- Only the directory that a path lies in loses its name.
theorem listing_without (ledger : Ledger) {maxLength : Nat}
    (hs : Path.split path maxLength = .ok (parent, leaf)) (directory : String) :
    (ledger.without path).listing directory =
      if directory = parent then (ledger.listing directory).filter (· ≠ leaf)
      else ledger.listing directory := by
  have hname := Path.nameIn?_of_split hs directory
  rw [listing, paths_without, List.filterMap_filter]
  split
  · next hd =>
    rw [if_pos hd.symm] at hname
    rw [listing, List.filter_filterMap]
    congr 1
    funext other
    cases ho : Path.nameIn? directory other with
    | none => simp
    | some name =>
      by_cases hp : other = path
      · rw [hp, hname, Option.some_inj] at ho
        simp [hp, ho, Option.filter]
      · have hl : name ≠ leaf := by
          rintro rfl
          exact hp ((Path.join_of_nameIn? ho).symm.trans (Path.join_of_nameIn? hname))
        simp [hp, hl, Option.filter]
  · next hd =>
    rw [if_neg (Ne.symm hd)] at hname
    rw [listing]
    congr 1
    funext other
    by_cases hp : other = path
    · rw [hp, hname]
      simp
    · simp [hp]

theorem nodup_listing (h : ledger.paths.Nodup) (directory : String) :
    (ledger.listing directory).Nodup := by
  refine List.Nodup.filterMap (fun path other name hp ho => ?_) h
  exact (Path.join_of_nameIn? hp).symm.trans (Path.join_of_nameIn? ho)

theorem nodup_append (h : ledger.paths.Nodup) (hn : ledger.kindOf path = none)
    (kind : FileKind) : (Ledger.paths (ledger ++ [(path, kind)])).Nodup := by
  rw [paths_append, List.nodup_append]
  refine ⟨h, List.nodup_singleton path, fun other hm last hl => ?_⟩
  rw [List.mem_singleton.mp hl]
  rintro rfl
  exact kindOf_eq_none.mp hn hm

theorem nodup_without (h : ledger.paths.Nodup) (path : String) :
    (ledger.without path).paths.Nodup := by
  rw [paths_without]
  exact h.filter _

namespace Tells

variable {limits : Limits} {catalog later : Catalog} {stat : StatRecord} {own : Option Dentry}
  {now : Readings} {operation : Operation}

theorem setStat (h : ledger.Tells catalog) {old : StatRecord}
    (hp : catalog.stats path = some old) (hk : stat.kind = old.kind) :
    ledger.Tells (catalog.setStat path (some stat)) := by
  refine ⟨h.nodup, fun other => ?_, h.listings⟩
  rw [h.kinds, Catalog.kindOf, Catalog.kindOf, Catalog.stats_setStat]
  by_cases ho : other = path
  · rw [if_pos ho, ho, hp, Option.map_some, Option.map_some, hk]
  · rw [if_neg ho]

-- Nothing lies in a path that is free.
theorem listing_of_free (h : ledger.Tells catalog) (hw : catalog.WellFormed limits)
    (hn : catalog.stats path = none) : ledger.listing path = [] := by
  refine List.filterMap_eq_nil_iff.mpr fun other hm => ?_
  by_contra hne
  obtain ⟨name, hname⟩ := Option.ne_none_iff_exists'.mp hne
  have hsome : catalog.stats other ≠ none := by
    rw [ne_eq, ← Catalog.kindOf_eq_none, ← h.kinds, kindOf_eq_none, not_not]
    exact hm
  exact Catalog.not_hasDirectory_of_none hn (hw.placed_in hsome hname).1

theorem append (h : ledger.Tells catalog) (hw : catalog.WellFormed limits)
    (ha : Catalog.Added limits catalog later path parent leaf stat own) :
    Ledger.Tells (ledger ++ [(path, stat.kind)]) later := by
  have hfree : ledger.kindOf path = none := by
    rw [h.kinds, Catalog.kindOf_eq_none]
    exact ha.free
  constructor
  case nodup => exact nodup_append h.nodup hfree _
  case kinds =>
    intro other
    rw [kindOf_append, h.kinds, Catalog.kindOf, Catalog.kindOf, ha.stats]
    by_cases ho : other = path
    · rw [if_pos ho, if_pos ho, ho, ha.free]
      rfl
    · rw [if_neg ho, if_neg ho, Option.or_none]
  case listings =>
    intro directory dentry hd
    rw [listing_append, Path.nameIn?_of_split ha.split directory]
    rw [ha.dentries] at hd
    by_cases hp : directory = parent
    · rw [if_pos hp] at hd
      obtain ⟨above, hb, rfl⟩ := Option.map_eq_some_iff.mp hd
      rw [if_pos hp.symm, hp, ← h.listings parent above hb]
      rfl
    rw [if_neg hp] at hd
    rw [if_neg (Ne.symm hp), Option.toList_none, List.append_nil]
    by_cases ho : directory = path
    · rw [if_pos ho, ha.own_eq] at hd
      split at hd
      · rw [ho, h.listing_of_free hw ha.free, ← Option.some_inj.mp hd]
        rfl
      · cases hd
    · rw [if_neg ho] at hd
      exact h.listings directory dentry hd

theorem without (h : ledger.Tells catalog)
    (hr : Catalog.Removed limits catalog later path parent leaf) :
    (ledger.without path).Tells later := by
  constructor
  case nodup => exact nodup_without h.nodup path
  case kinds =>
    intro other
    rw [kindOf_without, h.kinds, Catalog.kindOf, Catalog.kindOf, hr.stats]
    split <;> rfl
  case listings =>
    intro directory dentry hd
    rw [listing_without ledger hr.split]
    rw [hr.dentries] at hd
    split at hd
    · next hp =>
      obtain ⟨above, hb, rfl⟩ := Option.map_eq_some_iff.mp hd
      rw [if_pos hp, hp, ← h.listings parent above hb]
      rfl
    · next hp =>
      rw [if_neg hp]
      split at hd
      · cases hd
      · exact h.listings directory dentry hd

-- What a call does to the tree it does to the ledger.
theorem record (h : ledger.Tells catalog) (hw : catalog.WellFormed limits)
    (hc : catalog.Changed limits now operation later) (answer : Answer) :
    (ledger.record operation (.done answer)).Tells later := by
  cases hc with
  | looked hl =>
    cases operation with
    | bootstrap =>
      have hroot : ledger.kindOf Path.root ≠ none := by
        rw [h.kinds, Catalog.hasDirectory_iff.mp hw.root]
        exact Option.some_ne_none _
      rw [Ledger.record, if_neg hroot]
      exact h
    | _ => first | exact h | exact hl.elim
  | @updated _ path change stat hu hp hd =>
    have hset := h.setStat hp (StatRecord.kind_apply stat change (now 0))
    cases hu <;> exact hset
  | created hs hm hp hn =>
    have hk := StatRecord.isRegularFile_new hm (now 0)
    have ha := h.append hw (hw.added_addFile hs hp hn hk)
    rwa [of_decide_eq_true hk] at ha
  | @made path parent leaf mode hs hp hn =>
    have hk := StatRecord.isDirectory_new mode (now 0)
    have ha := h.append hw (Catalog.added_addDirectory hs hp hn hk)
    rwa [of_decide_eq_true hk] at ha
  | unlinked hs hp hd =>
    exact h.without (hw.removed_removeFile hs (Catalog.not_hasDirectory_of_stat hp hd))
  | removed hs hp hc => exact h.without (Catalog.removed_removeDirectory hs hp hc)

end Tells

end Ledger

end DocTree
