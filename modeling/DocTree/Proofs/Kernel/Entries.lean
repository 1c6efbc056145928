import DocTree.Proofs.Kernel.Calls

namespace DocTree

open Call

namespace ListedEntry

def key (entry : ListedEntry) : String × Nat := (entry.name, entry.offset)

-- The path that a name in a listing stands for.
def pathIn (directory name : String) : String :=
  if name = "." then directory
  else if name = ".." then Path.parent directory
  else Path.join directory name

-- An entry with the number that the table has for its path, and the kind of a child.
structure Agrees (catalog : Catalog) (inodes : Inodes) (directory : String)
    (entry : ListedEntry) : Prop where
  number : inodes.pathOf? entry.ino = some (pathIn directory entry.name)
  kind : entry.name ≠ "." → entry.name ≠ ".." → ∃ stat,
    catalog.stats (Path.join directory entry.name) = some stat ∧
      entry.kind = stat.kind.entryKind

end ListedEntry

open ListedEntry (pathIn)

variable {limits : Limits} {catalog : Catalog} {mounted later last : Mounted} {docs : Docs}
  {known : String → Prop} {path : String} {dentry : Dentry} {caller : Caller}

-- A table that still has all of an earlier one.
structure Mounted.Grown (limits : Limits) (known : String → Prop) (mounted later : Mounted) :
    Prop where
  knows : later.Knows limits known
  table : mounted.inodes.Later later.inodes
  kept : ∀ number path, mounted.inodes.pathOf? number = some path →
    later.inodes.pathOf? number = some path

namespace Mounted

theorem Knows.grown_self (h : mounted.Knows limits known) :
    mounted.Grown limits known mounted := ⟨h, .refl, fun _ _ hp => hp⟩

theorem Knows.grown_numberOf (h : mounted.Knows limits known) (hp : known path) :
    mounted.Grown limits known (mounted.numberOf path).2 := by
  refine ⟨h.numberOf hp, h.later_numberOf path, fun number other ho => ?_⟩
  rw [numberOf_inodes, h.coherent.pathOf?_numberOf]
  split
  · next hn =>
    -- The path has this number already.
    rcases h.coherent.numberOf_cases path with ⟨hold, -⟩ | ⟨-, hnew, -⟩
    · rw [hn, hold] at ho
      exact ho
    · have hlt := h.coherent.below number other ho
      omega
  · exact ho

theorem Grown.trans (h : mounted.Grown limits known later)
    (hl : later.Grown limits known last) : mounted.Grown limits known last :=
  ⟨hl.knows, h.table.trans hl.table, fun number path hp =>
    hl.kept number path (h.kept number path hp)⟩

end Mounted

theorem ListedEntry.Agrees.grown {entry : ListedEntry}
    (h : entry.Agrees catalog mounted.inodes path) (hg : mounted.Grown limits known later) :
    entry.Agrees catalog later.inodes path :=
  ⟨hg.kept _ _ h.number, h.kind⟩

namespace KernelCall

-- The names of a listing with their offsets, from index `index` on.
def numbered (first index : Nat) : List String → List (String × Nat)
  | [] => []
  | name :: names => (name, entryOffset first index) :: numbered first (index + 1) names

-- What goes into a buffer: everything in front of the first entry that does not fit.
def fitting (space : Nat) : List (String × Nat) → List (String × Nat)
  | [] => []
  | entry :: entries =>
    if space < entryLength entry.1 then []
    else entry :: fitting (space - entryLength entry.1) entries

theorem fitting_prefix (space : Nat) (entries : List (String × Nat)) :
    fitting space entries <+: entries := by
  induction entries generalizing space with
  | nil => exact List.prefix_refl _
  | cons entry entries ih =>
    unfold fitting
    split
    · exact List.nil_prefix
    · exact (List.prefix_cons_inj entry).mpr (ih _)

theorem fitting_eq_nil_iff {space : Nat} {entries : List (String × Nat)} :
    fitting space entries = [] ↔ ∀ entry ∈ entries.head?, space < entryLength entry.1 := by
  cases entries with
  | nil => simp [fitting]
  | cons entry entries =>
    unfold fitting
    split <;> simp_all

end KernelCall

-- A directory that can be listed: its document, and what that lists.
structure Catalog.Lists (limits : Limits) (catalog : Catalog) (path : String) (dentry : Dentry) :
    Prop where
  document : catalog.dentries path = some dentry
  directory : catalog.HasDirectory path
  short : path.utf8ByteSize ≤ limits.maxKeyLen
  children : ∀ name ∈ dentry.children, ∃ stat, catalog.stats (Path.join path name) = some stat ∧
    (Path.join path name).utf8ByteSize ≤ limits.maxKeyLen

namespace KernelCall

theorem ensures_kindOf {stat : StatRecord} (hd : docs.Shows catalog)
    (hs : catalog.stats path = some stat) (hl : path.utf8ByteSize ≤ limits.maxKeyLen) :
    (kindOf limits path caller).Ensures (fun _ => False)
      (fun kind after => after = docs ∧ kind = stat.kind) (fun _ _ => False) docs := by
  unfold kindOf
  refine ensures_bind.mpr (ensures_attempt.mpr ((Tree.ensures_getattr_stat hd).mono ?_ ?_))
  · intro attributes after hpost
    obtain ⟨ha, found, hf, hattr⟩ := hpost
    rw [hs, Option.some_inj] at hf
    exact ⟨ha, by rw [hattr, hf]⟩
  · intro error after hpost
    obtain ⟨-, hlong | hn⟩ := hpost
    · omega
    · rw [hs] at hn
      cases hn

section

variable (hd : docs.Shows catalog) (hlists : catalog.Lists limits path dentry)

include hd hlists

theorem ensures_describeEntry {ino : Nat} {name : String} (hk : mounted.Knows limits known)
    (hino : mounted.inodes.pathOf? ino = some path) (hknown : known (pathIn path name))
    (hn : name ≠ "." → name ≠ ".." → name ∈ dentry.children) :
    (describeEntry mounted caller ino path name).Ensures (fun _ => False)
      (fun result after => after = docs ∧ mounted.Grown limits known result.2 ∧
        ∀ offset, ListedEntry.Agrees catalog result.2.inodes path
          ⟨result.1.1, offset, result.1.2, name⟩)
      (fun _ _ => False) docs := by
  have hnumber := hk.pathOf?_numberOf_self (pathIn path name)
  have hgrown := hk.grown_numberOf hknown
  unfold describeEntry
  by_cases hself : name = "."
  · rw [if_pos hself]
    have hpath : pathIn path name = path := if_pos hself
    exact ⟨rfl, hk.grown_self, fun offset =>
      ⟨hino.trans (congrArg some hpath.symm), fun hne => absurd hself hne⟩⟩
  rw [if_neg hself]
  by_cases habove : name = ".."
  · rw [if_pos habove]
    have hpath : pathIn path name = Path.parent path := by
      rw [pathIn, if_neg hself, if_pos habove]
    rw [hpath] at hnumber hgrown
    exact ⟨rfl, hgrown, fun offset =>
      ⟨hnumber.trans (congrArg some hpath.symm), fun _ hne => absurd habove hne⟩⟩
  rw [if_neg habove]
  have hpath : pathIn path name = Path.join path name := by
    rw [pathIn, if_neg hself, if_neg habove]
  obtain ⟨stat, hs, hl⟩ := hlists.children name (hn hself habove)
  rw [hpath] at hnumber hgrown
  rw [hk.limits_eq]
  refine (ensures_kindOf hd hs hl).bind (fun kind after hpost => ?_) fun _ _ h => h
  obtain ⟨rfl, rfl⟩ := hpost
  exact ⟨rfl, hgrown, fun offset =>
    ⟨hnumber.trans (congrArg some hpath.symm), fun _ _ => ⟨stat, hs, rfl⟩⟩⟩

-- The entries that are there already stay in front.
theorem ensures_listEntries {ino offset first space index : Nat} {listed : List ListedEntry}
    {names : List String} (hk : mounted.Knows limits known)
    (hino : mounted.inodes.pathOf? ino = some path)
    (hn : ∀ name ∈ names, known (pathIn path name) ∧
      (name ≠ "." → name ≠ ".." → name ∈ dentry.children)) :
    (listEntries caller ino path offset first mounted space index listed names).Ensures
      (fun _ => False)
      (fun result after => after = docs ∧ mounted.Grown limits known result.2 ∧
        ∃ more, result.1 = listed.reverse ++ more ∧
          more.map ListedEntry.key =
            fitting space ((numbered first index names).filter fun entry => offset < entry.2) ∧
          ∀ entry ∈ more, entry.Agrees catalog result.2.inodes path)
      (fun _ _ => False) docs := by
  induction names generalizing mounted space index listed with
  | nil =>
    unfold listEntries
    exact ⟨rfl, hk.grown_self, [], (List.append_nil _).symm, rfl, fun _ hm => nomatch hm⟩
  | cons name names ih =>
    obtain ⟨⟨hknown, hchild⟩, hnames⟩ := List.forall_mem_cons.mp hn
    unfold listEntries numbered
    dsimp only
    by_cases hbefore : entryOffset first index ≤ offset
    · rw [if_pos hbefore, List.filter_cons_of_neg (by simpa using hbefore)]
      exact ih hk hino hnames
    rw [if_neg hbefore, List.filter_cons_of_pos (by simpa using hbefore)]
    refine (ensures_describeEntry hd hlists hk hino hknown hchild).bind
      (fun result after hpost => ?_) fun _ _ h => h
    obtain ⟨⟨number, kind⟩, described⟩ := result
    obtain ⟨rfl, hgrown, hagrees⟩ := hpost
    dsimp only
    by_cases hfull : space < entryLength name
    · rw [if_pos hfull]
      refine ⟨rfl, hgrown, [], (List.append_nil _).symm, ?_, fun _ hm => nomatch hm⟩
      rw [fitting, if_pos hfull]
      rfl
    · rw [if_neg hfull]
      refine (ih hgrown.knows (hgrown.kept _ _ hino) hnames).mono ?_ fun _ _ h => h
      intro result after hpost
      obtain ⟨rfl, hmore, more, hr, hkeys, hall⟩ := hpost
      refine ⟨rfl, hgrown.trans hmore,
        ⟨number, entryOffset first index, kind, name⟩ :: more, ?_, ?_, ?_⟩
      · rw [hr, List.reverse_cons, List.append_assoc]
        rfl
      · rw [fitting, if_neg hfull, List.map_cons, hkeys]
        rfl
      · intro entry hm
        rcases List.mem_cons.mp hm with rfl | hm
        · exact (hagrees _).grown hmore
        · exact hall entry hm

end

theorem entryOffset_le {first index after : Nat} (h : index ≤ after) :
    entryOffset first index ≤ entryOffset first after := by
  unfold entryOffset
  split <;> split <;> omega

-- Behind the two names in front it is the same to leave out children and to begin later.
theorem numbered_eq_zipIdx {first index : Nat} (h : 2 ≤ index ∨ first = 0) (names : List String) :
    numbered first index names = names.zipIdx (first + index + 1) := by
  induction names generalizing index with
  | nil => rfl
  | cons name names ih =>
    have hoffset : entryOffset first index = first + index + 1 := by
      unfold entryOffset
      split <;> omega
    rw [numbered, List.zipIdx_cons, hoffset, ih (by omega)]
    rfl

theorem drop_zipIdx (names : List String) (start count : Nat) :
    (names.zipIdx start).drop count = (names.drop count).zipIdx (start + count) := by
  apply List.ext_getElem?
  intro index
  simp only [List.getElem?_drop, List.getElem?_zipIdx, Nat.add_assoc]

theorem filter_numbered_of_lt {first index offset : Nat} (h : offset < entryOffset first index)
    (names : List String) : (numbered first index names).filter (fun entry => offset < entry.2) =
      numbered first index names := by
  induction names generalizing index with
  | nil => rfl
  | cons name names ih =>
    have hnext : entryOffset first index ≤ entryOffset first (index + 1) :=
      entryOffset_le (Nat.le_succ index)
    rw [numbered, List.filter_cons_of_pos (by simpa using h), ih (by omega)]

-- The names behind an offset, however many children are left out before they are numbered.
theorem filter_numbered (offset : Nat) (children : List String) :
    (numbered (offset - 2) 0 ("." :: ".." :: children.drop (offset - 2))).filter
        (fun entry => offset < entry.2) =
      (("." :: ".." :: children).zipIdx 1).drop offset := by
  have hself : entryOffset (offset - 2) 0 = 1 := rfl
  have habove : entryOffset (offset - 2) 1 = 2 := rfl
  match offset with
  | 0 => rw [filter_numbered_of_lt (by decide), numbered_eq_zipIdx (.inr rfl)]; rfl
  | 1 =>
    rw [numbered, List.filter_cons_of_neg (by decide), filter_numbered_of_lt (by decide),
      numbered_eq_zipIdx (.inr rfl)]
    rfl
  | offset + 2 =>
    have hbehind : offset + 2 < entryOffset offset 2 := by
      unfold entryOffset
      rw [if_neg (by decide)]
      omega
    simp only [Nat.add_sub_cancel] at hself habove ⊢
    rw [numbered, numbered, hself, habove, List.filter_cons_of_neg (by simp),
      List.filter_cons_of_neg (by simp), filter_numbered_of_lt hbehind,
      numbered_eq_zipIdx (.inl (Nat.le_refl 2)), drop_zipIdx]
    exact congrArg _ (by omega)

end KernelCall

-- What a listing of a directory replies, from an offset on.
structure Mounted.Lists (limits : Limits) (known : String → Prop) (catalog : Catalog)
    (mounted : Mounted) (path : String) (children : List String) (offset size : Nat)
    (result : KernelReply × Mounted) : Prop where
  grown : mounted.Grown limits known result.2
  reply : ∃ entries, result.1 = .entries entries ∧
    entries.map ListedEntry.key =
      KernelCall.fitting size ((("." :: ".." :: children).zipIdx 1).drop offset) ∧
    ∀ entry ∈ entries, entry.Agrees catalog result.2.inodes path

theorem Tree.ensures_readdir_document (hd : docs.Shows catalog)
    (hlists : catalog.Lists limits path dentry) {offset : UInt64} :
    (readdir limits path offset).Ensures (fun _ => False)
      (fun names after => after = docs ∧
        names = "." :: ".." :: dentry.children.drop offset.toNat)
      (fun _ _ => False) docs := by
  unfold readdir
  rw [Path.checkLength_eq_ok.mpr hlists.short, ofExcept_ok_bind]
  refine ensures_bind.mpr (ensures_requireDirectory hd (fun _ => ?_) fun hn _ =>
    hn hlists.directory)
  refine ensures_bind.mpr (Directory.ensures_get (hd.dentries path) (fun found hf => ?_)
    (fun hn => ?_) fun h => h.choose_spec.elim)
  · rw [hlists.document, Option.some_inj] at hf
    exact ⟨rfl, hf ▸ rfl⟩
  · rw [hlists.document] at hn
    cases hn

theorem KernelCall.ensures_readdir (hd : docs.Shows catalog)
    (hlists : catalog.Lists limits path dentry) (hk : mounted.Knows limits known)
    (hknown : ∀ name, name = "." ∨ name = ".." ∨ name ∈ dentry.children → known (pathIn path name))
    {ino size : Nat} {offset : Int64} {now : Readings}
    (hino : mounted.inodes.pathOf? ino = some path) (ho : ¬offset < 0) :
    ((readdir ino offset size).call mounted caller now).Ensures (fun _ => False)
      (fun result after => after = docs ∧ mounted.Lists limits known catalog path dentry.children
        offset.toUInt64.toNat size result)
      (fun _ _ => False) docs := by
  have hfirst : (UInt64.ofNat (offset.toUInt64.toNat - 2)).toNat = offset.toUInt64.toNat - 2 :=
    UInt64.toNat_ofNat_of_lt' (Nat.lt_of_le_of_lt (Nat.sub_le _ _) offset.toUInt64.toNat_lt)
  unfold call
  dsimp only
  rw [if_neg ho, withPath_eq, hino, Option.elim_some]
  unfold withAnswer
  rw [hk.limits_eq]
  refine ensures_bind.mpr (ensures_attempt.mpr
    ((Tree.ensures_readdir_document hd hlists).mono (fun names after hpost => ?_)
      fun _ _ h => h.elim))
  obtain ⟨rfl, rfl⟩ := hpost
  dsimp only
  rw [hfirst]
  have hname : ∀ name ∈ "." :: ".." :: dentry.children.drop (offset.toUInt64.toNat - 2),
      name = "." ∨ name = ".." ∨ name ∈ dentry.children := by
    intro name hm
    simp only [List.mem_cons] at hm
    exact hm.imp_right (Or.imp_right List.mem_of_mem_drop)
  refine (ensures_listEntries hd hlists hk hino fun name hm =>
    ⟨hknown name (hname name hm), fun hself habove =>
      ((hname name hm).resolve_left hself).resolve_left habove⟩).bind
    (fun result after hpost => ?_) fun _ _ h => h
  obtain ⟨rfl, hgrown, more, hr, hkeys, hall⟩ := hpost
  refine ⟨rfl, hgrown, result.1, rfl, ?_, ?_⟩
  · rw [hr, List.reverse_nil, List.nil_append, hkeys, filter_numbered]
  · rw [hr]
    exact hall

end DocTree
