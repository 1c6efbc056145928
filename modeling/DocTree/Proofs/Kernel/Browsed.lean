import DocTree.Proofs.Kernel.Numbers
import DocTree.Proofs.Kernel.Withstood
import DocTree.Proofs.Tree.Browsable

namespace DocTree

open Call

variable {limits : Limits} {maxSize : Nat} {scope : String} {header : Header} {catalog : Catalog}
  {mounted : Mounted} {served : Served Image} {docs : Docs} {path : String} {dentry : Dentry}
  {caller : Caller} {now : Readings} {ino : Nat}

namespace KernelCall

variable {allowed : Collection → Request → Prop}
  (ha : ∀ collection key, allowed collection (.get key))

include ha

theorem only_replyAttr {reply : FileAttr → KernelReply} :
    (replyAttr mounted path caller reply).Only allowed := by
  have hlook : (mounted.fileAttr path caller).Only allowed := by
    refine only_bind (only_attempt (Tree.only_getattr (ha _ _))) fun answer => ?_
    cases answer <;> trivial
  refine only_bind hlook fun result => ?_
  obtain ⟨answer, later⟩ := result
  dsimp only
  split <;> trivial

theorem only_describeEntry {name : String} :
    (describeEntry mounted caller ino path name).Only allowed := by
  unfold describeEntry
  split
  · trivial
  split
  · trivial
  have hkind : (kindOf mounted.limits (Path.join path name) caller).Only allowed := by
    refine only_bind (only_attempt (Tree.only_getattr (ha _ _))) fun answer => ?_
    cases answer <;> trivial
  exact only_bind hkind fun _ => trivial

theorem only_listEntries {offset first space index : Nat} {listed : List ListedEntry}
    {names : List String} :
    (listEntries caller ino path offset first mounted space index listed names).Only allowed := by
  induction names generalizing mounted space index listed with
  | nil => trivial
  | cons name names ih =>
    unfold listEntries
    dsimp only
    split
    · exact ih
    refine only_bind (only_describeEntry ha) fun result => ?_
    split
    · trivial
    · exact ih

theorem only_readdir {size : Nat} {offset : Int64} :
    ((readdir ino offset size).call mounted caller now).Only allowed := by
  unfold call
  dsimp only
  split
  · trivial
  rw [withPath_eq]
  cases mounted.inodes.pathOf? ino with
  | none => trivial
  | some path =>
    refine only_bind (only_attempt (Tree.only_readdir (ha _ _) (ha _ _))) fun answer => ?_
    cases answer with
    | ok names => exact only_bind (only_listEntries ha) fun _ => trivial
    | error error => trivial

end KernelCall

theorem Call.Built.keepsBrowsable {α : Type} {call : Call α} (h : call.Built limits now path)
    (hv : limits.Valid) : call.KeepsBrowsable limits maxSize := by
  induction h with
  | done value => exact fun _ hd => hd
  | operation operation used _ _ ht he =>
    have hcall : (operation.call limits (now.after used)).KeepsBrowsable limits maxSize :=
      operation.keepsBrowsable hv ht
    rw [he] at hcall
    exact hcall.of_map
  | bind _ _ ih ihn => exact ih.bind ihn
  | @checked _ _ value _ _ ih =>
    cases value with
    | ok found => exact ih found rfl
    | error error => exact fun _ hd => hd

theorem Call.KeepsBrowsable.withAnswer {α : Type} {call : Call α}
    {next : α → Call (KernelReply × Mounted)} (h : call.KeepsBrowsable limits maxSize)
    (hn : ∀ value, (next value).KeepsBrowsable limits maxSize) :
    (KernelCall.withAnswer mounted call next).KeepsBrowsable limits maxSize := by
  have hattempt : call.attempt.KeepsBrowsable limits maxSize :=
    fun docs hd => upholds_attempt.mpr (h docs hd)
  refine hattempt.bind fun answer => ?_
  cases answer with
  | ok value => exact hn value
  | error error => exact fun _ hd => hd

namespace KernelCall

theorem Makes.keepsBrowsable {path? : Option String} {call : Call (KernelReply × Mounted)}
    (h : Makes mounted caller now path? call) (hv : mounted.limits.Valid) :
    call.KeepsBrowsable mounted.limits maxSize := by
  cases h with
  | refusal path? errno => exact fun _ hd => hd
  | look path hr => exact (only_replyAttr fun _ _ => aside_get).keepsBrowsable
  | change path hb hr =>
    exact (hb.keepsBrowsable hv).withAnswer fun _ =>
      (only_replyAttr fun _ _ => aside_get).keepsBrowsable
  | answer path hb hr => exact (hb.keepsBrowsable hv).withAnswer fun _ _ hd => hd
  | removal operation hk ht he =>
    have hcall : (operation.call mounted.limits now).KeepsBrowsable mounted.limits maxSize :=
      operation.keepsBrowsable hv ht
    rw [he] at hcall
    exact hcall.of_map.withAnswer fun _ _ hd => hd
  | listing hino ho => exact (only_readdir fun _ _ => aside_get).keepsBrowsable

end KernelCall

-- A filesystem whose directories can be listed.
structure Served.Browses (limits : Limits) (maxSize : Nat) (scope : String)
    (served : Served Image) : Prop where
  reports : served.mounted.Reports limits (served.store.docs scope)
  tree : (served.store.docs scope).Browsable limits maxSize

namespace Served

theorem MountedOn.browses
    (h : served.MountedOn (Image.backend maxSize scope) limits (Image.new header)) :
    served.Browses limits maxSize scope := by
  obtain ⟨hv, -, time, hr⟩ := h.bootstrapped
  refine ⟨h.reports (Image.backend_mayServe maxSize scope) fun key => by rw [Image.docs_new], ?_⟩
  have hcall : (Tree.bootstrap time.reading).KeepsBrowsable limits maxSize :=
    Tree.keepsBrowsable_bootstrap hv
  have hrun := (hcall _ (Image.browsable_new limits maxSize scope header)).run
  rw [hr] at hrun
  exact hrun

theorem Browses.run (h : served.Browses limits maxSize scope) (hv : limits.Valid)
    (step : KernelStep) :
    (step.run (Image.backend maxSize scope) served).2.Browses limits maxSize scope := by
  obtain ⟨reply, -, ha⟩ := step.run_answers (Image.backend_mayServe maxSize scope) hv h.reports
  refine ⟨ha.reports, ?_⟩
  obtain rfl : served.mounted.limits = limits := h.reports.knows.limits_eq
  rw [KernelStep.store_run]
  exact (step.call.makes_call.keepsBrowsable hv _ h.tree).run.docs_left

theorem Browses.after (h : served.Browses limits maxSize scope) (hv : limits.Valid)
    (history : List KernelStep) :
    (afterKernel (Image.backend maxSize scope) history served).Browses limits maxSize scope :=
  afterKernel_keeps (Browses limits maxSize scope) (fun step _ h => h.run hv step) history h

end Served

namespace Catalog

-- A tree whose directories can be listed, on a store that refuses values over its capacity.
structure Listable (limits : Limits) (capacity : Option Nat) (catalog : Catalog) : Prop where
  lists : ∀ directory dentry, catalog.dentries directory = some dentry →
    catalog.Lists limits directory dentry
  distinct : ∀ directory dentry, catalog.dentries directory = some dentry → dentry.children.Nodup
  named : ∀ directory dentry, catalog.dentries directory = some dentry →
    ∀ name ∈ dentry.children,
      Path.split (Path.join directory name) limits.maxKeyLen = .ok (directory, name)
  complete : (∀ maxSize ∈ capacity, limits.HasRoom maxSize) → ∀ path,
    catalog.HasDirectory path → catalog.dentries path ≠ none
  all : capacity = none → ∀ directory dentry, catalog.dentries directory = some dentry →
    ∀ path name, catalog.stats path ≠ none →
      Path.split path limits.maxKeyLen = .ok (directory, name) → name ∈ dentry.children

theorem Browsable.listable (h : catalog.Browsable limits maxSize fun _ => False) :
    catalog.Listable limits (some maxSize) := by
  refine ⟨fun directory dentry hc => ?_, h.distinct, fun directory dentry hc name hm =>
    (h.listed directory dentry hc name hm).1, fun hr path hd hn => ?_, nofun⟩
  · have hdir := h.documented directory (by rw [hc]; exact Option.some_ne_none _)
    obtain ⟨found, hf, -⟩ := id hdir
    refine ⟨hc, hdir, h.short directory (by rw [hf]; exact Option.some_ne_none _),
      fun name hm => ?_⟩
    obtain ⟨hs, hn⟩ := h.listed directory dentry hc name hm
    obtain ⟨stat, hstat⟩ := Option.ne_none_iff_exists'.mp hn
    exact ⟨stat, hstat, (Path.split_eq_ok hs).1⟩
  · exact h.complete (hr maxSize rfl) path hd hn

theorem WellFormed.listable (h : catalog.WellFormed limits) (hv : limits.Valid) :
    catalog.Listable limits none := by
  have hplaced : ∀ directory dentry, catalog.dentries directory = some dentry →
      ∀ path name, catalog.stats path ≠ none →
        Path.split path limits.maxKeyLen = .ok (directory, name) →
          dentry.children.count name = 1 := by
    intro directory dentry hc path name hn hs
    obtain ⟨stat, hstat⟩ := Option.ne_none_iff_exists'.mp hn
    obtain ⟨parent, leaf, found, hsplit, -, hf, hcount⟩ :=
      h.placed path stat hstat (Path.ne_root_of_split hs)
    obtain ⟨rfl, rfl⟩ := Prod.mk.inj (Except.ok.inj (hs.symm.trans hsplit))
    rw [hc, Option.some_inj] at hf
    exact hf ▸ hcount
  constructor
  case lists =>
    intro directory dentry hc
    obtain ⟨found, hlists⟩ := h.lists hv ((h.documented directory).mp (by rw [hc]; nofun))
    have hsame := hlists.document
    rw [hc, Option.some_inj] at hsame
    exact hsame ▸ hlists
  case distinct =>
    intro directory dentry hc
    refine List.nodup_iff_count_eq_one.mpr fun name hm => ?_
    obtain ⟨hs, hn⟩ := h.listed directory dentry name hc hm
    exact hplaced directory dentry hc _ name hn hs
  case named => exact fun directory dentry hc name hm => (h.listed directory dentry name hc hm).1
  case complete => exact fun _ path hd => (h.documented path).mpr hd
  case all =>
    intro _ directory dentry hc path name hn hs
    have hcount := hplaced directory dentry hc path name hn hs
    exact List.count_pos_iff.mp (by omega)

end Catalog

-- A store that answers every request, but refuses values over its capacity if it has one.
def Image.holding (capacity : Option Nat) (scope : String) : Backend Image :=
  capacity.elim (unlimited scope) fun maxSize => backend maxSize scope

theorem Image.holding_mayServe (capacity : Option Nat) (scope : String) :
    (holding capacity scope).MayServe (Image.docs scope) := by
  cases capacity with
  | none => exact fun collection request image =>
      (unlimited_serves scope collection request image).mayServe
  | some maxSize => exact backend_mayServe maxSize scope

theorem Served.MountedOn.listable {capacity : Option Nat}
    (h : served.MountedOn (Image.holding capacity scope) limits (Image.new header))
    (history : List KernelStep) :
    ∃ catalog, ((afterKernel (Image.holding capacity scope) history served).store.docs scope).Shows
      catalog ∧ catalog.Listable limits capacity := by
  obtain ⟨hv, -⟩ := h.bootstrapped
  cases capacity with
  | none =>
    obtain ⟨catalog, hd, hw, -⟩ := h.inUse.after hv history
    exact ⟨catalog, hd, hw.listable hv⟩
  | some maxSize =>
    obtain ⟨catalog, hd, htree⟩ := (h.browses.after hv history).tree
    exact ⟨catalog, hd, htree.listable⟩

end DocTree
