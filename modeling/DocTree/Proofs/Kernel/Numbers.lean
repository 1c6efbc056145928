import DocTree.Proofs.Kernel.Entries
import DocTree.Proofs.Kernel.Steps

namespace DocTree

open Call
open ListedEntry (pathIn)

variable {limits : Limits} {catalog : Catalog} {mounted : Mounted} {docs : Docs} {path : String}
  {path? : Option String} {caller : Caller} {now : Readings}

namespace Catalog.WellFormed

variable (h : catalog.WellFormed limits)

include h

theorem hasDirectory_parent (hp : catalog.Has path) :
    catalog.HasDirectory (Path.parent path) := by
  by_cases hr : path = Path.root
  · rw [hr, Path.parent_root]
    exact h.root
  · obtain ⟨stat, hs⟩ := Option.ne_none_iff_exists'.mp hp
    obtain ⟨parent, leaf, dentry, hsplit, hdir, -⟩ := h.placed path stat hs hr
    rwa [Path.parent_of_split hsplit]

-- Whatever a listing of a directory names is there.
theorem has_pathIn {dentry : Dentry} (hc : catalog.dentries path = some dentry) {name : String}
    (hn : name = "." ∨ name = ".." ∨ name ∈ dentry.children) : catalog.Has (pathIn path name) := by
  have hdir : catalog.HasDirectory path := (h.documented path).mp (hc ▸ Option.some_ne_none _)
  have hexists : ∀ {other}, catalog.HasDirectory other → catalog.Has other :=
    fun ⟨_, hs, _⟩ => catalog.has_of_some hs
  unfold pathIn
  split
  · exact hexists hdir
  · next hself =>
    split
    · exact hexists (h.hasDirectory_parent (hexists hdir))
    · next habove =>
      exact (h.listed path dentry name hc ((hn.resolve_left hself).resolve_left habove)).2

theorem lists (hv : limits.Valid) (hp : catalog.HasDirectory path) :
    ∃ dentry, catalog.Lists limits path dentry := by
  obtain ⟨dentry, hc⟩ := h.dentry_of_hasDirectory hp
  obtain ⟨found, hf, -⟩ := id hp
  refine ⟨dentry, hc, hp, h.length_le_of_exists hv.maxKeyLen_pos hf, fun name hm => ?_⟩
  obtain ⟨-, hn⟩ := h.listed path dentry name hc hm
  obtain ⟨stat, hs⟩ := Option.ne_none_iff_exists'.mp hn
  exact ⟨stat, hs, h.length_le_of_exists hv.maxKeyLen_pos hs⟩

end Catalog.WellFormed

theorem Mounted.Lists.leaves {children : List String} {offset size : Nat}
    {result : KernelReply × Mounted}
    (h : mounted.Lists limits catalog.Has catalog path children offset size result)
    (hd : docs.Shows catalog) (hw : catalog.WellFormed limits) :
    mounted.Leaves limits path? result docs := by
  obtain ⟨hgrown, entries, hr, -, hall⟩ := h
  obtain ⟨reply, later⟩ := result
  dsimp only at hr hgrown hall
  subst hr
  refine ⟨⟨catalog, hd, hw, hgrown.knows⟩, hgrown.table, fun number hn => ?_,
    fun _ ht => (Option.not_mem_none _ ht).elim⟩
  obtain ⟨entry, hm, rfl⟩ := List.mem_map.mp hn
  exact ⟨_, (hall entry hm).number⟩

namespace KernelCall

theorem ensures_readdir_leaves (hv : limits.Valid) (hm : mounted.InUse limits docs)
    {ino size : Nat} {offset : Int64} (hino : mounted.inodes.pathOf? ino = some path)
    (ho : ¬offset < 0) :
    ((readdir ino offset size).call mounted caller now).Ensures (fun _ => False)
      (fun result after => after = docs ∧ mounted.Leaves limits path? result after)
      (fun _ _ => False) docs := by
  obtain ⟨catalog, hd, hw, hk⟩ := id hm
  by_cases hdir : catalog.HasDirectory path
  · obtain ⟨dentry, hlists⟩ := hw.lists hv hdir
    refine (ensures_readdir hd hlists hk (fun name hn => hw.has_pathIn hlists.document hn) hino
      ho).mono (fun result after hpost => ?_) fun _ _ h => h
    obtain ⟨rfl, hreply⟩ := hpost
    exact ⟨rfl, hreply.leaves hd hw⟩
  · unfold call
    dsimp only
    rw [if_neg ho, withPath_eq, hino, Option.elim_some, hk.limits_eq]
    refine ensures_withAnswer.mpr ((Tree.ensures_readdir hd hw).mono (fun _ _ hpost => ?_)
      fun _ _ hpost => ⟨hpost.1, hpost.1 ▸ hm.leaves rfl⟩)
    exact absurd (Catalog.hasDirectory_iff.mpr hpost.2.1.2) hdir

-- Every call gets a reply.
theorem Makes.ensures {call : Call (KernelReply × Mounted)}
    (h : Makes mounted caller now path? call) (hv : limits.Valid) (hm : mounted.InUse limits docs) :
    call.Ensures (fun _ => False) (mounted.Leaves limits path?) (fun _ _ => False) docs := by
  obtain rfl : mounted.limits = limits := hm.limits_eq
  cases h with
  | refusal path? errno => exact hm.leaves rfl
  | look path hr => exact ensures_replyAttr_leaves hr hm
  | change path hb hr =>
    exact ensures_withAnswer_leaves (hb.ensures_inUse hv hm) fun _ _ ha =>
      ensures_replyAttr_leaves hr ha
  | answer path hb hr =>
    exact ensures_withAnswer_leaves (hb.ensures_inUse hv hm) fun _ _ ha => ha.leaves (hr _).numbers
  | removal operation hk _ he =>
    have hremoval := hm.ensures_removal hv (some operation.path) now operation hk
    rw [he] at hremoval
    exact ensures_withAnswer_leaves (ensures_map.mp hremoval) fun _ _ ha => ha
  | listing hino ho => exact (ensures_readdir_leaves hv hm hino ho).mono (fun _ _ h => h.2) nofun

end KernelCall

namespace Served

-- A number that stands for a path which has a record.
structure Holds (scope : String) (served : Served Image) (number : Nat) (path : String) :
    Prop where
  known : served.mounted.inodes.pathOf? number = some path
  stat : ∃ stat, (served.store.docs scope).StatAt path (some stat)

theorem Holds.stats_ne_none {scope : String} {served : Served Image} {number : Nat} {path : String}
    (h : served.Holds scope number path) : served.store.docs scope .stats path ≠ none := by
  obtain ⟨-, stat, hs⟩ := h
  intro hn
  unfold Docs.StatAt at hs
  rw [Docs.value_eq_none_iff.mpr hn] at hs
  cases hs

-- A filesystem whose numbers all stand for paths of the tree in its store.
def InUse (limits : Limits) (scope : String) (served : Served Image) : Prop :=
  served.mounted.InUse limits (served.store.docs scope)

variable {scope : String} {header : Header} {served : Served Image} {number : Nat}

theorem MountedOn.inUse
    (h : served.MountedOn (Image.unlimited scope) limits (Image.new header)) :
    served.InUse limits scope := by
  obtain ⟨-, hm, -⟩ := h.bootstrapped
  obtain ⟨time, hshows⟩ := h.shows
  refine ⟨Catalog.rooted time.reading, hshows, Catalog.rooted_wellFormed limits _, ?_⟩
  rw [hm]
  refine ⟨rfl, Inodes.coherent_new, fun number path hp => ?_⟩
  rw [Inodes.pathOf?_new] at hp
  split at hp
  · unfold Catalog.Has
    rw [← Option.some_inj.mp hp, Catalog.stats_rooted, if_pos rfl]
    exact Option.some_ne_none _
  · cases hp

namespace InUse

variable (h : served.InUse limits scope)

include h

theorem holds (hp : served.mounted.inodes.pathOf? number = some path) :
    served.Holds scope number path := by
  obtain ⟨catalog, hd, -, hk⟩ := h
  obtain ⟨stat, hs⟩ := Option.ne_none_iff_exists'.mp (hk.known number path hp)
  exact ⟨hp, stat, hs ▸ hd.stats path⟩

theorem number_lt (hp : served.mounted.inodes.pathOf? number = some path) :
    number < served.mounted.inodes.next := by
  obtain ⟨catalog, -, -, hk⟩ := h
  exact hk.coherent.below number path hp

variable (hv : limits.Valid)

include hv

theorem run (step : KernelStep) :
    ∃ reply, (step.run (Image.unlimited scope) served).1 = .done reply ∧
      served.mounted.Leaves limits (step.call.path? served.mounted)
        (reply, (step.run (Image.unlimited scope) served).2.mounted)
        ((step.run (Image.unlimited scope) served).2.store.docs scope) :=
  step.run_of_ensures (Image.unlimited_serves scope) (step.call.makes_call.ensures hv h)

theorem after (history : List KernelStep) :
    (afterKernel (Image.unlimited scope) history served).InUse limits scope := by
  refine afterKernel_keeps (InUse limits scope) (fun step served h => ?_) history h
  obtain ⟨reply, -, hleaves⟩ := h.run hv step
  exact hleaves.inUse

theorem later_after (history : List KernelStep) : served.mounted.inodes.Later
    (afterKernel (Image.unlimited scope) history served).mounted.inodes := by
  induction history generalizing served with
  | nil => exact .refl
  | cons step rest ih =>
    obtain ⟨reply, -, hleaves⟩ := h.run hv step
    exact hleaves.later.trans (ih hleaves.inUse)

-- A number that was given out, and stands for a path after some calls, has stood for it between
-- them.
theorem holds_between (hn : number < served.mounted.inodes.next) {later between : List KernelStep}
    (hl : (afterKernel (Image.unlimited scope) later served).mounted.inodes.pathOf?
      number = some path) (hb : between <+: later) :
    (afterKernel (Image.unlimited scope) between served).Holds scope number path := by
  obtain ⟨rest, rfl⟩ := hb
  have hmid := h.after hv between
  have hfirst := h.later_after hv between
  have hrest := hmid.later_after hv rest
  rw [afterKernel_append] at hl
  exact hmid.holds (hrest.old number path (Nat.lt_of_lt_of_le hn hfirst.next_le) hl)

-- For as long as the next number is a 64-bit word, so are all that were given out.
theorem words_before {later before : List KernelStep} (hb : before <+: later)
    (hw : (afterKernel (Image.unlimited scope) later served).mounted.inodes.next < Word.limit) :
    (afterKernel (Image.unlimited scope) before served).mounted.inodes.next < Word.limit ∧
      ∀ number path,
        (afterKernel (Image.unlimited scope) before served).mounted.inodes.pathOf? number =
          some path → number < Word.limit := by
  obtain ⟨rest, rfl⟩ := hb
  have hbefore := h.after hv before
  have hle := (hbefore.later_after hv rest).next_le
  rw [← afterKernel_append] at hle
  have hnext := Nat.lt_of_le_of_lt hle hw
  exact ⟨hnext, fun number path hp => Nat.lt_trans (hbefore.number_lt hp) hnext⟩

-- A number that was given out and now stands for nothing does so ever after.
theorem unknown_after (hn : number < served.mounted.inodes.next)
    (hp : served.mounted.inodes.pathOf? number = none) (more : List KernelStep) :
    (afterKernel (Image.unlimited scope) more served).Unknown (Image.unlimited scope) number := by
  refine unknown_of_absent ?_
  by_contra hne
  obtain ⟨path, hl⟩ := Option.ne_none_iff_exists'.mp hne
  have hold := (h.later_after hv more).old number path hn hl
  rw [hp] at hold
  cases hold

-- A reply tells numbers of paths that are there, and attributes of the path that it is about.
theorem told (step : KernelStep) :
    ∃ reply, (step.run (Image.unlimited scope) served).1 = .done reply ∧
      (∀ number ∈ reply.numbers, ∃ path,
        (step.run (Image.unlimited scope) served).2.Holds scope number path) ∧
      ∀ told ∈ reply.attr?, ∃ path, step.call.path? served.mounted = some path ∧
        (step.run (Image.unlimited scope) served).2.Holds scope told.ino path := by
  obtain ⟨reply, hdone, hleaves⟩ := h.run hv step
  have hafter : (step.run (Image.unlimited scope) served).2.InUse limits scope := hleaves.inUse
  refine ⟨reply, hdone, fun number hn => ?_, fun told ht => ?_⟩
  · obtain ⟨path, hp⟩ := hleaves.known number hn
    exact ⟨path, hafter.holds hp⟩
  · obtain ⟨path, hp⟩ := hleaves.known told.ino (by simp [KernelReply.numbers_of_attr? ht])
    exact ⟨path, (hleaves.named told ht).symm.trans hp, hafter.holds hp⟩

section

variable (hp : served.mounted.inodes.pathOf? number = some path) {later : List KernelStep}

include hp

theorem stays {other : String}
    (hl : (afterKernel (Image.unlimited scope) later served).mounted.inodes.pathOf? number =
      some other) :
    other = path ∧ ∀ between, between <+: later →
      (afterKernel (Image.unlimited scope) between served).Holds scope number path := by
  have hbetween : ∀ between, between <+: later →
      (afterKernel (Image.unlimited scope) between served).Holds scope number other :=
    fun between hb => h.holds_between hv (h.number_lt hp) hl hb
  obtain rfl : path = other :=
    Option.some_inj.mp (hp.symm.trans (hbetween [] List.nil_prefix).known)
  exact ⟨rfl, hbetween⟩

-- The number goes with the path.
theorem absent_of_gone (hgone : (afterKernel (Image.unlimited scope) later served).store.docs scope
    .stats path = none) :
    (afterKernel (Image.unlimited scope) later served).mounted.inodes.pathOf? number = none := by
  by_contra hne
  obtain ⟨other, hl⟩ := Option.ne_none_iff_exists'.mp hne
  obtain ⟨-, hbetween⟩ := h.stays hv hp hl
  exact (hbetween later (List.prefix_refl _)).stats_ne_none hgone

theorem unknown_of_gone (hgone : (afterKernel (Image.unlimited scope) later served).store.docs scope
    .stats path = none) (more : List KernelStep) :
    (afterKernel (Image.unlimited scope) (later ++ more) served).Unknown (Image.unlimited scope)
      number := by
  have hnext := Nat.lt_of_lt_of_le (h.number_lt hp) (h.later_after hv later).next_le
  rw [afterKernel_append]
  exact (h.after hv later).unknown_after hv hnext (h.absent_of_gone hv hp hgone) more

end

-- A number in use before would have stood for the path while it was gone.
theorem new_of_gone {later before : List KernelStep} (hb : before <+: later)
    (hgone : (afterKernel (Image.unlimited scope) later served).store.docs scope .stats path = none)
    (more : List KernelStep)
    (ha : (afterKernel (Image.unlimited scope) (later ++ more) served).mounted.inodes.pathOf?
      number = some path) :
    (afterKernel (Image.unlimited scope) before served).mounted.inodes.pathOf? number = none := by
  by_contra hne
  obtain ⟨other, hold⟩ := Option.ne_none_iff_exists'.mp hne
  obtain ⟨rest, rfl⟩ := hb
  rw [List.append_assoc, afterKernel_append] at ha
  have hbefore := h.after hv before
  have hholds := hbefore.holds_between hv (hbefore.number_lt hold) ha
    (List.prefix_append rest more)
  rw [← afterKernel_append] at hholds
  exact hholds.stats_ne_none hgone

end InUse

-- Between kernel calls, from the one that told a number on.
theorem number_stands_for_one_path
    (hm : served.MountedOn (Image.unlimited scope) limits (Image.new header))
    (earlier later : List KernelStep) :
    let reached := fun history => afterKernel (Image.unlimited scope) history served
    -- Every call gets a reply, and the number it tells stands for the path that it is about.
    (∀ step : KernelStep, ∃ reply,
      (step.run (Image.unlimited scope) (reached earlier)).1 = .done reply ∧
      (∀ number ∈ reply.numbers, ∃ path,
        (step.run (Image.unlimited scope) (reached earlier)).2.Holds scope number path) ∧
      ∀ told ∈ reply.attr?, ∃ path, step.call.path? (reached earlier).mounted = some path ∧
        (step.run (Image.unlimited scope) (reached earlier)).2.Holds scope told.ino path) ∧
    -- A counter of 64 bits does not run over for as long as this holds.
    ((reached earlier).mounted.inodes.next < Word.limit → ∀ before, before <+: earlier →
      (reached before).mounted.inodes.next < Word.limit ∧
        ∀ number path, (reached before).mounted.inodes.pathOf? number = some path →
          number < Word.limit) ∧
    ∀ number path, (reached earlier).mounted.inodes.pathOf? number = some path →
      (reached earlier).Holds scope number path ∧
      (∀ same, (reached earlier).mounted.inodes.pathOf? same = some path → same = number) ∧
      (∀ other, (reached (earlier ++ later)).mounted.inodes.pathOf? number = some other →
        other = path ∧
          ∀ between, between <+: later → (reached (earlier ++ between)).Holds scope number path) ∧
      -- Once the path is gone, and also if there is such a path again.
      ((reached (earlier ++ later)).store.docs scope .stats path = none → ∀ more,
        (reached (earlier ++ later ++ more)).Unknown (Image.unlimited scope) number ∧
        ∀ again, (reached (earlier ++ later ++ more)).mounted.inodes.pathOf? again = some path →
          ∀ before, before <+: earlier ++ later →
            (reached before).mounted.inodes.pathOf? again = none) := by
  intro reached
  obtain ⟨hv, -⟩ := hm.bootstrapped
  have hreached : (reached earlier).InUse limits scope := hm.inUse.after hv earlier
  have happend : ∀ first second,
      reached (first ++ second) = afterKernel (Image.unlimited scope) second (reached first) :=
    fun first second => afterKernel_append _ first second served
  refine ⟨fun step => hreached.told hv step,
    fun hw before hb => hm.inUse.words_before hv hb hw, fun number path hp => ?_⟩
  refine ⟨hreached.holds hp, fun same hs => ?_, fun other hl => ?_, fun hgone more => ⟨?_, ?_⟩⟩
  · obtain ⟨catalog, -, -, hk⟩ := hreached
    exact hk.coherent.path_inj hs hp
  · rw [happend] at hl
    obtain ⟨rfl, hbetween⟩ := hreached.stays hv hp hl
    exact ⟨rfl, fun between hb => happend earlier between ▸ hbetween between hb⟩
  · rw [happend] at hgone
    rw [List.append_assoc, happend]
    exact hreached.unknown_of_gone hv hp hgone more
  · exact fun again ha before hb => hm.inUse.new_of_gone hv hb hgone more ha

end Served

namespace Sample

def removeFile : KernelStep := ⟨clock, user, .unlink Inodes.root [102]⟩

def served (history : List KernelStep) : Served Image :=
  afterKernel (Image.unlimited defaultScope) history
    (fresh (Image.unlimited defaultScope) (Image.new default))

end Sample

open Sample in
theorem sample_number_stands_for_one_path :
    (served []).MountedOn (Image.unlimited defaultScope) Sample.limits (Image.new default) ∧
      (served [makeFile]).mounted.inodes.pathOf? 2 = some "/f" ∧
      (served [makeFile, removeFile]).store.docs defaultScope .stats "/f" = none ∧
      (served [makeFile, removeFile, makeFile]).mounted.inodes.pathOf? 3 = some "/f" ∧
      3 < Word.limit ∧
      (served [makeFile, removeFile, makeFile]).Unknown (Image.unlimited defaultScope) 2 ∧
      (served [makeFile]).mounted.inodes.pathOf? 3 = none := by
  have hm : (served []).MountedOn (Image.unlimited defaultScope) Sample.limits
      (Image.new default) := Served.mountedOn_fresh (by decide) (by decide +kernel)
  have hfirst : (served [makeFile]).mounted.inodes.pathOf? 2 = some "/f" := by decide +kernel
  have hgone : (served [makeFile, removeFile]).store.docs defaultScope .stats "/f" = none := by
    decide +kernel
  have hagain : (served [makeFile, removeFile, makeFile]).mounted.inodes.pathOf? 3 =
      some "/f" := by decide +kernel
  have hnext : (served [makeFile, removeFile, makeFile]).mounted.inodes.next < Word.limit := by
    decide +kernel
  obtain ⟨-, hwords, -⟩ :=
    Served.number_stands_for_one_path hm [makeFile, removeFile, makeFile] []
  obtain ⟨-, hfits⟩ := hwords hnext _ (List.prefix_refl _)
  obtain ⟨-, -, hnumbers⟩ := Served.number_stands_for_one_path hm [makeFile] [removeFile]
  obtain ⟨-, -, -, hafter⟩ := hnumbers 2 "/f" hfirst
  obtain ⟨hunknown, hnew⟩ := hafter hgone [makeFile]
  exact ⟨hm, hfirst, hgone, hagain, hfits 3 "/f" hagain, hunknown,
    hnew 3 hagain [makeFile] ⟨[removeFile], rfl⟩⟩

end DocTree
