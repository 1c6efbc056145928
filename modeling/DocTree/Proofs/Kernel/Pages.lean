import DocTree.Proofs.Kernel.Browsed

namespace DocTree

open Call

variable {limits : Limits} {capacity : Option Nat} {scope : String} {header : Header}
  {catalog : Catalog} {served : Served Image} {docs : Docs} {path : String} {dentry : Dentry}
  {ino : Nat}

-- A look is answered, whatever the capacity.
theorem KernelStep.run_of_looks (step : KernelStep) {post : KernelReply × Mounted → Docs → Prop}
    (h : (step.call.call served.mounted step.caller step.now).Ensures (fun _ => False) post
      (fun _ _ => False) (served.store.docs scope))
    (ho : (step.call.call served.mounted step.caller step.now).Only
      fun _ request => ∃ key, request = .get key) :
    ∃ reply, (step.run (Image.holding capacity scope) served).1 = .done reply ∧
      post (reply, (step.run (Image.holding capacity scope) served).2.mounted)
        ((step.run (Image.holding capacity scope) served).2.store.docs scope) := by
  cases capacity with
  | none => exact run_of_meets (h.run (Image.unlimited_serves scope))
  | some maxSize =>
    refine run_of_meets (h.upholds ho fun collection request hr => ?_).run
    obtain ⟨key, rfl⟩ := hr
    exact Nat.zero_le maxSize

-- The offset that a listing goes on from: that of the last entry received.
def ListedEntry.lastOffset (received : List ListedEntry) : Nat :=
  (received.getLast?.map ListedEntry.offset).getD 0

open ListedEntry (lastOffset pathIn)

-- A directory is listed in pages of any sizes, each from the last entry of those before it on.
inductive Paged (backend : Backend Image) (ino : Nat) (served : Served Image) :
    List ListedEntry → Served Image → Prop where
  | start : Paged backend ino served [] served
  | next {received page : List ListedEntry} {last : Served Image} {offset : Int64} {size : Nat}
      (h : Paged backend ino served received last) (step : KernelStep)
      (hc : step.call = .readdir ino offset size) (ho : offset.toInt = lastOffset received)
      (hr : (step.run backend last).1 = .done (.entries page)) :
      Paged backend ino served (received ++ page) (step.run backend last).2

-- All that a listing of a directory names, with the offsets behind the names.
def Dentry.listing (dentry : Dentry) : List (String × Nat) :=
  ("." :: ".." :: dentry.children).zipIdx 1

-- What is known between two pages.
structure Served.Received (scope : String) (limits : Limits) (docs : Docs) (catalog : Catalog)
    (path : String) (dentry : Dentry) (ino : Nat) (received : List ListedEntry)
    (last : Served Image) : Prop where
  docs_eq : last.store.docs scope = docs
  knows : last.mounted.Knows limits fun _ => True
  number : last.mounted.inodes.pathOf? ino = some path
  keys : received.map ListedEntry.key = dentry.listing.take received.length
  agrees : ∀ entry ∈ received, entry.Agrees catalog last.mounted.inodes path

theorem KernelCall.offset_of_toInt {offset : Int64} {number : Nat} (h : offset.toInt = number) :
    ¬offset < 0 ∧ offset.toUInt64.toNat = number := by
  constructor
  · rw [Int64.lt_iff_toInt_lt, h, Int64.toInt_zero]
    omega
  · have hcond := BitVec.toInt_eq_toNat_cond offset.toBitVec
    rw [Int64.toInt_toBitVec, h, Int64.toNat_toBitVec] at hcond
    have hlt := offset.toUInt64.toNat_lt
    split at hcond <;> omega

namespace Served.Received

variable {received : List ListedEntry} {last : Served Image} {offset : Int64} {size : Nat}
  (h : Received scope limits docs catalog path dentry ino received last)

include h

theorem length_le : received.length ≤ dentry.listing.length := by
  have hlength := congrArg List.length h.keys
  rw [List.length_map, List.length_take] at hlength
  omega

-- The entries are counted from 1.
theorem offset_eq {index : Nat} {entry : ListedEntry} (he : received[index]? = some entry) :
    entry.offset = index + 1 := by
  have hlt : index < received.length := (List.getElem?_eq_some_iff.mp he).1
  have hkey : (received.map ListedEntry.key)[index]? = some entry.key := by
    rw [List.getElem?_map, he, Option.map_some]
  rw [h.keys, List.getElem?_take_of_lt hlt, Dentry.listing, List.getElem?_zipIdx] at hkey
  obtain ⟨name, -, hname⟩ := Option.map_eq_some_iff.mp hkey
  have hoffset : 1 + index = entry.offset := congrArg Prod.snd hname
  omega

-- So the last one's offset says how many there are.
theorem lastOffset_eq : lastOffset received = received.length := by
  unfold lastOffset
  rw [List.getLast?_eq_getElem?]
  cases hlast : received[received.length - 1]? with
  | none =>
    have hle := List.getElem?_eq_none_iff.mp hlast
    rw [Option.map_none, Option.getD_none]
    omega
  | some entry =>
    have hlt : received.length - 1 < received.length := (List.getElem?_eq_some_iff.mp hlast).1
    rw [Option.map_some, Option.getD_some, h.offset_eq hlast]
    omega

theorem page (hd : docs.Shows catalog) (hlists : catalog.Lists limits path dentry)
    (step : KernelStep) (hc : step.call = .readdir ino offset size)
    (ho : offset.toInt = lastOffset received) :
    ∃ page, (step.run (Image.holding capacity scope) last).1 = .done (.entries page) ∧
      page.map ListedEntry.key =
        KernelCall.fitting size (dentry.listing.drop received.length) ∧
      Received scope limits docs catalog path dentry ino (received ++ page)
        (step.run (Image.holding capacity scope) last).2 := by
  rw [h.lastOffset_eq] at ho
  obtain ⟨hneg, hoffset⟩ := KernelCall.offset_of_toInt ho
  have hshows : (last.store.docs scope).Shows catalog := h.docs_eq ▸ hd
  obtain ⟨reply, hr, hsame, hgrown, page, hpage, hkeys, hall⟩ := step.run_of_looks
    (hc ▸ KernelCall.ensures_readdir hshows hlists h.knows (fun _ _ => trivial) h.number hneg)
    (hc ▸ KernelCall.only_readdir fun _ key => ⟨key, rfl⟩)
  rw [hoffset] at hkeys
  have htake : page.map ListedEntry.key =
      (dentry.listing.drop received.length).take page.length := by
    have hprefix := hkeys ▸ KernelCall.fitting_prefix size (dentry.listing.drop received.length)
    rw [List.prefix_iff_eq_take.mp hprefix, List.length_map]
  obtain rfl : reply = .entries page := hpage
  refine ⟨page, hr, hkeys, ?_⟩
  refine ⟨hsame.trans h.docs_eq, hgrown.knows, hgrown.kept _ _ h.number, ?_, fun entry hm => ?_⟩
  · rw [List.map_append, h.keys, htake, List.length_append, List.take_add]
  · rcases List.mem_append.mp hm with hold | hnew
    · exact (h.agrees entry hold).grown hgrown
    · exact hall entry hnew

-- A buffer that holds the next entry, if there is one, stays empty at the end only.
theorem fitting_eq_nil_iff
    (hfits : ∀ entry ∈ dentry.listing[received.length]?, KernelCall.entryLength entry.1 ≤ size) :
    KernelCall.fitting size (dentry.listing.drop received.length) = [] ↔
      received.length = dentry.listing.length := by
  rw [KernelCall.fitting_eq_nil_iff, List.head?_drop]
  have hle := h.length_le
  cases hnext : dentry.listing[received.length]? with
  | none =>
    have hend := List.getElem?_eq_none_iff.mp hnext
    exact ⟨fun _ => Nat.le_antisymm hle hend, fun _ => nofun⟩
  | some entry =>
    have hlt : received.length < dentry.listing.length := (List.getElem?_eq_some_iff.mp hnext).1
    have hroom := hfits entry hnext
    exact ⟨fun hfull => absurd (hfull entry rfl) (Nat.not_lt.mpr hroom), fun hend => by omega⟩

-- A child that was received is found under the number that it was listed with.
theorem lookup (hd : docs.Shows catalog) (hs : docs.Sound limits)
    (hlists : catalog.Lists limits path dentry) {entry : ListedEntry} (he : entry ∈ received)
    (hn : entry.name ∈ dentry.children) (hname : entry.name ≠ "." ∧ entry.name ≠ "..")
    (step : KernelStep) {bytes : Bytes} (hc : step.call = .lookup ino bytes)
    (hb : Utf8.decode bytes = some entry.name) :
    ∃ attr, (step.run (Image.holding capacity scope) last).1 = .done (.entry attr) ∧
      attr.ino = entry.ino ∧ attr.kind = entry.kind := by
  obtain ⟨hself, habove⟩ := hname
  obtain ⟨hnumber, hkind⟩ := h.agrees entry he
  obtain ⟨stat, hstat, hentry⟩ := hkind hself habove
  rw [pathIn, if_neg hself, if_neg habove] at hnumber
  have hshows : (last.store.docs scope).Shows catalog := h.docs_eq ▸ hd
  have hcall : step.call.call last.mounted step.caller step.now =
      KernelCall.replyAttr last.mounted (Path.join path entry.name) step.caller .entry := by
    rw [hc]
    unfold KernelCall.call
    dsimp only
    rw [KernelCall.withChild_eq, h.number, Option.elim_some, hb, Option.elim_some]
  obtain ⟨reply, hr, -, hpost⟩ := step.run_of_looks (hcall ▸ KernelCall.ensures_replyAttr hshows)
    (hcall ▸ KernelCall.only_replyAttr fun _ key => ⟨key, rfl⟩)
  obtain ⟨found, hf, hl⟩ := hlists.children entry.name hn
  rcases hpost with ⟨other, ho, ht⟩ | ⟨hlong | hnone, -⟩
  · obtain rfl : stat = other := Option.some_inj.mp (hstat.symm.trans ho)
    have hat : docs.StatAt (Path.join path entry.name) (some stat) := hstat ▸ hd.stats _
    obtain ⟨attr, hattr, hreply⟩ := ht.exists_attr (hs.of_records hat.records)
    obtain ⟨hino, hsame, -⟩ := Attributes.of_fileAttr? hattr
    refine ⟨attr, hr.trans (congrArg Outcome.done (congrArg Prod.fst hreply)), ?_, hsame.trans
      hentry.symm⟩
    have hgrown : last.mounted.Grown limits (fun _ => True)
        (last.mounted.numberOf (Path.join path entry.name)).2 := h.knows.grown_numberOf trivial
    rw [hino]
    exact hgrown.knows.coherent.path_inj (h.knows.pathOf?_numberOf_self _)
      (hgrown.kept _ _ hnumber)
  · rw [h.knows.limits_eq] at hlong
    omega
  · rw [hstat] at hnone
    cases hnone

end Served.Received

-- Wherever a listing stands, so long as nothing but listings are made in between.
theorem Paged.received {received : List ListedEntry} {last : Served Image}
    (hp : Paged (Image.holding capacity scope) ino served received last)
    (hd : docs.Shows catalog) (hlists : catalog.Lists limits path dentry)
    (h : served.Received scope limits docs catalog path dentry ino []) :
    last.Received scope limits docs catalog path dentry ino received := by
  induction hp with
  | start => exact h
  | next _ step hc ho hr ih =>
    obtain ⟨page, hpage, -, hnext⟩ := ih.page hd hlists step hc ho
    obtain rfl := KernelReply.entries.inj (Outcome.done.inj (hr.symm.trans hpage))
    exact hnext

theorem Served.listing_resumes
    (hm : served.MountedOn (Image.holding capacity scope) limits (Image.new header))
    (history : List KernelStep) :
    let backend := Image.holding capacity scope
    let reached := afterKernel backend history served
    -- With room for the documents of directories, every directory has one.
    ((∀ maxSize ∈ capacity, limits.HasRoom maxSize) → ∀ path stat,
      (reached.store.docs scope).StatAt path (some stat) → stat.isDirectory →
        ∃ dentry, (reached.store.docs scope).DentryAt path (some dentry)) ∧
    ∀ ino path dentry, reached.mounted.inodes.pathOf? ino = some path →
      (reached.store.docs scope).DentryAt path (some dentry) →
      dentry.children.Nodup ∧
      (capacity = none → ∀ other name, reached.store.docs scope .stats other ≠ none →
        Path.split other limits.maxKeyLen = .ok (path, name) → name ∈ dentry.children) ∧
      ∀ received last, Paged backend ino reached received last →
        received.map ListedEntry.key = dentry.listing.take received.length ∧
        (∀ (step : KernelStep) offset size, step.call = .readdir ino offset size →
          offset.toInt = lastOffset received →
          ∃ page, (step.run backend last).1 = .done (.entries page) ∧
            -- So long as a buffer holds the next entry, if there is one.
            ((∀ entry ∈ dentry.listing[received.length]?,
                KernelCall.entryLength entry.1 ≤ size) →
              (page = [] ↔ received.length = dentry.listing.length))) ∧
        ∀ entry ∈ received, entry.name ∈ dentry.children →
          ∀ (step : KernelStep) bytes, step.call = .lookup ino bytes →
            Utf8.decode bytes = some entry.name →
            ∃ attr, (step.run backend last).1 = .done (.entry attr) ∧ attr.ino = entry.ino ∧
              attr.kind = entry.kind := by
  intro backend reached
  obtain ⟨hv, -⟩ := hm.bootstrapped
  obtain ⟨catalog, hd, htree⟩ := hm.listable history
  have hreports : reached.mounted.Reports limits (reached.store.docs scope) :=
    afterKernel_reports (Image.holding_mayServe capacity scope) hv
      (hm.reports (Image.holding_mayServe capacity scope) fun key => by rw [Image.docs_new]) history
  refine ⟨fun hroom path stat hs hdir => ?_, fun ino path dentry hino hdentry => ?_⟩
  · have hdocument := htree.complete hroom path ⟨stat, hd.stats_eq hs, hdir⟩
    obtain ⟨dentry, hc⟩ := Option.ne_none_iff_exists'.mp hdocument
    exact ⟨dentry, hc ▸ hd.dentries path⟩
  have hc := hd.dentries_eq hdentry
  have hlists := htree.lists path dentry hc
  have hstart : reached.Received scope limits (reached.store.docs scope) catalog path dentry ino
      [] := ⟨rfl, hreports.knows, hino, rfl, nofun⟩
  refine ⟨htree.distinct path dentry hc, fun hcapacity other name hn hs => ?_,
    fun received last hp => ?_⟩
  · refine htree.all hcapacity path dentry hc other name (fun hnone => hn ?_) hs
    exact Docs.value_eq_none_iff.mp ((hd.stats other).trans (by rw [hnone]; rfl))
  have hreceived := hp.received hd hlists hstart
  refine ⟨hreceived.keys, fun step offset size hcall ho => ?_,
    fun entry he hn step bytes hcall hb => ?_⟩
  · obtain ⟨page, hr, hkeys, -⟩ := hreceived.page hd hlists step hcall ho
    refine ⟨page, hr, fun hfits => ?_⟩
    rw [← List.map_eq_nil_iff, hkeys, hreceived.fitting_eq_nil_iff hfits]
  · exact hreceived.lookup hd hreports.sound hlists he hn
      (Path.name_of_split (htree.named path dentry hc entry.name hn)) step hcall hb

namespace Sample

def shelf : Backend Image := Image.holding (some 1000) defaultScope

def held (history : List KernelStep) : Served Image :=
  afterKernel shelf history (fresh shelf (Image.new default))

-- 32 bytes hold one short name.
def listRoot (offset : Int64) (size : Nat) : KernelStep :=
  ⟨clock, user, .readdir Inodes.root offset size⟩

def page : Outcome KernelReply → List ListedEntry
  | .done (.entries page) => page
  | _ => []

end Sample

open Sample in
theorem sample_listing_resumes :
    (held []).MountedOn shelf Sample.limits (Image.new default) ∧ Sample.limits.HasRoom 1000 ∧
      ((held [makeFile]).store.docs defaultScope).DentryAt Path.root (some ⟨"/", "/", ["f"]⟩) ∧
      ∃ first second last, Paged shelf Inodes.root (held [makeFile]) (first ++ second) last ∧
        first.length = 2 ∧
        (first ++ second).map ListedEntry.key = [(".", 1), ("..", 2), ("f", 3)] := by
  have hm : (held []).MountedOn shelf Sample.limits (Image.new default) :=
    Served.mountedOn_fresh (by decide) (by decide +kernel)
  have hroot : (held [makeFile]).mounted.inodes.pathOf? Inodes.root = some Path.root := by
    decide +kernel
  have hdentry : ((held [makeFile]).store.docs defaultScope).DentryAt Path.root
      (some ⟨"/", "/", ["f"]⟩) := by
    unfold Docs.DentryAt
    decide +kernel
  obtain ⟨-, hlisting⟩ := Served.listing_resumes hm [makeFile]
  obtain ⟨-, -, hpages⟩ := hlisting Inodes.root Path.root _ hroot hdentry
  obtain ⟨-, hfirst, -⟩ := hpages [] _ .start
  obtain ⟨first, hf, -⟩ := hfirst (listRoot 0 64) 0 64 rfl rfl
  have hone : lastOffset first = 2 ∧ first.length = 2 := by
    have hpage : page ((listRoot 0 64).run shelf (held [makeFile])).1 = first := congrArg page hf
    rw [← hpage]
    decide +kernel
  have hbehind : Paged shelf Inodes.root (held [makeFile]) first _ :=
    .next .start (listRoot 0 64) rfl rfl hf
  obtain ⟨-, hsecond, -⟩ := hpages first _ hbehind
  obtain ⟨second, hs, -⟩ := hsecond (listRoot 2 32) 2 32 rfl (by rw [hone.1]; decide)
  have htwo : second.length = 1 := by
    have hpage : page ((listRoot 2 32).run shelf (held [makeFile, listRoot 0 64])).1 = second :=
      congrArg page hs
    rw [← hpage]
    decide +kernel
  have hall : Paged shelf Inodes.root (held [makeFile]) (first ++ second) _ :=
    .next hbehind (listRoot 2 32) rfl (by rw [hone.1]; decide) hs
  obtain ⟨hkeys, -⟩ := hpages _ _ hall
  rw [List.length_append, hone.2, htwo] at hkeys
  exact ⟨hm, Limits.hasRoom (by decide), hdentry, first, second, _, hall, hone.2, hkeys⟩

end DocTree
