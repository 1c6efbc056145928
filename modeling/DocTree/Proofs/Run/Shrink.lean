import DocTree.Proofs.Run.Files
import DocTree.Proofs.Tree.Shrink

namespace DocTree

open Call Content Blocks

-- What a call makes of a file that it makes shorter, or removes, when it is repeated: `mid` is
-- where the first attempt ended.
structure Docs.Shrunk (limits : Limits) (path : String) (length : Nat) (content : Option Bytes)
    (docs mid after : Docs) : Prop where
  tree : ∃ later, after.Shows later ∧ later.WellFormed limits
  stats : ∀ other, other ≠ path → after.value .stats other = docs.value .stats other
  others : docs.SameOthers path after
  record : match content with
    | some bytes => ∃ stat, after.StatAt path (some stat) ∧ stat.isRegularFile ∧
        stat.size.toNat = bytes.length
    | none => after.StatAt path none
  blocks : ∃ last,
    FirstMissing (mid.blocks path) (count limits.blockSize length) limits.maxBlocks last ∧
      after.blocks path = cutUpTo limits.blockSize (mid.blocks path) length last

-- A state from which the same call gets to its end.
structure Docs.Resumable (limits : Limits) (operation : Operation) (length : Nat)
    (content : Option Bytes) (docs mid : Docs) : Prop where
  partly : PartlyCut limits.blockSize (docs.blocks operation.path) length
    (mid.blocks operation.path)
  resume : ∀ now, (operation.call limits now).Ensures (fun _ => False)
    (fun _ after => docs.Shrunk limits operation.path length content mid after)
    (fun _ after => docs.Shrunk limits operation.path length content mid after) mid

variable {docs : Docs} {catalog : Catalog} {limits : Limits} {path : String} {bytes : Bytes}
  {stat : StatRecord} {faulty : Request → Prop} {now : Readings}

theorem Tree.Shortened.shrunk {mid after : Docs} {size : UInt64} {between : Catalog}
    {last : StatRecord} (h : Tree.Shortened limits path size now between last mid after)
    (hb : between.WellFormed limits) (hs : between.stats path = some last)
    (hr : last.isRegularFile) (hl : size.toNat ≤ bytes.length)
    (hstats : ∀ other, other ≠ path → mid.value .stats other = docs.value .stats other)
    (hm : mid.Shows between) (ho : docs.SameOthers path mid)
    (hcut : ∃ last, FirstMissing (mid.blocks path) (count limits.blockSize size.toNat)
      limits.maxBlocks last ∧
      after.blocks path = cutUpTo limits.blockSize (mid.blocks path) size.toNat last) :
    docs.Shrunk limits path size.toNat (some (bytes.take size.toNat)) mid after := by
  have hdir := StatRecord.not_isDirectory_of_isRegularFile hr
  have hchanged : between.Changed limits now (.truncate path size)
      (between.setStat path (some (last.apply (.size size) (now 0)))) :=
    .updated .truncate hs fun _ => hdir
  refine ⟨⟨_, h.tree, hchanged.wellFormed hb⟩, fun other hne => ?_, ho.trans h.others, ?_, hcut⟩
  · exact (hm.value_stats h.tree (hchanged.stats_of_ne hne)).trans (hstats other hne)
  · refine ⟨last.apply (.size size) (now 0), h.tree.statAt ?_, ?_, ?_⟩
    · rw [Catalog.stats_setStat, if_pos rfl]
    · rw [StatRecord.isRegularFile_apply, hr]
    · rw [StatRecord.size_apply, List.length_take, Nat.min_eq_left hl]
      rfl

namespace Tree

section File

variable (hv : limits.Valid) (hw : catalog.WellFormed limits) (hd : docs.Shows catalog)
  (hs : catalog.stats path = some stat) (hr : stat.isRegularFile)

include hv hw hd hs hr

-- The record still has the old size, so the second attempt cuts as the first one did.
theorem PartlyShortened.resumable {mid : Docs} {size : UInt64}
    (hm : PartlyShortened limits path size catalog docs mid) (hz : stat.size.toNat = bytes.length)
    (hmax : bytes.length ≤ limits.maxFileLen) (hl : size.toNat < bytes.length) :
    docs.Resumable limits (.truncate path size) size.toNat (some (bytes.take size.toNat)) mid := by
  have hdir := StatRecord.not_isDirectory_of_isRegularFile hr
  have hlen := hw.length_le hs hr
  refine ⟨hm.blocks, fun again => ?_⟩
  apply ensures_map.mpr
  apply (ensures_truncate_cut hv hm.tree hs hdir hlen (by omega) (by omega)).mono
  · intro _ after ha
    have hcut := ha.blocks
    rw [CutOff, if_pos (by omega)] at hcut
    exact ha.shrunk hw hs hr (by omega) (fun other _ => hd.value_stats hm.tree rfl) hm.tree
      hm.others hcut
  · intro _ after hpost
    obtain ⟨⟨request, hfault⟩, -⟩ := hpost
    exact hfault.elim

-- The record has the new size, and the second attempt finds nothing to cut off.
theorem Shortened.resumable {mid : Docs} {size : UInt64}
    (hm : Shortened limits path size now catalog stat docs mid)
    (hb : docs.blocks path = of limits.blockSize bytes) (hz : stat.size.toNat = bytes.length)
    (hmax : bytes.length ≤ limits.maxFileLen) (hl : size.toNat < bytes.length) :
    docs.Resumable limits (.truncate path size) size.toNat (some (bytes.take size.toNat)) mid := by
  have hblock := hv.blockSize_pos
  have hdir := StatRecord.not_isDirectory_of_isRegularFile hr
  have hlen := hw.length_le hs hr
  have hfits : bytes.length ≤ limits.maxBlocks * limits.blockSize := by
    rwa [Nat.mul_comm, ← hv.maxFileLen_eq.1]
  have htake : (bytes.take size.toNat).length = size.toNat := by
    rw [List.length_take]
    omega
  have hfirst := hm.blocks
  rw [CutOff, if_pos (by omega), hb] at hfirst
  obtain ⟨last, hmissing, hcut⟩ := hfirst
  rw [cutUpTo_eq_of hblock hmissing (covered_of hfits) (by omega)] at hcut
  have hchanged : catalog.Changed limits now (.truncate path size)
      (catalog.setStat path (some (stat.apply (.size size) (now 0)))) :=
    .updated .truncate hs fun _ => hdir
  have hnew : (catalog.setStat path (some (stat.apply (.size size) (now 0)))).stats path =
      some (stat.apply (.size size) (now 0)) := by
    rw [Catalog.stats_setStat, if_pos rfl]
  have hreg : (stat.apply (.size size) (now 0)).isRegularFile := by
    rw [StatRecord.isRegularFile_apply, hr]
  have hsize : (stat.apply (.size size) (now 0)).size = size := StatRecord.size_apply ..
  refine ⟨hm.blocks.partlyCut, fun again => ?_⟩
  apply ensures_map.mpr
  apply (ensures_truncate_cut hv hm.tree hnew (StatRecord.not_isDirectory_of_isRegularFile hreg)
    hlen (Nat.le_of_eq (hsize ▸ rfl)) (by omega)).mono
  · intro _ after ha
    have hsame := ha.blocks
    rw [CutOff, hsize, if_neg (Nat.lt_irrefl _), hcut] at hsame
    obtain ⟨hend, hagain⟩ := cutUpTo_end (bytes.take size.toNat) limits.maxBlocks hv.blockSize_pos
    rw [htake] at hend hagain
    refine ha.shrunk (hchanged.wellFormed hw) hnew hreg (by omega)
      (fun other hne => hd.value_stats hm.tree (hchanged.stats_of_ne hne)) hm.tree hm.others
      ⟨_, hcut ▸ hend, ?_⟩
    rw [hcut, hsame, hagain]
  · intro _ after hpost
    obtain ⟨⟨request, hfault⟩, -⟩ := hpost
    exact hfault.elim

theorem ensures_truncate_resumable (hb : docs.blocks path = of limits.blockSize bytes)
    (hz : stat.size.toNat = bytes.length) (hmax : bytes.length ≤ limits.maxFileLen) {size : UInt64}
    (hl : size.toNat < bytes.length) :
    (truncate limits path size now).Ensures faulty
      (fun _ mid => docs.Resumable limits (.truncate path size) size.toNat
        (some (bytes.take size.toNat)) mid)
      (fun _ mid => docs.Resumable limits (.truncate path size) size.toNat
        (some (bytes.take size.toNat)) mid) docs := by
  have hdir := StatRecord.not_isDirectory_of_isRegularFile hr
  have hlen := hw.length_le hs hr
  apply (ensures_truncate_cut hv hd hs hdir hlen (by omega) (by omega)).mono
  · exact fun _ mid hm => hm.resumable hv hw hd hs hr hb hz hmax hl
  · intro _ mid hpost
    obtain ⟨-, hm | hm⟩ := hpost
    · exact hm.resumable hv hw hd hs hr hz hmax hl
    · exact hm.resumable hv hw hd hs hr hb hz hmax hl

end File

-- A removal that ended anywhere is one from which the removal gets to its end.
theorem Unlinked.resumable {parent leaf : String} {mid : Docs}
    (h : Unlinked faulty limits path parent leaf catalog docs mid) (hv : limits.Valid)
    (hw : catalog.WellFormed limits) (hd : docs.Shows catalog)
    (hs : Path.split path limits.maxKeyLen = .ok (parent, leaf))
    (hno : ∀ stat, catalog.stats path = some stat → stat.isDirectory = false) :
    docs.Resumable limits (.unlink path) 0 none mid := by
  have hblock := hv.blockSize_pos
  have hgone : (catalog.removeFile path parent leaf).WellFormed limits := by
    refine (hw.removed_removeFile hs ?_).wellFormed hw
    intro hdir
    obtain ⟨stat, hstat, hsd⟩ := hdir
    rw [hno stat hstat] at hsd
    cases hsd
  have hstats : ∀ other, other ≠ path →
      (catalog.removeFile path parent leaf).stats other = catalog.stats other := by
    intro other ho
    rw [Catalog.removeFile, Catalog.stats_setStat, if_neg ho]
    rfl
  obtain ⟨later, hm, hhalf, -⟩ := h.tree
  obtain ⟨last, hcleared, -⟩ := h.blocks
  have hnext : ∀ stat, later.stats path = some stat → stat.isDirectory = false := by
    intro stat hstat
    rcases hhalf.stat with he | he
    · rw [he] at hstat
      exact hno stat hstat
    · rw [he] at hstat
      cases hstat
  have hend : ∀ after, Unlinked (fun _ => False) limits path parent leaf later mid after →
      docs.Shrunk limits path 0 none mid after := by
    intro after ha
    obtain ⟨final, hfinal, -, hclean⟩ := ha.tree
    rw [hclean fun _ h => h, hhalf.same] at hfinal
    obtain ⟨stop, hstop, hfirst⟩ := ha.blocks
    constructor
    case tree => exact ⟨_, hfinal, hgone⟩
    case stats => exact fun other ho => hd.value_stats hfinal (hstats other ho)
    case others => exact h.others.trans ha.others
    case record =>
      apply hfinal.statAt
      rw [Catalog.removeFile, Catalog.stats_setStat, if_pos rfl]
    case blocks =>
      refine ⟨stop, ?_, ?_⟩
      · rw [count_of_dvd hblock (Nat.zero_mod _), Nat.zero_div]
        exact hfirst fun _ h => h
      · rw [cutUpTo_zero hblock]
        exact hstop
  constructor
  case partly => exact .inr ⟨last, by rw [cutUpTo_zero hblock]; exact hcleared⟩
  case resume =>
    intro again
    apply ensures_map.mpr
    apply (ensures_unlink hm hs hnext).mono
    · exact fun _ after ha => hend after ha.1
    · exact fun _ after ha => hend after ha.1

theorem ensures_unlink_resumable (hv : limits.Valid) (hw : catalog.WellFormed limits)
    (hd : docs.Shows catalog) (hs : catalog.stats path = some stat) (hr : stat.isRegularFile) :
    (unlink limits path).Ensures faulty
      (fun _ mid => docs.Resumable limits (.unlink path) 0 none mid)
      (fun _ mid => docs.Resumable limits (.unlink path) 0 none mid) docs := by
  have hdir := StatRecord.not_isDirectory_of_isRegularFile hr
  have hno : ∀ other, catalog.stats path = some other → other.isDirectory = false := by
    intro other ho
    rw [hs, Option.some_inj] at ho
    rwa [← ho]
  have hne : path ≠ Path.root := by
    intro he
    rw [he] at hs
    exact Catalog.not_hasDirectory_of_stat hs hdir hw.root
  obtain ⟨parent, leaf, -, hsplit, -⟩ := hw.placed path stat hs hne
  apply (ensures_unlink hd hsplit hno).mono
  · exact fun _ mid h => h.1.resumable hv hw hd hsplit hno
  · exact fun _ mid h => h.1.resumable hv hw hd hsplit hno

end Tree

-- A call that makes the regular file at a path shorter: what length it leaves.
def Operation.Shrinks (path : String) (stat : StatRecord) : Operation → Nat → Prop
  | .truncate other size, length =>
    other = path ∧ length = size.toNat ∧ size.toNat < stat.size.toNat
  | .unlink other, length => other = path ∧ length = 0
  | _, _ => False

theorem Operation.Shrinks.ensures_resumable {operation : Operation} {length : Nat}
    {contents : Contents} (h : operation.Shrinks path stat length) (hv : limits.Valid)
    (hw : catalog.WellFormed limits) (hd : docs.Shows catalog)
    (hstored : docs.Stored limits contents) (hs : docs.StatAt path (some stat))
    (hr : stat.isRegularFile) (now : Readings) :
    (operation.call limits now).Ensures faulty
      (fun _ mid => docs.Resumable limits operation length (contents.after operation path) mid)
      (fun _ mid => docs.Resumable limits operation length (contents.after operation path) mid)
      docs := by
  have hstat := hd.stats_eq hs
  obtain ⟨bytes, hbytes, hsize, hblocks, hmax⟩ := hstored.exists_bytes hs hr
  cases operation with
  | truncate other size =>
    obtain ⟨rfl, rfl, hlt⟩ := h
    have hcontent : contents.after (.truncate other size) other =
        some (bytes.take size.toNat) := by
      rw [Contents.after, Function.update_self, hbytes, Option.map_some]
      exact congrArg some (Bytes.resize_of_le (by omega))
    rw [hcontent]
    exact ensures_map.mpr
      (Tree.ensures_truncate_resumable hv hw hd hstat hr hblocks hsize hmax (by omega))
  | unlink other =>
    obtain ⟨rfl, rfl⟩ := h
    have hcontent : contents.after (.unlink other) other = none := Function.update_self ..
    rw [hcontent]
    exact ensures_map.mpr (Tree.ensures_unlink_resumable hv hw hd hstat hr)
  | _ => exact h.elim

-- The bytes of a file in front of the cut.
theorem Operation.Shrinks.getD_after {operation : Operation} {length : Nat} {contents : Contents}
    (h : operation.Shrinks path stat length) (hb : contents path = some bytes)
    (hz : stat.size.toNat = bytes.length) :
    (contents.after operation path).getD [] = bytes.take length ∧ length ≤ bytes.length := by
  cases operation with
  | truncate other size =>
    obtain ⟨rfl, rfl, hlt⟩ := h
    rw [Contents.after, Function.update_self, hb]
    exact ⟨Bytes.resize_of_le (by omega), by omega⟩
  | unlink other =>
    obtain ⟨rfl, rfl⟩ := h
    rw [Contents.after, Function.update_self]
    exact ⟨rfl, Nat.zero_le _⟩
  | _ => exact h.elim

theorem Docs.Shrunk.keeps {length : Nat} {content : Option Bytes} {mid after : Docs}
    (h : docs.Shrunk limits path length content mid after) (hv : limits.Valid)
    (hb : after.blocks path = of limits.blockSize (content.getD []))
    (hl : (content.getD []).length ≤ limits.maxFileLen) : after.Keeps limits path content := by
  have hrecord := h.record
  cases content with
  | some bytes =>
    obtain ⟨stat, hstat, hreg, hsize⟩ := hrecord
    refine ⟨⟨⟨stat, hstat, hreg, hsize⟩, ?_, hl⟩, hb⟩
    rw [hb]
    apply covered_of
    rwa [Nat.mul_comm, ← hv.maxFileLen_eq.1]
  | none =>
    refine ⟨fun stat hstat => ?_, ?_⟩
    · cases Docs.StatAt.inj hrecord hstat
    · rw [hb]
      funext index
      simp [of]

-- Every byte that the blocks of a file hold lies in front of a position.
def Docs.HeldBelow (limits : Limits) (path : String) (length : Nat) (docs : Docs) : Prop :=
  ∀ index block, docs.blocks path index = some block →
    ∀ i < block.length, index * limits.blockSize + i < length

theorem Docs.heldBelow_of (hb : docs.blocks path = of limits.blockSize bytes) :
    docs.HeldBelow limits path bytes.length := by
  intro index block hk i hi
  rw [hb, of] at hk
  split at hk
  · rw [Option.some_inj] at hk
    rw [← hk, length_chunk] at hi
    omega
  · cases hk

-- A write to a position of a file.
def Operation.Covers (path : String) (position : Nat) : Operation → Prop
  | .write other offset data =>
    other = path ∧ offset.toNat ≤ position ∧ position < offset.toNat + data.length
  | _ => False

-- Whether a run has a write to a position that succeeds.
def Written {σ : Type} (limits : Limits) (backend : Backend σ) (path : String) (position : Nat) :
    List Step → σ → Prop
  | [], _ => False
  | step :: rest, state =>
    step.operation.Covers path position ∧
        (∃ answer, (step.run limits backend state).1 = .done answer) ∨
      Written limits backend path position rest (step.run limits backend state).2

namespace Contents

-- A position of a file that holds a zero or lies past the end.
def ZeroAt (path : String) (position : Nat) (contents : Contents) : Prop :=
  ∀ bytes, contents path = some bytes → bytes[position]?.getD 0 = 0

variable {contents : Contents} {position : Nat}

theorem ZeroAt.after (h : contents.ZeroAt path position) {operation : Operation}
    (hn : ¬operation.Covers path position) : (contents.after operation).ZeroAt path position := by
  intro bytes hb
  by_cases hp : path = operation.path
  swap
  · rw [after_of_ne hp] at hb
    exact h bytes hb
  cases operation with
  | create other mode =>
    obtain rfl := hp
    rw [Contents.after, Function.update_self, Option.some_inj] at hb
    rw [← hb]
    rfl
  | unlink other =>
    obtain rfl := hp
    rw [Contents.after, Function.update_self] at hb
    cases hb
  | write other offset data =>
    obtain rfl := hp
    rw [Contents.after, Function.update_self, Option.map_eq_some_iff] at hb
    obtain ⟨old, hold, rfl⟩ := hb
    rw [Operation.onBytes, Bytes.getD_write, if_neg fun hc => hn ⟨rfl, hc⟩]
    exact h old hold
  | truncate other size =>
    obtain rfl := hp
    rw [Contents.after, Function.update_self, Option.map_eq_some_iff] at hb
    obtain ⟨old, hold, rfl⟩ := hb
    rw [Operation.onBytes, Bytes.getD_resize]
    split
    · exact h old hold
    · rfl
  | _ => exact h bytes hb

theorem ZeroAt.follow {σ : Type} {backend : Backend σ} {history : List Step} {state : σ}
    (h : contents.ZeroAt path position)
    (hn : ¬Written limits backend path position history state) :
    (contents.follow limits backend history state).ZeroAt path position := by
  induction history generalizing contents state with
  | nil => exact h
  | cons step rest ih =>
    rw [Written, not_or] at hn
    refine ih ?_ hn.2
    unfold next
    split
    · next answer hdone => exact h.after fun hc => hn.1 ⟨hc, answer, hdone⟩
    · exact h

end Contents

-- No block holds a byte from a position on; and in whatever runs follow, the positions from there
-- on that no write reaches read as zero.
structure Image.StaysCut (limits : Limits) (scope path : String) (length : Nat) (image : Image) :
    Prop where
  held : (image.docs scope).HeldBelow limits path length
  zeros : ∀ later : List Step, (∀ step ∈ later, step.operation.NulFree) →
    ∀ position, length ≤ position →
    ¬Written limits (Image.unlimited scope) path position later image →
    ∀ (now : Readings) (offset : UInt64) (size : UInt32) (data : Bytes),
    (Step.run limits (Image.unlimited scope) ⟨now, .read path offset size⟩
      (afterSteps limits (Image.unlimited scope) later image)).1 = .done (.data data) →
    offset.toNat ≤ position → ∀ byte, data[position - offset.toNat]? = some byte → byte = 0

-- The store after a call each of whose requests may meet any fate.
def Step.interrupted (limits : Limits) (scope : String) (step : Step) (store : Unreliable) :
    Image :=
  (step.run limits (Unreliable.backend (fun _ => false) scope) store).2.image

-- The store after the same call once more, with every request answered.
def Step.repeated (limits : Limits) (scope : String) (step : Step) (store : Unreliable)
    (again : Readings) : Image :=
  (Step.run limits (Image.unlimited scope) ⟨again, step.operation⟩
    (step.interrupted limits scope store)).2

variable {scope : String} {image : Image} {contents : Contents} {length : Nat}

theorem Docs.InOrder.staysCut (h : (image.docs scope).InOrder limits contents) (hv : limits.Valid)
    (hp : Path.NulFree path) (hheld : (image.docs scope).HeldBelow limits path length)
    (hzero : ∀ position, length ≤ position → contents.ZeroAt path position) :
    image.StaysCut limits scope path length := by
  refine ⟨hheld, fun later hlater position hl hn now offset size data hrun ho byte hbyte => ?_⟩
  have hread : Operation.NulFree (.read path offset size) := hp
  have hend := (Step.run_inOrder hv ⟨now, .read path offset size⟩ hread
    (afterSteps_inOrder hv hlater h)).1
  rw [hrun] at hend
  obtain ⟨bytes, hbytes, hdata⟩ := hend
  have hdata : data = (bytes.drop offset.toNat).take size.toNat := Answer.data.inj hdata
  have hz := (hzero position hl).follow hn bytes hbytes
  rw [hdata, List.getElem?_take, List.getElem?_drop, Nat.add_sub_of_le ho] at hbyte
  split at hbyte
  · rwa [hbyte, Option.getD_some] at hz
  · cases hbyte

namespace Step

variable {store : Unreliable} {step : Step}

theorem interrupted_resumable (hv : limits.Valid)
    (h : (store.image.docs scope).InOrder limits contents)
    (hs : (store.image.docs scope).StatAt path (some stat)) (hr : stat.isRegularFile)
    (hcut : step.operation.Shrinks path stat length) :
    (store.image.docs scope).Resumable limits step.operation length
      (contents.after step.operation path)
      ((step.interrupted limits scope store).docs scope) := by
  obtain ⟨⟨catalog, hd, hw⟩, hstored⟩ := h
  have hrun := (hcut.ensures_resumable hv hw hd hstored hs hr step.now).run
    (Unreliable.backend_serves (fun _ => false) scope)
  exact hrun.docs_left

theorem repeated_shrunk {content : Option Bytes} (again : Readings)
    (h : docs.Resumable limits step.operation length content
      ((step.interrupted limits scope store).docs scope)) :
    docs.Shrunk limits step.operation.path length content
      ((step.interrupted limits scope store).docs scope)
      ((step.repeated limits scope store again).docs scope) := by
  have hrun := (h.resume again).run (Image.unlimited_serves scope)
  exact hrun.docs_left

-- The second attempt cleans up unless it runs into a gap.
theorem repeated_staysCut_iff (hv : limits.Valid) (again : Readings)
    (h : (store.image.docs scope).InOrder limits contents)
    (hs : (store.image.docs scope).StatAt step.operation.path (some stat))
    (hr : stat.isRegularFile) (hcut : step.operation.Shrinks step.operation.path stat length) :
    (step.repeated limits scope store again).StaysCut limits scope step.operation.path length ↔
      ¬Gap (((step.interrupted limits scope store).docs scope).blocks step.operation.path)
        (count limits.blockSize length) := by
  have hblock := hv.blockSize_pos
  obtain ⟨bytes, hbytes, hsize, hblocks, hmax⟩ := h.stored.exists_bytes hs hr
  obtain ⟨hcontent, hle⟩ := hcut.getD_after hbytes hsize
  have hfits : bytes.length ≤ limits.maxBlocks * limits.blockSize := by
    rwa [Nat.mul_comm, ← hv.maxFileLen_eq.1]
  have hresumable := interrupted_resumable hv h hs hr hcut
  have hshrunk := repeated_shrunk again hresumable
  have hpartly := hresumable.partly
  rw [hblocks] at hpartly
  obtain ⟨last, hmissing, hafter⟩ := hshrunk.blocks
  constructor
  · intro hstays hgap
    obtain ⟨index, block, hleft, hne, hbehind⟩ := hpartly.exists_left hblock hgap hmissing
    have hheld := hstays.held index block (hafter ▸ hleft) 0 (List.length_pos_of_ne_nil hne)
    omega
  · intro hgap
    have htake : (bytes.take length).length = length := by
      rw [List.length_take]
      omega
    have hof := cutUpTo_eq_of hblock hmissing (hpartly.covered hblock hfits hle hgap)
      (Nat.le_of_eq htake.symm)
    rw [List.take_take, Nat.min_self, ← hcontent] at hof
    have hdense := hafter.trans hof
    have hnul := h.stored.named _ _ hs
    have hkeeps := hshrunk.keeps hv hdense (by rw [hcontent]; omega)
    have horder : ((step.repeated limits scope store again).docs scope).InOrder limits
        (Function.update contents step.operation.path
          (contents.after step.operation step.operation.path)) :=
      ⟨hshrunk.tree, h.stored.update hnul hshrunk.stats hshrunk.others hkeeps⟩
    refine horder.staysCut hv hnul ?_ fun position hp other hother => ?_
    · have hheld := Docs.heldBelow_of hdense
      rwa [hcontent, htake] at hheld
    · rw [Function.update_self] at hother
      rw [hother, Option.getD_some] at hcontent
      rw [hcontent, List.getElem?_eq_none (by omega)]
      rfl

end Step

theorem Operation.Shrinks.path_eq {operation : Operation}
    (h : operation.Shrinks path stat length) : operation.path = path := by
  cases operation <;> first | exact h.1 | exact h.elim

-- A file is cut or removed while requests fail, and then the same call goes through. What it cut
-- off stays away exactly if the first attempt took out none or all of the blocks that were to go: a
-- missing block in front of others ends the second attempt, and the file that grows back picks the
-- others up.
theorem cut_bytes_stay_away_iff (hv : limits.validate = .ok ()) (scope : String) (header : Header)
    (now : Readings) {history : List Step} (hp : ∀ step ∈ history, step.operation.NulFree)
    {path : String} {stat : StatRecord}
    (hs : ((Image.reached limits scope header now history).docs scope).StatAt path (some stat))
    (hr : stat.isRegularFile) {step : Step} {length : Nat}
    (hcut : step.operation.Shrinks path stat length) (fates : Nat → Fate) (again : Readings) :
    (step.operation = .unlink path →
      ((step.repeated limits scope ⟨Image.reached limits scope header now history, fates⟩
        again).docs scope).StatAt path none) ∧
    ((step.repeated limits scope ⟨Image.reached limits scope header now history, fates⟩
        again).StaysCut limits scope path length ↔
      ¬Gap (((step.interrupted limits scope
        ⟨Image.reached limits scope header now history, fates⟩).docs scope).blocks path)
        (count limits.blockSize length)) := by
  have hv := limits.validate_eq_ok_iff.mp hv
  have h := Image.reached_inOrder hv scope header now hp
  obtain rfl := hcut.path_eq
  let store : Unreliable := ⟨Image.reached limits scope header now history, fates⟩
  have hstore : (store.image.docs scope).InOrder limits
    (Image.contents limits scope header now history) := h
  refine ⟨fun hunlink => ?_, Step.repeated_staysCut_iff hv again hstore hs hr hcut⟩
  have hshrunk := Step.repeated_shrunk again (Step.interrupted_resumable hv hstore hs hr hcut)
  have hnone : (Image.contents limits scope header now history).after step.operation
      step.operation.path = none := by
    rw [hunlink]
    exact Function.update_self ..
  rw [hnone] at hshrunk
  exact hshrunk.record

-- The removal of the first block is refused, and nothing was removed.
theorem sample_cut_stays_away :
    (Sample.image.docs defaultScope).StatAt "/f" (some Sample.stat) ∧
      Sample.stat.isRegularFile ∧ (Operation.truncate "/f" 0).Shrinks "/f" Sample.stat 0 ∧
      (Step.repeated Sample.limits defaultScope ⟨Sample.now, .truncate "/f" 0⟩ (Sample.store 1)
        Sample.now).StaysCut Sample.limits defaultScope "/f" 0 := by
  have hs : (Sample.image.docs defaultScope).StatAt "/f" (some Sample.stat) := by
    unfold Docs.StatAt
    decide +kernel
  have hr : Sample.stat.isRegularFile := by decide
  have hcut : (Operation.truncate "/f" 0).Shrinks "/f" Sample.stat 0 :=
    ⟨rfl, rfl, by decide⟩
  have hfirst : ((Step.interrupted Sample.limits defaultScope ⟨Sample.now, .truncate "/f" 0⟩
      (Sample.store 1)).docs defaultScope).blocks "/f" 0 ≠ none := by decide +kernel
  refine ⟨hs, hr, hcut, ?_⟩
  exact (cut_bytes_stay_away_iff (by decide) defaultScope default Sample.now (by decide) hs hr hcut
    _ Sample.now).2.mpr fun hgap => hfirst hgap.1

-- The removal of the second block is refused: the first is gone, and the others come back with the
-- next write.
theorem sample_cut_comes_back :
    (Sample.image.docs defaultScope).StatAt "/f" (some Sample.stat) ∧
      Sample.stat.isRegularFile ∧ (Operation.truncate "/f" 0).Shrinks "/f" Sample.stat 0 ∧
      (Step.run Sample.limits (Image.unlimited defaultScope) ⟨Sample.now, .read "/f" 4 20⟩
        (afterSteps Sample.limits (Image.unlimited defaultScope)
          [⟨Sample.now, .write "/f" 13 [90]⟩]
          (Step.repeated Sample.limits defaultScope ⟨Sample.now, .truncate "/f" 0⟩
            (Sample.store 2) Sample.now))).1 =
        .done (.data [101, 102, 103, 104, 105, 106, 107, 108, 0, 90]) ∧
      ¬(Step.repeated Sample.limits defaultScope ⟨Sample.now, .truncate "/f" 0⟩
        (Sample.store 2) Sample.now).StaysCut Sample.limits defaultScope "/f" 0 := by
  have hs : (Sample.image.docs defaultScope).StatAt "/f" (some Sample.stat) := by
    unfold Docs.StatAt
    decide +kernel
  have hread : (Step.run Sample.limits (Image.unlimited defaultScope)
      ⟨Sample.now, .read "/f" 4 20⟩ (afterSteps Sample.limits (Image.unlimited defaultScope)
        [⟨Sample.now, .write "/f" 13 [90]⟩] (Step.repeated Sample.limits defaultScope
          ⟨Sample.now, .truncate "/f" 0⟩ (Sample.store 2) Sample.now))).1 =
      .done (.data [101, 102, 103, 104, 105, 106, 107, 108, 0, 90]) := by decide +kernel
  refine ⟨hs, by decide, ⟨rfl, rfl, by decide⟩, hread, fun hstays => ?_⟩
  have hzero := hstays.zeros [⟨Sample.now, .write "/f" 13 [90]⟩] (by decide) 4 (Nat.zero_le _)
    (by simp [Written, Operation.Covers]) Sample.now 4 20 _ hread (by decide) 101 rfl
  cases hzero

end DocTree
