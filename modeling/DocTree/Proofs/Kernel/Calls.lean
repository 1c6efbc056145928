import DocTree.Proofs.Kernel.Inodes
import DocTree.Proofs.Kernel.Makes
import DocTree.Proofs.Run.Files

namespace DocTree

open Call

-- A table of numbers that stand for `known` paths.
structure Mounted.Knows (limits : Limits) (known : String → Prop) (mounted : Mounted) : Prop where
  limits_eq : mounted.limits = limits
  coherent : mounted.inodes.Coherent
  known : ∀ number path, mounted.inodes.pathOf? number = some path → known path

-- A path that has a record.
def Catalog.Has (catalog : Catalog) (path : String) : Prop := catalog.stats path ≠ none

def Mounted.InUse (limits : Limits) (mounted : Mounted) (docs : Docs) : Prop :=
  ∃ catalog, docs.Shows catalog ∧ catalog.WellFormed limits ∧ mounted.Knows limits catalog.Has

-- What a call leaves, and what its reply tells: attributes are those of `path?`.
structure Mounted.Leaves (limits : Limits) (mounted : Mounted) (path? : Option String)
    (result : KernelReply × Mounted) (after : Docs) : Prop where
  inUse : result.2.InUse limits after
  later : mounted.inodes.Later result.2.inodes
  known : ∀ number ∈ result.1.numbers, ∃ path, result.2.inodes.pathOf? number = some path
  named : ∀ told ∈ result.1.attr?, result.2.inodes.pathOf? told.ino = path?

variable {limits : Limits} {mounted : Mounted} {catalog : Catalog} {docs after : Docs}
  {known : String → Prop} {path : String} {path? : Option String} {caller : Caller} {now : Readings}

theorem Catalog.has_of_some {stat : StatRecord} (h : catalog.stats path = some stat) :
    catalog.Has path := by
  unfold Has
  rw [h]
  exact Option.some_ne_none _

namespace Mounted

theorem numberOf_inodes (path : String) :
    (mounted.numberOf path).2.inodes = (mounted.inodes.numberOf path).2 := rfl

namespace Knows

variable (h : mounted.Knows limits known)

include h

theorem numberOf (hp : known path) : (mounted.numberOf path).2.Knows limits known := by
  refine ⟨h.limits_eq, h.coherent.numberOf path, fun number other ho => ?_⟩
  rw [numberOf_inodes, h.coherent.pathOf?_numberOf] at ho
  split at ho
  · exact Option.some_inj.mp ho ▸ hp
  · exact h.known number other ho

theorem pathOf?_numberOf_self (path : String) :
    (mounted.numberOf path).2.inodes.pathOf? (mounted.numberOf path).1 = some path :=
  h.coherent.pathOf?_numberOf_self path

theorem later_numberOf (path : String) : mounted.inodes.Later (mounted.numberOf path).2.inodes :=
  h.coherent.later_numberOf path

-- A path that has a number gets no other one.
theorem numberOf_of_pathOf? {ino : Nat} (hino : mounted.inodes.pathOf? ino = some path) :
    (mounted.numberOf path).2 = mounted := by
  unfold Mounted.numberOf
  rw [Inodes.numberOf_of_some ((h.coherent.inverse path ino).mpr hino)]

theorem mono {wider : String → Prop} (hw : ∀ path, known path → wider path) :
    mounted.Knows limits wider :=
  ⟨h.limits_eq, h.coherent, fun number path hp => hw path (h.known number path hp)⟩

theorem forget {later : String → Prop} (hr : path ≠ Path.root)
    (hl : ∀ other, other ≠ path → known other → later other) :
    (mounted.forget path).Knows limits later := by
  refine ⟨h.limits_eq, h.coherent.forget path, fun number other ho => ?_⟩
  change (mounted.inodes.forget path).pathOf? number = some other at ho
  rw [h.coherent.pathOf?_forget hr] at ho
  split at ho
  · cases ho
  · next hn => exact hl other (fun he => hn (he ▸ ho)) (h.known number other ho)

end Knows

theorem InUse.limits_eq (h : mounted.InUse limits docs) : mounted.limits = limits := by
  obtain ⟨catalog, -, -, hk⟩ := h
  exact hk.limits_eq

-- A reply that tells no numbers, and a table that stays.
theorem InUse.leaves {reply : KernelReply} (h : mounted.InUse limits after)
    (hr : reply.numbers = []) : mounted.Leaves limits path? (reply, mounted) after := by
  refine ⟨h, .refl, fun number hn => ?_, fun told ht => ?_⟩
  · rw [hr] at hn
    cases hn
  · rw [KernelReply.numbers_of_attr? ht] at hr
    cases hr

end Mounted

namespace Tree

theorem ensures_getattr_stat (hd : docs.Shows catalog) :
    (getattr limits path caller).Ensures (fun _ => False)
      (fun attributes after => after = docs ∧ ∃ stat, catalog.stats path = some stat ∧
        attributes = ⟨stat, caller⟩)
      (fun _ after => after = docs ∧
        (limits.maxKeyLen < path.utf8ByteSize ∨ catalog.stats path = none)) docs := by
  unfold getattr
  by_cases hl : path.utf8ByteSize ≤ limits.maxKeyLen
  · rw [Path.checkLength_eq_ok.mpr hl, ofExcept_ok_bind]
    refine ensures_bind.mpr (Metadata.ensures_get (hd.stats path) ?_ ?_ fun h => h.elim)
    · exact fun stat _ hs _ => ⟨rfl, stat, hs, rfl⟩
    · exact fun hn => ⟨rfl, .inr hn⟩
  · unfold Path.checkLength
    rw [if_pos (by omega), ofExcept_error_bind]
    exact ⟨rfl, .inl (by omega)⟩

end Tree

-- The attributes of a path as they are made of its record, under the number that the path gets.
def Mounted.Describes (mounted : Mounted) (path : String) (caller : Caller) (stat : StatRecord)
    (found : Option FileAttr) : Prop :=
  Attributes.fileAttr? ⟨stat, caller⟩ (mounted.numberOf path).1
    (mounted.numberOf path).2.blockSize = found

-- `found` keeps apart what is answered and how it is made, which is a long computation.
theorem Mounted.ensures_fileAttr (hd : docs.Shows catalog) :
    (mounted.fileAttr path caller).Ensures (fun _ => False)
      (fun result after => after = docs ∧
        ((∃ stat found, catalog.stats path = some stat ∧
            mounted.Describes path caller stat found ∧
            result = (.ok found, (mounted.numberOf path).2)) ∨
          (mounted.limits.maxKeyLen < path.utf8ByteSize ∨ catalog.stats path = none) ∧
            ∃ errno, result = (.error errno, mounted)))
      (fun _ _ => False) docs := by
  unfold Mounted.fileAttr
  refine ensures_bind.mpr (ensures_attempt.mpr ((Tree.ensures_getattr_stat hd).mono ?_ ?_))
  · intro attributes after hpost
    obtain ⟨rfl, stat, hs, rfl⟩ := hpost
    exact ⟨rfl, .inl ⟨stat, _, hs, rfl, rfl⟩⟩
  · intro error after hpost
    obtain ⟨rfl, hor⟩ := hpost
    exact ⟨rfl, .inr ⟨hor, _, rfl⟩⟩

namespace KernelCall

-- The reply that tells the attributes of a path. It is none if they cannot be made.
inductive Tells (mounted : Mounted) (path : String) (caller : Caller) (stat : StatRecord)
    (reply : FileAttr → KernelReply) : KernelReply × Mounted → Prop where
  | attr {attr} (h : mounted.Describes path caller stat (some attr)) :
      Tells mounted path caller stat reply (reply attr, (mounted.numberOf path).2)
  | crashed (h : mounted.Describes path caller stat none) :
      Tells mounted path caller stat reply (.crashed, (mounted.numberOf path).2)

theorem ensures_replyAttr {reply : FileAttr → KernelReply} (hd : docs.Shows catalog) :
    (replyAttr mounted path caller reply).Ensures (fun _ => False)
      (fun result after => after = docs ∧
        ((∃ stat, catalog.stats path = some stat ∧
            Tells mounted path caller stat reply result) ∨
          (mounted.limits.maxKeyLen < path.utf8ByteSize ∨ catalog.stats path = none) ∧
            ∃ errno, result = (.error errno, mounted)))
      (fun _ _ => False) docs := by
  unfold replyAttr
  refine (Mounted.ensures_fileAttr hd).bind (fun result after hpost => ?_) fun _ _ h => h
  obtain ⟨rfl, ⟨stat, found, hs, hf, rfl⟩ | ⟨hor, errno, rfl⟩⟩ := hpost
  · cases found with
    | none => exact ⟨rfl, .inl ⟨stat, hs, .crashed hf⟩⟩
    | some attr => exact ⟨rfl, .inl ⟨stat, hs, .attr hf⟩⟩
  · exact ⟨rfl, .inr ⟨hor, errno, rfl⟩⟩

theorem Tells.leaves {stat : StatRecord} {reply : FileAttr → KernelReply}
    {result : KernelReply × Mounted} (ht : Tells mounted path caller stat reply result)
    (hr : TellsAttr reply) (hd : docs.Shows catalog) (hw : catalog.WellFormed limits)
    (hk : mounted.Knows limits catalog.Has) (hs : catalog.stats path = some stat) :
    mounted.Leaves limits (some path) result docs := by
  have hnumbered : (mounted.numberOf path).2.InUse limits docs :=
    ⟨catalog, hd, hw, hk.numberOf (catalog.has_of_some hs)⟩
  have hlater := hk.later_numberOf path
  cases ht with
  | @attr attr h =>
    have hnumber : (mounted.numberOf path).2.inodes.pathOf? attr.ino = some path := by
      rw [(Attributes.of_fileAttr? h).1]
      exact hk.pathOf?_numberOf_self path
    refine ⟨hnumbered, hlater, fun number hn => ?_, fun told ht => ?_⟩
    · rw [KernelReply.numbers_of_attr? (hr attr), List.mem_singleton] at hn
      exact ⟨path, hn ▸ hnumber⟩
    · rw [hr, Option.mem_some_iff] at ht
      exact ht ▸ hnumber
  | crashed h =>
    exact ⟨hnumbered, hlater, nofun, fun _ ht => (Option.not_mem_none _ ht).elim⟩

theorem ensures_replyAttr_leaves {reply : FileAttr → KernelReply} (hr : TellsAttr reply)
    (hm : mounted.InUse limits docs) :
    (replyAttr mounted path caller reply).Ensures (fun _ => False)
      (mounted.Leaves limits (some path)) (fun _ _ => False) docs := by
  obtain ⟨catalog, hd, hw, hk⟩ := id hm
  refine (ensures_replyAttr hd).mono (fun result after hpost => ?_) fun _ _ h => h
  obtain ⟨rfl, ⟨stat, hs, ht⟩ | ⟨-, errno, rfl⟩⟩ := hpost
  · exact ht.leaves hr hd hw hk hs
  · exact hm.leaves rfl

theorem ensures_withAnswer {faulty : Request → Prop} {α : Type} {call : Call α}
    {next : α → Call (KernelReply × Mounted)} {post : KernelReply × Mounted → Docs → Prop} :
    (withAnswer mounted call next).Ensures faulty post (fun _ _ => False) docs ↔
      call.Ensures faulty (fun answer => (next answer).Ensures faulty post fun _ _ => False)
        (fun error => post (.error error.errno, mounted)) docs := by
  unfold withAnswer
  rw [ensures_bind, ensures_attempt]
  exact Iff.rfl

theorem ensures_withAnswer_leaves {faulty : Request → Prop} {α : Type} {call : Call α}
    {next : α → Call (KernelReply × Mounted)} {mid : α → Docs → Prop}
    (h : call.Ensures faulty mid (fun _ after => mounted.InUse limits after) docs)
    (hn : ∀ answer after, mid answer after →
      (next answer).Ensures faulty (mounted.Leaves limits path?) (fun _ _ => False) after) :
    (withAnswer mounted call next).Ensures faulty (mounted.Leaves limits path?)
      (fun _ _ => False) docs :=
  ensures_withAnswer.mpr (h.mono hn fun _ _ hm => hm.leaves rfl)

end KernelCall

theorem Catalog.Changed.has {operation : Operation} {later : Catalog}
    (h : catalog.Changed limits now operation later) (hk : operation.Keeps) {other : String}
    (ho : catalog.Has other) : later.Has other := by
  have hset : ∀ {path stat}, (catalog.setStat path (some stat)).Has other := by
    intro path stat
    unfold Has
    rw [stats_setStat]
    split
    · exact Option.some_ne_none _
    · exact ho
  cases h with
  | looked h => exact ho
  | updated h hp hd => exact hset
  | created hs hm hp hn => exact hset
  | made hs hp hn => exact hset
  | unlinked hs hp hd => exact hk.elim
  | removed hs hp hc => exact hk.elim

-- Whether or not it succeeds.
theorem Call.Built.ensures_inUse {α : Type} {call : Call α} (h : call.Built limits now path)
    (hv : limits.Valid) (hm : mounted.InUse limits docs) :
    call.Ensures (fun _ => False) (fun _ after => mounted.InUse limits after)
      (fun _ after => mounted.InUse limits after) docs := by
  induction h generalizing docs with
  | done value => exact hm
  | operation operation used _ hk ht he =>
    obtain ⟨catalog, hd, hw, hknows⟩ := hm
    have hcall : (operation.call limits (now.after used)).Ensures (fun _ => False)
        (fun _ after => mounted.InUse limits after) (fun _ after => mounted.InUse limits after)
        docs := by
      refine (Operation.ensures_changed hv hw hd _ operation).mono (fun _ after hpost => ?_)
        fun _ after ha => ⟨catalog, ha, hw, hknows⟩
      obtain ⟨later, hc, hl⟩ := hpost
      exact ⟨later, hl, hc.wellFormed hw, hknows.mono fun other ho => hc.has hk ho⟩
    rw [he] at hcall
    exact ensures_map.mp hcall
  | bind _ _ ih ihn => exact (ih hm).bind (fun value _ ha => ihn value ha) fun _ _ ha => ha
  | @checked _ _ value _ _ ih =>
    cases value with
    | ok found => exact ih found rfl hm
    | error error => exact hm

theorem Catalog.Changed.ne_root {operation : Operation} {later : Catalog}
    (h : catalog.Changed limits now operation later) (hk : ¬operation.Keeps) :
    operation.path ≠ Path.root := by
  cases h with
  | looked h => cases operation <;> first | exact absurd trivial hk | exact h.elim
  | updated h hp hd => cases h <;> exact absurd trivial hk
  | created hs hm hp hn => exact absurd trivial hk
  | made hs hp hn => exact absurd trivial hk
  | unlinked hs hp hd => exact Path.ne_root_of_split hs
  | removed hs hp hc => exact Path.ne_root_of_split hs

-- The path is gone from the tree, and then from the table.
theorem Mounted.InUse.ensures_removal (hv : limits.Valid) (hm : mounted.InUse limits docs)
    (path? : Option String) (now : Readings) (operation : Operation) (hk : ¬operation.Keeps) :
    (operation.call limits now).Ensures (fun _ => False)
      (fun _ after => mounted.Leaves limits path? (.done, mounted.forget operation.path) after)
      (fun _ after => mounted.InUse limits after) docs := by
  obtain ⟨catalog, hd, hw, hknows⟩ := hm
  refine (Operation.ensures_changed hv hw hd now operation).mono ?_ ?_
  · intro _ after hpost
    obtain ⟨later, hc, hl⟩ := hpost
    have hforget : (mounted.forget operation.path).Knows limits later.Has := by
      refine hknows.forget (hc.ne_root hk) fun other ho hh => ?_
      unfold Catalog.Has
      rw [hc.stats_of_ne ho]
      exact hh
    exact ⟨⟨later, hl, hc.wellFormed hw, hforget⟩, hknows.coherent.later_forget _, nofun,
      fun _ ht => (Option.not_mem_none _ ht).elim⟩
  · exact fun _ after ha => ⟨catalog, ha, hw, hknows⟩

end DocTree
