import DocTree.Proofs.Kernel.Numbers

namespace DocTree

open Call

variable {limits : Limits} {mounted : Mounted} {docs : Docs} {path directory name : String}
  {caller : Caller} {now : Readings} {scope : String} {header : Header}

theorem Path.NulFree.join (hd : NulFree directory) (hn : NulFree name) :
    NulFree (join directory name) := by
  unfold NulFree at hd hn ⊢
  unfold Path.join
  split <;> simp_all [root]

-- A store of one client, whose regular files are byte strings.
def Docs.HoldsFiles (limits : Limits) (docs : Docs) : Prop :=
  ∃ contents, docs.InOrder limits contents

namespace Docs.HoldsFiles

variable (h : docs.HoldsFiles limits) {stat : StatRecord}

include h

theorem nulFree (hs : docs.StatAt path (some stat)) : Path.NulFree path := by
  obtain ⟨contents, -, hstored⟩ := h
  exact hstored.named path stat hs

theorem exists_bytes (hs : docs.StatAt path (some stat)) (hr : stat.isRegularFile) :
    ∃ bytes, docs.Holds limits path bytes := by
  obtain ⟨contents, -, hstored⟩ := h
  obtain ⟨bytes, hbytes, -⟩ := hstored.exists_bytes hs hr
  have hk := hstored.kept path (hstored.named path stat hs)
  rw [hbytes] at hk
  exact ⟨bytes, hk.1⟩

end Docs.HoldsFiles

namespace KernelCall

-- The name of an entry that a call is about.
def name? : KernelCall → Option Bytes
  | lookup _ name | create _ name _ _ | mkdir _ name _ _ | unlink _ name | rmdir _ name => some name
  | _ => none

-- A NUL ends a name on its way from the kernel, so there is none in it.
def NulFree (kernel : KernelCall) : Prop :=
  ∀ name ∈ kernel.name?.bind Utf8.decode, Path.NulFree name

instance : DecidablePred NulFree := fun kernel =>
  inferInstanceAs (Decidable (∀ name ∈ kernel.name?.bind Utf8.decode, Path.NulFree name))

theorem NulFree.path? {kernel : KernelCall} (h : kernel.NulFree)
    (hk : ∀ number path, mounted.inodes.pathOf? number = some path → Path.NulFree path) :
    ∀ path ∈ kernel.path? mounted, Path.NulFree path := by
  intro path hp
  have hchild : ∀ {parent name}, kernel.name? = some name → path ∈ child? mounted parent name →
      Path.NulFree path := by
    intro parent name hname hc
    obtain ⟨directory, hd, hc⟩ := Option.bind_eq_some_iff.mp hc
    obtain ⟨text, ht, rfl⟩ := Option.map_eq_some_iff.mp hc
    exact (hk parent directory hd).join (h text (by rw [hname]; exact ht))
  cases kernel with
  | lookup parent name => exact hchild rfl hp
  | create parent name mode umask => exact hchild rfl hp
  | mkdir parent name mode umask => exact hchild rfl hp
  | unlink parent name => exact hchild rfl hp
  | rmdir parent name => exact hchild rfl hp
  | _ => exact hk _ path hp

end KernelCall

section

variable (hv : limits.Valid) (hf : docs.HoldsFiles limits)

include hv hf

theorem Operation.ensures_holdsFiles {operation : Operation} (hp : operation.NulFree)
    (now : Readings) :
    (operation.call limits now).Ensures (fun _ => False) (fun _ after => after.HoldsFiles limits)
      (fun _ after => after.HoldsFiles limits) docs := by
  obtain ⟨contents, ⟨catalog, hd, hw⟩, hstored⟩ := hf
  refine (ensures_stored hv hw hd hstored hp now).mono (fun answer after hpost => ?_)
    fun error after hpost => ?_
  · obtain ⟨later, hc, hl⟩ := hpost.tree
    exact ⟨_, ⟨later, hl, hc.wellFormed hw⟩, hpost.stored⟩
  · exact ⟨contents, ⟨catalog, hpost.tree, hw⟩, hpost.stored⟩

theorem Call.Built.ensures_holdsFiles {α : Type} {call : Call α} (h : call.Built limits now path)
    (hp : Path.NulFree path) :
    call.Ensures (fun _ => False) (fun _ after => after.HoldsFiles limits)
      (fun _ after => after.HoldsFiles limits) docs := by
  induction h generalizing docs with
  | done value => exact hf
  | operation operation used ho _ _ he =>
    have hcall := operation.ensures_holdsFiles hv hf (ho ▸ hp : Path.NulFree operation.path)
      (now.after used)
    rw [he] at hcall
    exact ensures_map.mp hcall
  | bind _ _ ih ihn => exact (ih hf).bind (fun value _ ha => ihn value ha) fun _ _ ha => ha
  | @checked _ _ value _ _ ih =>
    cases value with
    | ok found => exact ih found rfl hf
    | error error => exact hf

theorem KernelCall.Makes.ensures_holdsFiles {path? : Option String}
    {call : Call (KernelReply × Mounted)} (h : Makes mounted caller now path? call)
    (hp : ∀ path ∈ path?, Path.NulFree path) (hm : mounted.InUse limits docs) :
    call.Ensures (fun _ => False) (fun _ after => after.HoldsFiles limits) (fun _ _ => False)
      docs := by
  have hlook : ∀ {path : String} {reply : FileAttr → KernelReply} {docs : Docs},
      docs.HoldsFiles limits → (replyAttr mounted path caller reply).Ensures (fun _ => False)
        (fun _ after => after.HoldsFiles limits) (fun _ _ => False) docs := by
    intro path reply docs hf
    obtain ⟨contents, ⟨catalog, hd, -⟩, -⟩ := id hf
    exact (ensures_replyAttr hd).mono (fun _ after hpost => hpost.1 ▸ hf) fun _ _ h => h
  obtain rfl : mounted.limits = limits := hm.limits_eq
  cases h with
  | refusal path? errno => exact hf
  | look path hr => exact hlook hf
  | change path hb hr =>
    exact ensures_withAnswer.mpr ((hb.ensures_holdsFiles hv hf (hp path rfl)).mono
      (fun _ after ha => hlook ha) fun _ _ ha => ha)
  | answer path hb hr =>
    exact ensures_withAnswer.mpr ((hb.ensures_holdsFiles hv hf (hp path rfl)).mono
      (fun _ after ha => ha) fun _ _ ha => ha)
  | removal operation hk _ he =>
    have hcall := operation.ensures_holdsFiles hv hf (hp operation.path rfl) now
    rw [he] at hcall
    exact ensures_withAnswer.mpr ((ensures_map.mp hcall).mono (fun _ _ ha => ha) fun _ _ ha => ha)
  | @listing ino size offset path hino ho =>
    have hlist : ((readdir ino offset size).call mounted caller now).Ensures _
        (fun result after => after = docs ∧
          mounted.Leaves mounted.limits none result after) _ docs :=
      ensures_readdir_leaves hv hm hino ho
    exact hlist.mono (fun _ after hpost => hpost.1 ▸ hf) fun _ _ h => h

end

namespace Served

variable {served : Served Image}

theorem MountedOn.holdsFiles
    (h : served.MountedOn (Image.unlimited scope) limits (Image.new header)) :
    (served.store.docs scope).HoldsFiles limits := by
  obtain ⟨hv, -, time, hr⟩ := h.bootstrapped
  have hreached : ((Image.reached limits scope header (fun _ => time.reading) []).docs
      scope).InOrder limits _ := Image.reached_inOrder hv scope header (fun _ => time.reading) nofun
  have hstore : Image.reached limits scope header (fun _ => time.reading) [] = served.store := by
    change (Call.run _ (Call.bind _ _) _).2 = _
    rw [run_bind, hr]
    rfl
  rw [hstore] at hreached
  exact ⟨_, hreached⟩

theorem InUse.holdsFiles_after (h : served.InUse limits scope) (hv : limits.Valid)
    (hf : (served.store.docs scope).HoldsFiles limits) {history : List KernelStep}
    (hn : ∀ step ∈ history, step.call.NulFree) :
    ((afterKernel (Image.unlimited scope) history served).store.docs scope).HoldsFiles limits := by
  induction history generalizing served with
  | nil => exact hf
  | cons step rest ih =>
    obtain ⟨hstep, hrest⟩ := List.forall_mem_cons.mp hn
    have hknown : ∀ number path, served.mounted.inodes.pathOf? number = some path →
        Path.NulFree path := fun number path hp => by
      obtain ⟨-, stat, hs⟩ := h.holds hp
      exact hf.nulFree hs
    obtain ⟨reply, -, hleaves⟩ := h.run hv step
    obtain ⟨-, -, hlater⟩ := step.run_of_ensures (Image.unlimited_serves scope)
      (step.call.makes_call.ensures_holdsFiles hv hf (hstep.path? hknown) h)
    exact ih hleaves.inUse hlater hrest

end Served

end DocTree
