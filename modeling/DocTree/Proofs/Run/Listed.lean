import DocTree.Proofs.Store.Within
import DocTree.Proofs.Tree.Placed

namespace DocTree

-- A directory with at least one child.
structure Docs.Lists (docs : Docs) (path : String) : Prop where
  stat : ∃ found stat, docs .stats path = some found ∧
    StatRecord.decode found.value = .ok stat ∧ stat.isDirectory
  dentry : ∃ found dentry, docs .dentries path = some found ∧
    Dentry.decode found.value = .ok dentry ∧ dentry.children ≠ []

-- The record of a path, its document and the document of its parent are as they were.
structure Docs.Intact (path : String) (docs after : Docs) : Prop where
  stat : after .stats path = docs .stats path
  dentry : after .dentries path = docs .dentries path
  listing : after .dentries (Path.parent path) = docs .dentries (Path.parent path)

theorem Docs.Intact.of_eq {docs after : Docs} {path : String} (h : after = docs) :
    docs.Intact path after := by
  subst h
  exact ⟨rfl, rfl, rfl⟩

namespace Operation

-- How many requests a removal makes before it changes anything.
def lookups : Operation → Nat
  | unlink _ => 1
  | rmdir _ => 2
  | _ => 0

-- The call finds out what it removes, or gives up: `unlink` looks at the record, `rmdir` at the
-- record, without which it gives up, and at the document of the directory.
def Sees (fates : Nat → Fate) : Operation → Prop
  | unlink _ => fates 0 = .answered
  | rmdir _ => fates 0 = .answered → fates 1 = .answered
  | _ => True

end Operation

-- The first requests as they are, and everything answered after them.
def clearFrom (count : Nat) (fates : Nat → Fate) : Nat → Fate := fun n =>
  if n < count then fates n else .answered

theorem clearFrom_of_lt {count n : Nat} {fates : Nat → Fate} (h : n < count) :
    clearFrom count fates n = fates n := if_pos h

theorem clearFrom_add (count n : Nat) (fates : Nat → Fate) :
    clearFrom count fates (n + count) = .answered := if_neg (Nat.not_lt.mpr (Nat.le_add_left ..))

namespace Unreliable

open Call

variable {maxSize : Nat} {scope path : String} {store : Unreliable} {limits : Limits}
  {found : Document}

theorem run_stat_of_answered {stat : StatRecord}
    (hk : store.image.docs scope .stats path = some found)
    (hd : StatRecord.decode found.value = .ok stat) (hf : store.fates 0 = .answered) :
    (Metadata.get path).run (within maxSize scope) store =
      (.done (stat, found.version), (within maxSize scope .stats (.get path) store).2) := by
  unfold Metadata.get
  change (Call.run _ (Call.bind _ _) store) = _
  rw [run_bind, run_get_of_answered hk hf]
  dsimp only
  rw [hd]
  rfl

theorem run_stat_of_not_answered (maxSize : Nat) (scope path : String)
    (hf : store.fates 0 ≠ .answered) :
    ∃ text, (Metadata.get path).run (within maxSize scope) store =
      (.failed (.io text), (within maxSize scope .stats (.get path) store).2) := by
  obtain ⟨text, hr⟩ := run_get_of_not_answered maxSize scope .stats path hf
  refine ⟨text, ?_⟩
  unfold Metadata.get
  change (Call.run _ (Call.bind _ _) store) = _
  rw [run_bind, hr]

theorem run_dentry_of_answered {dentry : Dentry}
    (hk : store.image.docs scope .dentries path = some found)
    (hd : Dentry.decode found.value = .ok dentry) (hf : store.fates 0 = .answered) :
    (Directory.get path).run (within maxSize scope) store =
      (.done dentry, (within maxSize scope .dentries (.get path) store).2) := by
  unfold Directory.get Directory.getVersioned
  change (Call.run _ (Call.bind (Call.bind _ _) _) store) = _
  rw [run_bind, run_bind, run_get_of_answered hk hf]
  dsimp only
  rw [hd]
  rfl

theorem run_dentry_of_not_answered (maxSize : Nat) (scope path : String)
    (hf : store.fates 0 ≠ .answered) :
    ∃ text, (Directory.get path).run (within maxSize scope) store =
      (.failed (.io text), (within maxSize scope .dentries (.get path) store).2) := by
  obtain ⟨text, hr⟩ := run_get_of_not_answered maxSize scope .dentries path hf
  refine ⟨text, ?_⟩
  unfold Directory.get Directory.getVersioned
  change (Call.run _ (Call.bind (Call.bind _ _) _) store) = _
  rw [run_bind, run_bind, hr]

theorem run_refuseDirectory (hl : (store.image.docs scope).Lists path)
    (hf : store.fates 0 = .answered) :
    (Tree.refuseDirectory path).run (within maxSize scope) store =
      (.failed .isDirectory, (within maxSize scope .stats (.get path) store).2) := by
  obtain ⟨found, stat, hk, hd, hdir⟩ := hl.stat
  unfold Tree.refuseDirectory
  change (Call.bind _ _).run _ store = _
  rw [run_bind, run_attempt, run_stat_of_answered hk hd hf]
  simp only [check, hdir, not_true_eq_false, ite_false]
  rfl

theorem run_refuseDirectory_of_not_answered (hf : store.fates 0 ≠ .answered) :
    (Tree.refuseDirectory path).run (within maxSize scope) store =
      (.done (), (within maxSize scope .stats (.get path) store).2) := by
  obtain ⟨text, hr⟩ := run_stat_of_not_answered maxSize scope path hf
  unfold Tree.refuseDirectory
  change (Call.bind _ _).run _ store = _
  rw [run_bind, run_attempt, hr]
  rfl

theorem run_requireDirectory (hl : (store.image.docs scope).Lists path)
    (hf : store.fates 0 = .answered) :
    (Tree.requireDirectory path).run (within maxSize scope) store =
      (.done (), (within maxSize scope .stats (.get path) store).2) := by
  obtain ⟨found, stat, hk, hd, hdir⟩ := hl.stat
  unfold Tree.requireDirectory
  change (Call.bind _ _).run _ store = _
  rw [run_bind, run_stat_of_answered hk hd hf]
  simp only [check, hdir, ite_true]
  rfl

theorem run_requireDirectory_of_not_answered (maxSize : Nat) (scope path : String)
    (hf : store.fates 0 ≠ .answered) :
    ∃ error, (Tree.requireDirectory path).run (within maxSize scope) store =
      (.failed error, (within maxSize scope .stats (.get path) store).2) := by
  obtain ⟨text, hr⟩ := run_stat_of_not_answered maxSize scope path hf
  refine ⟨.io text, ?_⟩
  unfold Tree.requireDirectory
  change (Call.bind _ _).run _ store = _
  rw [run_bind, hr]

theorem run_dropDentry (hl : (store.image.docs scope).Lists path)
    (hf : store.fates 0 = .answered) :
    (Tree.dropDentry path).run (within maxSize scope) store =
      (.failed .notEmpty, (within maxSize scope .dentries (.get path) store).2) := by
  obtain ⟨found, dentry, hk, hd, hc⟩ := hl.dentry
  unfold Tree.dropDentry
  change (Call.bind _ _).run _ store = _
  rw [run_bind, run_attempt, run_dentry_of_answered hk hd hf]
  simp only [check, hc, ite_false]
  rfl

theorem run_dropDentry_of_not_answered (hf : store.fates 0 ≠ .answered) :
    (Tree.dropDentry path).run (within maxSize scope) store =
      (.done (), (within maxSize scope .dentries (.get path) store).2) := by
  obtain ⟨text, hr⟩ := run_dentry_of_not_answered maxSize scope path hf
  unfold Tree.dropDentry
  change (Call.bind _ _).run _ store = _
  rw [run_bind, run_attempt, hr]
  rfl

theorem docs_unlink (hl : (store.image.docs scope).Lists path) (hf : store.fates 0 = .answered) :
    ((Tree.unlink limits path).run (within maxSize scope) store).2.image.docs scope =
      store.image.docs scope := by
  unfold Tree.unlink
  cases Path.split path limits.maxKeyLen with
  | error error => rfl
  | ok parts =>
    rw [ofExcept_ok_bind]
    change ((Call.bind _ _).run (within maxSize scope) store).2.image.docs scope = _
    rw [run_bind, run_refuseDirectory hl hf]
    exact docs_within_get store

theorem docs_rmdir (hl : (store.image.docs scope).Lists path)
    (hf : store.fates 0 = .answered → store.fates 1 = .answered) :
    ((Tree.rmdir limits path).run (within maxSize scope) store).2.image.docs scope =
      store.image.docs scope := by
  unfold Tree.rmdir
  cases Path.split path limits.maxKeyLen with
  | error error => rfl
  | ok parts =>
    rw [ofExcept_ok_bind]
    change ((Call.bind _ _).run (within maxSize scope) store).2.image.docs scope = _
    rw [run_bind]
    by_cases hfirst : store.fates 0 = .answered
    · have hsame : (within maxSize scope .stats (.get path) store).2.image.docs scope =
          store.image.docs scope := docs_within_get store
      have hsecond : (within maxSize scope .stats (.get path) store).2.fates 0 = .answered := by
        rw [fates_within]
        exact hf hfirst
      rw [run_requireDirectory hl hfirst]
      change ((Call.bind _ _).run (within maxSize scope) _).2.image.docs scope = _
      rw [run_bind, run_dropDentry (hsame ▸ hl) hsecond]
      exact (docs_within_get _).trans hsame
    · obtain ⟨error, hr⟩ := run_requireDirectory_of_not_answered maxSize scope path hfirst
      rw [hr]
      exact docs_within_get store

-- From here on every request is answered.
def Clear (store : Unreliable) : Prop := ∀ n, store.fates n = .answered

theorem clear_run {α : Type} (call : Call α) (h : store.Clear) :
    (call.run (within maxSize scope) store).2.Clear := by
  induction call generalizing store with
  | done value => exact h
  | fail error => exact h
  | crash => exact h
  | submit collection request next ih =>
    exact ih _ fun n => (congrFun fates_within n).trans (h (n + 1))

theorem run_bestEffort {α : Type} {call : Call α} {allowed : Collection → Request → Prop}
    (maxSize : Nat) (scope : String) (h : call.Only allowed) (hc : store.Clear) :
    ∃ later, (bestEffort call).run (within maxSize scope) store = (.done (), later) ∧
      later.Clear := by
  have hlater : (call.run (within maxSize scope) store).2.Clear := clear_run call hc
  have hcrash : (call.run (within maxSize scope) store).1 ≠ .crashed := h.run_ne_crashed store
  unfold bestEffort
  change ∃ later, (Call.bind _ _).run _ store = _ ∧ _
  rw [run_bind, run_attempt]
  generalize call.run (within maxSize scope) store = result at hlater hcrash
  obtain ⟨outcome, later⟩ := result
  cases outcome with
  | done value => exact ⟨later, rfl, hlater⟩
  | failed error => exact ⟨later, rfl, hlater⟩
  | crashed => exact absurd rfl hcrash

theorem stat_gone (hc : store.Clear) :
    ((Metadata.remove path).run (within maxSize scope) store).2.image.docs scope .stats path =
      none := by
  unfold Metadata.remove Document.remove
  change ((Call.bind _ _).run (within maxSize scope) store).2.image.docs scope .stats path = none
  have hstate := state_expectSuccess (within maxSize scope) .stats (.remove path) store
  rw [run_bind]
  generalize (Document.expectSuccess .stats (.remove path)).run (within maxSize scope) store =
    result at hstate
  obtain ⟨outcome, later⟩ := result
  have hgone : later.image.docs scope .stats path = none := by
    rw [show later = _ from hstate]
    exact not_mem_within_remove (hc 0)
  cases outcome <;> exact hgone

-- The listing goes as far as it can, and then the record goes.
theorem stat_gone_unlisting {directory name : String} (hc : store.Clear) :
    ((bestEffort (Directory.removeChild directory name) >>= fun _ => Metadata.remove path).run
      (within maxSize scope) store).2.image.docs scope .stats path = none := by
  have honly : (Directory.removeChild directory name).Only fun _ _ => True :=
    Directory.only_modify trivial fun _ _ => trivial
  obtain ⟨later, hr, hlater⟩ := run_bestEffort maxSize scope honly hc
  change ((Call.bind _ _).run (within maxSize scope) store).2.image.docs scope .stats path = none
  rw [run_bind, hr]
  exact stat_gone hlater

theorem unlink_goes {parts : String × String} (hs : Path.split path limits.maxKeyLen = .ok parts)
    (hf : store.fates 0 ≠ .answered) (hc : ∀ n, store.fates (n + 1) = .answered) :
    ((Tree.unlink limits path).run (within maxSize scope) store).2.image.docs scope .stats path =
      none := by
  have hclear : (within maxSize scope .stats (.get path) store).2.Clear :=
    fun n => (congrFun fates_within n).trans (hc n)
  have honly : (Content.remove limits path).Only fun _ _ => True :=
    Content.only_removeRest (fun _ _ _ _ => trivial) 0
  obtain ⟨later, hr, hlater⟩ := run_bestEffort maxSize scope honly hclear
  unfold Tree.unlink
  rw [hs, ofExcept_ok_bind]
  change ((Call.bind _ _).run (within maxSize scope) store).2.image.docs scope .stats path = none
  rw [run_bind, run_refuseDirectory_of_not_answered hf]
  change ((Call.bind _ _).run (within maxSize scope) _).2.image.docs scope .stats path = none
  rw [run_bind, hr]
  exact stat_gone_unlisting hlater

theorem rmdir_goes {parts : String × String} (hs : Path.split path limits.maxKeyLen = .ok parts)
    (hl : (store.image.docs scope).Lists path) (hf : store.fates 0 = .answered)
    (hn : store.fates 1 ≠ .answered) (hc : ∀ n, store.fates (n + 2) = .answered) :
    ((Tree.rmdir limits path).run (within maxSize scope) store).2.image.docs scope .stats path =
      none := by
  have hsecond : (within maxSize scope .stats (.get path) store).2.fates 0 ≠ .answered := by
    rw [fates_within]
    exact hn
  have hclear : (within maxSize scope .dentries (.get path)
      (within maxSize scope .stats (.get path) store).2).2.Clear := by
    intro n
    rw [fates_within, fates_within]
    exact hc n
  unfold Tree.rmdir
  rw [hs, ofExcept_ok_bind]
  change ((Call.bind _ _).run (within maxSize scope) store).2.image.docs scope .stats path = none
  rw [run_bind, run_requireDirectory hl hf]
  change ((Call.bind _ _).run (within maxSize scope) _).2.image.docs scope .stats path = none
  rw [run_bind, run_dropDentry_of_not_answered hsecond]
  exact stat_gone_unlisting hclear

theorem state_map {α β : Type} (call : Call α) (f : α → β) :
    ((f <$> call).run (within maxSize scope) store).2 =
      (call.run (within maxSize scope) store).2 := by
  change ((Call.bind _ _).run (within maxSize scope) store).2 = _
  rw [run_bind]
  cases call.run (within maxSize scope) store with
  | mk outcome later => cases outcome <;> rfl

end Unreliable

open Unreliable

-- For every store that calls have filled, whatever becomes of the requests that follow the looks.
theorem listed_directory_stays_iff {limits : Limits} (hv : limits.validate = .ok ()) (maxSize : Nat)
    (scope : String) (header : Header) (history : List Step) (path : String)
    (hr : path ≠ Path.root)
    (hl : ((afterSteps limits (Image.backend maxSize scope) history (Image.new header)).docs
      scope).Lists path) (now : Readings) (operation : Operation)
    (ho : operation = .unlink path ∨ operation = .rmdir path) (fates : Nat → Fate) :
    (∀ later, (∀ n < operation.lookups, later n = fates n) →
      ((afterSteps limits (Image.backend maxSize scope) history (Image.new header)).docs
        scope).Intact path (((operation.call limits now).run (within maxSize scope)
          ⟨afterSteps limits (Image.backend maxSize scope) history (Image.new header),
            later⟩).2.image.docs scope)) ↔
      operation.Sees fates := by
  have hnew : ((Image.new header).docs scope).Placed limits := by
    intro path hn
    rw [Image.docs_new] at hn
    exact absurd rfl hn
  have hplaced := placed_afterSteps (limits.validate_eq_ok_iff.mp hv) maxSize scope history hnew
  generalize afterSteps limits (Image.backend maxSize scope) history (Image.new header) = image at *
  obtain ⟨found, stat, hstat, -⟩ := hl.stat
  have hsome : image.docs scope .stats path ≠ none := by
    rw [hstat]
    exact nofun
  obtain ⟨parent, leaf, hs⟩ := (hplaced path hsome).resolve_left hr
  have hstays : ∀ after : Docs, after .stats path = none →
      ¬(image.docs scope).Intact path after := fun after ha hi => hsome (hi.stat ▸ ha)
  constructor
  · intro h
    -- It is worst if everything is answered after the looks.
    rcases ho with rfl | rfl
    · by_contra hn
      refine hstays _ ?_ (h (clearFrom 1 fates) fun n => clearFrom_of_lt)
      rw [Operation.call, state_map]
      exact unlink_goes hs hn fun n => clearFrom_add 1 n fates
    · intro hfirst
      by_contra hn
      refine hstays _ ?_ (h (clearFrom 2 fates) fun n => clearFrom_of_lt)
      rw [Operation.call, state_map]
      exact rmdir_goes hs hl hfirst hn fun n => clearFrom_add 2 n fates
  · intro h later hl'
    apply Docs.Intact.of_eq
    rcases ho with rfl | rfl
    · rw [Operation.call, state_map]
      exact docs_unlink hl ((hl' 0 Nat.one_pos).trans h)
    · rw [Operation.call, state_map]
      refine docs_rmdir hl fun hfirst => ?_
      have h0 := hl' 0 Nat.two_pos
      exact (hl' 1 Nat.one_lt_two).trans (h (h0 ▸ hfirst))

namespace Sample

def crowdedHistory : List Step :=
  [⟨now, .bootstrap⟩, ⟨now, .mkdir "/d" 0o755⟩, ⟨now, .create "/d/f" 0o100644⟩]

def crowded : Image :=
  afterSteps limits (Image.backend 1024 defaultScope) crowdedHistory (Image.new default)

theorem lists_crowded : (crowded.docs defaultScope).Lists "/d" := by
  let stat := StatRecord.new (Mode.directory ||| 0o755) (now 0)
  let dentry : Dentry := ⟨"/d", "/", ["f"]⟩
  refine ⟨⟨⟨stat.encode, 3, 0⟩, stat, ?_, stat.decode_encode, by decide⟩,
    ⟨⟨dentry.encode, 7, 0⟩, dentry, ?_, dentry.decode_encode, by decide⟩⟩
  · decide +kernel
  · decide +kernel

-- Only one request does not get through.
def refusing (number : Nat) : Nat → Fate := fun n =>
  if n = number then .refused "transport down" else .answered

end Sample

-- The look at the record is answered, and the one at the document of the directory too.
theorem sample_listed_directory_stays :
    (Sample.crowded.docs defaultScope).Lists "/d" ∧
      (Operation.rmdir "/d").Sees (Sample.refusing 2) ∧
      ∀ later, (∀ n < 2, later n = Sample.refusing 2 n) →
        (Sample.crowded.docs defaultScope).Intact "/d"
          (((Operation.rmdir "/d").call Sample.limits Sample.now).run (within 1024 defaultScope)
            ⟨Sample.crowded, later⟩ |>.2.image.docs defaultScope) :=
  ⟨Sample.lists_crowded, fun _ => rfl,
    (listed_directory_stays_iff (by decide) 1024 defaultScope default Sample.crowdedHistory "/d"
      (by decide) Sample.lists_crowded Sample.now _ (.inr rfl) (Sample.refusing 2)).mpr
        fun _ => rfl⟩

-- The look at the document of the directory is refused, and the directory goes with its child.
theorem sample_listed_directory_goes :
    (Sample.crowded.docs defaultScope).Lists "/d" ∧
      ¬(Sample.crowded.docs defaultScope).Intact "/d"
        (((Operation.rmdir "/d").call Sample.limits Sample.now).run (within 1024 defaultScope)
          ⟨Sample.crowded, Sample.refusing 1⟩ |>.2.image.docs defaultScope) := by
  refine ⟨Sample.lists_crowded, fun hi => ?_⟩
  have hgone : (((Operation.rmdir "/d").call Sample.limits Sample.now).run
      (within 1024 defaultScope) ⟨Sample.crowded, Sample.refusing 1⟩ |>.2.image.docs
        defaultScope) .stats "/d" = none := by decide +kernel
  have hthere : Sample.crowded.docs defaultScope .stats "/d" ≠ none := by decide +kernel
  exact hthere (hi.stat ▸ hgone)

end DocTree
