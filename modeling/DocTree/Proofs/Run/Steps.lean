import DocTree.Proofs.Store.Fates
import DocTree.Proofs.Tree.FileCalls

namespace DocTree

-- A call, and what the clock shows while it runs.
structure Step where
  now : Readings
  operation : Operation

def Step.run {σ : Type} (limits : Limits) (backend : Backend σ) (step : Step) (state : σ) :
    Outcome Answer × σ :=
  (step.operation.call limits step.now).run backend state

-- The state after calls one after the other, whether or not they succeed.
def afterSteps {σ : Type} (limits : Limits) (backend : Backend σ) : List Step → σ → σ
  | [], state => state
  | step :: rest, state => afterSteps limits backend rest (step.run limits backend state).2

-- The calls of a run with their outcomes.
def outcomes {σ : Type} (limits : Limits) (backend : Backend σ) :
    List Step → σ → List (Operation × Outcome Answer)
  | [], _ => []
  | step :: rest, state =>
    (step.operation, (step.run limits backend state).1) ::
      outcomes limits backend rest (step.run limits backend state).2

-- Requests get the same replies from a state and from its image under `f`, and go on in the same
-- way.
def Backend.Carries {σ τ : Type} (f : σ → τ) (backend : Backend σ) (other : Backend τ) : Prop :=
  ∀ collection request state, other collection request (f state) =
    ((backend collection request state).1, f (backend collection request state).2)

namespace Backend.Carries

variable {σ τ : Type} {f : σ → τ} {backend : Backend σ} {other : Backend τ}
  (h : Carries f backend other)

include h

theorem run {α : Type} (call : Call α) (state : σ) :
    call.run other (f state) = ((call.run backend state).1, f (call.run backend state).2) := by
  induction call generalizing state with
  | done value => rfl
  | fail error => rfl
  | crash => rfl
  | submit collection request next ih =>
    simp only [Call.run, h collection request state]
    exact ih _ _

theorem afterSteps (limits : Limits) (history : List Step) (state : σ) :
    DocTree.afterSteps limits other history (f state) =
      f (DocTree.afterSteps limits backend history state) := by
  induction history generalizing state with
  | nil => rfl
  | cons step rest ih =>
    simp only [DocTree.afterSteps, Step.run, h.run]
    exact ih _

theorem outcomes (limits : Limits) (history : List Step) (state : σ) :
    DocTree.outcomes limits other history (f state) =
      DocTree.outcomes limits backend history state := by
  induction history generalizing state with
  | nil => rfl
  | cons step rest ih =>
    simp only [DocTree.outcomes, Step.run, h.run, ih]

end Backend.Carries

-- The store of a client that starts with a new one: a bootstrap, and then whatever it calls.
def Image.reached (limits : Limits) (scope : String) (header : Header) (now : Readings)
    (history : List Step) : Image :=
  afterSteps limits (Image.unlimited scope) (⟨now, .bootstrap⟩ :: history) (Image.new header)

-- What becomes of the tree: the change that the call makes if it succeeds, or nothing.
theorem Step.run_changed {limits : Limits} {scope : String} {image : Image} {catalog : Catalog}
    (hv : limits.Valid) (step : Step) (hd : (image.docs scope).Shows catalog)
    (hw : catalog.WellFormed limits) :
    ∃ later, ((step.run limits (Image.unlimited scope) image).2.docs scope).Shows later ∧
      ((∃ answer, (step.run limits (Image.unlimited scope) image).1 = .done answer ∧
          catalog.Changed limits step.now step.operation later) ∨
        (∃ error, (step.run limits (Image.unlimited scope) image).1 = .failed error) ∧
          later = catalog) := by
  have hrun := (Operation.ensures_changed hv hw hd step.now step.operation).run
    (Image.unlimited_serves scope)
  unfold Step.run
  generalize (step.operation.call limits step.now).run (Image.unlimited scope) image = result at *
  obtain ⟨outcome, image⟩ := result
  cases outcome with
  | done answer =>
    obtain ⟨later, hc, hl⟩ := hrun
    exact ⟨later, hl, .inl ⟨answer, rfl, hc⟩⟩
  | failed error => exact ⟨catalog, hrun, .inr ⟨⟨error, rfl⟩, rfl⟩⟩
  | crashed => exact hrun.elim

namespace Catalog

-- The tree after the first bootstrap.
def rooted (now : TimeSpec) : Catalog :=
  (empty.setStat Path.root (some (StatRecord.new Mode.root now))).setDentry Path.root
    (some (Dentry.new Path.root Path.root))

theorem stats_rooted (now : TimeSpec) (path : String) : (rooted now).stats path =
    if path = Path.root then some (StatRecord.new Mode.root now) else none := by
  rw [rooted, stats_setDentry, stats_setStat]
  rfl

theorem dentries_rooted (now : TimeSpec) (path : String) : (rooted now).dentries path =
    if path = Path.root then some (Dentry.new Path.root Path.root) else none := by
  rw [rooted, dentries_setDentry]
  rfl

theorem isDirectory_root (now : TimeSpec) : (StatRecord.new Mode.root now).isDirectory = true := by
  have : Mode.kind Mode.root = .directory := by decide
  simp [StatRecord.isDirectory, StatRecord.kind, StatRecord.new, this]

theorem of_stats_rooted {now : TimeSpec} {path : String} {stat : StatRecord}
    (hs : (rooted now).stats path = some stat) :
    path = Path.root ∧ stat = StatRecord.new Mode.root now := by
  rw [stats_rooted] at hs
  split at hs
  · next hp => exact ⟨hp, (Option.some_inj.mp hs).symm⟩
  · cases hs

theorem rooted_wellFormed (limits : Limits) (now : TimeSpec) : (rooted now).WellFormed limits := by
  have hkind := isDirectory_root now
  constructor
  case root => exact ⟨_, by rw [stats_rooted, if_pos rfl], hkind⟩
  case placed => exact fun path stat hs hne => absurd (of_stats_rooted hs).1 hne
  case listed =>
    intro directory dentry name hd hm
    rw [dentries_rooted] at hd
    split at hd
    · rw [Option.some_inj] at hd
      subst hd
      cases hm
    · cases hd
  case documented =>
    intro path
    unfold HasDirectory
    rw [dentries_rooted, stats_rooted]
    split <;> simp [hkind]
  case named =>
    intro path dentry hd
    rw [dentries_rooted] at hd
    split at hd
    · next hp =>
      rw [Option.some_inj] at hd
      subst hd hp
      exact ⟨rfl, Path.parent_root.symm⟩
    · cases hd
  case kinds =>
    intro path stat hs
    rw [(of_stats_rooted hs).2]
    exact .inr hkind
  case empty =>
    intro path stat hs _
    rw [(of_stats_rooted hs).2]
    rfl

end Catalog

namespace Tree

open Call

theorem ensures_first_bootstrap {docs : Docs} {now : TimeSpec}
    (hn : ∀ collection key, docs.value collection key = none) :
    (bootstrap now).Ensures (fun _ => False)
      (fun _ after => after.Shows (Catalog.rooted now) ∧ docs.SameBlocks after)
      (fun _ _ => False) docs := by
  have hnone : ∀ collection key, docs collection key = none := fun collection key =>
    Docs.value_eq_none_iff.mp (hn collection key)
  have hd : docs.Shows Catalog.empty := ⟨fun path => hn .stats path, fun path => hn .dentries path⟩
  unfold bootstrap ensureRootStat ensureRootDentry
  refine ensures_bind.mpr (ensures_bind.mpr (ensures_attempt.mpr
    (Metadata.ensures_get (hd.stats Path.root) ?_ ?_ fun h => h.elim)))
  · intro stat found hf
    cases hf
  intro _
  dsimp only
  refine ensures_bind.mpr (Metadata.ensures_insert ?_ ?_ fun h => h.choose_spec.elim)
  · intro _ mid hmid
    refine ensures_bind.mpr (ensures_attempt.mpr (Directory.ensures_create ?_ ?_
      fun h => h.choose_spec.elim))
    · intro _ after ha
      exact ⟨ha.shows_dentry (hmid.shows_stat hd),
        (hmid.sameBlocks nofun).trans (ha.sameBlocks nofun)⟩
    · intro hne
      refine absurd ?_ hne
      rw [hmid.apply_of_ne (by simp)]
      exact hnone _ _
  · exact fun hne => absurd (hnone _ _) hne

end Tree

-- The first call of all succeeds, and this is what it leaves.
theorem first_bootstrap_run (limits : Limits) (scope : String) (header : Header) (now : Readings) :
    ∃ answer, (Step.run limits (Image.unlimited scope) ⟨now, .bootstrap⟩ (Image.new header)).1 =
        .done answer ∧
      ((Image.reached limits scope header now []).docs scope).Shows (Catalog.rooted (now 0)) ∧
      ∀ key, ((Image.reached limits scope header now []).docs scope).value .blocks key = none := by
  have hcall : (Operation.bootstrap.call limits now).Ensures (fun _ => False)
      (fun _ after => after.Shows (Catalog.rooted (now 0)) ∧
        ((Image.new header).docs scope).SameBlocks after)
      (fun _ _ => False) ((Image.new header).docs scope) :=
    Call.ensures_map.mpr (Tree.ensures_first_bootstrap Image.value_new)
  obtain ⟨answer, ha, hshows, hblocks⟩ := (hcall.run (Image.unlimited_serves scope)).exists_done
  exact ⟨answer, ha, hshows, fun key => (hblocks key).trans (Image.value_new _ _)⟩

theorem first_bootstrap (limits : Limits) (scope : String) (header : Header) (now : Readings) :
    ((Image.reached limits scope header now []).docs scope).Shows (Catalog.rooted (now 0)) ∧
      ∀ key, ((Image.reached limits scope header now []).docs scope).value .blocks key = none :=
  (first_bootstrap_run limits scope header now).choose_spec.2

namespace Sample

def limits : Limits := ⟨64, 4, 8⟩

-- A clock that stands still.
def now : Readings := fun _ => ⟨1600000000, 0⟩

-- Three blocks of four bytes.
def bytes : Bytes := [97, 98, 99, 100, 101, 102, 103, 104, 105, 106, 107, 108]

def history : List Step := [⟨now, .create "/f" 0o100644⟩, ⟨now, .write "/f" 0 bytes⟩]

def image : Image := Image.reached limits defaultScope default now history

def stat : StatRecord := (StatRecord.new 0o100644 (now 0)).apply (.size 12) (now 0)

-- The same store where request number `refused` from now on does not get through.
def store (refused : Nat) : Unreliable :=
  ⟨image, fun n => if n = refused then .refused "transport down" else .answered⟩

end Sample

end DocTree
