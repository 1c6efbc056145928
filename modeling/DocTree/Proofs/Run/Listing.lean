import DocTree.Proofs.Run.Steps
import DocTree.Proofs.Tree.Ledger

namespace DocTree

variable {limits : Limits}

namespace Ledger

def after (ledger : Ledger) (history : List (Operation × Outcome Answer)) : Ledger :=
  history.foldl (fun ledger call => ledger.record call.1 call.2) ledger

-- The ledger of a client that starts with a new store.
def reached (limits : Limits) (scope : String) (header : Header) (now : Readings)
    (history : List Step) : Ledger :=
  Ledger.after [] (outcomes limits (Image.unlimited scope) (⟨now, .bootstrap⟩ :: history)
    (Image.new header))

variable {scope : String} {image : Image} {catalog : Catalog} {ledger : Ledger}

theorem tells_rooted (now : TimeSpec) :
    Ledger.Tells [(Path.root, .directory)] (Catalog.rooted now) := by
  have hroot : (StatRecord.new Mode.root now).kind = .directory :=
    of_decide_eq_true (Catalog.isDirectory_root now)
  constructor
  case nodup => exact List.nodup_singleton _
  case kinds =>
    intro path
    rw [Catalog.kindOf, Catalog.stats_rooted]
    by_cases hp : path = Path.root
    · simp [kindOf, hp, hroot]
    · simp [kindOf, hp, Ne.symm hp]
  case listings =>
    intro directory dentry hd
    rw [Catalog.dentries_rooted] at hd
    split at hd
    · next hp =>
      rw [← Option.some_inj.mp hd, hp]
      decide
    · cases hd

theorem Tells.run (hv : limits.Valid) (step : Step) (h : ledger.Tells catalog)
    (hd : (image.docs scope).Shows catalog) (hw : catalog.WellFormed limits) :
    ∃ later, ((step.run limits (Image.unlimited scope) image).2.docs scope).Shows later ∧
      later.WellFormed limits ∧
      (ledger.record step.operation (step.run limits (Image.unlimited scope) image).1).Tells
        later := by
  obtain ⟨later, hl, ⟨answer, ha, hc⟩ | ⟨⟨error, he⟩, rfl⟩⟩ := step.run_changed hv hd hw
  · rw [ha]
    exact ⟨later, hl, hc.wellFormed hw, h.record hw hc answer⟩
  · rw [he]
    exact ⟨later, hl, hw, by cases step.operation <;> exact h⟩

theorem Tells.afterSteps (hv : limits.Valid) (history : List Step) (h : ledger.Tells catalog)
    (hd : (image.docs scope).Shows catalog) (hw : catalog.WellFormed limits) :
    ∃ later, ((afterSteps limits (Image.unlimited scope) history image).docs scope).Shows later ∧
      later.WellFormed limits ∧
      (ledger.after (outcomes limits (Image.unlimited scope) history image)).Tells later := by
  induction history generalizing image catalog ledger with
  | nil => exact ⟨catalog, hd, hw, h⟩
  | cons step rest ih =>
    obtain ⟨later, hl, hwl, htl⟩ := h.run hv step hd hw
    exact ih htl hl hwl

-- The ledger tells the tree at any point of a run.
theorem tells_reached (hv : limits.Valid) (scope : String) (header : Header) (now : Readings)
    (history : List Step) :
    ∃ catalog, ((Image.reached limits scope header now history).docs scope).Shows catalog ∧
      catalog.WellFormed limits ∧ (reached limits scope header now history).Tells catalog := by
  obtain ⟨answer, ha, hd, -⟩ := first_bootstrap_run limits scope header now
  have hfirst : reached limits scope header now history =
      Ledger.after [(Path.root, .directory)] (outcomes limits (Image.unlimited scope) history
        (Image.reached limits scope header now [])) := by
    rw [reached, outcomes, ha]
    rfl
  rw [hfirst]
  exact (tells_rooted (now 0)).afterSteps hv history hd
    (Catalog.rooted_wellFormed limits (now 0))

variable (hd : (image.docs scope).Shows catalog) (hw : catalog.WellFormed limits)

include hd hw

theorem Tells.succeeds_iff (h : ledger.Tells catalog) {step : Step} (ho : step.operation.OnTree) :
    (∃ answer, (step.run limits (Image.unlimited scope) image).1 = .done answer) ↔
      step.operation.Allowed limits ledger.kindOf := by
  have hrun := (Operation.ensures_allowed hw hd ho step.now).run (Image.unlimited_serves scope)
  rw [show ledger.kindOf = catalog.kindOf from funext h.kinds]
  unfold Step.run
  generalize (step.operation.call limits step.now).run (Image.unlimited scope) image = result at *
  obtain ⟨outcome, image⟩ := result
  cases outcome with
  | done answer => exact iff_of_true ⟨answer, rfl⟩ hrun
  | failed error => exact iff_of_false (fun ⟨_, ha⟩ => nomatch ha) hrun
  | crashed => exact hrun.elim

-- Each directory that there is is listed, in the order of the ledger.
theorem Tells.readdir (hv : limits.Valid) (h : ledger.Tells catalog) {directory : String}
    (hk : ledger.kindOf directory = some .directory) (now : Readings) (offset : UInt64) :
    (Step.run limits (Image.unlimited scope) ⟨now, .readdir directory offset⟩ image).1 =
      .done (.names ("." :: ".." :: (ledger.listing directory).drop offset.toNat)) := by
  have hdir : catalog.HasDirectory directory := by
    rw [Catalog.hasDirectory_iff, ← h.kinds, hk]
  have hcall : (Operation.call limits now (.readdir directory offset)).Ensures (fun _ => False)
      (fun answer _ => answer =
        .names ("." :: ".." :: (ledger.listing directory).drop offset.toNat))
      (fun _ _ => False) (image.docs scope) := by
    refine Call.ensures_map.mpr ((Tree.ensures_names hd hw hv.maxKeyLen_pos hdir).mono ?_ ?_)
    · intro names after hpost
      obtain ⟨dentry, hdentry, rfl⟩ := hpost
      rw [h.listings directory dentry hdentry]
    · exact fun _ _ hpost => hpost
  obtain ⟨answer, ha, rfl⟩ := (hcall.run (Image.unlimited_serves scope)).exists_done
  exact ha

end Ledger

-- What the outcomes of the calls so far say: which paths there are, each once; that a call on the
-- tree succeeds exactly if they allow it; and that a directory lists exactly the paths that lie in
-- it, in the order in which they were made.
theorem outcomes_tell_tree (hv : limits.validate = .ok ()) (scope : String) (header : Header)
    (now : Readings) (history : List Step) :
    let image := Image.reached limits scope header now history
    let ledger := Ledger.reached limits scope header now history
    ledger.kindOf Path.root = some .directory ∧ ledger.paths.Nodup ∧
      (∀ directory, (ledger.listing directory).Nodup) ∧
      (∀ step : Step, step.operation.OnTree →
        ((∃ answer, (step.run limits (Image.unlimited scope) image).1 = .done answer) ↔
          step.operation.Allowed limits ledger.kindOf)) ∧
      ∀ directory, ledger.kindOf directory = some .directory → ∀ later offset,
        (Step.run limits (Image.unlimited scope) ⟨later, .readdir directory offset⟩ image).1 =
          .done (.names ("." :: ".." :: (ledger.listing directory).drop offset.toNat)) := by
  have hv := limits.validate_eq_ok_iff.mp hv
  obtain ⟨catalog, hd, hw, ht⟩ := Ledger.tells_reached hv scope header now history
  refine ⟨?_, ht.nodup, Ledger.nodup_listing ht.nodup, ?_, ?_⟩
  · rw [ht.kinds]
    exact Catalog.hasDirectory_iff.mp hw.root
  · exact fun step ho => ht.succeeds_iff hd hw ho
  · exact fun directory hk later offset => ht.readdir hd hw hv hk later offset

namespace Sample

-- One file is made twice, and removed in between.
def remade : List Step :=
  [⟨now, .mkdir "/d" 0o755⟩, ⟨now, .create "/d/a" 0o100644⟩, ⟨now, .create "/d/b" 0o100644⟩,
    ⟨now, .create "/d/a" 0o100644⟩, ⟨now, .unlink "/d/a"⟩, ⟨now, .create "/d/a" 0o100644⟩]

theorem reached_remade : Ledger.reached Sample.limits defaultScope default now remade =
    [("/", .directory), ("/d", .directory), ("/d/b", .regularFile), ("/d/a", .regularFile)] := by
  decide +kernel

end Sample

-- The file that was made again comes last.
theorem sample_outcomes_tell_tree :
    Sample.limits.validate = .ok () ∧
      (Step.run Sample.limits (Image.unlimited defaultScope) ⟨Sample.now, .readdir "/d" 0⟩
        (Image.reached Sample.limits defaultScope default Sample.now Sample.remade)).1 =
          .done (.names [".", "..", "b", "a"]) := by
  have hv : Sample.limits.validate = .ok () := by decide
  obtain ⟨-, -, -, -, hlist⟩ :=
    outcomes_tell_tree hv defaultScope default Sample.now Sample.remade
  rw [Sample.reached_remade] at hlist
  exact ⟨hv, hlist "/d" (by decide +kernel) Sample.now 0⟩

end DocTree
