import DocTree.Proofs.Run.Files

namespace DocTree

variable {limits : Limits} {scope : String} {image : Image} {catalog : Catalog}

theorem Step.run_shows (hv : limits.Valid) (step : Step) (hd : (image.docs scope).Shows catalog)
    (hw : catalog.WellFormed limits) :
    ∃ later, ((step.run limits (Image.unlimited scope) image).2.docs scope).Shows later ∧
      later.WellFormed limits ∧ catalog.SameKinds later := by
  obtain ⟨later, hl, ⟨answer, -, hc⟩ | ⟨-, rfl⟩⟩ := step.run_changed hv hd hw
  · exact ⟨later, hl, hc.wellFormed hw, hc.sameKinds⟩
  · exact ⟨later, hl, hw, Catalog.SameKinds.refl⟩

theorem afterSteps_shows (hv : limits.Valid) (history : List Step)
    (hd : (image.docs scope).Shows catalog) (hw : catalog.WellFormed limits) :
    ∃ later, ((afterSteps limits (Image.unlimited scope) history image).docs scope).Shows later ∧
      later.WellFormed limits := by
  induction history generalizing image catalog with
  | nil => exact ⟨catalog, hd, hw⟩
  | cons step rest ih =>
    obtain ⟨later, hl, hwl, -⟩ := step.run_shows hv hd hw
    exact ih hl hwl

-- A block that is stored is one that a file of its length has.
theorem Docs.InOrder.of_block {docs : Docs} {contents : Contents} {key : String}
    (h : docs.InOrder limits contents) (hs : 0 < limits.blockSize) (hd : docs.Shows catalog)
    (hk : docs.value .blocks key ≠ none) :
    ∃ path index stat, key = Path.blockKey path index ∧ catalog.stats path = some stat ∧
      stat.isRegularFile ∧ index < Blocks.count limits.blockSize stat.size.toNat := by
  obtain ⟨path, index, hp, rfl⟩ := h.stored.keyed key hk
  have hkept := h.stored.kept path hp
  have hblocks := hkept.blocks_eq
  have hindex : docs.blocks path index ≠ none := hk
  rw [hblocks, Blocks.of] at hindex
  cases hc : contents path with
  | none =>
    rw [hc] at hindex
    exact absurd (if_neg (Nat.not_lt_zero _)) hindex
  | some bytes =>
    rw [hc] at hindex hkept
    obtain ⟨stat, hstat, hreg, hsize⟩ := hkept.1.stat
    refine ⟨path, index, stat, rfl, hd.stats_eq hstat, hreg, ?_⟩
    rw [Blocks.lt_count_iff hs, hsize]
    by_contra hn
    exact hindex (if_neg hn)

-- Calls, whether or not they succeed, leave a tree in which each path has its place; and no call
-- turns a file into a directory or back.
theorem reached_tree_is_wellFormed (hv : limits.validate = .ok ()) (scope : String)
    (header : Header) (now : Readings) (history : List Step) :
    ∃ catalog, ((Image.reached limits scope header now history).docs scope).Shows catalog ∧
      catalog.WellFormed limits ∧
      (∀ step : Step, ∃ later, ((step.run limits (Image.unlimited scope)
        (Image.reached limits scope header now history)).2.docs scope).Shows later ∧
        catalog.SameKinds later) ∧
      ((∀ step ∈ history, step.operation.NulFree) → ∀ key,
        ((Image.reached limits scope header now history).docs scope).value .blocks key ≠ none →
        ∃ path index stat, key = Path.blockKey path index ∧ catalog.stats path = some stat ∧
          stat.isRegularFile ∧ index < Blocks.count limits.blockSize stat.size.toNat) := by
  have hv := limits.validate_eq_ok_iff.mp hv
  obtain ⟨hroot, -⟩ := first_bootstrap limits scope header now
  obtain ⟨catalog, hd, hw⟩ := afterSteps_shows hv history hroot
    (Catalog.rooted_wellFormed limits (now 0))
  refine ⟨catalog, hd, hw, fun step => ?_, fun hp key hk => ?_⟩
  · obtain ⟨later, hl, -, hkinds⟩ := step.run_shows hv hd hw
    exact ⟨later, hl, hkinds⟩
  · exact (Image.reached_inOrder hv scope header now hp).of_block hv.blockSize_pos hd hk

theorem sample_tree_is_wellFormed :
    Sample.limits.validate = .ok () ∧ ∃ catalog, (Sample.image.docs defaultScope).Shows catalog ∧
      catalog.WellFormed Sample.limits := by
  have hv : Sample.limits.validate = .ok () := by decide
  obtain ⟨catalog, hd, hw, -⟩ :=
    reached_tree_is_wellFormed hv defaultScope default Sample.now Sample.history
  exact ⟨hv, catalog, hd, hw⟩

end DocTree
