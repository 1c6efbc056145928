import DocTree.Proofs.Run.Files
import DocTree.Proofs.Tree.Placed

namespace DocTree

open Call

-- The document that the removal of a missing file stores anew, without a name that is not in it.
def Operation.Restores (limits : Limits) (docs : Docs) (operation : Operation)
    (collection : Collection) (key : String) : Prop :=
  ∃ path leaf, operation = .unlink path ∧ docs .stats path = none ∧
    Path.split path limits.maxKeyLen = .ok (key, leaf) ∧ collection = .dentries

-- What a call leaves that fails: every value, and every version but at most one.
def Docs.Unharmed (limits : Limits) (operation : Operation) (docs after : Docs) : Prop :=
  ∀ collection key, after.value collection key = docs.value collection key ∧
    (after collection key = docs collection key ∨ operation.Restores limits docs collection key)

variable {docs after : Docs} {catalog : Catalog} {limits : Limits} {contents : Contents}
  {operation : Operation} {path : String} {content : Option Bytes}

theorem Docs.Unharmed.refl : docs.Unharmed limits operation docs := fun _ _ => ⟨rfl, .inl rfl⟩

-- Where nothing was stored and no value has come in, nothing is stored.
theorem Docs.eq_of_value {collection : Collection} {key : String}
    (h : after.value collection key = docs.value collection key)
    (hn : docs.value collection key = none) : after collection key = docs collection key := by
  rw [Docs.value_eq_none_iff.mp hn]
  exact Docs.value_eq_none_iff.mp (h.trans hn)

namespace Tree

-- Nothing of a missing file is stored, so all that its removal can do is store the directory
-- document of the parent as it was.
theorem unharmed_of_missing {parent leaf : String} (hw : catalog.WellFormed limits)
    (hd : docs.Shows catalog) (hk : docs.Keeps limits path content)
    (hs : Path.split path limits.maxKeyLen = .ok (parent, leaf)) (hn : catalog.stats path = none)
    (ha : after.Shows catalog) (hb : docs.SameBlocks after)
    (ho : docs.SameOutside (Path.Owns limits path) after) :
    docs.Unharmed limits (.unlink path) after := by
  have hnone : content = none := hk.eq_none (hd.statAt hn) fun _ h => nomatch h
  have hblocks : docs.blocks path = fun _ => none := by
    rw [hk.blocks_eq, hnone]
    funext index
    exact if_neg (Nat.not_lt_zero _)
  have hdentry := hw.dentries_eq_none (Catalog.not_hasDirectory_of_none hn)
  have hvalue : ∀ collection key, after.value collection key = docs.value collection key := by
    intro collection key
    cases collection with
    | stats => exact (ha.stats key).trans (hd.stats key).symm
    | dentries => exact (ha.dentries key).trans (hd.dentries key).symm
    | blocks => exact hb key
  intro collection key
  refine ⟨hvalue collection key, ?_⟩
  by_cases howns : Path.Owns limits path collection key
  swap
  · exact .inl (ho collection key howns)
  have hgone := Docs.eq_of_value (hvalue collection key)
  cases collection with
  | stats =>
    obtain rfl : key = path := howns
    exact .inl (hgone (hd.statAt hn))
  | dentries =>
    rcases howns with rfl | rfl
    · exact .inl (hgone ((hd.dentries key).trans (congrArg _ hdentry)))
    · refine .inr ⟨path, leaf, rfl, ?_, ?_, rfl⟩
      · exact Docs.value_eq_none_iff.mp (hd.statAt hn)
      · rwa [Path.parent_of_split hs]
  | blocks =>
    obtain ⟨index, -, rfl⟩ := howns
    exact .inl (hgone (congrFun hblocks index))

theorem ensures_unlink_unharmed (hv : limits.Valid) (hw : catalog.WellFormed limits)
    (hd : docs.Shows catalog) (hk : docs.Keeps limits path content) :
    (unlink limits path).Ensures (fun _ => False) (fun _ _ => True)
      (fun _ => docs.Unharmed limits (.unlink path)) docs := by
  by_cases hr : ∀ parts, Path.split path limits.maxKeyLen = .ok parts → catalog.HasDirectory path
  · exact (ensures_unlink_refused hd hr).mono (fun _ _ h => h.elim) fun _ _ h => h ▸ .refl
  obtain ⟨parent, leaf, hs, hn⟩ := split_of_not_refused hr
  -- It goes on after each part that fails; what it reports is how the removal of the record ended.
  have hcall : ((Operation.unlink path).call limits default).Ensures (fun _ => False)
      (fun _ => docs.SameOutside (Path.Owns limits path))
      (fun _ => docs.SameOutside (Path.Owns limits path)) docs :=
    Operation.ensures_sameOutside hv default (.unlink path)
  have houtside := ensures_map.mp hcall
  refine ((((ensures_unlink hd hs hn).and (ensures_unlink_changed hw hd default)).and
    (ensures_unlink_bytes hv hd hk)).and houtside).mono (fun _ _ _ => trivial) ?_
  intro _ after hpost
  obtain ⟨⟨⟨⟨-, hnone⟩, ha⟩, hb⟩, ho⟩ := hpost
  exact unharmed_of_missing hw hd hk hs (hnone fun _ h => h) ha hb ho

end Tree

theorem Operation.ensures_unharmed (hv : limits.Valid) (hw : catalog.WellFormed limits)
    (hd : docs.Shows catalog) (h : docs.Stored limits contents) (hp : operation.NulFree)
    (now : Readings) :
    (operation.call limits now).Ensures (fun _ => False) (fun _ _ => True)
      (fun _ => docs.Unharmed limits operation) docs := by
  have hk := h.kept _ hp
  by_cases hu : operation.UsesBlocks
  · cases operation with
    | unlink path => exact ensures_map.mpr (Tree.ensures_unlink_unharmed hv hw hd hk)
    | read path offset size =>
      refine ensures_map.mpr ((Tree.ensures_read_bytes hv hw hd hk).mono (fun _ _ _ => trivial) ?_)
      exact fun _ _ ha => ha.1 ▸ .refl
    | write path offset data =>
      refine ensures_map.mpr ((Tree.ensures_write_bytes hv hw hd hk).mono (fun _ _ _ => trivial) ?_)
      exact fun _ _ ha => ha.1 ▸ .refl
    | truncate path size =>
      refine ensures_map.mpr
        ((Tree.ensures_truncate_bytes hv hw hd hk).mono (fun _ _ _ => trivial) ?_)
      exact fun _ _ ha => ha.1 ▸ .refl
    | _ => exact hu.elim
  · exact (ensures_tree hw hd hu now).mono (fun _ _ _ => trivial) fun _ _ ha => ha ▸ .refl

-- A call that fails changes no document, except that an `unlink` of a missing path may give the
-- directory document of the parent a new version.
theorem failing_call_changes_nothing (hv : limits.validate = .ok ()) (scope : String)
    (header : Header) (now : Readings) {history : List Step}
    (hp : ∀ step ∈ history, step.operation.NulFree) {step : Step} (hs : step.operation.NulFree)
    {error : FsError} (hf : (step.run limits (Image.unlimited scope)
      (Image.reached limits scope header now history)).1 = .failed error) :
    ((Image.reached limits scope header now history).docs scope).Unharmed limits step.operation
      ((step.run limits (Image.unlimited scope)
        (Image.reached limits scope header now history)).2.docs scope) := by
  have hv := limits.validate_eq_ok_iff.mp hv
  obtain ⟨⟨catalog, hd, hw⟩, hstored⟩ := Image.reached_inOrder hv scope header now hp
  have hrun := (Operation.ensures_unharmed hv hw hd hstored hs step.now).run
    (Image.unlimited_serves scope)
  unfold Step.run at hf ⊢
  rw [hf] at hrun
  exact hrun

namespace Sample

-- A file that is not there is to go.
def missing : Step := ⟨now, .unlink "/g"⟩

def missed : Outcome Answer × Image :=
  missing.run Sample.limits (Image.unlimited defaultScope) image

end Sample

theorem sample_failing_call_changes_nothing :
    Sample.limits.validate = .ok () ∧ (∀ step ∈ Sample.history, step.operation.NulFree) ∧
      Sample.missing.operation.NulFree ∧ Sample.missed.1 = .failed .notFound ∧
      (Sample.image.docs defaultScope).Unharmed Sample.limits Sample.missing.operation
        (Sample.missed.2.docs defaultScope) ∧
      Sample.missed.2.docs defaultScope .dentries "/" ≠
        Sample.image.docs defaultScope .dentries "/" := by
  have hv : Sample.limits.validate = .ok () := by decide
  have hp : ∀ step ∈ Sample.history, step.operation.NulFree := by decide
  have hs : Sample.missing.operation.NulFree := by decide
  have hf : Sample.missed.1 = .failed .notFound := by decide +kernel
  exact ⟨hv, hp, hs, hf, failing_call_changes_nothing hv defaultScope default Sample.now hp hs hf,
    by decide +kernel⟩

end DocTree
