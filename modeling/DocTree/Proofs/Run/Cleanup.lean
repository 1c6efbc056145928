import DocTree.Proofs.Run.Order
import DocTree.Proofs.Tree.HalfMade

namespace DocTree

open Call

-- The calls that make a path, a file or a directory, each with the one that takes it away.
inductive Operation.UndoneBy (path : String) : Bool → Operation → Operation → Prop where
  | file (mode : UInt32) : UndoneBy path false (.create path mode) (.unlink path)
  | directory (mode : UInt32) : UndoneBy path true (.mkdir path mode) (.rmdir path)

-- The image behind the line after a call whose requests meet these fates.
def Step.brokenOff (limits : Limits) (maxSize : Nat) (scope : String) (fates : Nat → Fate)
    (step : Step) (image : Image) : Image :=
  (step.run limits (Unreliable.within maxSize scope) ⟨image, fates⟩).2.image

section

variable {limits : Limits} {maxSize : Nat} {catalog : Catalog} {docs after : Docs}
  {path parent leaf : String} {directory : Bool} {make undo : Operation} {now : Readings}

-- A block belongs to a file, so a path without a record has none.
theorem Docs.Settled.block_eq_none (h : docs.Settled limits maxSize catalog)
    (hp : Path.NulFree path) (hn : catalog.stats path = none) : docs .blocks path = none := by
  by_contra hne
  obtain ⟨owner, index, stat, ho, hk, hs, -⟩ :=
    h.owned path fun hv => hne (Docs.value_eq_none_iff.mp hv)
  have hkey : Path.blockKey path 0 = Path.blockKey owner index := hk
  obtain ⟨rfl, -⟩ := Path.blockKey_inj hp ho hkey
  rw [hn] at hs
  cases hs

theorem Tree.LeavesTree.value_eq {before : Docs} (hd : before.Shows catalog)
    (hb : before.SameBlocks docs) (ha : Tree.LeavesTree docs catalog after)
    (collection : Collection) (key : String) :
    after.value collection key = before.value collection key := by
  obtain ⟨hshows, hblocks⟩ := ha
  cases collection with
  | stats => exact (hshows.stats key).trans (hd.stats key).symm
  | dentries => exact (hshows.dentries key).trans (hd.dentries key).symm
  | blocks => exact (hblocks key).trans (hb key)

namespace Operation.UndoneBy

variable (hu : Operation.UndoneBy path directory make undo)

include hu

theorem withstands (hd : docs.Shows catalog)
    (hs : Path.split path limits.maxKeyLen = .ok (parent, leaf)) :
    (make.call limits now).Withstands (fun _ => docs.Begins catalog path parent leaf directory)
      (fun _ => docs.Begins catalog path parent leaf directory) docs := by
  cases hu with
  | file mode => exact withstands_map.mpr (Tree.withstands_create hd hs)
  | directory mode => exact withstands_map.mpr (Tree.withstands_mkdir hd hs)

theorem upholds (h : docs.Settled limits maxSize catalog) (now : Readings)
    (hv : catalog.Vacant limits path parent leaf) (hp : Path.NulFree path)
    (ha : docs.Begins catalog path parent leaf directory after) :
    (undo.call limits now).Upholds maxSize (fun _ => True)
      (fun _ => Tree.LeavesTree after catalog)
      (fun error last => error = FsError.notFound ∧ Tree.LeavesTree after catalog last) after := by
  have hfits := h.tree.fits parent
  obtain ⟨stat, begun, hdir, hb, hshows, hsame⟩ := ha
  cases hu with
  | file mode =>
    have hvalue : after.value .blocks path = none :=
      (hsame path).trans (Docs.value_eq_none_iff.mpr (h.block_eq_none hp hv.stat))
    have hn := Docs.value_eq_none_iff.mp hvalue
    exact upholds_map.mpr (Tree.upholds_unlink_begun hv hb hshows hfits hdir hn)
  | directory mode => exact upholds_map.mpr (Tree.upholds_rmdir_begun hv hb hshows hfits hdir)

end Operation.UndoneBy

-- The requests of the first call may be refused, dropped or carried out with the answer lost, and
-- it may succeed or fail.
theorem half_made_entry_is_cleaned_up (hv : limits.validate = .ok ()) (maxSize : Nat)
    (scope : String) (header : Header) {history : List Step}
    (hp : ∀ step ∈ history, step.operation.NulFree) (hpath : Path.NulFree path)
    {parts : String × String} (hs : Path.split path limits.maxKeyLen = .ok parts)
    (hn : (afterSteps limits (Image.backend maxSize scope) history (Image.new header)).docs scope
      .stats path = none)
    (hu : Operation.UndoneBy path directory make undo) (now later : Readings)
    (fates : Nat → Fate) :
    let image := afterSteps limits (Image.backend maxSize scope) history (Image.new header)
    let broken := Step.brokenOff limits maxSize scope fates ⟨now, make⟩ image
    let cleaned := Step.run limits (Image.backend maxSize scope) ⟨later, undo⟩ broken
    ((∃ answer, cleaned.1 = .done answer) ∨ cleaned.1 = .failed .notFound) ∧
      ∀ collection key, (cleaned.2.docs scope).value collection key =
        (image.docs scope).value collection key := by
  have hv := limits.validate_eq_ok_iff.mp hv
  obtain ⟨catalog, h⟩ :=
    atRest_afterSteps hv maxSize scope history hp (atRest_new limits maxSize scope header)
  intro image broken cleaned
  obtain ⟨parent, leaf⟩ := parts
  have hvacant := h.tree.vacant hs (h.shows.stats_eq (Docs.value_eq_none_iff.mpr hn))
  have hbegins : (image.docs scope).Begins catalog path parent leaf directory
      (broken.docs scope) :=
    ((hu.withstands h.shows hs).run_within ⟨image, fates⟩).docs_left
  have hclean := (hu.upholds h later hvacant hpath hbegins).run
  obtain ⟨-, -, -, -, -, hsame⟩ := hbegins
  change cleaned.1.Meets _ _ (cleaned.2.docs scope) at hclean
  generalize cleaned = result at hclean ⊢
  obtain ⟨outcome, last⟩ := result
  cases outcome with
  | done answer => exact ⟨.inl ⟨answer, rfl⟩, hclean.value_eq h.shows hsame⟩
  | failed error =>
    obtain ⟨rfl, hleaves⟩ := hclean
    exact ⟨.inr rfl, hleaves.value_eq h.shows hsame⟩
  | crashed => exact hclean.elim

end

namespace Sample

def filled : Image :=
  afterSteps Sample.limits (Image.backend 1024 defaultScope) (⟨now, .bootstrap⟩ :: history)
    (Image.new default)

-- The answer to one request gets lost.
def losing (number : Nat) : Nat → Fate := fun n => if n = number then .lost else .answered

-- The sixth request of `mkdir` lists the name in the parent.
def unanswered : Image :=
  Step.brokenOff limits 1024 defaultScope (losing 5) ⟨now, .mkdir "/d" 0o755⟩ filled

end Sample

open Sample in
theorem sample_half_made_entry_is_cleaned_up :
    Sample.limits.validate = .ok () ∧
      (∀ step ∈ (⟨now, .bootstrap⟩ :: history : List Step), step.operation.NulFree) ∧
      Path.NulFree "/d" ∧ Path.split "/d" Sample.limits.maxKeyLen = .ok ("/", "d") ∧
      filled.docs defaultScope .stats "/d" = none ∧
      Operation.UndoneBy "/d" true (.mkdir "/d" 0o755) (.rmdir "/d") ∧
      unanswered.docs defaultScope .stats "/d" ≠ none ∧
      unanswered.docs defaultScope .dentries "/d" ≠ none ∧
      ∀ collection key,
        ((Step.run Sample.limits (Image.backend 1024 defaultScope) ⟨now, .rmdir "/d"⟩
          unanswered).2.docs defaultScope).value collection key =
          (filled.docs defaultScope).value collection key := by
  have hp : ∀ step ∈ (⟨now, .bootstrap⟩ :: history : List Step), step.operation.NulFree := by decide
  have hpath : Path.NulFree "/d" := by decide
  have hs : Path.split "/d" Sample.limits.maxKeyLen = .ok ("/", "d") := by decide
  have hn : filled.docs defaultScope .stats "/d" = none := by decide +kernel
  have hu : Operation.UndoneBy "/d" true (.mkdir "/d" 0o755) (.rmdir "/d") := .directory 0o755
  exact ⟨by decide, hp, hpath, hs, hn, hu, by decide +kernel, by decide +kernel,
    (half_made_entry_is_cleaned_up (by decide) 1024 defaultScope default hp hpath hs hn hu now now
      (losing 5)).2⟩

end DocTree
