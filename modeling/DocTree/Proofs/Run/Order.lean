import DocTree.Proofs.Run.Contents
import DocTree.Proofs.Store.Within
import DocTree.Proofs.Tree.Orderly

namespace DocTree

open Call

variable {limits : Limits} {maxSize : Nat} {catalog : Catalog} {docs : Docs} {scope : String}

theorem Operation.orderly (hv : limits.Valid) (h : docs.Settled limits maxSize catalog)
    (now : Readings) (operation : Operation) (hp : operation.NulFree) :
    (operation.call limits now).Orderly limits maxSize docs := by
  cases operation with
  | bootstrap => exact upholds_map.mpr (Tree.orderly_bootstrap h)
  | getattr path owner =>
    exact upholds_map.mpr (Tree.orderly_of_looks h (Tree.only_getattr ⟨_, rfl⟩))
  | openFile path flags =>
    exact upholds_map.mpr (Tree.orderly_of_looks h (Tree.only_openFile ⟨_, rfl⟩))
  | create path mode => exact upholds_map.mpr (Tree.orderly_create h)
  | mkdir path mode => exact upholds_map.mpr (Tree.orderly_mkdir h)
  | unlink path => exact upholds_map.mpr (Tree.orderly_unlink h hp)
  | rmdir path => exact upholds_map.mpr (Tree.orderly_rmdir h)
  | read path offset size => exact upholds_map.mpr (Tree.orderly_read h hp)
  | write path offset data => exact upholds_map.mpr (Tree.orderly_write h hv hp)
  | truncate path size => exact upholds_map.mpr (Tree.orderly_truncate h hv hp)
  | chmod path mode => exact upholds_map.mpr (Tree.orderly_changeRecord h)
  | utimens path times => exact upholds_map.mpr (Tree.orderly_changeRecord h)
  | readdir path offset =>
    exact upholds_map.mpr (Tree.orderly_of_looks h (Tree.only_readdir ⟨_, rfl⟩ ⟨_, rfl⟩))

namespace Unreliable

-- Once a request is not answered, it and all that follow are refused.
def Severed (fates : Nat → Fate) : Prop :=
  ∀ first later, first ≤ later → fates first ≠ .answered →
    ∃ reason, fates later = .refused reason

theorem Severed.tail {fates : Nat → Fate} (h : Severed fates) :
    Severed fun number => fates (number + 1) :=
  fun _ _ hl hn => h _ _ (Nat.add_le_add_right hl 1) hn

variable {α : Type} {store : Unreliable}

-- Behind a broken line nothing changes.
theorem image_of_mem_states_refused (call : Call α)
    (h : ∀ number, ∃ reason, store.fates number = .refused reason) :
    ∀ later ∈ call.states (within maxSize scope) store, later.image = store.image := by
  induction call generalizing store with
  | done value => exact fun later hm => congrArg image (List.mem_singleton.mp hm)
  | fail error => exact fun later hm => congrArg image (List.mem_singleton.mp hm)
  | crash => exact fun later hm => congrArg image (List.mem_singleton.mp hm)
  | submit collection request next ih =>
    obtain ⟨reason, hr⟩ := h 0
    intro later hm
    rw [states, within_of_refused hr] at hm
    rcases List.mem_cons.mp hm with rfl | hm
    · rfl
    · have hsame : later.image = image ⟨store.image, fun number => store.fates (number + 1)⟩ :=
        ih _ (fun number => h (number + 1)) later hm
      exact hsame

-- What a call runs through until the line breaks, it also runs through if the line holds.
theorem image_mem_states (call : Call α) (h : Severed store.fates) :
    ∀ later ∈ call.states (within maxSize scope) store,
      later.image ∈ call.states (Image.backend maxSize scope) store.image := by
  induction call generalizing store with
  | done value =>
    exact fun later hm => List.mem_singleton.mpr (congrArg image (List.mem_singleton.mp hm))
  | fail error =>
    exact fun later hm => List.mem_singleton.mpr (congrArg image (List.mem_singleton.mp hm))
  | crash =>
    exact fun later hm => List.mem_singleton.mpr (congrArg image (List.mem_singleton.mp hm))
  | submit collection request next ih =>
    intro later hm
    by_cases hf : store.fates 0 = .answered
    · rw [states, within_of_answered hf] at hm
      rcases List.mem_cons.mp hm with rfl | hm
      · exact mem_states ..
      · exact List.mem_cons_of_mem _ (ih _ h.tail later hm)
    · have hrefused := fun number => h 0 number (Nat.zero_le _) hf
      rw [image_of_mem_states_refused _ hrefused later hm]
      exact mem_states ..

end Unreliable

theorem Docs.AtRest.step {image : Image} (h : (image.docs scope).AtRest limits maxSize)
    (hv : limits.Valid) (step : Step) (hp : step.operation.NulFree) :
    ((step.run limits (Image.backend maxSize scope) image).2.docs scope).AtRest limits maxSize := by
  obtain ⟨catalog, h⟩ := h
  exact (Operation.orderly hv h step.now step.operation hp).run.docs_left

theorem atRest_afterSteps (hv : limits.Valid) (maxSize : Nat) (scope : String)
    (history : List Step) (hp : ∀ step ∈ history, step.operation.NulFree) {image : Image}
    (h : (image.docs scope).AtRest limits maxSize) :
    ((afterSteps limits (Image.backend maxSize scope) history image).docs scope).AtRest limits
      maxSize := by
  induction history generalizing image with
  | nil => exact h
  | cons step rest ih =>
    obtain ⟨hfirst, hrest⟩ := List.forall_mem_cons.mp hp
    exact ih hrest (h.step hv step hfirst)

theorem atRest_new (limits : Limits) (maxSize : Nat) (scope : String) (header : Header) :
    ((Image.new header).docs scope).AtRest limits maxSize := by
  have hnone : ∀ collection key, ((Image.new header).docs scope).value collection key = none :=
    Image.value_new
  refine ⟨Catalog.empty, ⟨⟨hnone .stats, hnone .dentries⟩, ?_, ?_⟩, ?_⟩
  · constructor <;> exact nofun
  · exact fun key hk => absurd (hnone _ _) hk
  · exact fun path _ => ⟨fun index hn => absurd (hnone _ _) hn, fun index _ => hnone _ _⟩

open Unreliable in
-- In each state between two requests and at the end, whether the line holds or breaks.
theorem record_stands_first (hv : limits.validate = .ok ()) (maxSize : Nat) (scope : String)
    (header : Header) (history : List Step) (hp : ∀ step ∈ history, step.operation.NulFree)
    (now : Readings) (operation : Operation) (ho : operation.NulFree) (fates : Nat → Fate)
    (hf : Severed fates) :
    ∀ later ∈ (operation.call limits now).states (within maxSize scope)
      ⟨afterSteps limits (Image.backend maxSize scope) history (Image.new header), fates⟩,
      (later.image.docs scope).StatFirst := by
  have hv := limits.validate_eq_ok_iff.mp hv
  obtain ⟨catalog, h⟩ :=
    atRest_afterSteps hv maxSize scope history hp (atRest_new limits maxSize scope header)
  intro later hm
  obtain ⟨after, hafter⟩ := (Operation.orderly hv h now operation ho).states h.standing later.image
    (image_mem_states _ hf later hm)
  exact hafter.statFirst

namespace Sample

-- The line breaks after `number` requests.
def cutAfter (number : Nat) : Nat → Fate := fun n =>
  if n < number then .answered else .refused "transport down"

theorem severed_cutAfter (number : Nat) : Unreliable.Severed (cutAfter number) := by
  intro first later hl hn
  have hle : ¬first < number := fun hlt => hn (if_pos hlt)
  exact ⟨_, if_neg (by omega)⟩

def cutShort : Unreliable :=
  ⟨afterSteps Sample.limits (Image.backend 1024 defaultScope) (⟨now, .bootstrap⟩ :: history)
    (Image.new default), cutAfter 3⟩

-- The last state of a removal that breaks off when one of three blocks is left.
def halfGone : Unreliable :=
  (((Operation.unlink "/f").call Sample.limits now).run (Unreliable.within 1024 defaultScope)
    cutShort).2

end Sample

theorem sample_record_stands_first :
    Sample.limits.validate = .ok () ∧ (Operation.unlink "/f").NulFree ∧
      Unreliable.Severed (Sample.cutAfter 3) ∧
      (Sample.halfGone.image.docs defaultScope).StatFirst ∧
      Sample.halfGone.image.docs defaultScope .blocks (Path.blockKey "/f" 1) = none ∧
      Sample.halfGone.image.docs defaultScope .blocks (Path.blockKey "/f" 2) ≠ none :=
  ⟨by decide, by decide, Sample.severed_cutAfter 3,
    record_stands_first (by decide) 1024 defaultScope default _ (by decide) Sample.now
      (.unlink "/f") (by decide) _ (Sample.severed_cutAfter 3) _ (Call.run_mem_states ..),
    by decide +kernel, by decide +kernel⟩

end DocTree
