import DocTree.Proofs.Tree.Revises
import DocTree.Proofs.Tree.Withstood

namespace DocTree

open Call Content

-- Each stat record can be read, and has attributes.
def Docs.Sound (limits : Limits) (docs : Docs) : Prop :=
  ∀ path found, docs .stats path = some found →
    ∃ stat, StatRecord.decode found.value = .ok stat ∧ stat.Sound limits

-- A request that stores no record.
def Unrecorded (collection : Collection) (request : Request) : Prop :=
  collection = .stats → (∃ key, request = .get key) ∨ ∃ key, request = .remove key

-- A call that leaves a sound store sound, whatever becomes of its requests.
def Call.KeepsSound {α : Type} (limits : Limits) (call : Call α) : Prop :=
  ∀ docs : Docs, docs.Sound limits → call.Withstands (fun _ after => after.Sound limits)
    (fun _ after => after.Sound limits) docs

variable {limits : Limits} {docs after : Docs} {path : String} {now : Readings}

namespace Docs.Sound

variable (h : docs.Sound limits)

include h

theorem put {stat : StatRecord} (ha : docs.Put .stats path stat.encode after)
    (hs : stat.Sound limits) : after.Sound limits := by
  intro other found hf
  by_cases ho : other = path
  · subst ho
    have hv := ha.value_self
    unfold Docs.value at hv
    rw [hf, Option.map_some, Option.some_inj] at hv
    exact ⟨stat, hv ▸ stat.decode_encode, hs⟩
  · rw [ha.apply_of_ne fun hc => ho hc.2] at hf
    exact h other found hf

theorem answer {version : UInt64} {collection : Collection} {request : Request}
    (hr : Unrecorded collection request) :
    (docs.answer version collection request).2.Sound limits := by
  intro path found hf
  by_cases hk : Collection.stats = collection ∧ path = request.key
  · obtain ⟨rfl, rfl⟩ := hk
    rcases hr rfl with hget | ⟨key, rfl⟩
    · rw [answer_eq_self (.inr hget)] at hf
      exact h _ found hf
    · unfold Docs.answer at hf
      dsimp only at hf
      split at hf
      · exact h _ found hf
      · dsimp only [Request.key] at hf
        rw [set_self] at hf
        cases hf
  · rw [answer_of_ne hk] at hf
    exact h path found hf

end Docs.Sound

namespace Call

variable {α β : Type} {call : Call α}

theorem Only.keepsSound (h : call.Only Unrecorded) : call.KeepsSound limits :=
  fun _ hs => h.withstands (fun _ _ _ _ hr hd => hd.answer hr) hs

theorem KeepsSound.bind {next : α → Call β} (h : call.KeepsSound limits)
    (hn : ∀ value, (next value).KeepsSound limits) : (call >>= next).KeepsSound limits :=
  fun docs hs => (h docs hs).bind (fun value after ha => hn value after ha) fun _ _ ha => ha

theorem KeepsSound.of_map {f : α → β} (h : (f <$> call).KeepsSound limits) :
    call.KeepsSound limits :=
  fun docs hs => withstands_map.mp (h docs hs)

theorem keepsSound_check_bind {p : Prop} [Decidable p] {error : FsError} {next : Unit → Call α}
    (h : p → (next ()).KeepsSound limits) : (check p error >>= next).KeepsSound limits := by
  unfold check
  split
  · next hp => exact h hp
  · exact fun _ hs => hs

theorem keepsSound_ofExcept_bind {value : Except FsError β} {next : β → Call α}
    (h : ∀ found, value = .ok found → (next found).KeepsSound limits) :
    (ofExcept value >>= next).KeepsSound limits := by
  cases value with
  | ok found => exact h found rfl
  | error error => exact fun _ hs => hs

end Call

namespace Metadata

theorem keepsSound_insert {mode : UInt32} {time : TimeSpec} (hn : time.Normal) :
    (insert path mode time).KeepsSound limits := by
  refine fun docs h => withstands_insert (fun _ after ha => ?_) fun _ => h
  have hafter := h.put ha (StatRecord.sound_new limits mode hn)
  exact ⟨hafter, fun _ => hafter⟩

theorem keepsSound_update {change : StatChange} (hc : change.Sound limits) (hn : now.Normal) :
    (update path change now).KeepsSound limits := by
  refine fun docs h => withstands_update (fun tried _ stat found after hk hd ha => ?_) fun _ => h
  obtain ⟨other, ho, hs⟩ := h path found hk
  rw [hd] at ho
  cases ho
  have hafter := h.put ha (hs.apply hc (hn tried))
  exact ⟨hafter, fun _ => hafter⟩

end Metadata

theorem unrecorded_get {collection : Collection} {key : String} :
    Unrecorded collection (.get key) :=
  fun _ => .inl ⟨key, rfl⟩

theorem permits_unrecorded (path : String) (count : Nat) : Permits Unrecorded path count :=
  fun _ _ _ _ hc => nomatch hc

namespace Tree

variable {mode : UInt32} {time : TimeSpec}

-- The listing in the parent is no record.
theorem only_listChild_unrecorded {directory name : String} :
    (listChild directory name).Only Unrecorded :=
  only_listChild unrecorded_get fun _ _ hc => nomatch hc

theorem keepsSound_bootstrap (hn : time.Normal) : (bootstrap time).KeepsSound limits := by
  have hdentry : ensureRootDentry.Only Unrecorded := by
    refine only_bind (only_attempt (Directory.only_create fun hc => nomatch hc)) fun answer => ?_
    cases answer with
    | ok dentry => trivial
    | error error => exact only_check
  refine KeepsSound.bind ?_ fun _ => hdentry.keepsSound
  refine KeepsSound.bind (only_attempt (Metadata.only_get unrecorded_get)).keepsSound
    fun answer => ?_
  split
  · exact only_check.keepsSound
  · exact (Metadata.keepsSound_insert hn).bind fun _ _ hs => hs
  · exact fun _ hs => hs

theorem keepsSound_create (hn : time.Normal) :
    (create limits path mode time).KeepsSound limits := by
  refine keepsSound_ofExcept_bind fun parts _ => keepsSound_check_bind fun _ => ?_
  refine (only_requireDirectory unrecorded_get).keepsSound.bind fun _ => ?_
  refine (Metadata.keepsSound_insert hn).bind fun stat => ?_
  exact only_listChild_unrecorded.keepsSound.bind fun _ _ hs => hs

theorem keepsSound_mkdir (hn : time.Normal) :
    (mkdir limits path mode time).KeepsSound limits := by
  refine keepsSound_ofExcept_bind fun parts _ => ?_
  refine (only_requireDirectory unrecorded_get).keepsSound.bind fun _ => ?_
  refine (Metadata.keepsSound_insert hn).bind fun stat => ?_
  refine (Directory.only_create fun hc => nomatch hc).keepsSound.bind fun _ => ?_
  exact only_listChild_unrecorded.keepsSound.bind fun _ _ hs => hs

theorem keepsSound_unlink : (unlink limits path).KeepsSound limits :=
  (only_unlink unrecorded_get unrecorded_get (permits_unrecorded _ _) (fun _ _ hc => nomatch hc)
    fun _ => .inr ⟨_, rfl⟩).keepsSound

theorem keepsSound_rmdir : (rmdir limits path).KeepsSound limits :=
  (only_rmdir unrecorded_get unrecorded_get unrecorded_get (fun hc => nomatch hc)
    (fun _ _ hc => nomatch hc)
    fun _ => .inr ⟨_, rfl⟩).keepsSound

end Tree

theorem Call.Revises.keepsSound {α : Type} {call : Call α} (h : call.Revises limits now)
    (hn : now.Normal) : call.KeepsSound limits := by
  induction h with
  | aside h => exact (h.mono fun _ _ ha hc => .inl (ha.resolve_left (hc ▸ nofun))).keepsSound
  | update path hc => exact Metadata.keepsSound_update hc hn
  | bind _ _ ih ihn => exact ih.bind ihn
  | check _ ih => exact keepsSound_check_bind ih

open DocTree.Tree in
theorem Operation.keepsSound (hv : limits.Valid) (operation : Operation) (ht : operation.Timely)
    (hn : now.Normal) : (operation.call limits now).KeepsSound limits := by
  have hrevises : operation.Revising → (operation.call limits now).KeepsSound limits :=
    fun hr => (operation.revises hv hr ht).keepsSound hn
  cases operation with
  | bootstrap => exact (keepsSound_bootstrap (hn 0)).bind fun _ _ hs => hs
  | create path mode => exact (keepsSound_create (hn 0)).bind fun _ _ hs => hs
  | mkdir path mode => exact (keepsSound_mkdir (hn 0)).bind fun _ _ hs => hs
  | unlink path => exact keepsSound_unlink.bind fun _ _ hs => hs
  | rmdir path => exact keepsSound_rmdir.bind fun _ _ hs => hs
  | _ => exact hrevises trivial

end DocTree
