import DocTree.Proofs.Call.Only
import DocTree.Proofs.Call.Withstands
import DocTree.Proofs.Tree.Grounded

namespace DocTree

open Call

variable {α : Type} {post : α → Docs → Prop} {err : FsError → Docs → Prop} {docs : Docs}
  {catalog : Catalog} {path directory : String} {now : Readings}

-- Whatever becomes of a request, it was carried out or not.
theorem Docs.MayServe.keeps {inv : Docs → Prop} {after : Docs} {collection : Collection}
    {request : Request} {reply : Reply} (h : docs.MayServe collection request reply after)
    (hi : inv docs) (ha : ∀ version, inv (docs.answer version collection request).2) :
    inv after := by
  cases h with
  | answered version => exact ha version
  | tooBig _ => exact hi
  | refused _ => exact hi
  | dropped => exact hi
  | lost version => exact ha version

namespace Call

variable {allowed : Collection → Request → Prop} {inv : Docs → Prop}

theorem Only.withstands {call : Call α} (h : call.Only allowed)
    (hs : ∀ docs version collection request, allowed collection request → inv docs →
      inv (docs.answer version collection request).2) (hi : inv docs) :
    call.Withstands (fun _ => inv) (fun _ => inv) docs := by
  induction call generalizing docs with
  | done value => exact hi
  | fail error => exact hi
  | crash => exact h
  | submit collection request next ih =>
    intro reply after hr
    exact ih reply (h.2 reply) (hr.keeps hi fun version => hs _ version _ _ h.1 hi)

-- Looks leave the documents as they are.
theorem Only.withstands_looks {call : Call α}
    (h : call.Only fun _ request => ∃ key, request = .get key) (docs : Docs) :
    call.Withstands (fun _ => (· = docs)) (fun _ => (· = docs)) docs := by
  refine h.withstands (fun found version collection request hr he => ?_) rfl
  rw [Docs.answer_eq_self (.inr hr)]
  exact he

end Call

namespace Metadata

theorem withstands_get {post : StatRecord × UInt64 → Docs → Prop}
    (hs : ∀ stat found, docs .stats path = some found → StatRecord.decode found.value = .ok stat →
      post (stat, found.version) docs)
    (he : ∀ error, err error docs) : (get path).Withstands post err docs := by
  unfold get
  refine withstands_bind.mpr (Call.withstands_get (fun found hk => ?_) he)
  dsimp only
  cases hd : StatRecord.decode found.value with
  | ok stat => exact hs stat found hk hd
  | error error => exact he error

theorem withstands_insert {post : StatRecord → Docs → Prop} {mode : UInt32} {now : TimeSpec}
    (hs : docs .stats path = none → ∀ after,
      docs.Put .stats path (StatRecord.new mode now).encode after →
      post (StatRecord.new mode now) after ∧ ∀ text, err (.io text) after)
    (he : ∀ error, err error docs) : (insert path mode now).Withstands post err docs := by
  unfold insert
  refine withstands_bind.mpr (Call.withstands_insert (fun hn after ha => ?_) he)
  exact (hs hn after ha).imp_left fun hp _ => hp

theorem withstands_update {post : StatRecord → Docs → Prop} {change : StatChange}
    (hs : ∀ tried < maxAttempts, ∀ stat found after, docs .stats path = some found →
      StatRecord.decode found.value = .ok stat →
      docs.Put .stats path (stat.apply change (now tried)).encode after →
      post (stat.apply change (now tried)) after ∧ ∀ text, err (.io text) after)
    (he : ∀ error, err error docs) : (update path change now).Withstands post err docs := by
  refine withstands_retry (fun tried ht => ?_) (he _)
  unfold updateOnce
  refine withstands_bind.mpr (withstands_get (fun stat found hk hd => ?_) he)
  refine withstands_bind.mpr (withstands_stored (withstands_replace hk (fun after ha => ?_) ?_))
  · obtain ⟨hp, hl⟩ := hs tried ht stat found after hk hd ha
    exact ⟨fun _ => hp, hl⟩
  · intro error
    split
    · exact rfl
    · exact he error

end Metadata

namespace Directory

theorem withstands_getVersioned {post : Dentry × UInt64 → Docs → Prop} (hd : docs.Shows catalog)
    (hs : ∀ dentry found, catalog.dentries directory = some dentry →
      docs .dentries directory = some found → post (dentry, found.version) docs)
    (he : ∀ error, err error docs) : (getVersioned directory).Withstands post err docs := by
  unfold getVersioned
  refine withstands_bind.mpr (Call.withstands_get (fun found hk => ?_) he)
  obtain ⟨dentry, hc, hv⟩ := hd.exists_dentry hk
  rw [hv, ofExcept_ok_bind]
  exact hs dentry found hc hk

theorem withstands_get {post : Dentry → Docs → Prop} (hd : docs.Shows catalog)
    (hs : ∀ dentry, catalog.dentries directory = some dentry → post dentry docs)
    (he : ∀ error, err error docs) : (get directory).Withstands post err docs := by
  unfold get
  refine withstands_bind.mpr (withstands_getVersioned hd ?_ he)
  exact fun dentry _ hc _ => hs dentry hc

theorem withstands_create {post : Dentry → Docs → Prop} {parent : String}
    (hs : docs .dentries directory = none → ∀ after,
      docs.Put .dentries directory (Dentry.new directory parent).encode after →
      post (Dentry.new directory parent) after ∧ ∀ text, err (.io text) after)
    (he : ∀ error, err error docs) : (create directory parent).Withstands post err docs := by
  unfold create
  refine withstands_bind.mpr (Call.withstands_insert (fun hn after ha => ?_) he)
  exact (hs hn after ha).imp_left fun hp _ => hp

theorem withstands_modify {post : Dentry → Docs → Prop} {change : Dentry → Dentry}
    (hd : docs.Shows catalog)
    (hs : ∀ dentry after, catalog.dentries directory = some dentry →
      docs.Put .dentries directory (change dentry).encode after →
      post (change dentry) after ∧ ∀ text, err (.io text) after)
    (he : ∀ error, err error docs) : (modify directory change).Withstands post err docs := by
  refine withstands_retry (fun _ _ => ?_) (he _)
  unfold modifyOnce
  refine withstands_bind.mpr (withstands_getVersioned hd (fun dentry found hc hk => ?_) he)
  refine withstands_bind.mpr (withstands_stored (withstands_replace hk (fun after ha => ?_) ?_))
  · obtain ⟨hp, hl⟩ := hs dentry after hc ha
    exact ⟨fun _ => hp, hl⟩
  · intro error
    split
    · exact rfl
    · exact he error

end Directory

end DocTree
