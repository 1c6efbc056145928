import DocTree.Proofs.Bytes.Blocks
import DocTree.Proofs.Call.Document
import DocTree.Proofs.Path
import DocTree.Tree.Content

namespace DocTree

open Call

namespace Docs

def blocks (docs : Docs) (path : String) : Blocks :=
  fun index => docs.value .blocks (Path.blockKey path index)

variable {docs after : Docs} {path : String} {index : Nat} {block : Bytes}

theorem Put.blocks (h : docs.Put .blocks (Path.blockKey path index) block after) :
    after.blocks path = Function.update (docs.blocks path) index (some block) := by
  funext other
  unfold Docs.blocks
  rw [h.value]
  by_cases ho : other = index
  · subst ho
    rw [if_pos ⟨rfl, rfl⟩, Function.update_self]
  · rw [Function.update_of_ne ho, if_neg fun he => ho (Path.blockKey_index_inj he.2)]

theorem blocks_set_none : (docs.set .blocks (Path.blockKey path index) none).blocks path =
    Function.update (docs.blocks path) index none := by
  funext other
  unfold Docs.blocks
  rw [value_set]
  by_cases ho : other = index
  · subst ho
    rw [if_pos ⟨rfl, rfl⟩, Function.update_self, Option.map_none]
  · rw [Function.update_of_ne ho, if_neg fun he => ho (Path.blockKey_index_inj he.2)]

end Docs

theorem Limits.Valid.maxFileLen_eq {limits : Limits} (h : limits.Valid) :
    limits.maxFileLen = limits.blockSize * limits.maxBlocks ∧
      limits.maxFileLen + limits.blockSize < Word.limit := by
  have hb := h.blockSize_le
  have hm := Nat.mul_le_mul hb h.maxBlocks_le
  simp only [maxDocumentSize, maxBlockCount] at hb hm
  unfold maxFileLen Word.mulSat Word.limit
  omega

namespace Content

-- The requests that name a block of a file.
def OnBlocks (path : String) (collection : Collection) (request : Request) : Prop :=
  collection = .blocks ∧ ∃ index, request.key = Path.blockKey path index

-- The requests that name one of the first `count` blocks of a file are allowed.
def Permits (allowed : Collection → Request → Prop) (path : String) (count : Nat) : Prop :=
  ∀ index request, index < count → request.key = Path.blockKey path index → allowed .blocks request

theorem permits_onBlocks (path : String) (count : Nat) : Permits (OnBlocks path) path count :=
  fun index _ _ hk => ⟨rfl, index, hk⟩

variable {β : Type} {faulty : Request → Prop} {err : FsError → Docs → Prop} {docs : Docs}
  {path : String} {index length : Nat} {create : Bool} {change : Bytes → Option (Bytes × β)}

variable {allowed : Collection → Request → Prop}

theorem only_fetch (h : allowed .blocks (.get (Path.blockKey path index))) :
    (fetch path index).Only allowed := by
  refine only_bind (only_attempt (only_get h)) fun answer => ?_
  split <;> trivial

theorem only_modify (ha : ∀ request, request.key = Path.blockKey path index →
    allowed .blocks request) (hc : ∀ block, change block ≠ none) :
    (modify path index create change).Only allowed := by
  refine only_retry (fun _ => only_bind (only_fetch (ha _ rfl)) fun found => ?_) _
  cases found with
  | some found =>
    obtain ⟨changed, hk⟩ := Option.ne_none_iff_exists'.mp (hc found.1)
    dsimp only
    rw [hk, ofOption_some_bind]
    exact only_bind (only_stored (only_replace (ha _ rfl))) fun _ => trivial
  | none =>
    obtain ⟨changed, hk⟩ := Option.ne_none_iff_exists'.mp (hc [])
    dsimp only
    rw [hk, ofOption_some_bind]
    split
    · exact only_bind (only_stored (only_insert (ha _ rfl))) fun _ => trivial
    · trivial

theorem ensures_fetch {post : Option (Bytes × UInt64) → Docs → Prop}
    (hs : ∀ found, docs .blocks (Path.blockKey path index) = some found →
      docs.blocks path index = some found.value → post (some (found.value, found.version)) docs)
    (hn : docs.blocks path index = none → post none docs)
    (hf : (∃ request, faulty request) → ∀ text, err (.io text) docs) :
    (fetch path index).Ensures faulty post err docs := by
  unfold fetch
  apply ensures_bind.mpr
  apply ensures_attempt.mpr
  apply ensures_get
  · intro found hk
    apply hs found hk
    unfold Docs.blocks Docs.value
    rw [hk, Option.map_some]
  · intro hk
    exact hn (Docs.value_eq_none_iff.mpr hk)
  · intro h text
    exact hf ⟨_, h⟩ text

theorem ensures_isFull {post : Bool → Docs → Prop} {size : Nat}
    (hs : post (decide (∃ block, docs.blocks path index = some block ∧ block.length = size)) docs)
    (hf : (∃ request, faulty request) → ∀ text, err (.io text) docs) :
    (isFull size path index).Ensures faulty post err docs := by
  unfold isFull
  refine ensures_bind.mpr (ensures_fetch ?_ ?_ hf)
  · intro found hk hb
    simp only [hb, Option.some_inj, exists_eq_left'] at hs
    exact hs
  · intro hb
    simp only [hb, reduceCtorEq, false_and, exists_false, decide_false] at hs
    exact hs

-- A change of a block that is there, or that is made if it is not.
theorem ensures_modify {post : Option β → Docs → Prop} {block : Bytes} {answer : β}
    (hm : create = true ∨ docs.blocks path index ≠ none)
    (hc : change ((docs.blocks path index).getD []) = some (block, answer))
    (hs : ∀ after, docs.Put .blocks (Path.blockKey path index) block after →
      post (some answer) after)
    (hf : (∃ request, faulty request) → ∀ text, err (.io text) docs ∧
      ∀ after, docs.Put .blocks (Path.blockKey path index) block after → err (.io text) after) :
    (modify path index create change).Ensures faulty post err docs := by
  refine ensures_retry (ensures_bind.mpr (ensures_fetch ?_ ?_ ?_))
  · intro found hk hb
    rw [hb, Option.getD_some] at hc
    dsimp only
    rw [hc, ofOption_some_bind]
    apply ensures_bind.mpr
    apply ensures_stored
    apply ensures_replace hk
    · exact fun version after ha => ⟨_, rfl, hs after ha⟩
    · exact fun h text => hf ⟨_, h⟩ text
  · intro hb
    rw [hb, Option.getD_none] at hc
    have ht : create = true := hm.resolve_right fun h => h hb
    have hn := Docs.value_eq_none_iff.mp hb
    dsimp only
    rw [ht, if_pos rfl, hc, ofOption_some_bind]
    apply ensures_bind.mpr
    apply ensures_stored
    apply ensures_insert
    · exact fun _ version after ha => ⟨_, rfl, hs after ha⟩
    · exact fun h => absurd hn h
    · exact fun h text => ⟨(hf ⟨_, h⟩ text).1, fun _ => (hf ⟨_, h⟩ text).2⟩
  · exact fun h text => (hf h text).1

end Content

end DocTree
