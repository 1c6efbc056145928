import DocTree.Proofs.Call.Unanswered
import DocTree.Proofs.Document.Fields
import DocTree.Proofs.Tree.Rooted

namespace DocTree

open Call

namespace Tree

-- What a bootstrap stores where there is nothing.
def rootValue? (now : TimeSpec) (collection : Collection) (key : String) : Option Bytes :=
  if key = Path.root then
    match collection with
    | .stats => some (StatRecord.new Mode.root now).encode
    | .dentries => some (Dentry.new Path.root Path.root).encode
    | .blocks => none
  else
    none

theorem rootValue?_cases (first second : TimeSpec) (collection : Collection) (key : String) :
    rootValue? first collection key = rootValue? second collection key ∨
      (collection = .stats ∧ key = Path.root) := by
  by_cases hk : key = Path.root
  · cases collection with
    | stats => exact .inr ⟨rfl, hk⟩
    | dentries => exact .inl rfl
    | blocks => exact .inl rfl
  · unfold rootValue?
    rw [if_neg hk, if_neg hk]
    exact .inl rfl

theorem eq_of_rootValue?_ne_none {now : TimeSpec} {collection : Collection} {key : String}
    (h : rootValue? now collection key ≠ none) :
    key = Path.root ∧ (collection = .stats ∨ collection = .dentries) := by
  by_cases hk : key = Path.root
  · subst hk
    cases collection with
    | stats => exact ⟨rfl, .inl rfl⟩
    | dentries => exact ⟨rfl, .inr rfl⟩
    | blocks => exact absurd rfl h
  · unfold rootValue? at h
    rw [if_neg hk] at h
    exact absurd rfl h

end Tree

namespace Docs

-- Why there can be no root directory with these documents, if there can be none.
def rootObstacle? (docs : Docs) (maxSize : Nat) : Option FsError :=
  (docs.recordObstacle? maxSize).or
    (if (Dentry.new Path.root Path.root).encode.length ≤ maxSize then none else some .fileTooLarge)

-- Some of what a bootstrap adds to `docs` is there, and all else is as it was.
structure OnTheWay (docs : Docs) (maxSize : Nat) (now : TimeSpec) (after : Docs) : Prop where
  kept : ∀ {collection key}, docs collection key ≠ none → after collection key = docs collection key
  made : ∀ {collection key}, docs collection key = none → after collection key ≠ none →
    after.value collection key = Tree.rootValue? now collection key
  obstacle : after.rootObstacle? maxSize = docs.rootObstacle? maxSize
  -- A bootstrap that is bound to fail adds nothing.
  moved : after = docs ∨ docs.rootObstacle? maxSize = none

variable {docs mid after : Docs} {maxSize : Nat} {now : TimeSpec} {collection : Collection}
  {key : String}

theorem rootObstacle?_of_record (h : docs.RecordsRoot) : docs.rootObstacle? maxSize =
    if (Dentry.new Path.root Path.root).encode.length ≤ maxSize then none
    else some .fileTooLarge := by
  obtain ⟨found, stat, hk, hd, hdir⟩ := h
  simp only [rootObstacle?, recordObstacle?, hk, hd, hdir, ite_true, Option.none_or]

-- The document of the root is shorter than its record.
theorem length_root_le (hl : StatRecord.width ≤ maxSize) :
    (Dentry.new Path.root Path.root).encode.length ≤ maxSize :=
  Nat.le_trans (by decide) hl

theorem rootObstacle?_of_missing (hn : docs .stats Path.root = none)
    (hl : StatRecord.width ≤ maxSize) : docs.rootObstacle? maxSize = none := by
  simp only [rootObstacle?, recordObstacle?, hn, if_pos hl, if_pos (length_root_le hl),
    Option.none_or]

theorem rootObstacle?_congr (h : after .stats Path.root = docs .stats Path.root) :
    after.rootObstacle? maxSize = docs.rootObstacle? maxSize := by
  unfold rootObstacle? recordObstacle?
  rw [h]

namespace OnTheWay

theorem refl (docs : Docs) (maxSize : Nat) (now : TimeSpec) : docs.OnTheWay maxSize now docs where
  kept _ := rfl
  made hn hm := absurd hn hm
  obstacle := rfl
  moved := .inl rfl

-- One of the documents of the root gets stored.
theorem put {value : Bytes} (h : docs.OnTheWay maxSize now mid)
    (hv : Tree.rootValue? now collection Path.root = some value)
    (hn : mid collection Path.root = none) (hp : mid.Put collection Path.root value after)
    (ho : after.rootObstacle? maxSize = docs.rootObstacle? maxSize)
    (hm : docs.rootObstacle? maxSize = none) : docs.OnTheWay maxSize now after where
  kept {other key} hd := by
    have hne : ¬(other = collection ∧ key = Path.root) := by
      rintro ⟨rfl, rfl⟩
      exact hd ((h.kept hd).symm.trans hn)
    rw [hp.apply_of_ne hne, h.kept hd]
  made {other key} hd ha := by
    rw [hp.value]
    split
    · next he => rw [he.1, he.2, hv]
    · next he =>
      rw [hp.apply_of_ne he] at ha
      exact h.made hd ha
  obstacle := ho
  moved := .inr hm

-- With a root there is nothing to add.
theorem value_eq (h : docs.OnTheWay maxSize now after) (hr : after.HasRoot) :
    after.value collection key =
      (docs.value collection key).or (Tree.rootValue? now collection key) := by
  by_cases hd : docs collection key = none
  · rw [value_eq_none_iff.mpr hd, Option.none_or]
    by_cases ha : after collection key = none
    · have hnone : Tree.rootValue? now collection key = none := by
        by_contra hv
        obtain ⟨rfl, rfl | rfl⟩ := Tree.eq_of_rootValue?_ne_none hv
        · exact hr.stat_ne_none ha
        · exact hr.dentry ha
      rw [value_eq_none_iff.mpr ha, hnone]
    · exact h.made hd ha
  · obtain ⟨found, hf⟩ := Option.ne_none_iff_exists'.mp hd
    unfold value
    rw [h.kept hd, hf]
    rfl

-- What is missing is missing from `docs` as well, so a root that is made later has the same values,
-- but for the time in its record.
theorem value_cases (h : docs.OnTheWay maxSize now mid) (later time : TimeSpec)
    (collection : Collection) (key : String) :
    let again := (mid.value collection key).or (Tree.rootValue? later collection key)
    let whole := (docs.value collection key).or (Tree.rootValue? time collection key)
    again = whole ∨ (collection = .stats ∧ key = Path.root ∧ ∃ first second,
      again = some (StatRecord.new Mode.root first).encode ∧
      whole = some (StatRecord.new Mode.root second).encode) := by
  intro again whole
  by_cases hd : docs collection key = none
  · obtain ⟨first, hfirst⟩ : ∃ first, again = Tree.rootValue? first collection key := by
      by_cases hm : mid collection key = none
      · refine ⟨later, ?_⟩
        simp only [again, value_eq_none_iff.mpr hm, Option.none_or]
      · refine ⟨now, ?_⟩
        have hv := h.made hd hm
        obtain ⟨found, hf⟩ := Option.ne_none_iff_exists'.mp hm
        simp only [again, ← hv, value, hf, Option.map_some, Option.some_or]
    have hwhole : whole = Tree.rootValue? time collection key := by
      simp only [whole, value_eq_none_iff.mpr hd, Option.none_or]
    rw [hfirst, hwhole]
    refine (Tree.rootValue?_cases first time collection key).imp_right ?_
    rintro ⟨rfl, rfl⟩
    exact ⟨rfl, rfl, first, time, rfl, rfl⟩
  · obtain ⟨found, hf⟩ := Option.ne_none_iff_exists'.mp hd
    have hm : mid collection key = some found := (h.kept hd).trans hf
    refine .inl ?_
    simp only [again, whole, value, hm, hf, Option.map_some, Option.some_or]

end OnTheWay

end Docs

variable {docs mid : Docs} {maxSize : Nat} {now : TimeSpec} {scope : String}

namespace Tree

theorem upholds_ensureRootDentry_onTheWay (h : docs.OnTheWay maxSize now mid)
    (hr : mid.RecordsRoot) :
    ensureRootDentry.Upholds maxSize (docs.OnTheWay maxSize now)
      (fun _ _ => docs.rootObstacle? maxSize = none)
      (fun error after => docs.rootObstacle? maxSize = some error ∧ after = mid) mid := by
  have ho := h.obstacle.symm.trans (Docs.rootObstacle?_of_record hr)
  refine upholds_ensureRootDentry h (fun _ hl => ?_) (fun hn hl after ha => ?_) fun hl => ?_
  · rwa [if_pos hl] at ho
  · rw [if_pos hl] at ho
    have hsame : after .stats Path.root = mid .stats Path.root := ha.apply_of_ne (by simp)
    exact ⟨h.put rfl hn ha ((Docs.rootObstacle?_congr hsame).trans h.obstacle) ho, ho⟩
  · rw [if_neg (Nat.not_le.mpr hl)] at ho
    exact ⟨ho, rfl⟩

-- Each state of a bootstrap is on the way to a root, and it fails exactly where there is an
-- obstacle.
theorem upholds_bootstrap_onTheWay (docs : Docs) (now : TimeSpec) :
    (bootstrap now).Upholds maxSize (docs.OnTheWay maxSize now)
      (fun _ _ => docs.rootObstacle? maxSize = none)
      (fun error after => docs.rootObstacle? maxSize = some error ∧ after = docs) docs := by
  have hstart := Docs.OnTheWay.refl docs maxSize now
  unfold bootstrap
  refine upholds_bind.mpr (upholds_ensureRootStat hstart (upholds_ensureRootDentry_onTheWay hstart)
    (fun hn hl mid ha => ?_) fun error he => ?_)
  · have ho := Docs.rootObstacle?_of_missing hn hl
    have hroot : mid.RecordsRoot := .of_put ha (Catalog.isDirectory_root now)
    have hmid : docs.OnTheWay maxSize now mid := by
      refine hstart.put rfl hn ha ?_ ho
      rw [Docs.rootObstacle?_of_record hroot, if_pos (Docs.length_root_le hl), ho]
    refine ⟨hmid, (upholds_ensureRootDentry_onTheWay hmid hroot).mono (fun _ _ hp => hp) ?_⟩
    rintro error after ⟨he, -⟩
    rw [ho] at he
    cases he
  · refine ⟨?_, rfl⟩
    rw [Docs.rootObstacle?, he, Option.some_or]

theorem run_bootstrap_cases (maxSize : Nat) (scope : String) (image : Image) (now : TimeSpec) :
    let result := (bootstrap now).run (Image.backend maxSize scope) image
    let docs := image.docs scope
    let after := result.2.docs scope
    (docs.rootObstacle? maxSize = none ∧ result.1 = .done () ∧ after.HasRoot ∧
        docs.OnTheWay maxSize now after) ∨
      ∃ error, docs.rootObstacle? maxSize = some error ∧ result.1 = .failed error ∧
        after = docs := by
  intro result docs after
  have hway : docs.OnTheWay maxSize now after :=
    (upholds_bootstrap_onTheWay docs now).states (.refl docs maxSize now) _
      (run_mem_states _ _ _)
  have hends : result.1.Meets (fun _ last => docs.rootObstacle? maxSize = none ∧ last.HasRoot)
      (fun error last => (docs.rootObstacle? maxSize = some error ∧ last = docs) ∧ True) after :=
    ((upholds_bootstrap_onTheWay docs now).and (upholds_bootstrap docs now)).run
  generalize result.1 = outcome at hends ⊢
  cases outcome with
  | done value => exact .inl ⟨hends.1, rfl, hends.2, hway⟩
  | failed error => exact .inr ⟨error, hends.1.1, rfl, hends.1.2⟩
  | crashed => exact hends.elim

-- A bootstrap that goes through leaves nothing to do.
theorem run_bootstrap_again {image after : Image}
    (h : (bootstrap now).run (Image.backend maxSize scope) image = (.done (), after))
    (later : TimeSpec) :
    (after.docs scope).HasRoot ∧
      (bootstrap later).run (Image.backend maxSize scope) after = (.done (), after) := by
  have hcases := run_bootstrap_cases maxSize scope image now
  rw [h] at hcases
  obtain ⟨hnone, -, hroot, hway⟩ | ⟨error, -, herror, -⟩ := hcases
  · refine ⟨hroot, run_bootstrap hroot ?_ later⟩
    have ho := hway.obstacle.symm.trans (Docs.rootObstacle?_of_record hroot.stat)
    rw [hnone] at ho
    by_contra hl
    rw [if_neg hl] at ho
    cases ho
  · cases herror

-- Once on the way, a bootstrap ends as it would have from the start, clocks aside.
theorem run_bootstrap_onTheWay {image left : Image}
    (h : (image.docs scope).OnTheWay maxSize now (left.docs scope)) (later time : TimeSpec) :
    let again := (bootstrap later).run (Image.backend maxSize scope) left
    let whole := (bootstrap time).run (Image.backend maxSize scope) image
    again.1 = whole.1 ∧ ∀ collection key,
      let last := (again.2.docs scope).value collection key
      let made := (whole.2.docs scope).value collection key
      last = made ∨ (collection = .stats ∧ key = Path.root ∧ ∃ first second,
        last = some (StatRecord.new Mode.root first).encode ∧
        made = some (StatRecord.new Mode.root second).encode) := by
  intro again whole
  have hagain := run_bootstrap_cases maxSize scope left later
  have hwhole := run_bootstrap_cases maxSize scope image time
  dsimp only at hagain hwhole
  rw [h.obstacle] at hagain
  cases ho : (image.docs scope).rootObstacle? maxSize with
  | none =>
    simp only [ho, true_and, reduceCtorEq, false_and, exists_false, or_false] at hagain hwhole
    obtain ⟨ha, hroot, hway⟩ := hagain
    obtain ⟨hw, hroot', hway'⟩ := hwhole
    refine ⟨ha.trans hw.symm, fun collection key => ?_⟩
    rw [hway.value_eq hroot, hway'.value_eq hroot']
    exact h.value_cases later time collection key
  | some error =>
    simp only [ho, reduceCtorEq, false_and, Option.some.injEq, exists_eq_left', false_or]
      at hagain hwhole
    obtain ⟨ha, hlast⟩ := hagain
    obtain ⟨hw, hmade⟩ := hwhole
    have hsame : left.docs scope = image.docs scope :=
      h.moved.resolve_right (by rw [ho]; exact Option.some_ne_none _)
    refine ⟨ha.trans hw.symm, fun collection key => .inl ?_⟩
    rw [hlast, hmade, hsame]

theorem endsUnanswered_bootstrap (now : TimeSpec) : (bootstrap now).EndsUnanswered := by
  have hget : (Metadata.get Path.root).EndsUnanswered :=
    (endsUnanswered_expectSuccess _ _).bind fun _ =>
      endsUnanswered_ofExcept.bind fun _ => trivial
  have hinsert : (Metadata.insert Path.root Mode.root now).EndsUnanswered :=
    (endsUnanswered_insert _ _ _).bind fun _ => trivial
  have hcreate : (Directory.create Path.root Path.root).EndsUnanswered :=
    (endsUnanswered_insert _ _ _).bind fun _ => trivial
  have hstat : (ensureRootStat now).EndsUnanswered := by
    refine hget.attempt_bind (fun answer => ?_) fun _ => rfl
    split
    · exact endsUnanswered_check
    · exact hinsert.bind fun _ => trivial
    · trivial
  have hdentry : ensureRootDentry.EndsUnanswered := by
    refine hcreate.attempt_bind (fun answer => ?_) fun _ => rfl
    cases answer with
    | ok dentry => trivial
    | error error => exact endsUnanswered_check
  exact hstat.bind fun _ => hdentry

end Tree

-- Each request of the first bootstrap meets any fate.
theorem bootstrap_starts_over (maxSize : Nat) (scope : String) (image : Image)
    (fates : Nat → Fate) (now later time : TimeSpec) :
    let tried := (Tree.bootstrap now).run (Unreliable.within maxSize scope) ⟨image, fates⟩
    let again := (Tree.bootstrap later).run (Image.backend maxSize scope) tried.2.image
    let whole := (Tree.bootstrap time).run (Image.backend maxSize scope) image
    (∀ space collection key,
      (image.docs space collection key ≠ none →
        tried.2.image.docs space collection key = image.docs space collection key) ∧
      (image.docs space collection key = none →
        tried.2.image.docs space collection key ≠ none →
          space = scope ∧ key = Path.root ∧ (collection = .stats ∨ collection = .dentries))) ∧
    (tried.1 = .done () →
      (tried.2.image.docs scope).HasRoot ∧ again = (.done (), tried.2.image)) ∧
    again.1 = whole.1 ∧
    ∀ space collection key,
      let left := (again.2.docs space).value collection key
      let made := (whole.2.docs space).value collection key
      left = made ∨ (space = scope ∧ collection = .stats ∧ key = Path.root ∧ ∃ first second,
        left = some (StatRecord.new Mode.root first).encode ∧
        made = some (StatRecord.new Mode.root second).encode) := by
  intro tried again whole
  obtain ⟨hstates, hplain⟩ :
      tried.2.image ∈ (Tree.bootstrap now).states (Image.backend maxSize scope) image ∧
        ((tried.1, tried.2.image) =
            (Tree.bootstrap now).run (Image.backend maxSize scope) image ∨
          ∃ text, tried.1 = .failed (.io text)) :=
    (Tree.endsUnanswered_bootstrap now).run_within ⟨image, fates⟩
  have hother : ∀ space, space ≠ scope → tried.2.image.docs space = image.docs space :=
    fun _ hs => docs_states_of_ne hstates hs
  have hway : (image.docs scope).OnTheWay maxSize now (tried.2.image.docs scope) :=
    (Tree.upholds_bootstrap_onTheWay (image.docs scope) now).states (.refl _ maxSize now) _ hstates
  refine ⟨fun space collection key => ?_, fun hdone => ?_, ?_⟩
  · by_cases hs : space = scope
    · subst hs
      refine ⟨hway.kept, fun hn hm => ?_⟩
      have hv : Tree.rootValue? now collection key ≠ none := by
        rw [← hway.made hn hm]
        exact Docs.value_eq_none_iff.not.mpr hm
      exact ⟨rfl, Tree.eq_of_rootValue?_ne_none hv⟩
    · rw [hother space hs]
      exact ⟨fun _ => rfl, fun hn hm => absurd hn hm⟩
  · obtain hsame | ⟨text, hfailed⟩ := hplain
    · rw [hdone] at hsame
      exact Tree.run_bootstrap_again hsame.symm later
    · rw [hdone] at hfailed
      cases hfailed
  · obtain ⟨hends, hvalues⟩ := Tree.run_bootstrap_onTheWay hway later time
    refine ⟨hends, fun space collection key => ?_⟩
    by_cases hs : space = scope
    · subst hs
      exact (hvalues collection key).imp_right fun hroot => ⟨rfl, hroot⟩
    · have hagain : again.2.docs space = tried.2.image.docs space :=
        docs_states_of_ne (run_mem_states _ _ _) hs
      have hwhole : whole.2.docs space = image.docs space :=
        docs_states_of_ne (run_mem_states _ _ _) hs
      dsimp only
      rw [hagain, hwhole, hother space hs]
      exact .inl rfl

namespace Sample

-- The answer to the second request gets lost: it is the one to store the record of the root.
def halfway : Outcome Unit × Unreliable :=
  (Tree.bootstrap ⟨3, 0⟩).run (Unreliable.within 64 "tree") cutOff

def undisturbed : Outcome Unit × Unreliable :=
  (Tree.bootstrap ⟨3, 0⟩).run (Unreliable.within 64 "tree") ⟨kept, fun _ => .answered⟩

def resumed (image : Image) : Outcome Unit × Image :=
  (Tree.bootstrap ⟨5, 0⟩).run (Image.backend 64 "tree") image

end Sample

open Sample in
theorem sample_bootstrap_starts_over :
    kept.docs "tree" .stats "/f" ≠ none ∧
      halfway.2.image.docs "tree" .stats "/f" = kept.docs "tree" .stats "/f" ∧
      halfway.1 ≠ .done () ∧
      kept.docs "tree" .stats "/" = none ∧ halfway.2.image.docs "tree" .stats "/" ≠ none ∧
      ("tree" = "tree" ∧ "/" = Path.root ∧
        (Collection.stats = .stats ∨ Collection.stats = .dentries)) ∧
      halfway.2.image.docs "tree" .dentries "/" = none ∧
      (resumed halfway.2.image).1 = (resumed kept).1 ∧
      ((resumed halfway.2.image).2.docs "tree").value .dentries "/" =
        ((resumed kept).2.docs "tree").value .dentries "/" ∧
      undisturbed.1 = .done () ∧ (undisturbed.2.image.docs "tree").HasRoot ∧
      resumed undisturbed.2.image = (.done (), undisturbed.2.image) := by
  obtain ⟨hsame, -, hends, hvalues⟩ :=
    bootstrap_starts_over 64 "tree" kept cutOff.fates ⟨3, 0⟩ ⟨5, 0⟩ ⟨5, 0⟩
  have hold : kept.docs "tree" .stats "/f" ≠ none := by decide +kernel
  have hnone : kept.docs "tree" .stats "/" = none := by decide +kernel
  have hmade : halfway.2.image.docs "tree" .stats "/" ≠ none := by decide +kernel
  have hdone : undisturbed.1 = .done () := by decide +kernel
  have hagain := (bootstrap_starts_over 64 "tree" kept (fun _ => .answered)
    ⟨3, 0⟩ ⟨5, 0⟩ ⟨5, 0⟩).2.1 hdone
  refine ⟨hold, (hsame "tree" .stats "/f").1 hold, by decide +kernel, hnone, hmade,
    (hsame "tree" .stats "/").2 hnone hmade, by decide +kernel, hends, ?_, hdone, hagain⟩
  exact (hvalues "tree" .dentries "/").resolve_right fun h => nomatch h.2.1

end DocTree
