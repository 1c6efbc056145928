import DocTree.Proofs.Call.Upholds
import DocTree.Proofs.Tree.Placed

namespace DocTree

open Call

namespace Call

variable {α β : Type} {maxSize : Nat} {docs other : Docs} {call : Call α}

-- Whatever versions the store hands out, the call has this outcome.
def Settles (maxSize : Nat) (outcome : Outcome α) (call : Call α) (docs : Docs) : Prop :=
  call.Upholds maxSize (fun _ => True) (fun value _ => outcome = .done value)
    (fun error _ => outcome = .failed error) docs

theorem Settles.run {outcome : Outcome α} {scope : String} {image : Image}
    (h : call.Settles maxSize outcome (image.docs scope)) :
    (call.run (Image.backend maxSize scope) image).1 = outcome := by
  have hrun := Upholds.run h
  generalize (call.run (Image.backend maxSize scope) image).1 = result at hrun
  cases result with
  | done value => exact hrun.symm
  | failed error => exact hrun.symm
  | crashed => exact hrun.elim

-- The same outcome wherever some of the documents are the same.
def Decided (maxSize : Nat) (seen : Collection → String → Prop) (docs : Docs) (call : Call α) :
    Prop :=
  ∃ outcome, ∀ other : Docs,
    (∀ collection key, seen collection key → other collection key = docs collection key) →
      call.Settles maxSize outcome other

variable {seen : Collection → String → Prop}

theorem Only.exists_outcome
    (h : call.Only fun collection request => ∃ key, request = .get key ∧ seen collection key)
    (maxSize : Nat) (docs : Docs) :
    ∃ outcome : Outcome α, ∀ other : Docs,
      (∀ collection key, seen collection key → other collection key = docs collection key) →
        call.Upholds maxSize (fun _ => True)
          (fun value after => outcome = .done value ∧ after = other)
          (fun error after => outcome = .failed error ∧ after = other) other := by
  induction call with
  | done value => exact ⟨.done value, fun other _ => ⟨rfl, rfl⟩⟩
  | fail error => exact ⟨.failed error, fun other _ => ⟨rfl, rfl⟩⟩
  | crash => exact h.elim
  | submit collection request next ih =>
    obtain ⟨⟨key, rfl, hs⟩, hn⟩ := h
    -- The next version is no part of what a look is answered, so any one will do.
    obtain ⟨outcome, ho⟩ := ih (.answered (docs.answer 0 collection (.get key)).1) (hn _)
    refine ⟨outcome, fun other he version => ⟨trivial, ?_⟩⟩
    have hsame : (other.answerWithin maxSize version collection (.get key)).1 =
        (docs.answer 0 collection (.get key)).1 := by
      rw [Docs.answerWithin_of_le (Nat.zero_le _)]
      unfold Docs.answer
      dsimp only
      rw [he collection key hs]
      cases docs collection key <;> rfl
    rw [hsame, Docs.answerWithin_eq_self (.inr ⟨key, rfl⟩)]
    exact ho other he

-- A look at these documents first leaves it open only what comes after it.
theorem Decided.of_look {next : α → Call β}
    (h : call.Only fun collection request => ∃ key, request = .get key ∧ seen collection key)
    (hn : ∀ value, (next value).Decided maxSize seen docs) :
    (call >>= next).Decided maxSize seen docs := by
  obtain ⟨first, hfirst⟩ := h.exists_outcome maxSize docs
  cases first with
  | done value =>
    obtain ⟨outcome, ho⟩ := hn value
    refine ⟨outcome, fun other he => (hfirst other he).bind ?_ fun _ _ hf => nomatch hf.1⟩
    rintro _ _ ⟨⟨⟩, rfl⟩
    exact ho _ he
  | failed error =>
    refine ⟨.failed error, fun other he => (hfirst other he).bind (fun _ _ hf => nomatch hf.1) ?_⟩
    exact fun _ _ hf => congrArg Outcome.failed (Outcome.failed.inj hf.1)
  | crashed =>
    exact ⟨.crashed, fun other he => (hfirst other he).bind (fun _ _ hf => nomatch hf.1)
      fun _ _ hf => nomatch hf.1⟩

theorem Decided.map (h : call.Decided maxSize seen docs) (f : α → β) :
    (f <$> call).Decided maxSize seen docs := by
  obtain ⟨first, hfirst⟩ := h
  cases first with
  | done value =>
    refine ⟨.done (f value), fun other he => upholds_map.mpr ((hfirst other he).mono ?_ ?_)⟩
    · exact fun _ _ hf => congrArg (Outcome.done ∘ f) (Outcome.done.inj hf)
    · exact fun _ _ hf => nomatch hf
  | failed error =>
    refine ⟨.failed error, fun other he => upholds_map.mpr ((hfirst other he).mono ?_ ?_)⟩
    · exact fun _ _ hf => nomatch hf
    · exact fun _ _ hf => congrArg Outcome.failed (Outcome.failed.inj hf)
  | crashed =>
    refine ⟨.crashed, fun other he => upholds_map.mpr ((hfirst other he).mono ?_ ?_)⟩ <;>
      exact fun _ _ hf => nomatch hf

theorem Decided.run_eq {scope : String} {image other : Image}
    (h : call.Decided maxSize seen (image.docs scope))
    (hs : ∀ collection key, seen collection key →
      other.docs scope collection key = image.docs scope collection key) :
    (call.run (Image.backend maxSize scope) other).1 =
      (call.run (Image.backend maxSize scope) image).1 := by
  obtain ⟨outcome, ho⟩ := h
  rw [(ho _ hs).run, (ho (image.docs scope) fun _ _ _ => rfl).run]

end Call

variable {limits : Limits} {path : String} {now : Readings} {maxSize : Nat} {docs : Docs}

namespace Metadata

-- How the change of a record comes out on a document.
def updated (maxSize : Nat) (document : Option Document) (change : StatChange) (now : Readings) :
    Outcome StatRecord :=
  match document with
  | none => .failed .notFound
  | some found =>
    match StatRecord.decode found.value with
    | .error error => .failed error
    | .ok stat =>
      if (stat.apply change (now 0)).encode.length ≤ maxSize then .done (stat.apply change (now 0))
      else .failed .fileTooLarge

theorem settles_update (change : StatChange) :
    (update path change now).Settles maxSize (updated maxSize (docs .stats path) change now)
      docs := by
  refine upholds_retry (upholds_bind.mpr (upholds_bind.mpr (Call.upholds_get trivial ?_ ?_)))
  · intro found hf
    rw [hf, updated]
    dsimp only
    cases hr : StatRecord.decode found.value with
    | error error => exact rfl
    | ok stat =>
      rw [ofExcept_ok_bind, upholds_pure]
      refine upholds_bind.mpr (upholds_stored (upholds_replace hf trivial ?_ ?_))
      · intro hl _ _ _
        exact ⟨trivial, _, rfl, if_pos hl⟩
      · intro hl
        exact if_neg (Nat.not_le.mpr hl)
  · intro hn
    rw [hn, updated]

end Metadata

namespace Tree

-- The documents that a read looks at.
def Seen (path : String) : Collection → String → Prop
  | .stats, key => key = path
  | .blocks, key => ∃ index, key = Path.blockKey path index
  | .dentries, _ => False

theorem only_fileStat_seen : (fileStat limits path).Only fun collection request =>
    ∃ key, request = .get key ∧ Seen path collection key :=
  only_fileStat ⟨path, rfl, rfl⟩

theorem only_readContent_seen {stat : StatRecord} {offset : UInt64} {size : UInt32} :
    (readContent limits path stat offset size).Only fun collection request =>
      ∃ key, request = .get key ∧ Seen path collection key := by
  unfold readContent
  split
  · trivial
  · exact Content.only_read fun index _ => ⟨_, rfl, index, rfl⟩

-- The record and the blocks of a file decide what is read from it.
theorem decided_read (offset : UInt64) (size : UInt32) :
    (read limits path offset size now).Decided maxSize (Seen path) docs := by
  rw [read_eq]
  refine .of_look only_fileStat_seen fun stat => .of_look only_readContent_seen fun data => ?_
  have hupdate : (Metadata.update path .accessed now).Decided maxSize (Seen path) docs := by
    refine ⟨Metadata.updated maxSize (docs .stats path) .accessed now, fun other he => ?_⟩
    rw [← he .stats path rfl]
    exact Metadata.settles_update .accessed
  exact hupdate.map fun _ => data

end Tree

-- A call on another path leaves what no key of it names.
theorem Operation.run_sameOutside (hv : limits.Valid) (maxSize : Nat) (scope : String)
    (operation : Operation) (image : Image) :
    (image.docs scope).SameOutside (Path.Owns limits operation.path)
      ((((operation.call limits now).run (Image.backend maxSize scope) image).2).docs scope) := by
  refine (operation.only_asks hv).run
    (fun later : Image => (image.docs scope).SameOutside (Path.Owns limits operation.path)
      (later.docs scope)) (fun collection request later hr hs => ?_) fun _ _ _ => rfl
  intro other key hn
  change (later.apply maxSize scope collection request).1.docs scope other key = _
  rw [Image.docs_apply, ← hs other key hn]
  rcases hr.owned with hget | howns
  · rw [Docs.answerWithin_eq_self (.inr hget)]
  · exact Docs.answerWithin_of_ne fun hc => hn (hc.1 ▸ hc.2 ▸ howns)

-- Two paths share a block key exactly if one is the other followed by NUL and a number. If they do
-- not, whatever is called on the one leaves the file at the other as it is.
theorem files_are_isolated (hv : limits.validate = .ok ()) {path other : String}
    (hne : path ≠ other) :
    ((∃ i j, Path.blockKey path i = Path.blockKey other j) ↔ Path.Confused path other) ∧
      (¬Path.Confused path other → ∀ maxSize scope image (step : Step),
        step.operation.path = other →
          let after := (step.run limits (Image.backend maxSize scope) image).2
          after.docs scope .stats path = image.docs scope .stats path ∧
            ∀ now offset size,
              (Step.run limits (Image.backend maxSize scope) ⟨now, .read path offset size⟩
                after).1 =
                (Step.run limits (Image.backend maxSize scope) ⟨now, .read path offset size⟩
                  image).1) := by
  refine ⟨Path.shares_iff_confused hne, ?_⟩
  intro hc maxSize scope image step hp after
  subst hp
  have hsame : (image.docs scope).SameOutside (Path.Owns limits step.operation.path)
      (after.docs scope) := step.operation.run_sameOutside (limits.validate_eq_ok_iff.mp hv) _ _ _
  have hseen : ∀ collection key, Tree.Seen path collection key →
      after.docs scope collection key = image.docs scope collection key := by
    intro collection key hs
    refine hsame collection key fun ho => ?_
    cases collection with
    | stats => exact hne (hs.symm.trans ho)
    | dentries => exact hs
    | blocks =>
      obtain ⟨i, rfl⟩ := hs
      obtain ⟨j, -, hj⟩ := ho
      exact hc ((Path.shares_iff_confused hne).mp ⟨i, j, hj⟩)
  refine ⟨hseen .stats path rfl, fun now offset size => ?_⟩
  exact ((Tree.decided_read offset size).map Answer.data).run_eq hseen

namespace Sample

-- Three blocks of four bytes at one path.
def filed : Image :=
  afterSteps Sample.limits (Image.backend 64 defaultScope) (⟨Sample.now, .bootstrap⟩ :: history)
    (Image.new default)

def readBack (image : Image) : Outcome Answer :=
  (Step.run Sample.limits (Image.backend 64 defaultScope) ⟨Sample.now, .read "/f" 0 12⟩ image).1

def afterUnlink (path : String) : Image :=
  (Step.run Sample.limits (Image.backend 64 defaultScope) ⟨Sample.now, .unlink path⟩ filed).2

end Sample

theorem sample_file_is_isolated :
    Sample.limits.validate = .ok () ∧ "/f" ≠ "/f1" ∧ ¬Path.Confused "/f" "/f1" ∧
      Sample.readBack (Sample.afterUnlink "/f1") = Sample.readBack Sample.filed ∧
      Sample.readBack Sample.filed = .done (.data Sample.bytes) := by
  have hv : Sample.limits.validate = .ok () := by decide
  have hne : "/f" ≠ "/f1" := by decide
  have hc : ¬Path.Confused "/f" "/f1" :=
    Path.not_confused_of_nulFree (by decide) (by decide) hne
  refine ⟨hv, hne, hc, ?_, by decide +kernel⟩
  exact ((files_are_isolated hv hne).2 hc 64 defaultScope Sample.filed
    ⟨Sample.now, .unlink "/f1"⟩ rfl).2 Sample.now 0 12

-- To take away what is at the key of the second block, where no file is, cuts the first file short.
theorem sample_file_is_not_isolated :
    Path.split "/f\x001" Sample.limits.maxKeyLen = .ok ("/", "f\x001") ∧
      Sample.readBack Sample.filed = .done (.data Sample.bytes) ∧
      Sample.readBack (Sample.afterUnlink "/f\x001") = .done (.data [97, 98, 99, 100]) := by
  decide +kernel

end DocTree
