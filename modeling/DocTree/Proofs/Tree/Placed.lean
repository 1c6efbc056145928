import DocTree.Proofs.Call.Only
import DocTree.Proofs.Run.Contents
import DocTree.Proofs.Store.Sized

namespace DocTree

-- A path that can have a record.
def Path.Placed (limits : Limits) (path : String) : Prop :=
  path = root ∨ ∃ parent leaf, split path limits.maxKeyLen = .ok (parent, leaf)

-- A request that makes no record elsewhere.
def Placing (limits : Limits) (collection : Collection) (request : Request) : Prop :=
  ∀ key value, collection = .stats → request = .insert key value → Path.Placed limits key

-- The documents that a call on a path looks at. A block begins where there is still a byte to read.
def Path.Looks (limits : Limits) (path : String) : Collection → String → Prop
  | .stats, key | .dentries, key => key = path ∨ key = parent path
  | .blocks, key => ∃ index, index * limits.blockSize + 1 < Word.limit ∧ key = blockKey path index

-- The documents that belong to a path.
def Path.Owns (limits : Limits) (path : String) : Collection → String → Prop
  | .stats, key => key = path
  | .dentries, key => key = path ∨ key = parent path
  | .blocks, key => ∃ index < limits.maxBlocks, key = blockKey path index

-- The requests that a call on a path makes: it looks at any document, and changes its own.
structure Asks (limits : Limits) (path : String) (collection : Collection) (request : Request) :
    Prop where
  placing : Placing limits collection request
  owned : (∃ key, request = .get key) ∨ Path.Owns limits path collection request.key

def Docs.Placed (limits : Limits) (docs : Docs) : Prop :=
  ∀ path, docs .stats path ≠ none → Path.Placed limits path

open Call

variable {limits : Limits} {path directory : String} {now : Readings}

namespace Tree

section

variable {allowed : Collection → Request → Prop}

theorem only_removeChild {name : String} (hget : allowed .dentries (.get directory))
    (hlist : ∀ value version, allowed .dentries (.replace directory value version)) :
    (Directory.removeChild directory name).Only allowed :=
  Directory.only_modify hget hlist

theorem only_listChild {name : String} (hget : allowed .dentries (.get directory))
    (hlist : ∀ value version, allowed .dentries (.replace directory value version)) :
    (listChild directory name).Only allowed := by
  refine only_bind (Directory.only_get hget) fun dentry => ?_
  split
  · trivial
  · exact only_bind (Directory.only_modify hget hlist) fun _ => trivial

theorem only_dropDentry (hget : allowed .dentries (.get path))
    (hdrop : allowed .dentries (.remove path)) : (dropDentry path).Only allowed := by
  refine only_bind (only_attempt (Directory.only_get hget)) fun answer => ?_
  cases answer with
  | ok dentry =>
    exact only_bind only_check fun _ => only_bestEffort (Directory.only_remove hdrop)
  | error error => trivial

theorem only_bootstrap {now : TimeSpec} (hget : allowed .stats (.get Path.root))
    (hstat : allowed .stats (.insert Path.root (StatRecord.new Mode.root now).encode))
    (hdentry : allowed .dentries (.insert Path.root (Dentry.new Path.root Path.root).encode)) :
    (bootstrap now).Only allowed := by
  refine only_bind (only_bind (only_attempt (Metadata.only_get hget)) fun answer => ?_)
    fun _ => only_bind (only_attempt (Directory.only_create hdentry)) fun answer => ?_
  · split
    · exact only_check
    · exact only_bind (Metadata.only_insert hstat) fun _ => trivial
    · trivial
  · cases answer with
    | ok dentry => trivial
    | error error => exact only_check

-- The calls that add and remove take the path apart first.
theorem only_split_bind {α : Type} {next : String × String → Call α}
    (h : ∀ parent leaf, Path.Placed limits path → parent = Path.parent path →
      (next (parent, leaf)).Only allowed) :
    (ofExcept (Path.split path limits.maxKeyLen) >>= next).Only allowed := by
  cases hs : Path.split path limits.maxKeyLen with
  | ok parts => exact h _ _ (.inr ⟨_, _, hs⟩) (Path.parent_of_split hs).symm
  | error error => trivial

section

variable (hsiblings : allowed .dentries (.get (Path.parent path)))

include hsiblings

theorem only_create {mode : UInt32} {now : TimeSpec}
    (hparent : allowed .stats (.get (Path.parent path)))
    (hstat : Path.Placed limits path →
      allowed .stats (.insert path (StatRecord.new mode now).encode))
    (hlist : ∀ value version, allowed .dentries (.replace (Path.parent path) value version)) :
    (create limits path mode now).Only allowed := by
  refine only_split_bind fun parent leaf hplaced hp => ?_
  subst hp
  refine only_bind only_check fun _ => only_bind (only_requireDirectory hparent) fun _ => ?_
  exact only_bind (Metadata.only_insert (hstat hplaced)) fun _ =>
    only_bind (only_listChild hsiblings hlist) fun _ => trivial

theorem only_mkdir {mode : UInt32} {now : TimeSpec}
    (hparent : allowed .stats (.get (Path.parent path)))
    (hstat : Path.Placed limits path → allowed .stats
      (.insert path (StatRecord.new (Mode.directory ||| Mode.permissions mode) now).encode))
    (hdentry : allowed .dentries (.insert path (Dentry.new path (Path.parent path)).encode))
    (hlist : ∀ value version, allowed .dentries (.replace (Path.parent path) value version)) :
    (mkdir limits path mode now).Only allowed := by
  refine only_split_bind fun parent leaf hplaced hp => ?_
  subst hp
  refine only_bind (only_requireDirectory hparent) fun _ => ?_
  exact only_bind (Metadata.only_insert (hstat hplaced)) fun _ =>
    only_bind (Directory.only_create hdentry) fun _ =>
      only_bind (only_listChild hsiblings hlist) fun _ => trivial

theorem only_unlink (hrecord : allowed .stats (.get path))
    (hblocks : Content.Permits allowed path limits.maxBlocks)
    (hlist : ∀ value version, allowed .dentries (.replace (Path.parent path) value version))
    (hstat : allowed .stats (.remove path)) : (unlink limits path).Only allowed := by
  refine only_split_bind fun parent leaf _ hp => ?_
  subst hp
  refine only_bind (only_refuseDirectory hrecord) fun _ => ?_
  exact only_bind (only_bestEffort (Content.only_removeRest hblocks 0)) fun _ =>
    only_bind (only_bestEffort (only_removeChild hsiblings hlist)) fun _ =>
      Metadata.only_remove hstat

theorem only_rmdir (hrecord : allowed .stats (.get path)) (hdentry : allowed .dentries (.get path))
    (hdrop : allowed .dentries (.remove path))
    (hlist : ∀ value version, allowed .dentries (.replace (Path.parent path) value version))
    (hstat : allowed .stats (.remove path)) : (rmdir limits path).Only allowed := by
  refine only_split_bind fun parent leaf _ hp => ?_
  subst hp
  refine only_bind (only_requireDirectory hrecord) fun _ => ?_
  exact only_bind (only_dropDentry hdentry hdrop) fun _ =>
    only_bind (only_bestEffort (only_removeChild hsiblings hlist)) fun _ =>
      Metadata.only_remove hstat

end

variable (hrecord : allowed .stats (.get path))
  (hstat : ∀ value version, allowed .stats (.replace path value version))

include hrecord hstat

-- Changing the mode and changing the times.
theorem only_changeRecord {change : StatChange} :
    (do Call.ofExcept (Path.checkLength path limits.maxKeyLen)
        Metadata.update path change now).Only allowed :=
  only_bind only_ofExcept fun _ => Metadata.only_update hrecord hstat

-- The blocks that are read begin in front of an offset.
theorem only_read {offset : UInt64} {size : UInt32}
    (hlook : ∀ index, index * limits.blockSize + 1 < Word.limit →
      allowed .blocks (.get (Path.blockKey path index))) :
    (read limits path offset size now).Only allowed := by
  have hupdate : ∀ data : Bytes, (do
      let _ ← Metadata.update path .accessed now
      return data).Only allowed :=
    fun data => only_bind (Metadata.only_update hrecord hstat) fun _ => trivial
  refine only_bind (only_fileStat hrecord) fun stat => ?_
  dsimp only
  split
  · exact hupdate []
  · refine only_bind (Content.only_read fun index hi => hlook index ?_) hupdate
    unfold Word.addSat at hi
    omega

variable (hv : limits.Valid) (hblocks : Content.Permits allowed path limits.maxBlocks)

include hv hblocks

theorem only_write {offset : UInt64} {data : Bytes} :
    (write limits path offset data now).Only allowed := by
  refine only_bind (only_fileStat hrecord) fun stat => only_check_bind fun hs => ?_
  refine only_bind (only_writeContent hv hblocks hs) fun change => ?_
  exact only_bind (Metadata.only_update hrecord hstat) fun _ => trivial

theorem only_truncate {size : UInt64} : (truncate limits path size now).Only allowed := by
  refine only_bind (only_fileStat hrecord) fun stat => only_check_bind fun hs => ?_
  exact only_bind (only_resizeContent hv hblocks hs) fun _ => Metadata.only_update hrecord hstat

end

end Tree

theorem asks_get {collection : Collection} {key : String} :
    Asks limits path collection (.get key) :=
  ⟨fun _ _ _ hr => (nomatch hr), .inl ⟨key, rfl⟩⟩

theorem asks_insert {value : Bytes} (h : Path.Placed limits path) :
    Asks limits path .stats (.insert path value) := by
  refine ⟨fun _ _ _ hr => ?_, .inr rfl⟩
  cases hr
  exact h

theorem asks_replace (value : Bytes) (version : Option UInt64) :
    Asks limits path .stats (.replace path value version) :=
  ⟨fun _ _ _ hr => (nomatch hr), .inr rfl⟩

theorem asks_remove : Asks limits path .stats (.remove path) :=
  ⟨fun _ _ _ hr => (nomatch hr), .inr rfl⟩

theorem asks_dentries {request : Request}
    (h : request.key = path ∨ request.key = Path.parent path) :
    Asks limits path .dentries request :=
  ⟨fun _ _ hc => (nomatch hc), .inr h⟩

theorem permits_asks : Content.Permits (Asks limits path) path limits.maxBlocks :=
  fun index _ hi hk => ⟨fun _ _ hc => (nomatch hc), .inr ⟨index, hi, hk⟩⟩

-- A call makes the requests only that belong to its path.
open DocTree.Tree in
theorem Operation.only_of {allowed : Collection → Request → Prop} (hv : limits.Valid)
    (operation : Operation)
    (hlook : ∀ collection key, Path.Looks limits operation.path collection key →
      allowed collection (.get key))
    (hmake : Path.Placed limits operation.path →
      ∀ value, allowed .stats (.insert operation.path value))
    (hstat : ∀ value version, allowed .stats (.replace operation.path value version))
    (hdrop : allowed .stats (.remove operation.path))
    (hown : ∀ request, request.key = operation.path → allowed .dentries request)
    (hlist : ∀ value version,
      allowed .dentries (.replace (Path.parent operation.path) value version))
    (hblocks : Content.Permits allowed operation.path limits.maxBlocks) :
    (operation.call limits now).Only allowed := by
  have hrecord := hlook .stats operation.path (.inl rfl)
  have hparent := hlook .stats (Path.parent operation.path) (.inr rfl)
  have hdentry := hlook .dentries operation.path (.inl rfl)
  have hsiblings := hlook .dentries (Path.parent operation.path) (.inr rfl)
  cases operation with
  | bootstrap => exact only_map (only_bootstrap hrecord (hmake (.inl rfl) _) (hown _ rfl))
  | getattr path owner => exact only_map (only_getattr hrecord)
  | openFile path flags => exact only_map (only_openFile hrecord)
  | create path mode =>
    exact only_map (only_create hsiblings hparent (fun hp => hmake hp _) hlist)
  | mkdir path mode =>
    exact only_map (only_mkdir hsiblings hparent (fun hp => hmake hp _) (hown _ rfl) hlist)
  | unlink path => exact only_map (only_unlink hsiblings hrecord hblocks hlist hdrop)
  | rmdir path => exact only_map (only_rmdir hsiblings hrecord hdentry (hown _ rfl) hlist hdrop)
  | read path offset size =>
    exact only_map (only_read hrecord hstat fun index hi => hlook .blocks _ ⟨index, hi, rfl⟩)
  | write path offset data => exact only_map (only_write hrecord hstat hv hblocks)
  | truncate path size => exact only_map (only_truncate hrecord hstat hv hblocks)
  | chmod path mode => exact only_map (only_changeRecord hrecord hstat)
  | utimens path times => exact only_map (only_changeRecord hrecord hstat)
  | readdir path offset => exact only_map (only_readdir hrecord hdentry)

theorem Operation.only_asks (hv : limits.Valid) (operation : Operation) :
    (operation.call limits now).Only (Asks limits operation.path) :=
  operation.only_of hv (fun _ _ _ => asks_get) (fun hp _ => asks_insert hp) asks_replace
    asks_remove (fun _ hk => asks_dentries (.inl hk)) (fun _ _ => asks_dentries (.inr rfl))
    permits_asks

-- Documents that nobody in question owns are the same.
def Docs.SameOutside (owns : Collection → String → Prop) (docs after : Docs) : Prop :=
  ∀ collection key, ¬owns collection key → after collection key = docs collection key

theorem Docs.Serves.sameOutside {faulty : Request → Prop} {docs after : Docs}
    {collection : Collection} {request : Request} {reply : Reply}
    {owns : Collection → String → Prop}
    (hs : docs.Serves faulty collection request reply after)
    (h : (∃ key, request = .get key) ∨ owns collection request.key) :
    docs.SameOutside owns after := by
  have hanswer : ∀ version, docs.SameOutside owns (docs.answer version collection request).2 := by
    intro version other key hn
    rcases h with hget | howns
    · rw [Docs.answer_eq_self (.inr hget)]
    · refine Docs.answer_of_ne fun hc => hn ?_
      rwa [hc.1, hc.2]
  cases hs with
  | answered version => exact hanswer version
  | refused hf reason => exact fun _ _ _ => rfl
  | dropped hf => exact fun _ _ _ => rfl
  | lost hf version => exact hanswer version

theorem Call.Only.ensures_sameOutside {α : Type} {call : Call α} {faulty : Request → Prop}
    {docs : Docs} {owns : Collection → String → Prop}
    (h : call.Only fun collection request =>
      (∃ key, request = .get key) ∨ owns collection request.key) :
    call.Ensures faulty (fun _ => docs.SameOutside owns) (fun _ => docs.SameOutside owns) docs := by
  induction call generalizing docs with
  | done value => exact fun _ _ _ => rfl
  | fail error => exact fun _ _ _ => rfl
  | crash => exact h
  | submit collection request next ih =>
    intro reply after hs
    have hstep := hs.sameOutside h.1
    refine (ih reply (h.2 reply)).mono ?_ ?_ <;>
      exact fun _ last hl other key hn => (hl other key hn).trans (hstep other key hn)

theorem Operation.ensures_sameOutside (hv : limits.Valid) (now : Readings)
    {faulty : Request → Prop} {docs : Docs} (operation : Operation) :
    (operation.call limits now).Ensures faulty
      (fun _ => docs.SameOutside (Path.Owns limits operation.path))
      (fun _ => docs.SameOutside (Path.Owns limits operation.path)) docs :=
  ((operation.only_asks hv).mono fun _ _ ha => ha.owned).ensures_sameOutside

theorem Docs.Placed.answerWithin {docs : Docs} {maxSize : Nat} {version : UInt64}
    {collection : Collection} {request : Request} (h : docs.Placed limits)
    (hr : Placing limits collection request) :
    (docs.answerWithin maxSize version collection request).2.Placed limits := by
  intro path hn
  by_cases hold : docs .stats path = none
  · obtain ⟨rfl, value, rfl⟩ := eq_insert_of_made hold hn
    exact hr path value rfl rfl
  · exact h path hold

theorem placed_afterSteps (hv : limits.Valid) (maxSize : Nat) (scope : String)
    (history : List Step) {image : Image} (h : (image.docs scope).Placed limits) :
    ((afterSteps limits (Image.backend maxSize scope) history image).docs scope).Placed limits := by
  induction history generalizing image with
  | nil => exact h
  | cons step rest ih =>
    apply ih
    refine Only.run (fun image : Image => (image.docs scope).Placed limits)
      (Operation.only_asks hv step.operation) (fun collection request state hr hs => ?_) h
    change ((state.apply maxSize scope collection request).1.docs scope).Placed limits
    rw [Image.docs_apply]
    exact hs.answerWithin hr.placing

end DocTree
