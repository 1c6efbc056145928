import DocTree.Proofs.Call.Exchanges
import DocTree.Proofs.Store.Shared
import DocTree.Proofs.Tree.Revises

namespace DocTree

open Call

def Inserting (target : Collection) (key : String) (collection : Collection) (request : Request) :
    Prop :=
  collection = target ∧ ∃ value, request = .insert key value

def Replacing (target : Collection) (key : String) (collection : Collection) (request : Request) :
    Prop :=
  collection = target ∧ ∃ value version, request = .replace key value version

def Removing (target : Collection) (key : String) (collection : Collection) (request : Request) :
    Prop :=
  collection = target ∧ request = .remove key

-- Any request for one of the blocks that a file can have.
def OnBlock (limits : Limits) (path : String) (collection : Collection) (request : Request) :
    Prop :=
  collection = .blocks ∧ ∃ index < limits.maxBlocks, request.key = Path.blockKey path index

-- The requests by which a call may change the store.
def Operation.Writes (limits : Limits) (operation : Operation) (collection : Collection)
    (request : Request) : Prop :=
  match operation with
  | getattr _ _ | openFile _ _ | readdir _ _ => False
  | read path _ _ | chmod path _ | utimens path _ => Replacing .stats path collection request
  | write path _ _ | truncate path _ =>
    Replacing .stats path collection request ∨ OnBlock limits path collection request
  | create path _ =>
    Inserting .stats path collection request ∨
      Replacing .dentries (Path.parent path) collection request
  | mkdir path _ =>
    Inserting .stats path collection request ∨ Inserting .dentries path collection request ∨
      Replacing .dentries (Path.parent path) collection request
  | rmdir path =>
    Removing .stats path collection request ∨ Removing .dentries path collection request ∨
      Replacing .dentries (Path.parent path) collection request
  | unlink path =>
    Removing .stats path collection request ∨ OnBlock limits path collection request ∨
      Replacing .dentries (Path.parent path) collection request
  | bootstrap =>
    Inserting .stats Path.root collection request ∨ Inserting .dentries Path.root collection request

-- If a record is replaced, it was read right before, and goes back changed and with its version.
def Versioned (now : Readings) (last : Option Exchange) (collection : Collection)
    (request : Request) : Prop :=
  ∀ path value version, collection = .stats → request = .replace path value version →
    ∃ response stat change tried, last = some ⟨.stats, .get path, .answered response⟩ ∧
      response.status = .success ∧ version = some response.version ∧
      StatRecord.decode response.value = .ok stat ∧ value = (stat.apply change (now tried)).encode

variable {limits : Limits} {now : Readings} {last : Option Exchange}

open DocTree.Tree in
theorem Operation.only_writes (hv : limits.Valid) (operation : Operation) :
    (operation.call limits now).Only fun collection request =>
      (∃ key, request = .get key) ∨ operation.Writes limits collection request := by
  have hget : ∀ {collection key}, (∃ other, Request.get key = .get other) ∨
      operation.Writes limits collection (.get key) := .inl ⟨_, rfl⟩
  have hblocks : ∀ {path : String} {rest : Collection → Request → Prop},
      (∀ collection request, OnBlock limits path collection request → rest collection request) →
      Content.Permits (fun collection request => (∃ key, request = .get key) ∨
        rest collection request) path limits.maxBlocks :=
    fun h index request hi hk => .inr (h _ _ ⟨rfl, index, hi, hk⟩)
  cases operation with
  | bootstrap =>
    exact only_map (only_bootstrap hget (.inr (.inl ⟨rfl, _, rfl⟩)) (.inr (.inr ⟨rfl, _, rfl⟩)))
  | getattr path owner => exact only_map (only_getattr hget)
  | openFile path flags => exact only_map (only_openFile hget)
  | create path mode =>
    exact only_map (only_create hget hget (fun _ => .inr (.inl ⟨rfl, _, rfl⟩))
      fun _ _ => .inr (.inr ⟨rfl, _, _, rfl⟩))
  | mkdir path mode =>
    exact only_map (only_mkdir hget hget (fun _ => .inr (.inl ⟨rfl, _, rfl⟩))
      (.inr (.inr (.inl ⟨rfl, _, rfl⟩))) fun _ _ => .inr (.inr (.inr ⟨rfl, _, _, rfl⟩)))
  | unlink path =>
    exact only_map (only_unlink hget hget (hblocks fun _ _ h => .inr (.inl h))
      (fun _ _ => .inr (.inr (.inr ⟨rfl, _, _, rfl⟩))) (.inr (.inl ⟨rfl, rfl⟩)))
  | rmdir path =>
    exact only_map (only_rmdir hget hget hget (.inr (.inr (.inl ⟨rfl, rfl⟩)))
      (fun _ _ => .inr (.inr (.inr ⟨rfl, _, _, rfl⟩))) (.inr (.inl ⟨rfl, rfl⟩)))
  | read path offset size =>
    exact only_map (only_read hget (fun _ _ => .inr ⟨rfl, _, _, rfl⟩) fun _ _ => hget)
  | write path offset data =>
    exact only_map (only_write hget (fun _ _ => .inr (.inl ⟨rfl, _, _, rfl⟩)) hv
      (hblocks fun _ _ h => .inr h))
  | truncate path size =>
    exact only_map (only_truncate hget (fun _ _ => .inr (.inl ⟨rfl, _, _, rfl⟩)) hv
      (hblocks fun _ _ h => .inr h))
  | chmod path mode => exact only_map (only_changeRecord hget fun _ _ => .inr ⟨rfl, _, _, rfl⟩)
  | utimens path times => exact only_map (only_changeRecord hget fun _ _ => .inr ⟨rfl, _, _, rfl⟩)
  | readdir path offset => exact only_map (only_readdir hget hget)

theorem onlyAfter_update (path : String) (change : StatChange) :
    (Metadata.update path change now).OnlyAfter (Versioned now) last := by
  refine onlyAfter_retry (fun tried last => ?_) _
  rw [Revision.updateOnce_eq]
  refine onlyAfter_attempt_ofRecord (fun _ _ _ _ hr => nomatch hr) fun response stat hs hd => ?_
  intro path value version _ hr
  cases hr
  exact ⟨response, stat, change, tried, rfl, hs, rfl, hd, rfl⟩

theorem Call.Revises.onlyAfter {α : Type} {call : Call α} (h : call.Revises limits now) :
    call.OnlyAfter (Versioned now) last := by
  induction h generalizing last with
  | aside h =>
    refine h.onlyAfter fun last collection request ha path value version hc hr => ?_
    subst hc hr
    exact ha.elim nofun fun ⟨key, hk⟩ => nomatch hk
  | update path _ => exact onlyAfter_update path _
  | bind _ _ ih ihn => exact ih.bind fun value _ => ihn value
  | check _ ih => exact onlyAfter_check_bind fun hp => ih hp

-- A call that takes or makes a path replaces no record.
theorem Operation.Writes.versioned {operation : Operation} {collection : Collection}
    {request : Request} (h : operation.Writes limits collection request)
    (hr : ¬operation.Revising) : Versioned now last collection request := by
  intro path value version hc hq
  subst hc hq
  cases operation <;> simp_all [Writes, Inserting, Replacing, Removing, OnBlock, Revising]

theorem Operation.onlyAfter_versioned (hv : limits.Valid) (operation : Operation) :
    (operation.call limits now).OnlyAfter (Versioned now) last := by
  by_cases hr : operation.Revising
  · by_cases ht : operation.Timely
    · exact (operation.revises hv hr ht).onlyAfter
    · cases operation with
      -- Times that are no instants are the one thing that `Revises` does not take.
      | utimens path times =>
        exact (onlyAfter_ofExcept_bind fun _ => onlyAfter_update path _).bind fun _ _ => trivial
      | _ => exact absurd trivial ht
  · refine (operation.only_writes hv).onlyAfter fun last collection request ha => ?_
    rcases ha with ⟨key, rfl⟩ | hw
    · exact fun _ _ _ _ hq => nomatch hq
    · exact hw.versioned hr

-- Whatever answers the requests of a call, and however: among them are writes of these only, and
-- a record is replaced under the version only that was read with it.
theorem calls_write_their_own (hv : limits.validate = .ok ()) (now : Readings)
    (operation : Operation) {σ : Type} (backend : Backend σ) (state : σ) :
    (∀ exchange ∈ (operation.call limits now).exchanges backend state,
      exchange.request.writes = true →
        operation.Writes limits exchange.collection exchange.request) ∧
      ∀ before exchange rest,
        (operation.call limits now).exchanges backend state = before ++ exchange :: rest →
          Versioned now before.getLast? exchange.collection exchange.request := by
  have hv := limits.validate_eq_ok_iff.mp hv
  constructor
  · intro exchange he hw
    rcases (operation.only_writes hv).of_mem_exchanges he with ⟨key, hk⟩ | hown
    · rw [hk] at hw
      cases hw
    · exact hown
  · intro before exchange rest he
    have hafter : (operation.call limits now).OnlyAfter (Versioned now) none :=
      operation.onlyAfter_versioned hv
    have h := hafter.of_exchanges he
    rwa [Option.or_none] at h

namespace Sample

-- Answers with one reply after the other, whatever is asked.
def scripted : Backend (List Reply) := fun _ _ replies => (replies.headD .dropped, replies.tail)

-- The versions go down, and what is read the second time is another record.
def replies : List Reply :=
  [.answered { value := stat.encode, version := 7 }, .answered { status := .versionMismatch },
    .answered { value := (StatRecord.new 0o100600 (Sample.now 0)).encode, version := 3 }, .dropped]

def scriptedChmod : List Exchange :=
  ((Operation.chmod "/f" 0o600).call Sample.limits Sample.now).exchanges scripted replies

end Sample

-- Both replacements carry the version of their own read.
theorem sample_calls_write_their_own :
    Sample.limits.validate = .ok () ∧
      (∀ exchange ∈ Sample.scriptedChmod, exchange.request.writes = true →
        Replacing .stats "/f" exchange.collection exchange.request) ∧
      (∀ before exchange rest, Sample.scriptedChmod = before ++ exchange :: rest →
        Versioned Sample.now before.getLast? exchange.collection exchange.request) ∧
      Sample.scriptedChmod.map Exchange.request =
        [.get "/f",
          .replace "/f" (Sample.stat.apply (.mode 0o600) (Sample.now 0)).encode (some 7),
          .get "/f",
          .replace "/f"
            ((StatRecord.new 0o100600 (Sample.now 0)).apply (.mode 0o600) (Sample.now 1)).encode
            (some 3)] := by
  have hv : Sample.limits.validate = .ok () := by decide
  have h := calls_write_their_own hv Sample.now (.chmod "/f" 0o600) Sample.scripted Sample.replies
  exact ⟨hv, h.1, h.2, by decide +kernel⟩

end DocTree
