import DocTree.Proofs.Run.Crowd
import DocTree.Proofs.Tree.Placed
import Mathlib.Data.List.Infix

namespace DocTree

-- The names that a directory document lists; none, if it is missing or cannot be read.
def Dentry.names (content : Option Bytes) : List String :=
  (content.bind fun bytes => (decode bytes).toOption).elim [] children

def Docs.names (docs : Docs) (directory : String) : List String :=
  Dentry.names (docs.value .dentries directory)

-- The request made a record.
def Event.makes (event : Event) : Bool :=
  match event.asked.collection, event.asked.request with
  | .stats, .insert _ _ => event.carriedOut
  | _, _ => false

-- The call has made the record of its path and has not ended.
def Client.making (client : Client) : Bool := client.underway && client.events.any Event.makes

namespace Crowd

-- No two calls that have made the record of one path are under way at once.
def Exclusive (crowd : Crowd) : Prop :=
  crowd.clients.Pairwise fun one other =>
    one.making → other.making → one.step.operation.path ≠ other.step.operation.path

instance : DecidablePred Exclusive := fun _ => inferInstanceAs (Decidable (List.Pairwise _ _))

-- Clients that come to a store where one bootstrap has run.
def bootstrapped (limits : Limits) (maxSize : Nat) (scope : String) (header : Header)
    (now : Readings) : Crowd :=
  ⟨((Operation.bootstrap.call limits now).run (Recorded.backend maxSize scope)
    (Recorded.new header)).2, []⟩

end Crowd

theorem Event.any_makes_cons {event : Event} {events : List Event}
    (h : events.any makes = true) : (event :: events).any makes = true := by
  rw [List.any_cons, h, Bool.or_true]

variable {path directory name : String}

theorem Dentry.names_of_decode {bytes : Bytes} {dentry : Dentry} (h : decode bytes = .ok dentry) :
    names (some bytes) = dentry.children := by
  simp [names, h, Except.toOption]

theorem Dentry.names_encode (dentry : Dentry) : names (some dentry.encode) = dentry.children :=
  names_of_decode (decode_encode dentry)

-- A call on `path`, which may have `made` the record, only takes names out of a list, or adds the
-- one of the path to the list that it belongs to.
def FairTo (path : String) (made : Bool) (directory : String) (before after : List String) : Prop :=
  after.Sublist before ∨
    made ∧ directory = Path.parent path ∧ ∃ name, Path.join directory name = path ∧
      name ∉ before ∧ after = before ++ [name]

theorem FairTo.nodup {made : Bool} {before after : List String}
    (h : FairTo path made directory before after) (hb : before.Nodup) : after.Nodup := by
  rcases h with hs | ⟨-, -, name, -, hn, rfl⟩
  · exact hb.sublist hs
  · refine List.nodup_append.mpr ⟨hb, List.nodup_singleton name, fun one h1 other h2 => ?_⟩
    rw [List.mem_singleton.mp h2]
    exact fun he => hn (he ▸ h1)

-- No list has a name twice.
def Docs.Distinct (docs : Docs) : Prop := ∀ directory, (docs.names directory).Nodup

-- The path is not listed where it belongs.
def Docs.Unlists (docs : Docs) (path : String) : Prop :=
  ∀ name, Path.join (Path.parent path) name = path → name ∉ docs.names (Path.parent path)

theorem Docs.Unlists.of_eq {docs later : Docs} (h : docs.Unlists path)
    (he : later .dentries (Path.parent path) = docs .dentries (Path.parent path)) :
    later.Unlists path := by
  unfold Docs.Unlists Docs.names Docs.value at h ⊢
  rwa [he]

-- What a request of such a call does to the list that it names, if any.
def Event.Fair (path : String) (events : List Event) (event : Event) : Prop :=
  event.asked.collection = .dentries →
    FairTo path (events.any makes) event.asked.request.key
      (Dentry.names (event.before.map Document.value))
      (Dentry.names (event.after.map Document.value))

namespace Contract

-- A client that has made the record of its path relies on the others not to list it.
def fair (header : Header) (maxSize : Nat) (scope : String) (path : String) : Contract where
  header
  maxSize
  scope
  rely events store later := events.any Event.makes → (store.image.docs scope).Unlists path →
    (later.image.docs scope).Unlists path
  safe := Event.Fair path

end Contract

-- A request that adds no name to a list.
def Harmless (collection : Collection) (request : Request) : Prop :=
  collection = .dentries →
    (∃ key, request = .get key) ∨ (∃ key, request = .remove key) ∨
      ∃ directory parent, request = .insert directory (Dentry.new directory parent).encode

variable {header : Header} {maxSize : Nat} {scope : String} {events : List Event} {store : Recorded}
  {collection : Collection} {request : Request} {limits : Limits} {now : Readings}

theorem Event.fair_of_not_carriedOut {asked : Asked}
    (h : (store.event asked).carriedOut = false) : (store.event asked).Fair path events := by
  have hsame : (store.event asked).after = (store.event asked).before :=
    Recorded.documentAt?_ask_of_not_carriedOut h _
  intro _
  rw [hsame]
  exact .inl (List.Sublist.refl _)

theorem Harmless.fair {asked : Asked} (h : Harmless asked.collection asked.request) :
    (store.event asked).Fair path events := by
  cases hc : (store.event asked).carriedOut with
  | false => exact Event.fair_of_not_carriedOut hc
  | true =>
    intro hd
    have hnames : Dentry.names asked.request.value? = [] := by
      rcases h hd with ⟨key, hr⟩ | ⟨key, hr⟩ | ⟨directory, parent, hr⟩ <;> rw [hr]
      · rfl
      · rfl
      · exact Dentry.names_encode _
    rw [Recorded.value_of_carriedOut hc, hnames]
    exact .inl (List.nil_sublist _)

theorem Call.Only.fair {α : Type} {call : Call α} (h : call.Only Harmless) :
    call.Keeps (Contract.fair header maxSize scope path) events store :=
  h.keeps fun _ _ _ _ hr => hr.fair

-- The same for a call in the middle of another one that has made the record.
theorem Call.Only.fair_after {α : Type} {call : Call α} (h : call.Only Harmless)
    (hm : events.any Event.makes = true) :
    call.Follows (.fair header maxSize scope path) (fun _ events _ => events.any Event.makes = true)
      (fun _ events _ => events.any Event.makes = true) events store := by
  refine h.follows (fun events _ => events.any Event.makes = true) ?_ hm
  intro events store later collection request hr hm _
  exact ⟨hr.fair, Event.any_makes_cons hm⟩

theorem harmless_get {collection : Collection} {key : String} :
    Harmless collection (.get key) := fun _ => .inl ⟨key, rfl⟩

theorem harmless_remove (key : String) : Harmless .dentries (.remove key) :=
  fun _ => .inr (.inl ⟨key, rfl⟩)

theorem harmless_insert (directory parent : String) :
    Harmless .dentries (.insert directory (Dentry.new directory parent).encode) :=
  fun _ => .inr (.inr ⟨directory, parent, rfl⟩)

theorem harmless_of_ne (h : collection ≠ .dentries) : Harmless collection request :=
  fun hc => absurd hc h

theorem Event.Revises.names {event : Event} {old new : Dentry}
    (h : event.Revises Dentry.decode Dentry.encode old new) :
    Dentry.names (event.before.map Document.value) = old.children ∧
      Dentry.names (event.after.map Document.value) = new.children := by
  obtain ⟨found, hf, hd⟩ := h.before
  rw [hf, h.after]
  exact ⟨Dentry.names_of_decode hd, Dentry.names_encode new⟩

open Call Revision

theorem Directory.keeps_removeChild :
    (removeChild directory name).Keeps (.fair header maxSize scope path) events store := by
  rw [(MadeBy.removeChild directory name).eq_retry]
  refine follows_ofRecord (fun _ _ => True) (fun _ _ _ _ _ => trivial)
    (fun _ _ _ _ _ hn => ⟨Event.fair_of_not_carriedOut hn, trivial⟩) ?_ (fun _ _ _ _ => trivial)
    maxAttempts trivial
  intro _ events store version old _ hr
  refine ⟨fun _ => .inl ?_, trivial⟩
  rw [hr.names.1, hr.names.2]
  exact List.filter_sublist

-- Adding the name of a path to a list that is known not to have it.
theorem Directory.keeps_addChild (hm : events.any Event.makes = true)
    (hp : directory = Path.parent path) (hj : Path.join directory name = path)
    (hn : (store.image.docs scope).Unlists path) :
    (addChild directory name).Keeps (.fair header maxSize scope path) events store := by
  rw [(MadeBy.addChild directory name).eq_retry]
  refine follows_ofRecord (fun events store =>
      events.any Event.makes = true ∧ (store.image.docs scope).Unlists path)
    ?_ ?_ ?_ (fun _ _ _ _ => trivial) maxAttempts ⟨hm, hn⟩
  · exact fun events store later hi ha => ⟨hi.1, ha.rely hi.1 hi.2⟩
  · intro events store request _ hi hnot
    refine ⟨Event.fair_of_not_carriedOut hnot, Event.any_makes_cons hi.1, ?_⟩
    exact hi.2.of_eq (Recorded.documentAt?_ask_of_not_carriedOut hnot ⟨scope, .dentries, _⟩)
  · intro _ events store version old hi hr
    refine ⟨fun _ => .inr ⟨hi.1, hp, name, hj, ?_, ?_⟩, trivial⟩
    · subst hp
      exact hi.2 name hj
    · rw [hr.names.1, hr.names.2]
      rfl

-- The requests that look up and change one record.
theorem Metadata.follows_insert {mode : UInt32} {now : TimeSpec} :
    (insert path mode now).Follows (.fair header maxSize scope path)
      (fun _ events _ => events.any Event.makes = true) (fun _ _ _ => True) events store := by
  refine follows_bind.mpr (follows_bind.mpr (follows_expectSuccess fun later _ => ⟨nofun, ?_⟩))
  split
  · next hs =>
    have hmakes : Event.makes ((Contract.fair header maxSize scope path).event later .stats
        (.insert path (StatRecord.new mode now).encode)) = true :=
      Bool.and_eq_true_iff.mpr ⟨rfl, decide_eq_true hs⟩
    change List.any (_ :: events) Event.makes = true
    rw [List.any_cons, hmakes, Bool.true_or]
  · trivial

namespace Tree

theorem keeps_listChild (hm : events.any Event.makes = true) (hp : directory = Path.parent path)
    (hj : Path.join directory name = path) :
    (listChild directory name).Keeps (.fair header maxSize scope path) events store := by
  refine follows_bind.mpr (follows_bind.mpr (follows_bind.mpr (follows_get fun later _ => ?_)))
  refine ⟨harmless_get.fair, ?_⟩
  change (later.image.docs scope .dentries directory).elim _ _
  cases hf : later.image.docs scope .dentries directory with
  | none => trivial
  | some found =>
  rw [Option.elim_some]
  cases hd : Dentry.decode found.value with
  | error error => trivial
  | ok dentry =>
  change Call.Follows _ (if dentry.contains name then _ else _) _ _ _ _
  split
  · trivial
  · next hn =>
    -- The list was seen without the name; the others keep it so until the change is stored.
    refine Keeps.bind (Directory.keeps_addChild ?_ hp hj ?_) fun _ _ _ => trivial
    · exact Event.any_makes_cons hm
    · have hsame : ((Contract.fair header maxSize scope path).next later .dentries
          (.get directory)).image.docs scope = later.image.docs scope :=
        Recorded.docs_ask_eq_self (.inr ⟨directory, rfl⟩) scope
      refine Docs.Unlists.of_eq ?_ (congrFun (congrFun hsame _) _)
      rintro other ho
      subst hp
      obtain rfl := Path.join_inj (hj.trans ho.symm)
      have hnames : (later.image.docs scope).names (Path.parent path) = dentry.children := by
        rw [Docs.names, Docs.value, show later.image.docs scope .dentries _ = _ from hf]
        exact Dentry.names_of_decode hd
      rw [hnames]
      simpa [Dentry.contains] using hn

theorem keeps_split_bind {α : Type} {next : String × String → Call α}
    (h : ∀ parent leaf, parent = Path.parent path → Path.join parent leaf = path →
      (next (parent, leaf)).Keeps (.fair header maxSize scope path) events store) :
    (ofExcept (Path.split path limits.maxKeyLen) >>= next).Keeps (.fair header maxSize scope path)
      events store := by
  cases hs : Path.split path limits.maxKeyLen with
  | ok parts => exact h _ _ (Path.parent_of_split hs).symm (Path.join_of_split hs)
  | error error => trivial

theorem keeps_create {mode : UInt32} {now : TimeSpec} :
    (create limits path mode now).Keeps (.fair header maxSize scope path) events store := by
  refine keeps_split_bind fun parent leaf hp hj => ?_
  refine Keeps.bind (follows_check.mpr (by split <;> trivial)) fun _ _ _ => ?_
  refine (only_requireDirectory harmless_get).fair.bind fun _ _ _ => ?_
  refine Metadata.follows_insert.bind_keeps fun _ _ _ hm => ?_
  exact (keeps_listChild hm hp hj).bind fun _ _ _ => trivial

theorem keeps_mkdir {mode : UInt32} {now : TimeSpec} :
    (mkdir limits path mode now).Keeps (.fair header maxSize scope path) events store := by
  refine keeps_split_bind fun parent leaf hp hj => ?_
  refine (only_requireDirectory harmless_get).fair.bind fun _ _ _ => ?_
  refine Metadata.follows_insert.bind_keeps fun _ _ _ hm => ?_
  subst hp
  refine Follows.bind_keeps ((Directory.only_create (harmless_insert _ _)).fair_after hm)
    fun _ _ _ hm => ?_
  exact (keeps_listChild hm rfl hj).bind fun _ _ _ => trivial

theorem keeps_unlink :
    (unlink limits path).Keeps (.fair header maxSize scope path) events store := by
  refine keeps_split_bind fun parent leaf _ _ => ?_
  refine (only_refuseDirectory harmless_get).fair.bind fun _ _ _ => ?_
  refine (Content.only_removeRest ?_ 0).fair.bestEffort.bind fun _ _ _ => ?_
  · exact fun _ _ _ _ => harmless_of_ne nofun
  · refine Directory.keeps_removeChild.bestEffort.bind fun _ _ _ => ?_
    exact (Metadata.only_remove (harmless_of_ne nofun)).fair

theorem keeps_rmdir :
    (rmdir limits path).Keeps (.fair header maxSize scope path) events store := by
  refine keeps_split_bind fun parent leaf _ _ => ?_
  refine (only_requireDirectory harmless_get).fair.bind fun _ _ _ => ?_
  refine (only_dropDentry harmless_get ?_).fair.bind fun _ _ _ => ?_
  · exact harmless_remove _
  · refine Directory.keeps_removeChild.bestEffort.bind fun _ _ _ => ?_
    exact (Metadata.only_remove (harmless_of_ne nofun)).fair

end Tree

open DocTree.Tree in
theorem Operation.keeps_fair (hv : limits.Valid) (operation : Operation) :
    (operation.call limits now).Keeps (.fair header maxSize scope operation.path) events store := by
  have hstat : ∀ {request}, Harmless .stats request := harmless_of_ne nofun
  have hblocks : ∀ {path count}, Content.Permits Harmless path count :=
    fun _ _ _ _ => harmless_of_ne nofun
  cases operation with
  | bootstrap => exact (only_bootstrap harmless_get hstat (harmless_insert _ _)).fair.map
  | getattr path owner => exact (only_getattr harmless_get).fair.map
  | openFile path flags => exact (only_openFile harmless_get).fair.map
  | create path mode => exact keeps_create.map
  | mkdir path mode => exact keeps_mkdir.map
  | unlink path => exact keeps_unlink.map
  | rmdir path => exact keeps_rmdir.map
  | read path offset size =>
    exact (only_read harmless_get (fun _ _ => hstat) fun _ _ => harmless_get).fair.map
  | write path offset data =>
    exact (only_write harmless_get (fun _ _ => hstat) hv hblocks).fair.map
  | truncate path size =>
    exact (only_truncate harmless_get (fun _ _ => hstat) hv hblocks).fair.map
  | chmod path mode => exact (only_changeRecord harmless_get fun _ _ => hstat).fair.map
  | utimens path times => exact (only_changeRecord harmless_get fun _ _ => hstat).fair.map
  | readdir path offset => exact (only_readdir harmless_get harmless_get).fair.map

theorem Recorded.fair_names {asked : Asked} (hs : asked.scope = scope)
    (h : (store.event asked).Fair path events)
    (directory : String) :
    FairTo path (events.any Event.makes) directory ((store.image.docs scope).names directory)
      (((store.ask asked).image.docs scope).names directory) := by
  subst hs
  by_cases ha : (⟨asked.scope, .dentries, directory⟩ : Address) = asked.address
  · obtain ⟨-, hc, rfl⟩ := Address.mk.inj ha
    have hfair := h hc.symm
    unfold Recorded.event at hfair
    rw [← ha] at hfair
    exact hfair
  · have hkept : (store.ask asked).image.documentAt? ⟨asked.scope, .dentries, directory⟩ =
        store.image.documentAt? ⟨asked.scope, .dentries, directory⟩ :=
      Recorded.documentAt?_ask_of_ne ha
    have hsame : ((store.ask asked).image.docs asked.scope).names directory =
        (store.image.docs asked.scope).names directory :=
      congrArg (fun document => Dentry.names (Option.map Document.value document)) hkept
    rw [hsame]
    exact .inl (List.Sublist.refl _)

theorem Crowd.Exclusive.ne {crowd : Crowd} (h : crowd.Exclusive) {first second : Nat}
    {one other : Client} (hne : first ≠ second) (hf : crowd.clients[first]? = some one)
    (hs : crowd.clients[second]? = some other) (ho : one.making = true)
    (ht : other.making = true) : one.step.operation.path ≠ other.step.operation.path := by
  obtain ⟨hfirst, rfl⟩ := List.getElem?_eq_some_iff.mp hf
  obtain ⟨hsecond, rfl⟩ := List.getElem?_eq_some_iff.mp hs
  have hpairs := List.pairwise_iff_getElem.mp h
  rcases Nat.lt_or_gt_of_ne hne with hlt | hlt
  · exact hpairs _ _ hfirst hsecond hlt ho ht
  · exact (hpairs _ _ hsecond hfirst hlt ht ho).symm

def Pact.siblings (header : Header) (maxSize : Nat) (scope : String) : Pact where
  header
  maxSize
  scope
  joins _ := True
  inv store := store.Reached header ∧ (store.image.docs scope).Distinct
  rely step := (Contract.fair header maxSize scope step.operation.path).rely
  safe step := (Contract.fair header maxSize scope step.operation.path).safe
  post _ _ _ _ := True

theorem Pact.siblings_sound (hv : limits.Valid) :
    (siblings header maxSize scope).Sound limits fun crowd =>
      crowd.Exclusive ∧ crowd.store.Fresh where
  starts step store _ _ := step.operation.keeps_fair hv
  refl _ _ _ _ _ h := h
  trans _ _ _ _ _ h ht hm hu := ht hm (h hm hu)
  settles _ _ _ _ _ _ _ := trivial
  reached _ h := h.1
  fresh _ h := h.2
  keeps step events store asked hs hi hsafe :=
    ⟨hi.1.ask asked, fun directory =>
      (Recorded.fair_names hs hsafe directory).nodup (hi.2 directory)⟩
  others crowd asked one other hm hu hmade hun := by
    obtain ⟨first, second, hne, hf, hs, -⟩ := hm.members
    intro name hj hmem
    have hscope : asked.scope = scope := hm.scope
    rcases Recorded.fair_names hscope hm.safe (Path.parent other.step.operation.path) with
      hsub | ⟨hone, -, added, hj', -, hafter⟩
    · exact hun name hj (hsub.subset hmem)
    -- Only another call that has made the record of this very path could have added its name.
    · rw [hafter, List.mem_append, List.mem_singleton] at hmem
      rcases hmem with hmem | rfl
      · exact hun name hj hmem
      · exact hm.before.1.ne hne hf hs (Bool.and_eq_true_iff.mpr ⟨hm.underway, hone⟩)
          (Bool.and_eq_true_iff.mpr ⟨hu, hmade⟩) (hj'.symm.trans hj)

theorem Crowd.bootstrapped_inv (limits : Limits) (maxSize : Nat) (scope : String) (header : Header)
    (now : Readings) :
    (Pact.siblings header maxSize scope).inv
      (bootstrapped limits maxSize scope header now).store := by
  unfold bootstrapped
  dsimp only
  have honly : (Operation.bootstrap.call limits now).Only Harmless :=
    only_map (Tree.only_bootstrap harmless_get (harmless_of_ne nofun) (harmless_insert _ _))
  refine honly.run (Pact.siblings header maxSize scope).inv ?_ ?_
  · intro collection request store hr hi
    have hfair : Event.Fair Path.root [] (store.event ⟨maxSize, scope, collection, request⟩) :=
      hr.fair
    exact ⟨hi.1.ask _, fun directory =>
      (Recorded.fair_names rfl hfair directory).nodup (hi.2 directory)⟩
  · refine ⟨⟨[], rfl⟩, fun directory => ?_⟩
    change (Docs.names ((Image.new header).docs scope) directory).Nodup
    rw [Image.docs_new]
    exact List.nodup_nil

-- Whatever the order of their requests, no name is listed twice, as long as the calls that make the
-- record of one path do so one after the other.
theorem children_stay_distinct (hv : limits.validate = .ok ()) (maxSize : Nat) (scope : String)
    (header : Header) (now : Readings) (moves : List Move)
    (hx : ∀ front, front <+: moves →
      ((Crowd.bootstrapped limits maxSize scope header now).play limits maxSize scope
        front).Exclusive)
    (hf : ((Crowd.bootstrapped limits maxSize scope header now).play limits maxSize scope
      moves).store.Fresh) (directory : String) :
    ((((Crowd.bootstrapped limits maxSize scope header now).play limits maxSize scope
      moves).store.image.docs scope).names directory).Nodup := by
  have hstart : (Pact.siblings header maxSize scope).Holds
      (Crowd.bootstrapped limits maxSize scope header now) :=
    ⟨Crowd.bootstrapped_inv limits maxSize scope header now, fun _ _ hc => (nomatch hc)⟩
  have hplay := (Pact.siblings_sound (limits.validate_eq_ok_iff.mp hv)).play hstart moves
    (fun _ _ => trivial) fun front hp => ⟨hx front hp, hf.of_suffix (Crowd.log_suffix_play _ hp)⟩
  exact hplay.inv.2 directory

namespace Sample

open Move (turns)

def crowd : Crowd := Crowd.bootstrapped Sample.limits 64 defaultScope default Sample.now

def afterMoves (moves : List Move) : Crowd := crowd.play Sample.limits 64 defaultScope moves

-- The first client has made the record and not listed the name yet when the path is removed. The
-- last one does not begin before the first one is done.
def oneAfterTheOther : List Move :=
  [.start ⟨Sample.now, .create "/f" 0o100644⟩, .start ⟨Sample.now, .unlink "/f"⟩] ++
    turns 0 3 ++ turns 1 5 ++ turns 0 2 ++
    .start ⟨Sample.now, .create "/f" 0o100644⟩ :: turns 2 5

-- Here the last one makes the record again while the first one is about to list the name, and both
-- have seen a list without it.
def bothAtOnce : List Move :=
  [.start ⟨Sample.now, .create "/f" 0o100644⟩, .start ⟨Sample.now, .unlink "/f"⟩,
    .start ⟨Sample.now, .create "/f" 0o100644⟩] ++
    turns 0 3 ++ turns 1 5 ++ turns 2 3 ++ turns 0 2 ++ turns 2 2

end Sample

theorem sample_children_stay_distinct :
    Sample.limits.validate = .ok () ∧
      (∀ front, front <+: Sample.oneAfterTheOther → (Sample.afterMoves front).Exclusive) ∧
      (Sample.afterMoves Sample.oneAfterTheOther).store.Fresh ∧
      (((Sample.afterMoves Sample.oneAfterTheOther).store.image.docs defaultScope).names
        Path.root).Nodup := by
  have hv : Sample.limits.validate = .ok () := by decide
  have hx : ∀ front, front <+: Sample.oneAfterTheOther → (Sample.afterMoves front).Exclusive := by
    have hall : ∀ front ∈ Sample.oneAfterTheOther.inits, (Sample.afterMoves front).Exclusive := by
      decide +kernel
    exact fun front hp => hall front ((List.mem_inits _ _).mpr hp)
  have hf : (Sample.afterMoves Sample.oneAfterTheOther).store.Fresh := by
    unfold Recorded.Fresh
    decide +kernel
  exact ⟨hv, hx, hf, children_stay_distinct hv 64 defaultScope default Sample.now _ hx hf _⟩

theorem sample_child_listed_twice :
    ((Sample.afterMoves Sample.bothAtOnce).store.image.docs defaultScope).names Path.root =
      ["f", "f"] := by
  decide +kernel

end DocTree
