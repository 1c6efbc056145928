import DocTree.Proofs.Store.Sized
import Mathlib.Data.List.Nodup
import Mathlib.Data.List.Range

namespace DocTree

-- Where a document lies.
structure Address where
  scope : String
  collection : Collection
  key : String
  deriving DecidableEq

-- A request that arrives at a store, and the length of the longest value that the store takes.
structure Asked where
  maxSize : Nat
  scope : String
  collection : Collection
  request : Request
  deriving DecidableEq

def Asked.address (asked : Asked) : Address := ⟨asked.scope, asked.collection, asked.request.key⟩

-- A request and what it was answered.
structure Entry where
  asked : Asked
  response : Response
  deriving DecidableEq

namespace Entry

-- The request stored a value.
def wrote (entry : Entry) : Bool := entry.response.isSuccess && entry.asked.request.value?.isSome

-- The value and the version of a document after a request on it, from those before.
def held (entry : Entry) (before : Option (Bytes × UInt64)) : Option (Bytes × UInt64) :=
  if entry.response.isSuccess then
    match entry.asked.request with
    | .get _ => before
    | .insert _ value => some (value, entry.response.version)
    | .replace _ value _ => some (value, entry.response.version)
    | .remove _ => none
  else
    before

end Entry

-- The value and the version that the last successful write to an address left, unless a successful
-- remove came after it.
def lastWrite (address : Address) : List Entry → Option (Bytes × UInt64)
  | [] => none
  | entry :: earlier =>
    if entry.asked.address = address then entry.held (lastWrite address earlier)
    else lastWrite address earlier

def written (log : List Entry) : List Entry := log.filter Entry.wrote

-- The versions handed out, the last one first.
def versions (log : List Entry) : List UInt64 :=
  (written log).map fun entry => entry.response.version

def lastHanded (log : List Entry) : Nat := ((versions log).head?.map UInt64.toNat).getD 0

-- A store, and the requests it has answered since it was new.
structure Recorded where
  image : Image
  log : List Entry

def Image.documentAt? (image : Image) (address : Address) : Option Document :=
  image.document? address.scope address.collection address.key

namespace Recorded

def new (header : Header) : Recorded := ⟨Image.new header, []⟩

def answer (store : Recorded) (asked : Asked) : Response :=
  (store.image.apply asked.maxSize asked.scope asked.collection asked.request).2

def ask (store : Recorded) (asked : Asked) : Recorded :=
  ⟨(store.image.apply asked.maxSize asked.scope asked.collection asked.request).1,
    ⟨asked, store.answer asked⟩ :: store.log⟩

def after (header : Header) (requests : List Asked) : Recorded :=
  requests.foldr (fun asked store => store.ask asked) (new header)

end Recorded

namespace Docs

variable {docs : Docs} {maxSize : Nat} {version : UInt64} {collection : Collection}
  {request : Request}

-- The answer to a write carries the version that it gave the document.
theorem version_answerWithin
    (hs : (docs.answerWithin maxSize version collection request).1.isSuccess)
    (hw : request.value?.isSome) :
    (docs.answerWithin maxSize version collection request).1.version = version := by
  unfold answerWithin at hs ⊢
  split at hs
  case isFalse => cases hs
  case isTrue hl =>
    rw [if_pos hl]
    cases request with
    | get key => cases hw
    | insert key value =>
      unfold answer at hs ⊢
      dsimp only at hs ⊢
      split at hs
      · cases hs
      · next hk => rw [if_neg hk]
    | replace key value expected =>
      unfold answer at hs ⊢
      dsimp only at hs ⊢
      split at hs
      · cases hs
      · split at hs
        · next he => rw [if_pos he]
        · cases hs
    | remove key => cases hw

-- The document that a request names holds afterwards what the account of it says.
theorem answerWithin_held {asked : Asked} {before : Option (Bytes × UInt64)} (maxSize : Nat)
    (version : UInt64)
    (hd : docs asked.collection asked.request.key =
      before.map fun held => ⟨held.1, held.2, 0⟩) :
    (docs.answerWithin maxSize version asked.collection asked.request).2 asked.collection
        asked.request.key =
      (Entry.held ⟨asked, (docs.answerWithin maxSize version asked.collection asked.request).1⟩
        before).map fun held => ⟨held.1, held.2, 0⟩ := by
  obtain ⟨_, scope, collection, request⟩ := asked
  dsimp only at hd ⊢
  by_cases hl : request.size ≤ maxSize
  case neg =>
    rw [answerWithin_of_lt (Nat.not_le.mp hl)]
    exact hd
  rw [answerWithin_of_le hl]
  unfold Entry.held
  cases request with
  | get key =>
    rw [answer_eq_self (.inr ⟨key, rfl⟩), ite_self]
    exact hd
  | insert key value =>
    dsimp only [Request.key, answer] at hd ⊢
    by_cases hk : (docs collection key).isSome
    · simpa [hk, Response.isSuccess] using hd
    · simp [hk, Response.isSuccess, set_self]
  | replace key value expected =>
    dsimp only [Request.key, answer] at hd ⊢
    obtain hk | ⟨found, hk⟩ := Option.eq_none_or_eq_some (docs collection key)
    · simpa [hk, Response.isSuccess] using hd
    · -- The flags stay, and those of every document before are 0.
      have hf : found.flags = 0 := by
        obtain ⟨_, -, he⟩ := Option.map_eq_some_iff.mp (hd.symm.trans hk)
        rw [← he]
      by_cases he : expected.all (· = found.version)
      · simp [hk, he, Response.isSuccess, set_self, hf]
      · simpa [he, hk, Response.isSuccess] using hd
  | remove key =>
    dsimp only [Request.key, answer] at hd ⊢
    obtain hk | ⟨found, hk⟩ := Option.eq_none_or_eq_some (docs collection key)
    · simpa [hk, Response.isSuccess] using hd
    · simp [hk, Response.isSuccess, set_self]

end Docs

namespace Recorded

variable {store : Recorded} {asked : Asked} {address : Address} {header : Header}
  {requests : List Asked}

theorem answer_eq : store.answer asked =
    ((store.image.docs asked.scope).answerWithin asked.maxSize (store.image.lastVersion + 1)
      asked.collection asked.request).1 := Image.apply_response

theorem docs_ask : (store.ask asked).image.docs asked.scope =
    ((store.image.docs asked.scope).answerWithin asked.maxSize (store.image.lastVersion + 1)
      asked.collection asked.request).2 := Image.docs_apply

theorem documentAt?_ask_of_ne (h : address ≠ asked.address) :
    (store.ask asked).image.documentAt? address = store.image.documentAt? address := by
  by_cases hs : address.scope = asked.scope
  · have hn : ¬(address.collection = asked.collection ∧ address.key = asked.request.key) := by
      intro hc
      apply h
      obtain ⟨scope, collection, key⟩ := address
      simp only [Asked.address, Address.mk.injEq]
      exact ⟨hs, hc⟩
    change (store.ask asked).image.docs address.scope _ _ = store.image.docs address.scope _ _
    rw [hs, docs_ask]
    exact Docs.answerWithin_of_ne hn
  · exact congrFun (congrFun (Image.docs_apply_of_ne hs) _) _

theorem written_ask : written (store.ask asked).log =
    if (⟨asked, store.answer asked⟩ : Entry).wrote then
      ⟨asked, store.answer asked⟩ :: written store.log
    else written store.log :=
  List.filter_cons

theorem lastVersion_ask : (store.ask asked).image.lastVersion =
    if (⟨asked, store.answer asked⟩ : Entry).wrote then store.image.lastVersion + 1
    else store.image.lastVersion := Image.lastVersion_apply

theorem version_of_wrote (h : (⟨asked, store.answer asked⟩ : Entry).wrote) :
    (store.answer asked).version = store.image.lastVersion + 1 := by
  obtain ⟨hs, hw⟩ := Bool.and_eq_true_iff.mp h
  dsimp only at hs hw
  rw [answer_eq] at hs ⊢
  exact Docs.version_answerWithin hs hw

-- A request that is no successful write leaves the documents as they are unless it removes one.
theorem docs_ask_eq_self (h : (store.answer asked).status ≠ .success ∨
    ∃ key, asked.request = .get key) (scope : String) :
    (store.ask asked).image.docs scope = store.image.docs scope := by
  by_cases hs : scope = asked.scope
  · subst hs
    rw [docs_ask]
    rw [answer_eq] at h
    exact Docs.answerWithin_eq_self h
  · exact Image.docs_apply_of_ne hs

theorem documentAt?_after (header : Header) (requests : List Asked) (address : Address) :
    (after header requests).image.documentAt? address =
    (lastWrite address (after header requests).log).map fun held => ⟨held.1, held.2, 0⟩ := by
  induction requests with
  | nil =>
    change (Image.new header).docs address.scope address.collection address.key = none
    rw [Image.docs_new]
  | cons asked requests ih =>
    change ((after header requests).ask asked).image.documentAt? address = _
    unfold lastWrite
    by_cases ha : asked.address = address
    · subst ha
      have hd : (after header requests).image.docs asked.scope asked.collection
          asked.request.key = _ := ih
      have ha := Docs.answerWithin_held asked.maxSize
        ((after header requests).image.lastVersion + 1) hd
      rw [← docs_ask, ← answer_eq] at ha
      exact ha.trans (congrArg _ (if_pos rfl).symm)
    · rw [documentAt?_ask_of_ne (Ne.symm ha), ih]
      exact congrArg _ (if_neg ha).symm

theorem lastWrite_of_documentAt? {address : Address} {document : Document}
    (h : (after header requests).image.documentAt? address = some document) :
    lastWrite address (after header requests).log = some (document.value, document.version) := by
  rw [documentAt?_after] at h
  obtain ⟨held, hl, rfl⟩ := Option.map_eq_some_iff.mp h
  exact hl

theorem lastVersion_after : (after header requests).image.lastVersion =
    UInt64.ofNat (versions (after header requests).log).length := by
  induction requests with
  | nil => rfl
  | cons asked requests ih =>
    change ((after header requests).ask asked).image.lastVersion =
      UInt64.ofNat (versions ((after header requests).ask asked).log).length
    rw [lastVersion_ask, versions, written_ask, ih]
    split
    · simp [versions]
    · rfl

theorem versions_after (header : Header) (requests : List Asked) :
    versions (after header requests).log =
      (List.range (versions (after header requests).log).length).reverse.map
        fun before => UInt64.ofNat (before + 1) := by
  induction requests with
  | nil => rfl
  | cons asked requests ih =>
    change versions ((after header requests).ask asked).log = (List.range
      (versions ((after header requests).ask asked).log).length).reverse.map _
    unfold versions at ih ⊢
    rw [written_ask]
    split
    · next hw =>
      have hv := version_of_wrote hw
      rw [lastVersion_after] at hv
      simp only [List.map_cons, List.length_cons, List.range_succ, List.reverse_append,
        List.reverse_singleton, List.singleton_append, ← ih, hv, List.cons.injEq, and_true]
      simp [versions]
    · exact ih

theorem namespaces_after {space : String} (h : space ∈ (after header requests).image.namespaces) :
    ∃ scope collection, space = Image.namespaceOf scope collection := by
  induction requests with
  | nil => simp [after, new, Image.new] at h
  | cons asked requests ih =>
    rcases Image.mem_namespaces_apply h with he | hm
    · exact ⟨_, _, he⟩
    · exact ih hm

end Recorded

theorem mem_of_lastWrite {address : Address} {log : List Entry} {held : Bytes × UInt64}
    (h : lastWrite address log = some held) : ∃ entry ∈ written log,
      entry.asked.address = address ∧ entry.asked.request.value? = some held.1 ∧
        entry.response.version = held.2 := by
  induction log with
  | nil => cases h
  | cons entry earlier ih =>
    have hearlier : lastWrite address earlier = some held → ∃ other ∈ written (entry :: earlier),
        other.asked.address = address ∧ other.asked.request.value? = some held.1 ∧
          other.response.version = held.2 := by
      intro hl
      obtain ⟨other, hm, ho⟩ := ih hl
      exact ⟨other, ((List.sublist_cons_self entry earlier).filter _).subset hm, ho⟩
    unfold lastWrite at h
    split at h
    case isFalse => exact hearlier h
    case isTrue ha =>
      unfold Entry.held at h
      split at h
      case isFalse => exact hearlier h
      case isTrue hs =>
        have hwrote : entry.asked.request.value?.isSome → entry ∈ written (entry :: earlier) :=
          fun hv => List.mem_filter.mpr ⟨List.mem_cons_self .., Bool.and_eq_true_iff.mpr ⟨hs, hv⟩⟩
        split at h
        · exact hearlier h
        · next hr =>
          cases h
          exact ⟨entry, hwrote (by rw [hr]; rfl), ha, by rw [hr]; rfl, rfl⟩
        · next hr =>
          cases h
          exact ⟨entry, hwrote (by rw [hr]; rfl), ha, by rw [hr]; rfl, rfl⟩
        · cases h

namespace Recorded

variable {header : Header} {requests : List Asked}

-- Fewer values have been stored than there are versions.
def Fresh (store : Recorded) : Prop := (versions store.log).length < UInt64.size

theorem length_versions_ask (store : Recorded) (asked : Asked) :
    (versions (store.ask asked).log).length =
      if (⟨asked, store.answer asked⟩ : Entry).wrote then (versions store.log).length + 1
      else (versions store.log).length := by
  unfold versions
  rw [written_ask]
  split <;> simp

theorem Fresh.of_ask {store : Recorded} {asked : Asked} (h : (store.ask asked).Fresh) :
    store.Fresh := by
  unfold Fresh at h ⊢
  rw [length_versions_ask] at h
  split at h <;> omega

theorem Fresh.lastVersion (h : (after header requests).Fresh) :
    (after header requests).image.lastVersion.toNat =
      (versions (after header requests).log).length := by
  rw [lastVersion_after]
  exact UInt64.toNat_ofNat_of_lt' h

theorem Fresh.lastHanded (h : (after header requests).Fresh) :
    lastHanded (after header requests).log = (versions (after header requests).log).length := by
  have hv := versions_after header requests
  unfold DocTree.lastHanded
  unfold Fresh at h
  generalize (versions (after header requests).log).length = count at hv h ⊢
  rw [hv]
  cases count with
  | zero => rfl
  | succ count =>
    rw [List.range_succ, List.reverse_append, List.reverse_singleton]
    exact UInt64.toNat_ofNat_of_lt' h

theorem toNat_version {count : Nat} (hc : count + 1 < UInt64.size) :
    (UInt64.ofNat (count + 1)).toNat = count + 1 := UInt64.toNat_ofNat_of_lt' hc

theorem Fresh.nodup (h : (after header requests).Fresh) :
    (versions (after header requests).log).Nodup := by
  rw [versions_after]
  refine (List.nodup_reverse.mpr List.nodup_range).map_on fun first hf second hs he => ?_
  rw [List.mem_reverse, List.mem_range] at hf hs
  unfold Fresh at h
  have hn := congrArg UInt64.toNat he
  rw [toNat_version (by omega), toNat_version (by omega)] at hn
  omega

-- A version names one write.
theorem Fresh.eq_of_version (h : (after header requests).Fresh) {first second : Entry}
    (hf : first ∈ written (after header requests).log)
    (hs : second ∈ written (after header requests).log)
    (hv : first.response.version = second.response.version) : first = second :=
  List.inj_on_of_nodup_map h.nodup hf hs hv

theorem Fresh.version_le (h : (after header requests).Fresh) {entry : Entry}
    (he : entry ∈ written (after header requests).log) :
    entry.response.version ≤ (after header requests).image.lastVersion := by
  have hm : entry.response.version ∈ versions (after header requests).log :=
    List.mem_map_of_mem he
  rw [versions_after, List.mem_map] at hm
  obtain ⟨count, hc, hv⟩ := hm
  rw [List.mem_reverse, List.mem_range] at hc
  have hn := h.lastVersion
  unfold Fresh at h
  rw [UInt64.le_iff_toNat_le, hn, ← hv, toNat_version (by omega)]
  exact hc

end Recorded

end DocTree
