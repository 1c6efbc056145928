import DocTree.Proofs.Call.Exchanges
import DocTree.Proofs.Run.Steps
import DocTree.Proofs.Tree.Rooted

namespace DocTree

open Call

namespace Path

variable {path : String} {index other : Nat}

theorem utf8ByteSize_toString (n : Nat) :
    (toString n).utf8ByteSize = (Nat.toDigits 10 n).length := by
  have hdigits : ∀ digit ∈ Nat.toDigits 10 n, (String.utf8EncodeChar digit).length = 1 := by
    intro digit hd
    have hd := Nat.isDigit_of_mem_toDigits (by decide) (by decide) hd
    rw [String.length_utf8EncodeChar, Char.utf8Size_eq_one_iff]
    simp only [Char.isDigit, Bool.and_eq_true, decide_eq_true_eq] at hd
    exact UInt32.le_trans hd.2 (by decide)
  have hn : toString n = String.ofList (Nat.toDigits 10 n) := rfl
  rw [hn, ← Utf8.length_encode, Utf8.encode_ofList, List.length_flatMap,
    List.map_congr_left hdigits]
  simp

theorem utf8ByteSize_toString_mono (h : index ≤ other) :
    (toString index).utf8ByteSize ≤ (toString other).utf8ByteSize := by
  rw [utf8ByteSize_toString, utf8ByteSize_toString]
  have hpos := Nat.length_toDigits_pos (b := 10) (n := other)
  rw [Nat.length_toDigits_le_iff (by decide) hpos]
  exact Nat.lt_of_le_of_lt h ((Nat.length_toDigits_le_iff (by decide) hpos).mp (Nat.le_refl _))

theorem utf8ByteSize_blockKey_mono (h : index ≤ other) :
    (blockKey path index).utf8ByteSize ≤ (blockKey path other).utf8ByteSize := by
  have hmono := utf8ByteSize_toString_mono h
  unfold blockKey
  split
  · split
    · exact Nat.le_refl _
    · simp only [String.utf8ByteSize_append]
      omega
  · rw [if_neg (by omega)]
    simp only [String.utf8ByteSize_append]
    omega

theorem utf8ByteSize_parent_le (path : String) :
    (parent path).utf8ByteSize ≤ max root.utf8ByteSize path.utf8ByteSize := by
  unfold parent
  split
  · next directory leaf hs =>
    have hj := congrArg String.utf8ByteSize (join_of_split hs)
    unfold join at hj
    split at hj
    · next hroot =>
      rw [hroot]
      exact Nat.le_max_left ..
    · simp only [String.utf8ByteSize_append] at hj
      omega
  · exact Nat.le_max_left ..

-- The last block in which an offset can fall with a byte of the file behind it.
def lastIndex (limits : Limits) : Nat := (Word.limit - 2) / limits.blockSize

end Path

variable {limits : Limits} {now : Readings} {σ : Type} {backend : Backend σ} {state : σ}
  {exchange : Exchange}

theorem Operation.only_looks (hv : limits.Valid) (operation : Operation) :
    (operation.call limits now).Only fun collection request =>
      Path.Looks limits operation.path collection request.key := by
  refine operation.only_of hv (fun _ _ h => h) (fun _ _ => .inl rfl) (fun _ _ => .inl rfl)
    (.inl rfl) (fun _ hk => .inl hk) (fun _ _ => .inr rfl) fun index request hi hk => ?_
  have hsize := Nat.mul_le_mul (Nat.le_of_lt_succ (Nat.lt_of_lt_of_le hi
    (Nat.le_trans hv.maxBlocks_le (Nat.le_succ _)))) hv.blockSize_le
  have hlimit : maxBlockCount * maxDocumentSize + 1 < Word.limit := by decide
  exact ⟨index, by omega, hk⟩

-- A path that is too long is refused before anything is asked for.
theorem Operation.exchanges_of_long (hv : limits.Valid) (operation : Operation)
    (h : limits.maxKeyLen < operation.path.utf8ByteSize) :
    (operation.call limits now).exchanges backend state = [] := by
  have hc : Path.checkLength operation.path limits.maxKeyLen = .error .nameTooLong := if_pos h
  have hs : Path.split operation.path limits.maxKeyLen = .error .nameTooLong := by
    rw [Path.split, hc]
    rfl
  cases operation with
  | bootstrap => exact absurd hv.maxKeyLen_pos (Nat.not_lt.mpr (Nat.le_of_lt_succ h))
  | create path mode | mkdir path mode | unlink path | rmdir path =>
    simp only [Operation.path] at hs
    simp only [call, Tree.create, Tree.mkdir, Tree.unlink, Tree.rmdir, hs]
    rfl
  | getattr path owner | openFile path flags | read path offset size | write path offset data
  | truncate path size | chmod path mode | utimens path times | readdir path offset =>
    simp only [Operation.path] at hc
    simp only [call, Tree.getattr, Tree.openFile, Tree.read, Tree.write, Tree.truncate,
      Tree.chmod, Tree.utimens, Tree.readdir, Tree.fileStat, hc]
    rfl

theorem Operation.key_le (hv : limits.Valid) (operation : Operation)
    (hp : operation.path.utf8ByteSize ≤ limits.maxKeyLen)
    (he : exchange ∈ (operation.call limits now).exchanges backend state) :
    exchange.request.key.utf8ByteSize ≤ limits.maxKeyLen ∨
      ∃ index ≤ Path.lastIndex limits, exchange.collection = .blocks ∧
        exchange.request.key = Path.blockKey operation.path index := by
  have hl := (operation.only_looks hv).of_mem_exchanges he
  have hparent := Path.utf8ByteSize_parent_le operation.path
  have hroot : Path.root.utf8ByteSize ≤ limits.maxKeyLen := hv.maxKeyLen_pos
  unfold Path.Looks at hl
  split at hl
  · refine .inl ?_
    rcases hl with h | h <;> rw [h] <;> omega
  · refine .inl ?_
    rcases hl with h | h <;> rw [h] <;> omega
  · next hc =>
    obtain ⟨index, hi, hk⟩ := hl
    refine .inr ⟨index, ?_, hc, hk⟩
    exact (Nat.le_div_iff_mul_le hv.blockSize_pos).mpr (by omega)

section

variable {image : Image} {maxSize : Nat} {scope path : String} {found : Document}
  {stat : StatRecord} {offset : UInt64}

theorem run_fileStat_of_docs (hp : path.utf8ByteSize ≤ limits.maxKeyLen)
    (hf : image.docs scope .stats path = some found)
    (hd : StatRecord.decode found.value = .ok stat) (hr : stat.isDirectory = false) :
    (Tree.fileStat limits path).run (Image.backend maxSize scope) image = (.done stat, image) := by
  unfold Tree.fileStat
  rw [Path.checkLength_eq_ok.mpr hp, ofExcept_ok_bind]
  change (Call.bind _ _).run _ image = _
  rw [run_bind, Metadata.run_get_of_record hf hd]
  simp only [check, hr]
  rfl

theorem mem_exchanges_read (hp : path.utf8ByteSize ≤ limits.maxKeyLen)
    (hf : image.docs scope .stats path = some found)
    (hd : StatRecord.decode found.value = .ok stat) (hr : stat.isDirectory = false)
    (ho : offset < stat.size) :
    ∃ exchange ∈ ((Operation.read path offset 1).call limits now).exchanges
        (Image.backend maxSize scope) image,
      exchange.request.key = Path.blockKey path (offset.toNat / limits.blockSize) := by
  have hstop : offset.toNat < Word.addSat offset.toNat 1 := by
    have := stat.size.toNat_lt
    rw [UInt64.lt_iff_toNat_lt] at ho
    unfold Word.addSat Word.limit
    omega
  have hlength : min (1 : UInt32).toNat (stat.size.toNat - offset.toNat) = 1 := by
    rw [UInt64.lt_iff_toNat_lt] at ho
    have hone : (1 : UInt32).toNat = 1 := rfl
    omega
  let ask := Request.get (Path.blockKey path (offset.toNat / limits.blockSize))
  refine ⟨⟨.blocks, ask, (Image.backend maxSize scope .blocks ask image).1⟩, ?_, rfl⟩
  refine mem_exchanges_bind ?_
  rw [Tree.read_eq]
  refine mem_exchanges_bind_of_run (run_fileStat_of_docs hp hf hd hr) (mem_exchanges_bind ?_)
  rw [Tree.readContent, hlength, if_neg (by decide), Content.read,
    Content.readFrom_eq (Word.addSat_lt ..) hstop]
  exact mem_exchanges_bind (mem_exchanges_bind (List.mem_cons_self ..))

-- The longest file that a record can tell of, and a read of one byte in its last block.
theorem exists_exchange_on_last_block (hv : limits.Valid)
    (hp : path.utf8ByteSize ≤ limits.maxKeyLen) (maxSize : Nat) (now : Readings) :
    ∃ (image : Image) (offset : UInt64), ∃ exchange ∈
      ((Operation.read path offset 1).call limits now).exchanges
        (Image.backend maxSize defaultScope) image,
      exchange.request.key = Path.blockKey path (Path.lastIndex limits) := by
  let stat : StatRecord :=
    { StatRecord.new Mode.regularFile (now 0) with size := UInt64.ofNat (Word.limit - 1) }
  let image := ((Image.new default).put defaultScope .stats path stat.encode 0).1
  have hf : image.docs defaultScope .stats path = some ⟨stat.encode, 1, 0⟩ := by
    rw [Image.docs_put, Docs.set_self]
    rfl
  have hlast : Path.lastIndex limits * limits.blockSize ≤ Word.limit - 2 := Nat.div_mul_le_self ..
  have hoffset : (UInt64.ofNat (Path.lastIndex limits * limits.blockSize)).toNat =
      Path.lastIndex limits * limits.blockSize := by
    refine UInt64.toNat_ofNat_of_lt ?_
    unfold Word.limit at hlast
    exact Nat.lt_of_le_of_lt hlast (by decide)
  have hsize : stat.size.toNat = Word.limit - 1 := by
    unfold Word.limit
    rfl
  have hlt : UInt64.ofNat (Path.lastIndex limits * limits.blockSize) < stat.size := by
    rw [UInt64.lt_iff_toNat_lt, hoffset, hsize]
    unfold Word.limit at hlast ⊢
    omega
  have hdir : stat.isDirectory = false := by
    change decide (Mode.kind Mode.regularFile = FileKind.directory) = false
    decide
  obtain ⟨exchange, he, hk⟩ := mem_exchanges_read hp hf stat.decode_encode hdir hlt
  rw [hoffset, Nat.mul_div_cancel _ hv.blockSize_pos] at hk
  exact ⟨image, _, exchange, he, hk⟩

end

-- Whatever is stored, requests keep to the longest key if the path is refused, or if the key of the
-- last block has room for its number; else there is a record that lets a read ask for that block.
theorem keys_fit_iff (hv : limits.validate = .ok ()) (maxSize : Nat) (now : Readings)
    (path : String) :
    (∀ (scope : String) (image : Image) (operation : Operation), operation.path = path →
      ∀ exchange ∈ (operation.call limits now).exchanges (Image.backend maxSize scope) image,
        exchange.request.key.utf8ByteSize ≤ limits.maxKeyLen) ↔
      limits.maxKeyLen < path.utf8ByteSize ∨
        (Path.blockKey path (Path.lastIndex limits)).utf8ByteSize ≤ limits.maxKeyLen := by
  have hv := limits.validate_eq_ok_iff.mp hv
  constructor
  · intro h
    by_contra hn
    obtain ⟨hp, hlong⟩ := not_or.mp hn
    obtain ⟨image, offset, exchange, he, hk⟩ :=
      exists_exchange_on_last_block hv (Nat.not_lt.mp hp) maxSize now
    exact hlong (hk ▸ h defaultScope image (.read path offset 1) rfl exchange he)
  · rintro h scope image operation rfl exchange he
    rcases h with hlong | hlast
    · rw [operation.exchanges_of_long hv hlong] at he
      cases he
    · have hmono : ∀ index ≤ Path.lastIndex limits,
          (Path.blockKey operation.path index).utf8ByteSize ≤ limits.maxKeyLen :=
        fun index hi => Nat.le_trans (Path.utf8ByteSize_blockKey_mono hi) hlast
      rcases operation.key_le hv (hmono 0 (Nat.zero_le _)) he with hk | ⟨index, hi, -, hk⟩
      · exact hk
      · exact hk ▸ hmono index hi

-- The number of the last block takes nineteen digits, and there is room for it.
theorem sample_keys_fit :
    Sample.limits.validate = .ok () ∧ Path.lastIndex Sample.limits = 4611686018427387903 ∧
      ∀ (scope : String) (image : Image) (operation : Operation), operation.path = "/f" →
        ∀ exchange ∈ (operation.call Sample.limits Sample.now).exchanges
          (Image.backend maxDocumentSize scope) image, exchange.request.key.utf8ByteSize ≤ 64 := by
  have hv : Sample.limits.validate = .ok () := by decide
  exact ⟨hv, by decide, (keys_fit_iff hv maxDocumentSize Sample.now "/f").mpr (.inr (by decide))⟩

namespace Sample

def tight : Limits := ⟨4, 4, 8⟩

def twoBlocks : List Step :=
  [⟨Sample.now, .create "/abc" 0o100644⟩, ⟨Sample.now, .write "/abc" 0 (bytes.take 8)⟩]

end Sample

-- The path is as long as a key may be, and the file has a second block.
theorem sample_key_does_not_fit :
    Sample.tight.validate = .ok () ∧ "/abc".utf8ByteSize = Sample.tight.maxKeyLen ∧
      ∃ exchange ∈ ((Operation.truncate "/abc" 0).call Sample.tight Sample.now).exchanges
          (Image.unlimited defaultScope)
          (Image.reached Sample.tight defaultScope default Sample.now Sample.twoBlocks),
        Sample.tight.maxKeyLen < exchange.request.key.utf8ByteSize := by
  decide +kernel

end DocTree
