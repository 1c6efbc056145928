import DocTree.Proofs.Content.Shrink
import DocTree.Proofs.Content.Write
import DocTree.Tree.Operation

namespace DocTree

-- A call that no store fails which answers every request.
def Call.GoesThrough {α : Type} (call : Call α) : Prop :=
  ∀ docs, call.Ensures (fun _ => False) (fun _ _ => True) (fun _ _ => False) docs

namespace Call

variable {α β : Type}

theorem GoesThrough.bind {call : Call α} {next : α → Call β} (h : call.GoesThrough)
    (hn : ∀ value, (next value).GoesThrough) : (call >>= next).GoesThrough :=
  fun docs => (h docs).bind (fun value after _ => hn value after) fun _ _ he => he

theorem goesThrough_pure (value : α) : (pure value : Call α).GoesThrough := fun _ => trivial

end Call

namespace Content

open Call

variable {β : Type} {path : String} {size stop : Nat} {limits : Limits} {data : Bytes}

theorem goesThrough_modify {change : Bytes → Option (Bytes × β)} (index : Nat)
    (hc : ∀ block, change block ≠ none) : (modify path index true change).GoesThrough := by
  intro docs
  obtain ⟨⟨block, answer⟩, hk⟩ :=
    Option.ne_none_iff_exists'.mp (hc ((docs.blocks path index).getD []))
  exact ensures_modify (.inl rfl) hk (fun _ _ => trivial) fun h => h.choose_spec.elim

theorem goesThrough_isFull (index : Nat) : (isFull size path index).GoesThrough :=
  fun _ => ensures_isFull trivial fun h => h.choose_spec.elim

theorem goesThrough_fillBlocks (indices : List Nat) :
    (fillBlocks size path indices).GoesThrough := by
  induction indices with
  | nil => exact goesThrough_pure ()
  | cons index rest ih =>
    have hfill : (fillBlock size path index).GoesThrough := by
      refine (goesThrough_isFull index).bind fun full => ?_
      split
      · exact goesThrough_pure ()
      · exact (goesThrough_modify index fun _ => Option.some_ne_none _).bind fun _ =>
          goesThrough_pure ()
    exact hfill.bind fun _ => ih

theorem goesThrough_fillGap (first : Nat) : (fillGap size path first).GoesThrough := by
  unfold fillGap
  split
  · exact goesThrough_pure ()
  · refine (goesThrough_isFull _).bind fun full => ?_
    split
    · exact goesThrough_pure ()
    · exact goesThrough_fillBlocks _

theorem goesThrough_writeFrom (hs : 0 < size) (position : Nat) (data : Bytes)
    (hp : position < stop) : (writeFrom size path stop position data).GoesThrough := by
  obtain ⟨count, hpos, hstop, hin, hend⟩ := Blocks.exists_front hs hp
  rw [writeFrom_eq hpos hstop hin hend]
  refine (goesThrough_modify _ fun _ => Option.some_ne_none _).bind fun grown => ?_
  split
  · exact goesThrough_pure _
  · exact goesThrough_writeFrom hs _ _ (by omega)
termination_by stop - position

theorem goesThrough_write (hv : limits.Valid) {offset : Nat}
    (hl : offset + data.length ≤ limits.maxFileLen) :
    (write limits path offset data).GoesThrough := by
  have hw := hv.maxFileLen_eq.2
  rw [write_eq hv hl]
  split
  · exact goesThrough_pure _
  next hd =>
  have hpos := List.length_pos_of_ne_nil hd
  exact (goesThrough_fillGap _).bind fun _ =>
    (goesThrough_writeFrom hv.blockSize_pos offset data (by omega)).bind fun _ =>
      goesThrough_pure _

theorem goesThrough_truncate (hv : limits.Valid) {length : Nat} (hl : length < Word.limit) :
    (truncate limits path length).GoesThrough :=
  fun _ => (ensures_truncate hv hl).mono (fun _ _ _ => trivial) fun _ _ h => h.1.choose_spec

end Content

namespace Tree

open Call Content

variable {path : String} {limits : Limits} {stat : StatRecord} {size : Nat}

theorem goesThrough_growTo (hv : limits.Valid) (hl : size ≤ limits.maxFileLen) {chunk : Nat}
    (hc : 0 < chunk) (position : Nat) : (growTo limits path chunk size position).GoesThrough := by
  rw [growTo]
  split
  · dsimp only
    rw [if_pos (by omega)]
    refine (goesThrough_write hv ?_).bind fun _ => goesThrough_growTo hv hl hc _
    rw [Bytes.length_zeros]
    omega
  · exact goesThrough_pure ()
termination_by size - position

theorem goesThrough_resizeContent (hv : limits.Valid) (hl : size ≤ limits.maxFileLen) :
    (resizeContent limits path stat size).GoesThrough := by
  have hs := hv.blockSize_pos
  have hw := hv.maxFileLen_eq.2
  have hsize : stat.size.toNat < Word.limit := stat.size.toNat_lt
  unfold resizeContent
  dsimp only
  split
  · exact goesThrough_truncate hv (by omega)
  · split
    · exact (goesThrough_truncate hv hsize).bind fun _ =>
        goesThrough_growTo hv hl (by omega) _
    · exact goesThrough_pure ()

end Tree

end DocTree
