import DocTree.Proofs.Call.Exchanges

namespace DocTree.Call

variable {α β σ : Type}

-- Whatever the replies, the call makes at most this many requests, does not crash, and a value that
-- it gives meets `post`.
def Bounded (post : α → Prop) : Call α → Nat → Prop
  | done value, _ => post value
  | fail _, _ => True
  | crash, _ => False
  | submit _ _ _, 0 => False
  | submit _ _ next, most + 1 => ∀ reply, (next reply).Bounded post most

-- The same of its runs.
structure Ends (call : Call α) (most : Nat) (post : α → Prop) (backend : Backend σ) (state : σ) :
    Prop where
  requests : (call.exchanges backend state).length ≤ most
  ne_crashed : (call.run backend state).1 ≠ .crashed
  value : ∀ value, (call.run backend state).1 = .done value → post value

variable {post : α → Prop} {call : Call α} {most first rest : Nat}

theorem Bounded.ends (h : call.Bounded post most) (backend : Backend σ) (state : σ) :
    call.Ends most post backend state := by
  induction call generalizing most state with
  | done value => exact ⟨Nat.zero_le _, nofun, fun _ he => Outcome.done.inj he ▸ h⟩
  | fail error => exact ⟨Nat.zero_le _, nofun, nofun⟩
  | crash => exact h.elim
  | submit collection request next ih =>
    cases most with
    | zero => exact h.elim
    | succ most =>
      obtain ⟨hr, hc, hv⟩ := ih _ (h (backend collection request state).1)
        (backend collection request state).2
      exact ⟨Nat.succ_le_succ hr, hc, hv⟩

theorem Bounded.mono {weaker : α → Prop} (h : call.Bounded post first) (hm : first ≤ most)
    (hp : ∀ value, post value → weaker value) : call.Bounded weaker most := by
  induction call generalizing first most with
  | done value => exact hp value h
  | fail error => trivial
  | crash => exact h
  | submit collection request next ih =>
    cases first with
    | zero => exact h.elim
    | succ first =>
      obtain ⟨more, rfl⟩ := Nat.exists_eq_add_of_le' (Nat.lt_of_lt_of_le (Nat.succ_pos _) hm)
      exact fun reply => ih reply (h reply) (Nat.le_of_succ_le_succ hm)

theorem Bounded.bind {next : α → Call β} {last : β → Prop} (h : call.Bounded post first)
    (hn : ∀ value, post value → (next value).Bounded last rest) :
    (call >>= next).Bounded last (first + rest) := by
  induction call generalizing first with
  | done value => exact (hn value h).mono (Nat.le_add_left ..) fun _ hl => hl
  | fail error => trivial
  | crash => exact h
  | submit collection request next ih =>
    cases first with
    | zero => exact h.elim
    | succ first =>
      rw [Nat.add_right_comm]
      exact fun reply => ih reply (h reply)

theorem Bounded.attempt (h : call.Bounded post most) :
    call.attempt.Bounded (fun answer => ∀ value, answer = .ok value → post value) most := by
  induction call generalizing most with
  | done value => exact fun _ he => Except.ok.inj he ▸ h
  | fail error => exact nofun
  | crash => exact h
  | submit collection request next ih =>
    cases most with
    | zero => exact h.elim
    | succ most => exact fun reply => ih reply (h reply)

theorem bounded_check_bind {p : Prop} [Decidable p] {error : FsError} {next : Unit → Call α}
    (h : p → (next ()).Bounded post most) : (check p error >>= next).Bounded post most := by
  unfold check
  split
  · next hp => exact h hp
  · trivial

theorem bounded_retry {once : Nat → Call (Option α)}
    (h : ∀ tried, (once tried).Bounded (fun answer => ∀ value, answer = some value → post value)
      most) (attempts : Nat) : (retry once attempts).Bounded post (attempts * most) := by
  induction attempts generalizing once with
  | zero => trivial
  | succ attempts ih =>
    rw [Nat.succ_mul, Nat.add_comm (attempts * most)]
    refine (h 0).bind fun answer ha => ?_
    cases answer with
    | none => exact ih fun tried => h (tried + 1)
    | some value => exact ha value rfl

-- A last step that makes no request.
theorem Bounded.bind_done {next : α → Call β} {last : β → Prop} (h : call.Bounded post most)
    (hn : ∀ value, post value → (next value).Bounded last 0) :
    (call >>= next).Bounded last most := h.bind hn

theorem bounded_expectSuccess {collection : Collection} {request : Request} :
    (Document.expectSuccess collection request).Bounded (fun _ => True) 1 := by
  intro reply
  cases reply with
  | answered response => exact bounded_check_bind fun _ => trivial
  | refused reason => trivial
  | dropped => trivial

theorem bounded_stored {stale : FsError → Bool} {collection : Collection} {request : Request} :
    (Document.stored stale do
      return (← Document.expectSuccess collection request).version).Bounded (fun _ => True) 1 := by
  have hwrite : (do
      return (← Document.expectSuccess collection request).version).Bounded (fun _ => True) 1 :=
    bounded_expectSuccess.bind_done fun _ _ => trivial
  refine hwrite.attempt.bind_done fun answer _ => ?_
  cases answer with
  | ok version => trivial
  | error error => exact bounded_check_bind fun _ => trivial

end DocTree.Call
