import DocTree.Bytes.Word
import DocTree.Proofs.Kernel.Inodes

namespace DocTree.Inodes

inductive Ask where
  | number (path : String)
  | path (number : Nat)
  | forget (path : String)
  deriving DecidableEq

-- What was asked, and what the table told.
inductive Noted where
  | numbered (path : String) (number : Nat)
  | found (number : Nat) (path? : Option String)
  | forgot (path : String)
  deriving DecidableEq

def ask (inodes : Inodes) : Ask → Noted × Inodes
  | .number path => (.numbered path (inodes.numberOf path).1, (inodes.numberOf path).2)
  | .path number => (.found number (inodes.pathOf? number), inodes)
  | .forget path => (.forgot path, inodes.forget path)

-- The number of a path at the end of a log whose last entry stands first: the one told last, unless
-- the path was forgotten after that. The table is not looked at.
def current (path : String) : List Noted → Option Nat
  | [] => if path = Path.root then some root else none
  | .numbered other number :: before => if other = path then some number else current path before
  | .found _ _ :: before => current path before
  | .forgot other :: before =>
    if other = path ∧ path ≠ Path.root then none else current path before

-- How many numbers were given out: a path that has one is told the same again.
def allocations : List Noted → Nat
  | [] => 0
  | .numbered path _ :: before =>
    allocations before + if current path before = none then 1 else 0
  | .found _ _ :: before => allocations before
  | .forgot _ :: before => allocations before

-- A table with all that it was asked and told, the last entry first.
structure Logged where
  log : List Noted
  inodes : Inodes

namespace Logged

def new : Logged := ⟨[], Inodes.new⟩

def ask (logged : Logged) (ask : Ask) : Logged :=
  ⟨(logged.inodes.ask ask).1 :: logged.log, (logged.inodes.ask ask).2⟩

def after (asks : List Ask) : Logged := asks.foldl ask new

end Logged

variable {path : String}

-- The log and the table say the same.
structure Logged.Faithful (logged : Logged) : Prop where
  coherent : logged.inodes.Coherent
  current : ∀ {number path}, logged.inodes.pathOf? number = some path ↔
    Inodes.current path logged.log = some number
  below : ∀ {path number}, .numbered path number ∈ logged.log → number < logged.inodes.next
  next_eq : logged.inodes.next = root + 1 + allocations logged.log

namespace Logged.Faithful

variable {logged : Logged}

theorem new : Logged.new.Faithful where
  coherent := coherent_new
  current {number path} := by
    change Inodes.new.pathOf? number = some path ↔
      (if path = Path.root then some root else none) = some number
    rw [pathOf?_new]
    by_cases hp : path = Path.root <;> by_cases hn : root = number
    · simp [hp, hn]
    · simp [hp, hn]
    · simp [hn, hp, Ne.symm hp]
    · simp [hp, hn]
  below hm := absurd hm List.not_mem_nil
  next_eq := rfl

theorem current_eq_none_iff (h : logged.Faithful) : Inodes.current path logged.log = none ↔
    ∀ number, logged.inodes.pathOf? number ≠ some path := by
  rw [Option.eq_none_iff_forall_not_mem]
  exact forall_congr' fun number => h.current.symm.not

theorem numbered (h : logged.Faithful) (path : String) : (logged.ask (.number path)).Faithful where
  coherent := h.coherent.numberOf path
  current {number other} := by
    change (logged.inodes.numberOf path).2.pathOf? number = some other ↔
      (if path = other then some (logged.inodes.numberOf path).1
        else Inodes.current other logged.log) = some number
    have hself := h.coherent.pathOf?_numberOf_self path
    split
    · next he =>
      subst he
      rw [Option.some_inj]
      exact ⟨(h.coherent.numberOf path).path_inj hself, fun hn => hn ▸ hself⟩
    · next hne =>
      rw [h.coherent.pathOf?_numberOf_of_ne (Ne.symm hne), h.current]
  below {other number} hm := by
    rcases List.mem_cons.mp hm with he | hm
    · obtain ⟨rfl, rfl⟩ := Noted.numbered.inj he
      exact (h.coherent.numberOf other).below _ _ (h.coherent.pathOf?_numberOf_self other)
    · exact Nat.lt_of_lt_of_le (h.below hm) (h.coherent.later_numberOf path).next_le
  next_eq := by
    change (logged.inodes.numberOf path).2.next = root + 1 + (allocations logged.log +
      if Inodes.current path logged.log = none then 1 else 0)
    rcases h.coherent.numberOf_cases path with ⟨hp, hsame⟩ | ⟨hfree, -, hnext⟩
    · have hc := h.current.mp hp
      rw [hsame, hc, if_neg (Option.some_ne_none _)]
      exact h.next_eq
    · rw [hnext, if_pos (h.current_eq_none_iff.mpr hfree), h.next_eq]
      exact Nat.add_assoc ..

theorem forgot (h : logged.Faithful) (path : String) : (logged.ask (.forget path)).Faithful where
  coherent := h.coherent.forget path
  current {number other} := by
    change (logged.inodes.forget path).pathOf? number = some other ↔
      (if path = other ∧ other ≠ Path.root then none
        else Inodes.current other logged.log) = some number
    by_cases hr : path = Path.root
    · subst hr
      rw [forget_root, if_neg fun hc => hc.2 hc.1.symm]
      exact h.current
    · rw [h.coherent.pathOf?_forget_eq_some hr]
      by_cases he : other = path
      · rw [if_pos ⟨he.symm, he ▸ hr⟩]
        exact iff_of_false (fun hc => hc.1 he) nofun
      · rw [if_neg fun hc => he hc.1.symm, ← h.current]
        exact and_iff_right he
  below {other number} hm := by
    change number < (logged.inodes.forget path).next
    rw [next_forget]
    exact h.below ((List.mem_cons.mp hm).resolve_left nofun)
  next_eq := next_forget.trans h.next_eq

theorem ask (h : logged.Faithful) (ask : Ask) : (logged.ask ask).Faithful := by
  cases ask with
  | number path => exact h.numbered path
  | path number =>
    exact ⟨h.coherent, h.current, fun hm => h.below ((List.mem_cons.mp hm).resolve_left nofun),
      h.next_eq⟩
  | forget path => exact h.forgot path

theorem after (asks : List Ask) : (Logged.after asks).Faithful := by
  unfold Logged.after
  have hrun : ∀ logged : Logged, logged.Faithful → (asks.foldl Logged.ask logged).Faithful := by
    induction asks with
    | nil => exact fun _ h => h
    | cons first rest ih => exact fun logged h => ih _ (h.ask first)
  exact hrun _ .new

end Logged.Faithful

-- Whatever a new table is asked. A path without a number is one that was never told, or forgotten.
theorem numbers_are_never_reused (asks : List Ask) :
    let inodes := (Logged.after asks).inodes
    let log := (Logged.after asks).log
    (∀ number path, inodes.pathOf? number = some path ↔ current path log = some number) ∧
    (∀ number path other, current path log = some number → current other log = some number →
      path = other) ∧
    current Path.root log = some 1 ∧ inodes.forget Path.root = inodes ∧
    (∀ path number, current path log = some number → inodes.numberOf path = (number, inodes)) ∧
    (∀ path, current path log = none → root < (inodes.numberOf path).1 ∧
      ∀ other told, .numbered other told ∈ log → told < (inodes.numberOf path).1) ∧
    inodes.next = root + 1 + allocations log ∧
    (allocations log < Word.limit - 2 →
      ∀ path number, .numbered path number ∈ log → number < Word.limit) := by
  intro inodes log
  have h : (Logged.after asks).Faithful := .after asks
  refine ⟨fun number path => h.current, fun number path other hp ho => ?_,
    h.current.mp h.coherent.root, forget_root, fun path number hp => ?_, fun path hn => ?_,
    h.next_eq, fun hl path number hm => ?_⟩
  · have hsame := h.current.mpr hp
    rw [h.current.mpr ho, Option.some_inj] at hsame
    exact hsame.symm
  · exact numberOf_of_some ((h.coherent.inverse path number).mpr (h.current.mpr hp))
  · have hnone : inodes.numbers[path]? = none :=
      h.coherent.numbers_eq_none_iff.mpr (h.current_eq_none_iff.mp hn)
    rw [numberOf_of_none hnone]
    exact ⟨h.coherent.below _ _ h.coherent.root, fun other told hm => h.below hm⟩
  · have hlt : number < root + 1 + allocations log := h.next_eq ▸ h.below hm
    unfold Inodes.root Word.limit at *
    omega

-- A path that is forgotten gets a new number, and the root is not forgotten.
theorem sample_numbers_are_never_reused :
    let asks : List Ask := [.number "/a", .number "/b", .number "/a", .forget "/a", .path 2,
      .forget "/", .number "/a"]
    let inodes := (Logged.after asks).inodes
    let log := (Logged.after asks).log
    log = [.numbered "/a" 4, .forgot "/", .found 2 none, .forgot "/a", .numbered "/a" 2,
        .numbered "/b" 3, .numbered "/a" 2] ∧
      inodes.pathOf? 4 = some "/a" ∧ inodes.pathOf? 1 = some "/" ∧
      inodes.numberOf "/b" = (3, inodes) ∧
      (∀ other, current other log = some 3 → other = "/b") ∧
      (∀ other told, .numbered other told ∈ log → told < (inodes.numberOf "/c").1) ∧
      allocations log = 3 ∧
      ∀ path number, .numbered path number ∈ log → number < Word.limit := by
  intro asks inodes log
  obtain ⟨hcurrent, hinj, hroot, -, hsame, hfresh, -, hwords⟩ := numbers_are_never_reused asks
  have hlog : log = [.numbered "/a" 4, .forgot "/", .found 2 none, .forgot "/a",
    .numbered "/a" 2, .numbered "/b" 3, .numbered "/a" 2] := by decide +kernel
  have hb : current "/b" log = some 3 := by decide +kernel
  have hc : current "/c" log = none := by decide +kernel
  have hcount : allocations log = 3 := by decide +kernel
  exact ⟨hlog, (hcurrent 4 "/a").mpr (by decide +kernel), (hcurrent 1 "/").mpr hroot,
    hsame "/b" 3 hb, fun other ho => hinj 3 other "/b" ho hb, (hfresh "/c" hc).2, hcount,
    hwords (by decide +kernel)⟩

end DocTree.Inodes
