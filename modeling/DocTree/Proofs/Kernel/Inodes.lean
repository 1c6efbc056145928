import DocTree.Kernel.Inodes
import Mathlib.Logic.Function.Basic

namespace DocTree.Inodes

structure Coherent (inodes : Inodes) : Prop where
  inverse : ∀ path number, inodes.numbers[path]? = some number ↔ inodes.pathOf? number = some path
  below : ∀ number path, inodes.pathOf? number = some path → number < inodes.next
  root : inodes.pathOf? root = some Path.root

-- What becomes of the numbers that were given out: each stands for what it stood for, or for
-- nothing.
structure Later (inodes later : Inodes) : Prop where
  next_le : inodes.next ≤ later.next
  old : ∀ number path, number < inodes.next → later.pathOf? number = some path →
    inodes.pathOf? number = some path

variable {inodes later last : Inodes} {path other : String} {number : Nat}

theorem numberOf_of_some (h : inodes.numbers[path]? = some number) :
    inodes.numberOf path = (number, inodes) := by
  unfold numberOf
  rw [h]

theorem numberOf_of_none (h : inodes.numbers[path]? = none) :
    inodes.numberOf path = (inodes.next,
      ⟨inodes.paths.insert inodes.next path, inodes.numbers.insert path inodes.next,
        inodes.next + 1⟩) := by
  unfold numberOf
  rw [h]

theorem forget_of_some (hr : path ≠ Path.root) (h : inodes.numbers[path]? = some number) :
    inodes.forget path =
      ⟨inodes.paths.erase number, inodes.numbers.erase path, inodes.next⟩ := by
  unfold forget
  rw [if_neg hr, h]

theorem forget_of_none (hr : path ≠ Path.root) (h : inodes.numbers[path]? = none) :
    inodes.forget path = inodes := by
  unfold forget
  rw [if_neg hr, h]

theorem forget_root : inodes.forget Path.root = inodes := if_pos rfl

theorem next_forget : (inodes.forget path).next = inodes.next := by
  unfold Inodes.forget
  split
  · rfl
  · split <;> rfl

theorem pathOf?_new (number : Nat) :
    new.pathOf? number = if root = number then some Path.root else none := by
  simp [new, pathOf?, Std.ExtTreeMap.getElem?_insert]

theorem coherent_new : new.Coherent := by
  have hnumbers : ∀ path, new.numbers[path]? = if Path.root = path then some root else none := by
    intro path
    simp [new, Std.ExtTreeMap.getElem?_insert]
  constructor
  case inverse =>
    intro path number
    rw [pathOf?_new, hnumbers]
    by_cases hp : Path.root = path <;> by_cases hn : root = number <;> simp [hp, hn]
  case below =>
    intro number path hp
    rw [pathOf?_new] at hp
    split at hp
    · next hn => exact hn ▸ Nat.lt_succ_self root
    · cases hp
  case root => rw [pathOf?_new, if_pos rfl]

namespace Coherent

variable (h : inodes.Coherent)

include h

theorem path_inj (hp : inodes.pathOf? number = some path) {same : Nat}
    (hs : inodes.pathOf? same = some path) : number = same := by
  have hn := (h.inverse path number).mpr hp
  rw [(h.inverse path same).mpr hs, Option.some_inj] at hn
  exact hn.symm

theorem numbers_eq_none_iff : inodes.numbers[path]? = none ↔
    ∀ number, inodes.pathOf? number ≠ some path := by
  constructor
  · intro hn number hp
    rw [(h.inverse path number).mpr hp] at hn
    cases hn
  · intro hfree
    by_contra hn
    obtain ⟨number, hs⟩ := Option.ne_none_iff_exists'.mp hn
    exact hfree number ((h.inverse path number).mp hs)

-- The number that a path gets is the one it has, or the next.
theorem numberOf_cases (path : String) :
    (inodes.pathOf? (inodes.numberOf path).1 = some path ∧ (inodes.numberOf path).2 = inodes) ∨
      ((∀ number, inodes.pathOf? number ≠ some path) ∧ (inodes.numberOf path).1 = inodes.next ∧
        (inodes.numberOf path).2.next = inodes.next + 1) := by
  cases hn : inodes.numbers[path]? with
  | some number =>
    rw [numberOf_of_some hn]
    exact .inl ⟨(h.inverse path number).mp hn, rfl⟩
  | none =>
    rw [numberOf_of_none hn]
    exact .inr ⟨h.numbers_eq_none_iff.mp hn, rfl, rfl⟩

theorem pathOf?_numberOf (path : String) (number : Nat) :
    (inodes.numberOf path).2.pathOf? number =
      if number = (inodes.numberOf path).1 then some path else inodes.pathOf? number := by
  cases hn : inodes.numbers[path]? with
  | some found =>
    rw [numberOf_of_some hn]
    split
    · next he => exact he ▸ (h.inverse path found).mp hn
    · rfl
  | none =>
    rw [numberOf_of_none hn]
    simp only [pathOf?, Std.ExtTreeMap.getElem?_insert, Std.LawfulEqCmp.compare_eq_iff_eq]
    exact if_congr eq_comm rfl rfl

theorem pathOf?_numberOf_self (path : String) :
    (inodes.numberOf path).2.pathOf? (inodes.numberOf path).1 = some path := by
  rw [h.pathOf?_numberOf, if_pos rfl]

-- The other paths keep their numbers.
theorem pathOf?_numberOf_of_ne (hne : other ≠ path) (number : Nat) :
    (inodes.numberOf path).2.pathOf? number = some other ↔
      inodes.pathOf? number = some other := by
  rw [h.pathOf?_numberOf]
  split
  · next he =>
    have hfree : inodes.pathOf? number ≠ some other := by
      intro hp
      rcases h.numberOf_cases path with ⟨hsame, -⟩ | ⟨-, hnew, -⟩
      · rw [he, hsame, Option.some_inj] at hp
        exact hne hp.symm
      · have := h.below number other hp
        omega
    exact iff_of_false (fun hp => hne (Option.some_inj.mp hp).symm) hfree
  · exact Iff.rfl

theorem later_numberOf (path : String) : inodes.Later (inodes.numberOf path).2 := by
  rcases h.numberOf_cases path with ⟨-, hsame⟩ | ⟨-, hnew, hnext⟩
  · rw [hsame]
    exact ⟨Nat.le_refl _, fun _ _ _ hp => hp⟩
  · refine ⟨by omega, fun number other hlt hp => ?_⟩
    rwa [h.pathOf?_numberOf, if_neg (by omega)] at hp

theorem numberOf (path : String) : (inodes.numberOf path).2.Coherent := by
  rcases h.numberOf_cases path with ⟨-, hsame⟩ | ⟨hfree, hnew, hnext⟩
  · rwa [hsame]
  constructor
  case inverse =>
    intro other number
    rw [h.pathOf?_numberOf, hnew]
    have hnumbers : (inodes.numberOf path).2.numbers[other]? =
        if path = other then some inodes.next else inodes.numbers[other]? := by
      rw [numberOf_of_none (h.numbers_eq_none_iff.mpr hfree)]
      simp [Std.ExtTreeMap.getElem?_insert]
    rw [hnumbers]
    by_cases hp : path = other <;> by_cases hn : number = inodes.next
    · simp [hp, hn]
    · subst hp
      simpa [hn, eq_comm] using hfree number
    · subst hn
      have hlt : inodes.numbers[other]? ≠ some inodes.next := by
        intro ho
        exact Nat.lt_irrefl _ (h.below _ _ ((h.inverse other _).mp ho))
      simp [hp, hlt]
    · simpa [hp, hn] using h.inverse other number
  case below =>
    intro number other hp
    rw [h.pathOf?_numberOf] at hp
    split at hp
    · omega
    · have := h.below number other hp
      omega
  case root =>
    have hroot := h.below _ _ h.root
    rw [h.pathOf?_numberOf, if_neg (by omega)]
    exact h.root

theorem pathOf?_forget (hr : path ≠ Path.root) (number : Nat) :
    (inodes.forget path).pathOf? number =
      if inodes.pathOf? number = some path then none else inodes.pathOf? number := by
  cases hn : inodes.numbers[path]? with
  | none => rw [forget_of_none hr hn, if_neg (h.numbers_eq_none_iff.mp hn number)]
  | some found =>
    have hf := (h.inverse path found).mp hn
    have hiff : inodes.pathOf? number = some path ↔ found = number :=
      ⟨fun hp => h.path_inj hf hp, fun he => he ▸ hf⟩
    rw [forget_of_some hr hn, if_congr hiff rfl rfl]
    simp [pathOf?, Std.ExtTreeMap.getElem?_erase]

theorem pathOf?_forget_eq_some (hr : path ≠ Path.root) :
    (inodes.forget path).pathOf? number = some other ↔
      other ≠ path ∧ inodes.pathOf? number = some other := by
  rw [h.pathOf?_forget hr]
  split
  · next hp =>
    rw [hp, Option.some_inj]
    exact iff_of_false nofun fun hc => hc.1 hc.2.symm
  · next hp =>
    refine ⟨fun ho => ⟨?_, ho⟩, fun hc => hc.2⟩
    rintro rfl
    exact hp ho

theorem later_forget (path : String) : inodes.Later (inodes.forget path) := by
  refine ⟨Nat.le_of_eq next_forget.symm, fun number other _ hp => ?_⟩
  by_cases hr : path = Path.root
  · rwa [hr, forget_root] at hp
  · exact ((h.pathOf?_forget_eq_some hr).mp hp).2

theorem forget (path : String) : (inodes.forget path).Coherent := by
  by_cases hr : path = Path.root
  · rwa [hr, forget_root]
  constructor
  case inverse =>
    intro other number
    have hnumbers : (inodes.forget path).numbers[other]? =
        if path = other then none else inodes.numbers[other]? := by
      cases hn : inodes.numbers[path]? with
      | none =>
        rw [forget_of_none hr hn]
        split
        · next he => exact he ▸ hn
        · rfl
      | some found =>
        rw [forget_of_some hr hn]
        simp [Std.ExtTreeMap.getElem?_erase]
    rw [hnumbers, h.pathOf?_forget hr]
    by_cases hp : path = other
    · subst hp
      simp
    · by_cases hn : inodes.pathOf? number = some path
      · have ho : inodes.numbers[other]? ≠ some number := by
          intro ho
          rw [(h.inverse other number).mp ho, Option.some_inj] at hn
          exact hp hn.symm
        simp [hp, hn, ho]
      · simpa [hp, hn] using h.inverse other number
  case below =>
    intro number other hp
    rw [next_forget]
    exact h.below number other ((h.pathOf?_forget_eq_some hr).mp hp).2
  case root =>
    exact (h.pathOf?_forget_eq_some hr).mpr ⟨Ne.symm hr, h.root⟩

end Coherent

namespace Later

theorem refl : inodes.Later inodes := ⟨Nat.le_refl _, fun _ _ _ hp => hp⟩

theorem trans (h : inodes.Later later) (hl : later.Later last) : inodes.Later last :=
  ⟨Nat.le_trans h.next_le hl.next_le, fun number path hn hp =>
    h.old number path hn (hl.old number path (Nat.lt_of_lt_of_le hn h.next_le) hp)⟩

end Later

end DocTree.Inodes
