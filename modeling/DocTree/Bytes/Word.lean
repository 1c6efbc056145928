namespace DocTree.Word

-- How many 64-bit words there are: 2 to the 64th.
def limit : Nat := 18446744073709551616

-- Where the result of `add?`, `sub?` or `mul?` is no word there is none; `addSat` and `mulSat` stop
-- at the largest word instead.
def add? (a b : Nat) : Option Nat := if a + b < limit then some (a + b) else none

def sub? (a b : Nat) : Option Nat := if b ≤ a then some (a - b) else none

def mul? (a b : Nat) : Option Nat := if a * b < limit then some (a * b) else none

def addSat (a b : Nat) : Nat := min (a + b) (limit - 1)

def mulSat (a b : Nat) : Nat := min (a * b) (limit - 1)

theorem add?_eq_some {a b : Nat} (h : a + b < limit) : add? a b = some (a + b) := if_pos h

theorem sub?_eq_some {a b : Nat} (h : b ≤ a) : sub? a b = some (a - b) := if_pos h

theorem mul?_eq_some {a b : Nat} (h : a * b < limit) : mul? a b = some (a * b) := if_pos h

theorem addSat_lt (a b : Nat) : addSat a b < limit := by
  unfold addSat limit
  omega

end DocTree.Word
