import DocTree.Bytes.Sink

namespace DocTree

-- What a record stores: any seconds and any nanoseconds after the epoch.
structure TimeSpec where
  sec : UInt64
  nsec : UInt32
  deriving DecidableEq, Repr, Inhabited

namespace TimeSpec

def epoch : TimeSpec := ⟨0, 0⟩

instance : Layout TimeSpec where
  encode time := Layout.encode time.sec ++ Layout.encode time.nsec
  decode bytes := do
    let (sec, rest) ← Layout.decode bytes
    let (nsec, rest) ← Layout.decode rest
    return (⟨sec, nsec⟩, rest)

instance : Streamed TimeSpec where
  stream sink time := Streamed.stream (Streamed.stream sink time.sec) time.nsec

def compare (a b : TimeSpec) : Ordering :=
  (Ord.compare a.sec b.sec).then (Ord.compare a.nsec b.nsec)

end TimeSpec

def nanosPerSecond : Nat := 1000000000

-- Seconds are counted in 63 bits and a sign.
def Instant.limit : Int := 9223372036854775808

-- A point in time as the kernel understands it: `sec + nsec / 10 ^ 9` seconds after the epoch.
structure Instant where
  sec : Int
  nsec : Nat
  nsec_lt : nsec < nanosPerSecond
  sec_ge : -Instant.limit ≤ sec
  sec_lt : sec < Instant.limit
  deriving DecidableEq

namespace Instant

def epoch : Instant := ⟨0, 0, by decide, by decide, by decide⟩

-- Whole seconds are carried out of the nanoseconds; `none` past the ends of time.
def ofParts? (sec : Int) (nsec : Nat) : Option Instant :=
  let whole := sec + (nsec / nanosPerSecond : Nat)
  if h : -limit ≤ whole ∧ whole < limit then
    some ⟨whole, nsec % nanosPerSecond, Nat.mod_lt _ (by decide), h.1, h.2⟩
  else
    none

def after? (sec nsec : Nat) : Option Instant := ofParts? sec nsec

-- The instant `sec` seconds and `nsec` nanoseconds before the epoch.
def before? (sec nsec : Nat) : Option Instant :=
  let total := sec * nanosPerSecond + nsec
  let up := (nanosPerSecond - total % nanosPerSecond) % nanosPerSecond
  ofParts? (-(((total + up) / nanosPerSecond : Nat) : Int)) up

def ofTimeSpec? (time : TimeSpec) : Option Instant := after? time.sec.toNat time.nsec.toNat

def toTimeSpec? (instant : Instant) : Option TimeSpec :=
  if 0 ≤ instant.sec then
    some ⟨UInt64.ofNat instant.sec.toNat, UInt32.ofNat instant.nsec⟩
  else
    none

def beforeEpochMessage : String :=
  "doesn't support time before UNIX_EPOCH: second time provided was later than self"

end Instant

structure Clock where
  sec : Int
  nsec : Nat

namespace Clock

def start : Clock := ⟨1600000000, 0⟩

-- One second and one nanosecond later; the nanoseconds wrap without a carry.
def advance (clock : Clock) : Clock := ⟨clock.sec + 1, (clock.nsec + 1) % nanosPerSecond⟩

-- A clock set before the epoch reads as the epoch.
def now (clock : Clock) : TimeSpec :=
  if clock.sec < 0 then .epoch else ⟨UInt64.ofNat clock.sec.toNat, UInt32.ofNat clock.nsec⟩

end Clock

-- What a clock shows each time that it is read.
abbrev Readings := Nat → TimeSpec

-- The readings that are left after the first few.
def Readings.after (now : Readings) (count : Nat) : Readings := fun n => now (n + count)

end DocTree
