import DocTree.Bytes.Basic

namespace DocTree.LittleEndian

-- The lowest `width` base-256 digits of a number, lowest first.
def encode : Nat → Nat → Bytes
  | 0, _ => []
  | width + 1, n => UInt8.ofNat (n % 256) :: encode width (n / 256)

-- The number whose base-256 digits are these bytes, lowest first.
def decode : Bytes → Nat
  | [] => 0
  | byte :: rest => byte.toNat + 256 * decode rest

theorem length_encode (width n : Nat) : (encode width n).length = width := by
  induction width generalizing n with
  | zero => rfl
  | succ width ih => simp [encode, ih]

end DocTree.LittleEndian
