import DocTree.Bytes.LittleEndian
import Mathlib.Algebra.Group.Nat.Defs

namespace DocTree.LittleEndian

theorem decode_encode (width n : Nat) : decode (encode width n) = n % 256 ^ width := by
  induction width generalizing n with
  | zero => simp [encode, decode, Nat.mod_one]
  | succ width ih =>
    have hd : n % 256 % 256 = n % 256 := Nat.mod_mod n 256
    simp only [encode, decode, ih, UInt8.toNat_ofNat', Nat.reducePow, hd]
    rw [Nat.pow_succ', Nat.mod_mul]

theorem decode_lt (bytes : Bytes) : decode bytes < 256 ^ bytes.length := by
  induction bytes with
  | nil => simp [decode]
  | cons byte rest ih =>
    have hb := byte.toNat_lt
    simp only [decode, List.length_cons, Nat.pow_succ]
    omega

theorem encode_decode (bytes : Bytes) : encode bytes.length (decode bytes) = bytes := by
  induction bytes with
  | nil => rfl
  | cons byte rest ih =>
    have hb := byte.toNat_lt
    have hm : (byte.toNat + 256 * decode rest) % 256 = byte.toNat := by omega
    have hd : (byte.toNat + 256 * decode rest) / 256 = decode rest := by omega
    simp only [decode, List.length_cons, encode, hm, hd, ih, UInt8.ofNat_toNat]

end DocTree.LittleEndian
