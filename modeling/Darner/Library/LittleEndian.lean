import Mathlib.Tactic.Ring

/-! Fixed-width little-endian words: the object representation of an unsigned
machine integer as a list of bytes. -/

namespace LittleEndian

/-- The low `width` bytes of `n`, least significant first. -/
def encode : (width : ℕ) → (n : ℕ) → List UInt8
  | 0, _ => []
  | width + 1, n => UInt8.ofNat (n % 256) :: encode width (n / 256)

def decode : List UInt8 → ℕ
  | [] => 0
  | b :: bytes => b.toNat + 256 * decode bytes

@[simp] theorem length_encode (width n : ℕ) : (encode width n).length = width := by
  induction width generalizing n with
  | zero => rfl
  | succ width ih => simp [encode, ih]

theorem decode_encode (width n : ℕ) (h : n < 256 ^ width) : decode (encode width n) = n := by
  induction width generalizing n with
  | zero =>
    have : n = 0 := by simpa using h
    simp [encode, decode, this]
  | succ width ih =>
    have small : n / 256 < 256 ^ width := by
      apply Nat.div_lt_of_lt_mul
      rwa [pow_succ, mul_comm] at h
    have byte : (UInt8.ofNat (n % 256)).toNat = n % 256 := by
      simp
    rw [encode, decode, ih _ small, byte]
    omega

theorem decode_lt (bytes : List UInt8) : decode bytes < 256 ^ bytes.length := by
  induction bytes with
  | nil => simp [decode]
  | cons b bytes ih =>
    have byte := b.toNat_lt
    rw [decode, List.length_cons, pow_succ]
    omega

theorem encode_decode (bytes : List UInt8) : encode bytes.length (decode bytes) = bytes := by
  induction bytes with
  | nil => rfl
  | cons b bytes ih =>
    have byte := b.toNat_lt
    have low : (b.toNat + 256 * decode bytes) % 256 = b.toNat := by omega
    have high : (b.toNat + 256 * decode bytes) / 256 = decode bytes := by omega
    rw [decode, List.length_cons, encode, low, high, ih, UInt8.ofNat_toNat]

theorem decode_encode_64 (n : ℕ) (h : n < 2 ^ 64) : decode (encode 8 n) = n :=
  decode_encode 8 n (by norm_num at h ⊢; exact h)

end LittleEndian
