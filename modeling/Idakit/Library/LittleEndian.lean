import Mathlib.Data.Nat.Notation
import Mathlib.Tactic.Ring

/-!
Little-endian integers in byte strings. Writing keeps the low bytes of a
number; a number that fits its width is read back.
-/

namespace Idakit.Library

def toLeBytes : ℕ → ℕ → List UInt8
  | 0, _ => []
  | width + 1, n => UInt8.ofNat n :: toLeBytes width (n / 256)

def ofLeBytes : List UInt8 → ℕ
  | [] => 0
  | b :: bs => b.toNat + 256 * ofLeBytes bs

@[simp] theorem toLeBytes_length (width n : ℕ) : (toLeBytes width n).length = width := by
  induction width generalizing n with
  | zero => rfl
  | succ width ih => simp [toLeBytes, ih]

theorem ofLeBytes_toLeBytes {width n : ℕ} (h : n < 256 ^ width) :
    ofLeBytes (toLeBytes width n) = n := by
  induction width generalizing n with
  | zero =>
      have hzero : n = 0 := by simpa using h
      subst hzero
      rfl
  | succ width ih =>
      have hdiv : n / 256 < 256 ^ width := by
        apply Nat.div_lt_of_lt_mul
        rwa [pow_succ'] at h
      simp only [toLeBytes, ofLeBytes, ih hdiv, UInt8.toNat_ofNat']
      omega

/-! ### Bytes as bits -/

theorem two_pow_bytes_succ (n : ℕ) : 2 ^ (8 * (n + 1)) = 256 * 2 ^ (8 * n) := by
  rw [Nat.mul_succ, pow_add, Nat.mul_comm]
  norm_num

theorem ofLeBytes_concat (bs : List UInt8) (b : UInt8) :
    ofLeBytes (bs ++ [b]) = ofLeBytes bs + b.toNat * 2 ^ (8 * bs.length) := by
  induction bs with
  | nil => simp [ofLeBytes]
  | cons c bs ih =>
      rw [List.cons_append, ofLeBytes, ofLeBytes, ih, List.length_cons, two_pow_bytes_succ]
      ring

theorem ofLeBytes_lt (bs : List UInt8) : ofLeBytes bs < 2 ^ (8 * bs.length) := by
  induction bs with
  | nil => simp [ofLeBytes]
  | cons b bs ih =>
      have hb := b.toNat_lt
      rw [ofLeBytes, List.length_cons, two_pow_bytes_succ]
      omega

/-- A byte behind others, or-ed in above their bits. -/
theorem ofLeBytes_or_shiftLeft (bs : List UInt8) (b : UInt8) :
    ofLeBytes bs ||| b.toNat <<< (8 * bs.length) = ofLeBytes (bs ++ [b]) := by
  rw [ofLeBytes_concat, Nat.or_comm, ← Nat.shiftLeft_add_eq_or_of_lt (ofLeBytes_lt bs),
    Nat.shiftLeft_eq, Nat.add_comm]

end Idakit.Library
