/-
  File:      Smartfire/Lib/BigEndian.lean
  Subject:   A number as so many bytes, the highest first.

  * `bigEndian`, `fromBigEndian` -- `to_be_bytes` and `from_be_bytes` at any width;
  * `fromBigEndian_bigEndian`, `bigEndian_fromBigEndian` -- each undoes the other, below `256 ^ k`.
-/
import Smartfire.Lib.Bytes
import Mathlib.Algebra.Order.Ring.Int
import Mathlib.Data.List.Induction

namespace Lib

/-- `n.to_be_bytes()`, of so many bytes; what does not fit is dropped. -/
def bigEndian : Nat → Nat → Bytes
  | 0, _ => []
  | k + 1, n => bigEndian k (n / 256) ++ [UInt8.ofNat n]

/-- `from_be_bytes`. -/
def fromBigEndian (bytes : Bytes) : Nat := bytes.foldl (fun n b => n * 256 + b.toNat) 0

@[simp] theorem length_bigEndian (k n : Nat) : (bigEndian k n).length = k := by
  induction k generalizing n with
  | zero => rfl
  | succ k ih => simp [bigEndian, ih]

@[simp] theorem fromBigEndian_nil : fromBigEndian [] = 0 := rfl

@[simp] theorem fromBigEndian_concat (bytes : Bytes) (b : UInt8) :
    fromBigEndian (bytes ++ [b]) = fromBigEndian bytes * 256 + b.toNat := by
  simp [fromBigEndian]

theorem fromBigEndian_lt (bytes : Bytes) : fromBigEndian bytes < 256 ^ bytes.length := by
  induction bytes using List.reverseRecOn with
  | nil => simp
  | append_singleton bytes b ih =>
    have hb : b.toNat < 256 := b.toNat_lt
    rw [fromBigEndian_concat, List.length_append, List.length_singleton, Nat.pow_succ]
    omega

/-- **What is written is read back**, when it fits. -/
theorem fromBigEndian_bigEndian {k n : Nat} (h : n < 256 ^ k) : fromBigEndian (bigEndian k n) = n := by
  induction k generalizing n with
  | zero =>
    rw [Nat.pow_zero] at h
    have hzero : n = 0 := by omega
    rw [hzero]
    rfl
  | succ k ih =>
    have hhigh : n / 256 < 256 ^ k := Nat.div_lt_of_lt_mul (by rwa [← Nat.pow_succ'])
    have hlow : (UInt8.ofNat n).toNat = n % 256 := by simp
    rw [bigEndian, fromBigEndian_concat, ih hhigh, hlow]
    omega

/-- **What is read is written back** the same. -/
theorem bigEndian_fromBigEndian (bytes : Bytes) : bigEndian bytes.length (fromBigEndian bytes) = bytes := by
  induction bytes using List.reverseRecOn with
  | nil => rfl
  | append_singleton bytes b ih =>
    have hb : b.toNat < 256 := b.toNat_lt
    have hhigh : (fromBigEndian bytes * 256 + b.toNat) / 256 = fromBigEndian bytes := by omega
    have hlow : UInt8.ofNat (fromBigEndian bytes * 256 + b.toNat) = b := by
      apply UInt8.toNat_inj.mp
      simp
    rw [List.length_append, List.length_singleton, fromBigEndian_concat, bigEndian, hhigh, ih, hlow]

end Lib
