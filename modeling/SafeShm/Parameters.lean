import Mathlib.Data.Nat.Count
import Mathlib.Order.Monotone.Basic

/-!
# Template parameters

The payload type `T` of the shared-memory classes, seen as the words that `memcpy`
moves, and the capacity `N` of the ring, a power of two by static assertion.
-/

namespace SafeShm

/-- A trivially copyable, standard-layout type: `words` machine words. `zero` is the
word of a zero-filled segment and `valueInit` is the object `T{}`. -/
structure FlatType where
  words : ℕ
  Word : Type
  zero : Word
  valueInit : Fin words → Word

abbrev FlatType.T (F : FlatType) := Fin F.words → F.Word

/-- A capacity that passes `static_assert(N > 0 && (N & (N - 1)) == 0)`. -/
structure Capacity where
  N : BitVec 64
  pos : 0 < N
  pow : N &&& (N - 1) = 0

namespace Capacity
variable (cap : Capacity)

def size : ℕ := cap.N.toNat

theorem size_pos : 0 < cap.size := by
  simpa [size, BitVec.lt_def] using cap.pos

theorem toNat_N_sub_one : (cap.N - 1).toNat = cap.size - 1 := by
  have hpos := cap.size_pos
  rw [BitVec.toNat_sub_of_le]
  · rfl
  · simp only [BitVec.le_def]
    exact hpos

theorem size_pow : ∃ k, k < 64 ∧ cap.size = 2 ^ k := by
  have hpos := cap.size_pos
  have hand : cap.size &&& (cap.size - 1) = 0 := by
    rw [← cap.toNat_N_sub_one, size, ← BitVec.toNat_and, cap.pow]
    rfl
  obtain ⟨k, hk⟩ := (Nat.and_sub_one_eq_zero_iff_isPowerOfTwo (by omega)).mp hand
  refine ⟨k, ?_, hk⟩
  have hlt : cap.size < 2 ^ 64 := cap.N.isLt
  rw [hk] at hlt
  exact (Nat.pow_lt_pow_iff_right (by omega)).mp hlt

theorem toNat_and_mask (x : BitVec 64) : (x &&& (cap.N - 1)).toNat = x.toNat % cap.size := by
  obtain ⟨k, -, hk⟩ := cap.size_pow
  rw [BitVec.toNat_and, toNat_N_sub_one, hk, Nat.and_two_pow_sub_one_eq_mod]

theorem size_dvd : cap.size ∣ 2 ^ 64 := by
  obtain ⟨k, hk, heq⟩ := cap.size_pow
  rw [heq]
  exact Nat.pow_dvd_pow 2 hk.le

theorem size_lt : cap.size < 2 ^ 64 := cap.N.isLt

end Capacity

section Samples

/-- A payload of one 64-bit word. -/
abbrev oneWord : FlatType := ⟨1, BitVec 64, 0, fun _ => 0⟩

/-- Item number `m` of the samples is `10 * (m + 1)`. -/
abbrev tens (m : ℕ) : oneWord.T := fun _ => BitVec.ofNat 64 (10 * (m + 1))

def capacityOne : Capacity := ⟨1, by decide, by decide⟩

def capacityTwo : Capacity := ⟨2, by decide, by decide⟩

def capacityFour : Capacity := ⟨4, by decide, by decide⟩

end Samples

end SafeShm
