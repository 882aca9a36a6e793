import Mathlib.Data.BitVec
import Mathlib.Logic.Function.Basic
import Mathlib.Order.CompletePartialOrder
import Mathlib.Order.Interval.Set.Disjoint

/-!
# Memory as an array of bytes

Words of `n` bytes are kept in little-endian order. A load depends on its own bytes only and a
store changes its own bytes only, so that accesses to disjoint ranges do not meet. Offsets are
64-bit, and are rounded up to a power of two by a mask.
-/

namespace SafeShm.ByteMemory

abbrev Bytes := ℕ → BitVec 8

theorem disjoint_Ico_of_le {a n b m : ℕ} (h : a + n ≤ b) :
    Disjoint (Set.Ico a (a + n)) (Set.Ico b (b + m)) := by
  rw [Set.Ico_disjoint_Ico]
  omega

section Words

def loadLE (m : Bytes) : ℕ → ℕ → ℕ
  | _, 0 => 0
  | off, n + 1 => (m off).toNat + 256 * loadLE m (off + 1) n

def storeLE (m : Bytes) : ℕ → ℕ → ℕ → Bytes
  | _, 0, _ => m
  | off, n + 1, v => Function.update (storeLE m (off + 1) n (v / 256)) off (BitVec.ofNat 8 v)

variable {m m' : Bytes} {off n v a : ℕ}

theorem storeLE_of_notMem (h : a ∉ Set.Ico off (off + n)) : storeLE m off n v a = m a := by
  induction n generalizing off v with
  | zero => rfl
  | succ n ih =>
    rw [Set.mem_Ico] at h
    have hne : a ≠ off := by
      rintro rfl
      omega
    rw [storeLE, Function.update_of_ne hne]
    apply ih
    rw [Set.mem_Ico]
    omega

theorem loadLE_congr (h : ∀ a ∈ Set.Ico off (off + n), m a = m' a) :
    loadLE m off n = loadLE m' off n := by
  induction n generalizing off with
  | zero => rfl
  | succ n ih =>
    rw [loadLE, loadLE, h off (Set.mem_Ico.mpr ⟨le_rfl, by omega⟩), ih]
    intro a ha
    rw [Set.mem_Ico] at ha
    exact h a (Set.mem_Ico.mpr ⟨by omega, by omega⟩)

theorem loadLE_storeLE : loadLE (storeLE m off n v) off n = v % 256 ^ n := by
  induction n generalizing off v with
  | zero => simp [loadLE, Nat.mod_one]
  | succ n ih =>
    have htail : loadLE (storeLE m off (n + 1) v) (off + 1) n = v / 256 % 256 ^ n := by
      rw [← @ih (off + 1)]
      apply loadLE_congr
      intro a ha
      rw [Set.mem_Ico] at ha
      rw [storeLE, Function.update_of_ne (by omega)]
    have hsplit : v % 256 ^ (n + 1) = v % 256 + 256 * (v / 256 % 256 ^ n) := by
      rw [Nat.pow_succ', Nat.mod_mul]
    rw [loadLE, htail, storeLE, Function.update_self, BitVec.toNat_ofNat, hsplit]

/-- A word of `8 * n` bits. -/
def load (n : ℕ) (m : Bytes) (off : ℕ) : BitVec (8 * n) := BitVec.ofNat _ (loadLE m off n)

def store (n : ℕ) (m : Bytes) (off : ℕ) (v : BitVec (8 * n)) : Bytes := storeLE m off n v.toNat

theorem load_store (w : BitVec (8 * n)) : load n (store n m off w) off = w := by
  have hpow : 256 ^ n = 2 ^ (8 * n) := by rw [Nat.pow_mul]
  rw [load, store, loadLE_storeLE, hpow, Nat.mod_eq_of_lt w.isLt, BitVec.ofNat_toNat,
    BitVec.setWidth_eq]

theorem load_zeros : load n (fun _ => 0) off = 0 := by
  have hzero : ∀ off, loadLE (fun _ => 0) off n = 0 := by
    induction n with
    | zero => exact fun _ => rfl
    | succ n ih =>
      intro off
      rw [loadLE, ih]
      rfl
  rw [load, hzero]
  rfl

theorem load_congr (h : ∀ a ∈ Set.Ico off (off + n), m a = m' a) :
    load n m off = load n m' off := by
  rw [load, load, loadLE_congr h]

theorem store_of_notMem (w : BitVec (8 * n)) (h : a ∉ Set.Ico off (off + n)) :
    store n m off w a = m a :=
  storeLE_of_notMem h

end Words

section Rounding

/-- `(n + a - 1) & ~(a - 1)`. -/
def roundUp (n a : BitVec 64) : BitVec 64 := (n + a - 1) &&& ~~~(a - 1)

variable {n a x : BitVec 64} {k : ℕ}

/-- The mask `~(a - 1)` clears the low bits. -/
theorem toNat_and_not_mask (ha : a.toNat = 2 ^ k) :
    (x &&& ~~~(a - 1)).toNat = x.toNat / 2 ^ k * 2 ^ k := by
  have hk : k < 64 := by
    have hlt := a.isLt
    rw [ha] at hlt
    exact (Nat.pow_lt_pow_iff_right (by omega)).mp hlt
  have hmask : (a - 1).toNat = 2 ^ k - 1 := by
    have hpos := Nat.two_pow_pos k
    rw [BitVec.toNat_sub_of_le (BitVec.le_def.mpr (by rw [ha]; exact hpos)), ha]
    rfl
  have hshift : x &&& ~~~(a - 1) = (x >>> k) <<< k := by
    apply BitVec.eq_of_getLsbD_eq
    intro i hi
    have hbit : (a - 1).getLsbD i = decide (i < k) := by
      rw [BitVec.getLsbD, hmask, Nat.testBit_two_pow_sub_one]
    simp only [BitVec.getLsbD_and, BitVec.getLsbD_not, hbit, BitVec.getLsbD_shiftLeft,
      BitVec.getLsbD_ushiftRight, hi, decide_true, Bool.true_and]
    by_cases hik : i < k
    · simp [hik]
    · simp [hik, show k + (i - k) = i by omega]
  have hle := Nat.div_mul_le_self x.toNat (2 ^ k)
  rw [hshift, BitVec.toNat_shiftLeft, BitVec.toNat_ushiftRight, Nat.shiftRight_eq_div_pow,
    Nat.shiftLeft_eq, Nat.mod_eq_of_lt (Nat.lt_of_le_of_lt hle x.isLt)]

theorem dvd_roundUp (ha : a.toNat = 2 ^ k) : 2 ^ k ∣ (roundUp n a).toNat := by
  rw [roundUp, toNat_and_not_mask ha]
  exact Nat.dvd_mul_left ..

theorem le_roundUp (ha : a.toNat = 2 ^ k) (h : n.toNat + a.toNat ≤ 2 ^ 64) :
    n.toNat ≤ (roundUp n a).toNat ∧ (roundUp n a).toNat < n.toNat + a.toNat := by
  have hpos := Nat.two_pow_pos k
  have hsum : (n + a - 1).toNat = n.toNat + 2 ^ k - 1 := by
    bv_omega
  have hdiv := Nat.div_add_mod (n.toNat + 2 ^ k - 1) (2 ^ k)
  have hmod := Nat.mod_lt (n.toNat + 2 ^ k - 1) hpos
  rw [roundUp, toNat_and_not_mask ha, hsum, Nat.mul_comm, ha]
  omega

end Rounding

end SafeShm.ByteMemory
