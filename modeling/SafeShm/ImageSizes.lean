import SafeShm.BinaryFloats
import Mathlib.Data.BitVec

/-!
# The sizes of images

`Image<WIDTH, HEIGHT, TYPE>::size` is the number of bytes of an image. It is computed in single
precision, since NV12 has one and a half bytes per pixel: the `std::size_t` product of the
dimensions is converted to `float`, multiplied by `channels(TYPE)` and converted back. The
type `float` has 24 significant bits; the numbers that occur are far from the ends of its
range.
-/

namespace SafeShm.Images
open BinaryFloats

/-- `ImageType`. -/
inductive ImageType where
  | rgb
  | rgba
  | nv12
  deriving DecidableEq

abbrev SingleFloat := BinaryFloat 24

private theorem three_le : 3 ≤ 2 ^ 24 := by omega

private theorem four_le : 4 ≤ 2 ^ 24 := by omega

/-- `channels`: 3, 4 and 1.5 bytes per pixel. -/
def channels : ImageType → SingleFloat
  | .rgb => ⟨3, 0, three_le⟩
  | .rgba => ⟨4, 0, four_le⟩
  | .nv12 => ⟨3, -1, three_le⟩

/-- `WIDTH * HEIGHT * channels(TYPE)`, with the first product one of `std::size_t`. -/
def samples (type : ImageType) (width height : BitVec 64) : SingleFloat :=
  (BinaryFloat.ofNat 24 (width * height).toNat).mul (channels type)

/-- `Image::size`. The conversion to `std::size_t` truncates, and is not defined on a value
out of range. -/
def size (type : ImageType) (width height : BitVec 64) : Option (BitVec 64) :=
  let n := (samples type width height).toNat
  if n < 2 ^ 64 then some (BitVec.ofNat 64 n) else none

section Exactness
variable {width height : BitVec 64} {type : ImageType}

theorem represents_rgb : (channels .rgb).Represents 3 0 := ⟨Int.le_refl 0, rfl⟩

theorem represents_rgba : (channels .rgba).Represents 4 0 := ⟨Int.le_refl 0, rfl⟩

theorem represents_nv12 : (channels .nv12).Represents 3 1 := ⟨Int.le_refl 0, rfl⟩

theorem size_eq_some_iff {k : ℕ} (hk : k < 2 ^ 64) :
    (size type width height).map BitVec.toNat = some k ↔
      (samples type width height).toNat = k := by
  rw [size]
  by_cases hlt : (samples type width height).toNat < 2 ^ 64
  · rw [if_pos hlt, Option.map_some, Option.some.injEq, BitVec.toNat_ofNat,
      Nat.mod_eq_of_lt hlt]
  · rw [if_neg hlt]
    constructor
    · intro h
      cases h
    · intro h
      omega

theorem fits_of_fits_mul_three {n : ℕ} (h : Fits 24 (n * 3)) : Fits 24 n :=
  h.of_mul_odd (by omega) (by decide)

theorem fits_mul_four {n : ℕ} : Fits 24 (n * 4) ↔ Fits 24 n := fits_mul_two_pow (k := 2)

/-- The size of an image is the number of its samples if and only if this number, which for
NV12 is to be doubled and for RGBA can be divided by four, is one of 24 bits times a power of
two. -/
theorem size_exact_iff (hbound : 4 * width.toNat * height.toNat < 2 ^ 63) :
    ((size .rgb width height).map BitVec.toNat = some (3 * width.toNat * height.toNat) ↔
      Fits 24 (3 * width.toNat * height.toNat)) ∧
    ((size .rgba width height).map BitVec.toNat = some (4 * width.toNat * height.toNat) ↔
      Fits 24 (width.toNat * height.toNat)) ∧
    (width.toNat % 2 = 0 → height.toNat % 2 = 0 →
      ((size .nv12 width height).map BitVec.toNat = some (3 * width.toNat * height.toNat / 2) ↔
        Fits 24 (3 * width.toNat * height.toNat))) := by
  simp only [Nat.mul_assoc] at hbound ⊢
  have hproduct : (width * height).toNat = width.toNat * height.toNat := by
    rw [BitVec.toNat_mul, Nat.mod_eq_of_lt (by omega)]
  refine ⟨?_, ?_, ?_⟩
  · rw [size_eq_some_iff (by omega), samples, hproduct, Nat.mul_comm 3]
    simpa using BinaryFloat.toNat_ofNat_mul_eq_iff (by omega) represents_rgb
      (Nat.one_dvd _) fits_of_fits_mul_three
  · rw [size_eq_some_iff (by omega), samples, hproduct, Nat.mul_comm 4, ← fits_mul_four]
    simpa using BinaryFloat.toNat_ofNat_mul_eq_iff (by omega) represents_rgba
      (Nat.one_dvd _) fits_mul_four.mp
  · intro hwidth _
    have heven : 2 ∣ width.toNat * height.toNat * 3 :=
      ((Nat.dvd_of_mod_eq_zero hwidth).mul_right _).mul_right 3
    rw [size_eq_some_iff (by omega), samples, hproduct, Nat.mul_comm 3]
    exact BinaryFloat.toNat_ofNat_mul_eq_iff (by omega) represents_nv12 heven
      fits_of_fits_mul_three

theorem size_exact_iff_fourK :
    (size .rgb 3840 2160).map BitVec.toNat = some (3 * 3840 * 2160) ∧
    (size .rgba 3840 2160).map BitVec.toNat = some (4 * 3840 * 2160) ∧
    (size .nv12 3840 2160).map BitVec.toNat = some (3 * 3840 * 2160 / 2) := by
  have hbound : 4 * (3840 : BitVec 64).toNat * (2160 : BitVec 64).toNat < 2 ^ 63 := by decide
  have hsamples : Fits 24 (3 * 3840 * 2160) := ⟨3 * 15 * 135, 12, by omega, by omega⟩
  have hpixels : Fits 24 (3840 * 2160) := ⟨15 * 135, 12, by omega, by omega⟩
  obtain ⟨hrgb, hrgba, hnv12⟩ := size_exact_iff hbound
  exact ⟨hrgb.mpr hsamples, hrgba.mpr hpixels, (hnv12 rfl rfl).mpr hsamples⟩

/-- The product of the dimensions is odd and has 25 bits: the image lacks three bytes. -/
theorem size_not_exact : 4 * 4097 * 4097 < 2 ^ 63 ∧
    (size .rgb 4097 4097).map BitVec.toNat = some (3 * 4097 * 4097 - 3) ∧
    (size .rgb 4097 4097).map BitVec.toNat ≠ some (3 * 4097 * 4097) := by
  have hsize : size .rgb 4097 4097 = some 50356224 := rfl
  rw [hsize]
  exact ⟨by omega, rfl, by simp⟩

end Exactness

end SafeShm.Images
