import Mathlib.Data.Nat.GCD.Basic
import Mathlib.Order.Nat

/-!
# Binary floating-point numbers

Nonnegative numbers `significand * 2 ^ exponent` with `p` significant bits. Exponents are not
bounded, so there is no infinity and nothing underflows. An operation is the exact one
followed by rounding to nearest, ties to even.

A natural number is represented exactly if and only if it is a number of at most `p` bits
times a power of two. An operation on numbers that are represented exactly is exact if and
only if its result is one.
-/

namespace SafeShm.BinaryFloats

section Rounding
variable {p n d : ℕ}

/-- `n / d` rounded to the nearest natural number, and to the even one if two are nearest. -/
def divEven (n d : ℕ) : ℕ :=
  if d < 2 * (n % d) ∨ 2 * (n % d) = d ∧ n / d % 2 = 1 then n / d + 1 else n / d

/-- The number of bits of `n` after its first `p`. -/
def excess (p n : ℕ) : ℕ := n.log2 + 1 - p

theorem divEven_of_dvd (hd : 0 < d) (h : d ∣ n) : divEven n d = n / d := by
  rw [divEven, Nat.mod_eq_zero_of_dvd h, if_neg]
  omega

theorem divEven_le {k : ℕ} (h : n < d * k) : divEven n d ≤ k := by
  have hlt : n / d < k := Nat.div_lt_of_lt_mul h
  rw [divEven]
  split <;> omega

theorem lt_two_pow_excess (p n : ℕ) : n < 2 ^ excess p n * 2 ^ p := by
  have hle : n.log2 + 1 ≤ excess p n + p := by
    rw [excess]
    omega
  rw [← Nat.pow_add]
  exact Nat.lt_log2_self.trans_le (Nat.pow_le_pow_right (by omega) hle)

end Rounding

section Fits
variable {p n k : ℕ}

/-- `n` is a number of at most `p` bits times a power of two. -/
def Fits (p n : ℕ) : Prop := ∃ m e, m < 2 ^ p ∧ n = m * 2 ^ e

theorem fits_of_le (hp : 0 < p) {m : ℕ} (h : m ≤ 2 ^ p) (e : ℕ) : Fits p (m * 2 ^ e) := by
  rcases Nat.lt_or_eq_of_le h with hlt | rfl
  · exact ⟨m, e, hlt, rfl⟩
  · refine ⟨1, p + e, Nat.one_lt_two_pow (by omega), ?_⟩
    rw [Nat.one_mul, Nat.pow_add]

theorem fits_mul_two_pow : Fits p (n * 2 ^ k) ↔ Fits p n := by
  constructor
  · intro h
    obtain ⟨m, e, hm, heq⟩ := h
    rcases Nat.le_total k e with hle | hle
    · obtain ⟨j, rfl⟩ := Nat.exists_eq_add_of_le hle
      refine ⟨m, j, hm, Nat.eq_of_mul_eq_mul_right (Nat.two_pow_pos k) ?_⟩
      rw [heq, Nat.mul_assoc, ← Nat.pow_add, Nat.add_comm]
    · obtain ⟨j, rfl⟩ := Nat.exists_eq_add_of_le hle
      have heq' : n * 2 ^ j = m := by
        apply Nat.eq_of_mul_eq_mul_right (Nat.two_pow_pos e)
        rw [← heq, Nat.mul_assoc, ← Nat.pow_add, Nat.add_comm]
      refine ⟨n, 0, ?_, (Nat.mul_one n).symm⟩
      exact (Nat.le_mul_of_pos_right n (Nat.two_pow_pos j)).trans_lt (heq' ▸ hm)
  · intro h
    obtain ⟨m, e, hm, rfl⟩ := h
    exact ⟨m, e + k, hm, by rw [Nat.pow_add, Nat.mul_assoc]⟩

theorem Fits.of_mul_odd {c : ℕ} (hpos : 0 < c) (hc : Nat.Coprime c 2) (h : Fits p (n * c)) :
    Fits p n := by
  obtain ⟨m, e, hm, heq⟩ := h
  have hdvd : c ∣ m := by
    apply (hc.pow_right e).dvd_of_dvd_mul_right
    rw [← heq]
    exact Nat.dvd_mul_left c n
  obtain ⟨j, rfl⟩ := hdvd
  refine ⟨j, e, (Nat.le_mul_of_pos_left j hpos).trans_lt hm, ?_⟩
  apply Nat.eq_of_mul_eq_mul_right hpos
  rw [heq, Nat.mul_comm c j, Nat.mul_right_comm]

theorem Fits.two_pow_excess_dvd (h : Fits p n) : 2 ^ excess p n ∣ n := by
  obtain ⟨m, e, hm, rfl⟩ := h
  rcases Nat.eq_zero_or_pos m with rfl | hpos
  · simp
  · have hlt : (m * 2 ^ e).log2 < p + e := by
      rw [Nat.log2_lt (Nat.mul_ne_zero hpos.ne' (Nat.two_pow_pos e).ne'), Nat.pow_add]
      exact Nat.mul_lt_mul_of_pos_right hm (Nat.two_pow_pos e)
    have hle : excess p (m * 2 ^ e) ≤ e := by
      rw [excess]
      omega
    exact (Nat.pow_dvd_pow 2 hle).trans (Nat.dvd_mul_left _ _)

end Fits

/-- A number `significand * 2 ^ exponent` of `p` bits. The significand `2 ^ p` is that of
`2 ^ (p - 1)` with the next exponent. -/
structure BinaryFloat (p : ℕ) where
  significand : ℕ
  exponent : ℤ
  significand_le : significand ≤ 2 ^ p

namespace BinaryFloat
variable {p : ℕ}

/-- `n * 2 ^ e`, rounded. -/
def round (p n : ℕ) (e : ℤ) : BinaryFloat p where
  significand := divEven n (2 ^ excess p n)
  exponent := e + excess p n
  significand_le := divEven_le (lt_two_pow_excess p n)

def ofNat (p n : ℕ) : BinaryFloat p := round p n 0

def mul (x y : BinaryFloat p) : BinaryFloat p :=
  round p (x.significand * y.significand) (x.exponent + y.exponent)

/-- The number without its fractional part. -/
def toNat (x : BinaryFloat p) : ℕ :=
  x.significand * 2 ^ x.exponent.toNat / 2 ^ (-x.exponent).toNat

/-- `x` is the number `n / 2 ^ d`. -/
structure Represents (x : BinaryFloat p) (n d : ℕ) : Prop where
  exponent_nonneg : 0 ≤ x.exponent + d
  significand_mul : x.significand * 2 ^ (x.exponent + d).toNat = n

theorem represents_round {n d : ℕ} {e : ℤ} (h : Fits p n) (he : 0 ≤ e + d) :
    Represents (round p n e) (n * 2 ^ (e + d).toNat) d := by
  have hexp : (e + excess p n + d).toNat = excess p n + (e + d).toNat := by omega
  refine ⟨?_, ?_⟩
  · simp only [round]
    omega
  · simp only [round]
    rw [divEven_of_dvd (Nat.two_pow_pos _) h.two_pow_excess_dvd, hexp, Nat.pow_add,
      ← Nat.mul_assoc, Nat.div_mul_cancel h.two_pow_excess_dvd]

theorem represents_ofNat {n : ℕ} (h : Fits p n) : Represents (ofNat p n) n 0 := by
  have hround := represents_round (d := 0) (e := 0) h (by omega)
  simpa [ofNat] using hround

theorem Represents.mul {x y : BinaryFloat p} {a b d d' : ℕ} (hx : Represents x a d)
    (hy : Represents y b d') (h : Fits p (a * b)) : Represents (x.mul y) (a * b) (d + d') := by
  have hx₀ := hx.exponent_nonneg
  have hy₀ := hy.exponent_nonneg
  have hexp : (x.exponent + y.exponent + (d + d' : ℕ)).toNat =
      (x.exponent + d).toNat + (y.exponent + d').toNat := by omega
  have heq : a * b = x.significand * y.significand *
      2 ^ (x.exponent + y.exponent + (d + d' : ℕ)).toNat := by
    rw [← hx.significand_mul, ← hy.significand_mul, hexp, Nat.pow_add, Nat.mul_mul_mul_comm]
  rw [heq] at h ⊢
  apply represents_round (fits_mul_two_pow.mp h)
  omega

theorem Represents.toNat_eq {x : BinaryFloat p} {n d : ℕ} (h : Represents x n d) :
    x.toNat = n / 2 ^ d := by
  have hexp := h.exponent_nonneg
  have hsplit : (x.exponent + d).toNat + (-x.exponent).toNat = x.exponent.toNat + d := by omega
  have hcross : n * 2 ^ (-x.exponent).toNat = x.significand * 2 ^ x.exponent.toNat * 2 ^ d := by
    rw [← h.significand_mul, Nat.mul_assoc, ← Nat.pow_add, hsplit, Nat.pow_add, Nat.mul_assoc]
  rw [toNat, ← Nat.mul_div_mul_right _ _ (Nat.two_pow_pos d), ← hcross, Nat.mul_comm (2 ^ _),
    Nat.mul_div_mul_right _ _ (Nat.two_pow_pos _)]

theorem fits_toNat (hp : 0 < p) (x : BinaryFloat p) : Fits p x.toNat := by
  rw [toNat]
  rcases Int.le_total 0 x.exponent with hexp | hexp
  · rw [show (-x.exponent).toNat = 0 by omega, Nat.pow_zero, Nat.div_one]
    exact fits_of_le hp x.significand_le _
  · rw [show x.exponent.toNat = 0 by omega, Nat.pow_zero, Nat.mul_one]
    have hle := (Nat.div_le_self x.significand (2 ^ (-x.exponent).toNat)).trans x.significand_le
    simpa using fits_of_le hp hle 0

/-- The product of a natural number and an exact factor `c / 2 ^ d` is exact if and only if it
fits, provided that the number fits where the product does. -/
theorem toNat_ofNat_mul_eq_iff (hp : 0 < p) {y : BinaryFloat p} {n c d : ℕ}
    (hy : Represents y c d) (hdvd : 2 ^ d ∣ n * c) (hn : Fits p (n * c) → Fits p n) :
    ((ofNat p n).mul y).toNat = n * c / 2 ^ d ↔ Fits p (n * c) := by
  constructor
  · intro h
    have hfits := fits_toNat hp ((ofNat p n).mul y)
    rw [h] at hfits
    rw [← Nat.div_mul_cancel hdvd]
    exact fits_mul_two_pow.mpr hfits
  · intro h
    have hmul := (represents_ofNat (hn h)).mul hy h
    rw [hmul.toNat_eq, Nat.zero_add]

end BinaryFloat

end SafeShm.BinaryFloats
