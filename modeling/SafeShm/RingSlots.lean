import Mathlib.Data.Nat.Count
import Mathlib.Order.Monotone.Basic

/-!
# What a ring of slots holds

Item number `m` of a sequence goes into slot `m % size` and replaces what was there.
`hits` counts the items that went into a slot, `content` is what the slot holds.
-/

namespace SafeShm.RingSlots
variable {α : Type} (size : ℕ)

/-- How many of the first `n` items went into slot `i`. -/
def hits (i n : ℕ) : ℕ := Nat.count (fun m => m % size = i) n

def content (empty : α) (vals : ℕ → α) (i : ℕ) : ℕ → α
  | 0 => empty
  | n + 1 => if n % size = i then vals n else content empty vals i n

theorem hits_mono (i : ℕ) : Monotone (hits size i) := Nat.count_monotone _

theorem hits_succ (i n : ℕ) :
    hits size i (n + 1) = hits size i n + if n % size = i then 1 else 0 :=
  Nat.count_succ _ n

theorem hits_le (i n : ℕ) : hits size i n ≤ n := Nat.count_le _

theorem hits_add_le (i n k : ℕ) : hits size i (n + k) ≤ hits size i n + k := by
  rw [hits, Nat.count_add]
  exact Nat.add_le_add_left (Nat.count_le _) _

variable {size}

theorem content_cases (empty : α) (vals : ℕ → α) (i n : ℕ) :
    content size empty vals i n = empty ∨ ∃ m < n, content size empty vals i n = vals m := by
  induction n with
  | zero => exact .inl rfl
  | succ n ih =>
    rw [content]
    split
    · exact .inr ⟨n, Nat.lt_succ_self n, rfl⟩
    · rcases ih with hempty | ⟨m, hm, heq⟩
      · exact .inl hempty
      · exact .inr ⟨m, Nat.lt_succ_of_lt hm, heq⟩

theorem content_eq_of_hits_eq {empty : α} {vals : ℕ → α} {i n n' : ℕ} (hle : n ≤ n')
    (h : hits size i n = hits size i n') :
    content size empty vals i n = content size empty vals i n' := by
  induction n', hle using Nat.le_induction with
  | base => rfl
  | succ n' hle ih =>
    have hmono := hits_mono size i hle
    rw [hits_succ] at h
    by_cases hi : n' % size = i
    · rw [if_pos hi] at h
      omega
    · rw [if_neg hi] at h
      rw [content, if_neg hi, ih h]

theorem add_size_le {m n : ℕ} (hlt : m < n) (h : n % size = m % size) : m + size ≤ n := by
  have hdvd : size ∣ n - m := Nat.dvd_of_mod_eq_zero (Nat.sub_mod_eq_zero_of_mod_eq h)
  have hle := Nat.le_of_dvd (by omega) hdvd
  omega

theorem content_eq {empty : α} {vals : ℕ → α} {m n : ℕ} (hlt : m < n) (hle : n ≤ m + size) :
    content size empty vals (m % size) n = vals m := by
  induction n with
  | zero => omega
  | succ n ih =>
    rw [content]
    rcases Nat.lt_succ_iff_lt_or_eq.mp hlt with hmn | rfl
    · rw [if_neg, ih hmn (by omega)]
      intro h
      have := add_size_le hmn h
      omega
    · rw [if_pos rfl]

theorem hits_eq {m n : ℕ} (hlt : m < n) (hle : n ≤ m + size) :
    hits size (m % size) n = hits size (m % size) (m + 1) := by
  induction n, hlt using Nat.le_induction with
  | base => rfl
  | succ n hlt ih =>
    rw [hits_succ, if_neg, ih (by omega), Nat.add_zero]
    intro h
    have := add_size_le hlt h
    omega

theorem exists_last {m n : ℕ} (hsize : 0 < size) (hlt : m < n) :
    ∃ k, m ≤ k ∧ k < n ∧ n ≤ k + size ∧ k % size = m % size := by
  have hdiv := Nat.div_add_mod (n - 1 - m) size
  have hmod := Nat.mod_lt (n - 1 - m) hsize
  refine ⟨m + size * ((n - 1 - m) / size), by omega, by omega, by omega, ?_⟩
  exact Nat.add_mul_mod_self_left m size _

variable (size) in
theorem hits_lt {m n n' : ℕ} (h : n ≤ m) (h' : m < n') :
    hits size (m % size) n < hits size (m % size) n' := by
  have hm : hits size (m % size) (m + 1) = hits size (m % size) m + 1 := by
    rw [hits_succ, if_pos rfl]
  have h₁ := hits_mono size (m % size) h
  have h₂ := hits_mono size (m % size) h'
  simp only [Nat.succ_eq_add_one] at h₂
  omega

end SafeShm.RingSlots
