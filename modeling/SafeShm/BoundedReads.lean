import SafeShm.CyclicBuffer

/-!
# The bound on the attempts of `try_get`

The loop of `try_read_slot` counts its attempts from 0 up to and including `max_retries`, in 32
bits. An environment answers the loads of a call one after the other, by any values whatsoever.
The call makes at most `max_retries + 1` attempts in all of them, except for the greatest bound,
which the counter never exceeds.
-/

namespace SafeShm.CyclicBuffer
open AtomicPrograms SequenceLocks

variable {F : FlatType}

/-- The answers to the loads of a call. -/
abbrev Trace (F : FlatType) := List ((l : Place F) × Val F.Word l)

/-- The answers to the loads of one attempt to read slot `idx`. -/
def IsAttempt (idx : BitVec 64) (tr : Trace F) : Prop :=
  ∃ result done, Answers (readAttempt idx result) tr done

/-- In the environment `g` the call `try_get(reverse_index, max_retries)` returns after at most
`bound` attempts. -/
def ReturnsWithin (cap : Capacity) (g : ℕ → (l : Place F) → Val F.Word l) (reverseIndex : BitVec 64)
    (maxRetries : BitVec 32) (bound : ℕ) : Prop :=
  ∃ fuel r tr attempts writes,
    Answers (tryGet F cap fuel reverseIndex maxRetries) tr r ∧ Serves g 0 tr ∧
      tr = ⟨.header (), writes⟩ :: List.flatten attempts ∧
      (∀ a ∈ attempts, IsAttempt ((writes - 1 - reverseIndex) &&& (cap.N - 1)) a) ∧
      attempts.length ≤ bound

theorem spinFree_copyOut {Word : Type} {W : ℕ} (idx : BitVec 64) (js : List (Fin W))
    (result : Fin W → Word) :
    (copyOut idx js result : Program Unit (BitVec 64) W Word Empty _).SpinFree := by
  induction js generalizing result with
  | nil => exact trivial
  | cons j js ih => exact fun w => ih _

theorem spinFree_readAttempt (idx : BitVec 64) (result : F.T) :
    (readAttempt idx result : ReadProgram F _).SpinFree := by
  intro before
  change Prog.SpinFree (if before &&& 1 ≠ 0 then _ else _)
  split
  · exact trivial
  · apply (spinFree_copyOut idx _ result).bind
    intro copy after
    exact trivial

/-- From attempt number `attempt` on, a bound that is not the greatest one is reached. -/
theorem answers_tryReadSlotFrom (g : ℕ → (l : Place F) → Val F.Word l) (idx : BitVec 64)
    {maxRetries : BitVec 32} (hmax : maxRetries.toNat + 1 < 2 ^ 32) {k : ℕ} (attempt : BitVec 32)
    (hk : attempt.toNat + k = maxRetries.toNat + 1) (n : ℕ) (result : F.T) :
    ∃ r tr attempts, Answers (tryReadSlotFrom idx maxRetries (k + 1) attempt result) tr r ∧
      Serves g n tr ∧ tr = List.flatten attempts ∧ (∀ a ∈ attempts, IsAttempt idx a) ∧
      attempts.length ≤ k := by
  induction k generalizing attempt n result with
  | zero =>
    have hover : ¬ attempt ≤ maxRetries := by
      rw [BitVec.le_def]
      omega
    refine ⟨none, [], [], ?_, trivial, rfl, by simp, le_rfl⟩
    rw [tryReadSlotFrom, if_neg hover]
    exact .ret none
  | succ k ih =>
    have hle : attempt ≤ maxRetries := by
      rw [BitVec.le_def]
      omega
    have hnext : (attempt + 1).toNat = attempt.toNat + 1 := by bv_omega
    obtain ⟨tr₁, ⟨done, copy⟩, h₁, hserves₁⟩ := (spinFree_readAttempt idx result).answers g n
    have hattempt : IsAttempt idx tr₁ := ⟨result, _, h₁⟩
    rw [tryReadSlotFrom, if_pos hle]
    cases done with
    | true =>
      refine ⟨some copy, tr₁, [tr₁], ?_, hserves₁, by simp, by simpa using hattempt, by simp⟩
      exact answers_bind.mpr ⟨_, tr₁, [], (List.append_nil _).symm, h₁, .ret _⟩
    | false =>
      obtain ⟨r, tr₂, attempts, h₂, hserves₂, rfl, hattempts, hlen⟩ :=
        ih (attempt + 1) (by omega) (n + tr₁.length) copy
      refine ⟨r, tr₁ ++ List.flatten attempts, tr₁ :: attempts, ?_,
        serves_append.mpr ⟨hserves₁, hserves₂⟩, rfl, ?_, Nat.succ_le_succ hlen⟩
      · exact answers_bind.mpr ⟨_, tr₁, _, rfl, h₁, h₂⟩
      · exact List.forall_mem_cons.mpr ⟨hattempt, hattempts⟩

theorem not_answers_of_odd {g : ℕ → (l : Place F) → Val F.Word l} (idx : BitVec 64)
    (hodd : ∀ n, g n (.seq idx) &&& 1 ≠ 0) {fuel n : ℕ} {attempt : BitVec 32} {result : F.T}
    {tr : Trace F} {r : Option F.T} (hserves : Serves g n tr) :
    ¬ Answers (tryReadSlotFrom idx (BitVec.allOnes 32) fuel attempt result) tr r := by
  induction fuel generalizing n attempt result tr with
  | zero => exact not_answers_spin
  | succ fuel ih =>
    intro h
    have hle : attempt ≤ BitVec.allOnes 32 := by
      rw [BitVec.le_def, BitVec.toNat_allOnes]
      exact Nat.le_pred_of_lt attempt.isLt
    rw [tryReadSlotFrom, if_pos hle] at h
    obtain ⟨⟨done, copy⟩, tr₁, tr₂, rfl, h₁, h₂⟩ := answers_bind.mp h
    obtain ⟨hserves₁, hserves₂⟩ := serves_append.mp hserves
    obtain ⟨before, tail, rfl, htail⟩ := answers_load.mp h₁
    obtain rfl : before = g n (.seq idx) := hserves₁.1
    change Answers (if g n (.seq idx) &&& 1 ≠ 0 then _ else _) tail _ at htail
    rw [if_pos (hodd n)] at htail
    obtain ⟨-, heq⟩ := answers_ret.mp htail
    obtain ⟨rfl, rfl⟩ := Prod.mk.inj heq
    exact ih hserves₂ h₂

theorem answers_tryGet {cap : Capacity} {fuel : ℕ} {reverseIndex : BitVec 64}
    {maxRetries : BitVec 32} {tr : Trace F} {r : Option F.T} :
    Answers (tryGet F cap fuel reverseIndex maxRetries) tr r ↔
      ∃ writes tail, tr = ⟨.header (), writes⟩ :: tail ∧
        Answers (if umin writes cap.N ≤ reverseIndex then .ret none else
          tryReadSlot F fuel ((writes - 1 - reverseIndex) &&& (cap.N - 1)) maxRetries) tail r :=
  answers_load

/-- A ring with an element to read whose counters all stay odd. -/
def stalled (F : FlatType) (cap : Capacity) (_ : ℕ) : (l : Place F) → Val F.Word l
  | .header _ => cap.N
  | .seq _ => 1
  | .word _ _ => F.zero

/-- `try_get(reverse_index, max_retries)` returns after at most `max_retries + 1` attempts whatever
its loads return, exactly if `max_retries` is not the greatest 32-bit number or `reverse_index` is
not the index of a slot. -/
theorem tryGet_bounded_iff (cap : Capacity) (reverseIndex : BitVec 64) (maxRetries : BitVec 32) :
    (∀ g : ℕ → (l : Place F) → Val F.Word l,
        ReturnsWithin cap g reverseIndex maxRetries (maxRetries.toNat + 1)) ↔
      maxRetries ≠ BitVec.allOnes 32 ∨ cap.N ≤ reverseIndex := by
  constructor
  · intro hall
    by_contra hnot
    rw [not_or, not_not] at hnot
    obtain ⟨rfl, hindex⟩ := hnot
    obtain ⟨fuel, r, tr, -, -, h, hserves, -⟩ := hall (stalled F cap)
    obtain ⟨writes, tail, rfl, htail⟩ := answers_tryGet.mp h
    obtain rfl : writes = cap.N := hserves.1
    have hread : ¬ umin cap.N cap.N ≤ reverseIndex := by
      rw [BitVec.le_def, toNat_umin, Nat.min_self]
      exact hindex
    rw [if_neg hread] at htail
    refine not_answers_of_odd _ ?_ hserves.2 htail
    intro n
    show (1 : BitVec 32) &&& 1 ≠ 0
    decide
  · intro hcond g
    by_cases hempty : umin (g 0 (.header ())) cap.N ≤ reverseIndex
    · refine ⟨0, none, [⟨.header (), g 0 (.header ())⟩], [], _, ?_, ⟨rfl, trivial⟩, rfl, by simp,
        Nat.zero_le _⟩
      apply answers_tryGet.mpr
      exact ⟨_, [], rfl, by rw [if_pos hempty]; exact .ret none⟩
    · have hmax : maxRetries.toNat + 1 < 2 ^ 32 := by
        have hne : maxRetries ≠ BitVec.allOnes 32 := by
          rcases hcond with hne | hindex
          · exact hne
          · rw [BitVec.le_def] at hindex hempty
            rw [toNat_umin] at hempty
            omega
        have hlt := maxRetries.isLt
        have hne' : maxRetries.toNat ≠ 2 ^ 32 - 1 := fun h =>
          hne (BitVec.eq_of_toNat_eq (h.trans (BitVec.toNat_allOnes ..).symm))
        omega
      obtain ⟨r, tr, attempts, h, hserves, rfl, hattempts, hlen⟩ := answers_tryReadSlotFrom g
        ((g 0 (.header ()) - 1 - reverseIndex) &&& (cap.N - 1)) hmax
        0 (Nat.zero_add _) 1 (fun _ => F.zero)
      refine ⟨maxRetries.toNat + 1 + 1, r, ⟨.header (), g 0 (.header ())⟩ :: List.flatten attempts,
        attempts, _, ?_, ⟨rfl, hserves⟩, rfl, hattempts, hlen⟩
      apply answers_tryGet.mpr
      exact ⟨_, _, rfl, by rw [if_neg hempty]; exact h⟩

/-- Two insertions are published and the third one has stopped in slot 0. -/
def stoppedWriter (_ : ℕ) : (l : Place oneWord) → Val oneWord.Word l
  | .header _ => 2
  | .seq i => if i = 0 then 3 else 2
  | .word _ _ => 0

/-- The read of the older element with the greatest bound on the attempts never returns. -/
theorem tryGet_unbounded_greatest :
    ¬ ReturnsWithin capacityTwo stoppedWriter 1 4294967295 4294967296 ∧
      ∀ fuel tr r, Serves stoppedWriter 0 tr →
        ¬ Answers (tryGet oneWord capacityTwo fuel 1 4294967295) tr r := by
  have hnever : ∀ fuel tr r, Serves stoppedWriter 0 tr →
      ¬ Answers (tryGet oneWord capacityTwo fuel 1 4294967295) tr r := by
    intro fuel tr r hserves h
    obtain ⟨writes, tail, rfl, htail⟩ := answers_tryGet.mp h
    obtain rfl : writes = 2 := hserves.1
    rw [if_neg (by decide)] at htail
    refine not_answers_of_odd 0 ?_ hserves.2 htail
    intro n
    show (3 : BitVec 32) &&& 1 ≠ 0
    decide
  refine ⟨?_, hnever⟩
  rintro ⟨fuel, r, tr, -, -, h, hserves, -⟩
  exact hnever fuel tr r hserves h

end SafeShm.CyclicBuffer
