import SafeShm.SanitizedKeys

/-!
# The built-in validators

`RangeValidator`, `ProximityValidator`, `MonotonicNsValidator` and `AllOf` in any combination. Each
combination accepts the values of one range, whose ends do not wrap, and it makes the queries for
sanitized keys right on every buffer exactly if the upper end of this range is a key.
-/

namespace SafeShm.TimeSeries
open AtomicPrograms SequenceLocks

/-- `ProximityValidator`. -/
def proximityValidator (reference tolerance v : BitVec 64) : Bool :=
  (if v > reference then v - reference else reference - v) ≤ tolerance

/-- `MonotonicNsValidator::MIN_NS`. -/
def minNs : BitVec 64 := 1000000000

/-- `MonotonicNsValidator::MAX_NS`. -/
def maxNs : BitVec 64 := 100 * 365 * 86400 * 1000000000

/-- `MonotonicNsValidator`. -/
def monotonicNsValidator (v : BitVec 64) : Bool := v ≥ minNs && v ≤ maxNs

/-- A validator made of the built-in ones. -/
inductive Validator where
  | range (minVal maxVal : BitVec 64)
  | proximity (reference tolerance : BitVec 64)
  | monotonicNs
  | allOf (validators : List Validator)

mutual

/-- `operator()` of the validator. -/
def Validator.accepts : Validator → BitVec 64 → Bool
  | .range minVal maxVal, v => rangeValidator minVal maxVal v
  | .proximity reference tolerance, v => proximityValidator reference tolerance v
  | .monotonicNs, v => monotonicNsValidator v
  | .allOf validators, v => allAccept validators v

/-- The fold `vs(v) && ...`. -/
def allAccept : List Validator → BitVec 64 → Bool
  | [], _ => true
  | f :: fs, v => f.accepts v && allAccept fs v

end

def meet (a b : ℕ × ℕ) : ℕ × ℕ := (max a.1 b.1, min a.2 b.2)

mutual

/-- The ends of the range that the validator accepts. -/
def Validator.bounds : Validator → ℕ × ℕ
  | .range minVal maxVal => (minVal.toNat, maxVal.toNat)
  | .proximity reference tolerance =>
      (reference.toNat - tolerance.toNat, min (reference.toNat + tolerance.toNat) (2 ^ 64 - 1))
  | .monotonicNs => (minNs.toNat, maxNs.toNat)
  | .allOf validators => allBounds validators

def allBounds : List Validator → ℕ × ℕ
  | [] => (0, 2 ^ 64 - 1)
  | f :: fs => meet f.bounds (allBounds fs)

end

theorem proximityValidator_iff {reference tolerance v : BitVec 64} :
    proximityValidator reference tolerance v = true ↔
      reference.toNat - tolerance.toNat ≤ v.toNat ∧
        v.toNat ≤ min (reference.toNat + tolerance.toNat) (2 ^ 64 - 1) := by
  have hr := reference.isLt
  have hv := v.isLt
  rw [proximityValidator, decide_eq_true_eq]
  split
  · rename_i hlt
    rw [gt_iff_lt, BitVec.lt_def] at hlt
    rw [BitVec.le_def, BitVec.toNat_sub_of_le (BitVec.le_def.mpr hlt.le)]
    omega
  · rename_i hle
    rw [gt_iff_lt, BitVec.lt_def] at hle
    rw [BitVec.le_def, BitVec.toNat_sub_of_le (BitVec.le_def.mpr (Nat.le_of_not_lt hle))]
    omega

mutual

theorem Validator.accepts_iff (v : BitVec 64) : ∀ f : Validator,
    f.accepts v = true ↔ f.bounds.1 ≤ v.toNat ∧ v.toNat ≤ f.bounds.2
  | .range minVal maxVal => by
    rw [Validator.accepts, Validator.bounds, rangeValidator, Bool.and_eq_true, decide_eq_true_eq,
      decide_eq_true_eq]
    exact Iff.rfl
  | .proximity reference tolerance => by
    rw [Validator.accepts, Validator.bounds]
    exact proximityValidator_iff
  | .monotonicNs => by
    rw [Validator.accepts, Validator.bounds, monotonicNsValidator, Bool.and_eq_true,
      decide_eq_true_eq, decide_eq_true_eq]
    exact Iff.rfl
  | .allOf validators => by
    rw [Validator.accepts, Validator.bounds]
    exact allAccept_iff v validators

theorem allAccept_iff (v : BitVec 64) : ∀ fs : List Validator,
    allAccept fs v = true ↔ (allBounds fs).1 ≤ v.toNat ∧ v.toNat ≤ (allBounds fs).2
  | [] => by
    have hv := v.isLt
    rw [allAccept, allBounds]
    exact iff_of_true rfl ⟨Nat.zero_le _, Nat.le_sub_one_of_lt hv⟩
  | f :: fs => by
    rw [allAccept, allBounds, meet, Bool.and_eq_true, f.accepts_iff v, allAccept_iff v fs]
    omega

end

mutual

theorem Validator.bounds_lt : ∀ f : Validator, f.bounds.2 < 2 ^ 64
  | .range minVal maxVal => by
    rw [Validator.bounds]
    exact maxVal.isLt
  | .proximity reference tolerance => by
    rw [Validator.bounds]
    exact (Nat.min_le_right _ _).trans_lt (by decide)
  | .monotonicNs => by
    rw [Validator.bounds]
    exact maxNs.isLt
  | .allOf validators => by
    rw [Validator.bounds]
    exact allBounds_lt validators

theorem allBounds_lt : ∀ fs : List Validator, (allBounds fs).2 < 2 ^ 64
  | [] => by
    rw [allBounds]
    decide
  | f :: fs => by
    rw [allBounds, meet]
    exact (Nat.min_le_left _ _).trans_lt f.bounds_lt

end

section Quiet
variable {F : FlatType} {kw : ℕ} (Tag : Type) (cap : Capacity) {key : F.T → BitVec kw}

variable (key) in
/-- No pair of the elements is around `v`: there are fewer than two of them, or `v` is above all
their keys or below all of them. -/
def NoneAround (v : BitVec 64) (view : List F.T) : Prop :=
  view.length < 2 ∨ (∀ e ∈ view, (key e).toNat < v.toNat) ∨ ∀ e ∈ view, v.toNat < (key e).toNat

variable (key) in
/-- After the insertions of the sessions the three overloads answer for the raw value itself, if the
validator lets it pass: with an element nearest to it; with a pair around it, unless there is none;
and with the newest element, unless its key is below the value. -/
structure AnswersFor (f : Validator) (sessions : List (List F.T)) (fuel slotFuel : ℕ)
    (raw : BitVec 64) (k : SanitizedKey Tag) : Prop where
  passes : sanitize Tag raw f.accepts = some k
  closest : ∃ e, (onBuffer F cap (slotFuel + 1) (findClosestSanitized key k fuel none)).run
      (memory.read (CyclicBuffer.insertAll cap sessions)) = some (some e) ∧
    NearestTo key raw (window cap sessions.flatten) e
  pair : ∃ r, (onBuffer F cap (slotFuel + 1) (findInterpolationPairSanitized key k fuel)).run
      (memory.read (CyclicBuffer.insertAll cap sessions)) = some r ∧
    (∀ p, r = some p → Encloses key raw p) ∧
    (r = none ↔ NoneAround key raw (window cap sessions.flatten))
  fresh : (onBuffer F cap (slotFuel + 1) (getLatestIfFreshSanitized key k)).run
      (memory.read (CyclicBuffer.insertAll cap sessions)) =
    some ((window cap sessions.flatten).getLast?.filter (fun e => raw.toNat ≤ (key e).toNat))

section Fits
variable {raw : BitVec 64} (hfits : raw.toNat < 2 ^ kw)
include hfits

private theorem toNat_setWidth_of_lt : (raw.setWidth kw).toNat = raw.toNat := by
  rw [BitVec.toNat_setWidth, Nat.mod_eq_of_lt hfits]

private theorem outOfRange_iff_noneAround {view : List F.T}
    (hview : view.Pairwise (fun a b => key a ≤ key b)) :
    OutOfRange key (raw.setWidth kw) view.reverse ↔ NoneAround key raw view := by
  have hreverse : view.reverse.Pairwise (fun a b => key b ≤ key a) :=
    List.pairwise_reverse.mpr hview
  rw [NoneAround]
  by_cases htwo : 2 ≤ view.length
  · rw [outOfRange_iff hreverse (by simpa using htwo)]
    simp only [List.mem_reverse, BitVec.lt_def, toNat_setWidth_of_lt hfits,
      Nat.not_lt_of_le htwo, false_or]
  · have hshort : view.length < 2 := Nat.lt_of_not_le htwo
    refine iff_of_true (.inl ?_) (.inl hshort)
    rwa [List.length_reverse]

/-- A raw value that is a key is the one that is queried. -/
theorem answersFor_of_lt {f : Validator} {sessions : List (List F.T)} {fuel : ℕ}
    (hraw : f.accepts raw = true) (hsorted : sessions.flatten.Pairwise (fun a b => key a ≤ key b))
    (hne : window cap sessions.flatten ≠ []) (hfuel : cap.size ≤ fuel) (slotFuel : ℕ) :
    AnswersFor Tag cap key f sessions fuel slotFuel raw ⟨raw⟩ := by
  have hwidth := toNat_setWidth_of_lt hfits
  obtain ⟨vals, hvals, hquiet⟩ := CyclicBuffer.represents_insertAll cap sessions
  constructor
  · exact if_pos hraw
  · obtain ⟨r, hrun, hempty, hnear⟩ :=
      run_findClosest_quiet hvals hsorted (raw.setWidth kw) none hfuel slotFuel
    rw [hquiet]
    cases r with
    | none =>
      have hnone := hempty.mp rfl
      simp only [reduceCtorEq, false_and, exists_false, or_false] at hnone
      exact absurd hnone hne
    | some e =>
      obtain ⟨he, hmin⟩ := hnear e rfl
      refine ⟨e, hrun, he, ?_⟩
      intro e' he'
      have hle := hmin e' he'
      rwa [distance, distance, hwidth] at hle
  · obtain ⟨r, hrun, hnone, hsome⟩ :=
      run_findInterpolationPair_quiet cap key hvals (raw.setWidth kw) hfuel slotFuel
    rw [hquiet]
    refine ⟨r, hrun, ?_, ?_⟩
    · intro p hp
      have hle := (hsome p hp).key_le
      rw [BitVec.le_def, BitVec.le_def, hwidth] at hle
      exact hle
    · rw [hnone]
      exact outOfRange_iff_noneAround hfits (hsorted.sublist (List.drop_sublist _ _))
  · have hpass : (fun e => decide (raw.setWidth kw ≤ key e)) =
        fun e => decide (raw.toNat ≤ (key e).toNat) := by
      funext e
      simp only [BitVec.le_def, hwidth]
    rw [getLatestIfFreshSanitized, getLatestIfFresh_quiet, hpass]

end Fits

/-- Every combination of the built-in validators accepts exactly one range of values, and the
queries for the keys that it lets pass are right on every buffer, with non-decreasing keys and in
no insertion, exactly if the range is empty or its upper end is a key. -/
theorem validator_protects_iff (hkey : Function.Surjective key) (f : Validator) {fuel : ℕ}
    (hfuel : cap.size ≤ fuel) (slotFuel : ℕ) :
    (∀ raw, f.accepts raw = true ↔ f.bounds.1 ≤ raw.toNat ∧ raw.toNat ≤ f.bounds.2) ∧
      ((∀ raw sessions, f.accepts raw = true →
          sessions.flatten.Pairwise (fun a b => key a ≤ key b) →
          window cap sessions.flatten ≠ [] →
          ∃ k, AnswersFor Tag cap key f sessions fuel slotFuel raw k) ↔
        f.bounds.2 < f.bounds.1 ∨ f.bounds.2 < 2 ^ kw) := by
  refine ⟨fun raw => f.accepts_iff raw, ?_, ?_⟩
  · intro hright
    by_contra hbounds
    obtain ⟨hle, hwide⟩ := not_or.mp hbounds
    -- the upper end of the range, and a buffer with the greatest key
    have hraw : (BitVec.ofNat 64 f.bounds.2).toNat = f.bounds.2 := by
      rw [BitVec.toNat_ofNat, Nat.mod_eq_of_lt f.bounds_lt]
    have haccepts : f.accepts (BitVec.ofNat 64 f.bounds.2) = true := by
      rw [f.accepts_iff, hraw]
      exact ⟨Nat.le_of_not_lt hle, le_rfl⟩
    obtain ⟨e, he⟩ := hkey (BitVec.allOnes kw)
    have hwindow : window cap [e] = [e] := by
      have hpos := cap.size_pos
      rw [window, show [e].length - min ([e].length % 2 ^ 64) cap.size = 0 by simp; omega]
      rfl
    obtain ⟨k, hk⟩ := hright _ [[e]] haccepts (List.pairwise_singleton _ _) (by simp [hwindow])
    obtain rfl : (⟨BitVec.ofNat 64 f.bounds.2⟩ : SanitizedKey Tag) = k :=
      Option.some.inj ((if_pos haccepts).symm.trans hk.passes)
    have hfresh : ∀ e', (onBuffer F cap (slotFuel + 1) (getLatestIfFreshSanitized key
        (⟨BitVec.ofNat 64 f.bounds.2⟩ : SanitizedKey Tag))).run
          (memory.read (CyclicBuffer.insertAll cap [[e]])) = some (some e') →
        (BitVec.ofNat 64 f.bounds.2).toNat ≤ (key e').toNat := by
      intro e' he'
      have hpass := (Option.filter_eq_some_iff.mp (Option.some.inj (hk.fresh.symm.trans he'))).2
      exact of_decide_eq_true hpass
    rcases (getLatestIfFreshSanitized_fresh_iff Tag cap key [[e]] _ slotFuel).mp hfresh with
      hfits | hstale
    · exact hwide (hraw ▸ hfits)
    · have hlt := hstale e (by simp [hwindow])
      rw [he, BitVec.lt_def, BitVec.toNat_allOnes] at hlt
      have hkey := (BitVec.setWidth kw (BitVec.ofNat 64 f.bounds.2)).isLt
      omega
  · intro hbounds raw sessions hraw hsorted hne
    obtain ⟨hlower, hupper⟩ := (f.accepts_iff raw).mp hraw
    have hfits : raw.toNat < 2 ^ kw := by
      rcases hbounds with hempty | hfits
      · exact absurd (hlower.trans hupper) (Nat.not_le_of_lt hempty)
      · exact hupper.trans_lt hfits
    exact ⟨⟨raw⟩, answersFor_of_lt Tag cap hfits hraw hsorted hne hfuel slotFuel⟩

theorem validator_protects_fifteen :
    ∃ k, AnswersFor Unit capacityTwo halfKey (.allOf [.range 1 100, .proximity 50 60])
      [[halfTens 0, halfTens 1]] 2 0 15 k := by
  have hkey : Function.Surjective halfKey := fun b => ⟨fun _ => b, rfl⟩
  obtain ⟨-, hiff⟩ := validator_protects_iff Unit capacityTwo hkey
    (.allOf [.range 1 100, .proximity 50 60]) (show capacityTwo.size ≤ 2 by decide) 0
  exact hiff.mpr (.inr (by decide)) 15 [[halfTens 0, halfTens 1]] (by decide) (by decide)
    (by decide)

end Quiet

end SafeShm.TimeSeries
