import SafeShm.ClosestSearch
import SafeShm.CyclicBufferReads
import Mathlib.Data.Nat.Basic

/-!
# Bounds of the temporal searches

Nothing is assumed of the elements that `try_get` returns, nor of their keys. The searches of
`find_closest` and `find_interpolation_pair` then need not find anything, but their indices
alone make them return: an interval of indices halves with each turn, and it stays below the
`avail` that was read first.

The checked searches are the same texts with index arithmetic that fails when it wraps. They
are the unchecked ones: no subtraction underflows and no addition overflows.
-/

namespace SafeShm.TimeSeries
open AtomicPrograms SingleWriterRuns SequenceLocks
open CyclicBuffer (ReadProgram Place Segment segments writers published umin)

/-- Queries whose index arithmetic can fail. -/
abbrev CheckedQuery (T A : Type) := OptionT (QueryProgram T) A

section CheckedSearches
variable {T : Type} {kw : ℕ} (key : T → BitVec kw) (target : BitVec kw)

/-- `a - b`, if it does not underflow. -/
def checkedSub (a b : BitVec 64) : CheckedQuery T (BitVec 64) :=
  if b ≤ a then return a - b else failure

/-- `a + b`, if it does not overflow. -/
def checkedAdd (a b : BitVec 64) : CheckedQuery T (BitVec 64) :=
  if a.toNat + b.toNat < 2 ^ 64 then return a + b else failure

/-- `lo + (hi - lo) / 2`. -/
def checkedMiddle (lo hi : BitVec 64) : CheckedQuery T (BitVec 64) := do
  let d ← checkedSub hi lo
  checkedAdd lo (d / 2)

/-- The loop of `find_closest`. -/
def closestSearchChecked : ℕ → BitVec 64 → BitVec 64 → CheckedQuery T (SearchEnd T)
  | 0, _, _ => OptionT.lift .spin
  | fuel + 1, lo, hi =>
      if lo < hi then do
        let mid ← checkedMiddle lo hi
        match ← OptionT.lift (tryGet mid) with
        | none => return .overwritten
        | some elem =>
            if target < key elem then closestSearchChecked fuel (← checkedAdd mid 1) hi
            else if key elem < target then
              if mid = 0 then return .stopped lo
              else closestSearchChecked fuel lo (← checkedSub mid 1)
            else return .exact elem
      else return .stopped lo

/-- The check of one neighbour. Its index is computed only if it is in range. -/
def checkNeighborChecked (inRange : Bool) (index : CheckedQuery T (BitVec 64)) (best : T)
    (bestDiff : BitVec kw) : CheckedQuery T (T × BitVec kw) := do
  if inRange then
    let i ← index
    OptionT.lift (checkNeighbor key target true i best bestDiff)
  else return (best, bestDiff)

/-- The rest of `find_closest` after the loop. -/
def checkAroundChecked (avail : BitVec 64) (maxDistance : Option (BitVec kw)) (lo : BitVec 64) :
    CheckedQuery T (Option T) := do
  match ← OptionT.lift (tryGet lo) with
  | none => OptionT.lift (findClosestLinear key target avail none)
  | some best =>
      let bestDiff := keyDiff (key best) target
      let (best, bestDiff) ←
        checkNeighborChecked key target (0 < lo) (checkedSub lo 1) best bestDiff
      let next ← checkedAdd lo 1
      let (best, _) ← checkNeighborChecked key target (next < avail) (return next) best bestDiff
      match maxDistance with
      | some d => if d < keyDiff (key best) target then return none else return some best
      | none => return some best

/-- `TimeSeries::find_closest`. -/
def findClosestChecked (fuel : ℕ) (maxDistance : Option (BitVec kw)) :
    CheckedQuery T (Option T) := do
  let avail ← OptionT.lift available
  if avail = 0 then return none
  let hi ← checkedSub avail 1
  match ← closestSearchChecked key target fuel 0 hi with
  | .overwritten => OptionT.lift (findClosestLinear key target avail maxDistance)
  | .exact elem => return some elem
  | .stopped lo => checkAroundChecked key target avail maxDistance lo

/-- The loop of `find_interpolation_pair`. -/
def bracketSearchChecked :
    ℕ → BitVec 64 → BitVec 64 → CheckedQuery T (Option (BitVec 64 × BitVec 64))
  | 0, _, _ => OptionT.lift .spin
  | fuel + 1, lo, hi => do
      let next ← checkedAdd lo 1
      if next < hi then
        let mid ← checkedMiddle lo hi
        match ← OptionT.lift (tryGet mid) with
        | none => return none
        | some elem =>
            if target < key elem then bracketSearchChecked fuel mid hi
            else bracketSearchChecked fuel lo mid
      else return some (lo, hi)

/-- `find_interpolation_pair` once the newest and the oldest element have been read. -/
def searchPairChecked (fuel : ℕ) (avail : BitVec 64) (newest oldest : T) :
    CheckedQuery T (Option (InterpPair T)) := do
  if key newest < target ∨ target < key oldest then return none
  if target = key newest then return some ⟨newest, newest, 0⟩
  if target = key oldest then return some ⟨oldest, oldest, 0⟩
  let last ← checkedSub avail 1
  match ← bracketSearchChecked key target fuel 0 last with
  | none => OptionT.lift (findInterpolationPairLinear key target avail)
  | some (lo, hi) => OptionT.lift (readBracket key target lo hi)

/-- `TimeSeries::find_interpolation_pair`. -/
def findInterpolationPairChecked (fuel : ℕ) : CheckedQuery T (Option (InterpPair T)) := do
  let avail ← OptionT.lift available
  if avail < 2 then return none
  let newest ← OptionT.lift (tryGet 0)
  let last ← checkedSub avail 1
  let oldest ← OptionT.lift (tryGet last)
  match newest, oldest with
  | some newest, some oldest => searchPairChecked key target fuel avail newest oldest
  | _, _ => return none

end CheckedSearches

section Totality
variable {T : Type} {kw : ℕ} {key : T → BitVec kw} {target : BitVec kw} {avail : BitVec 64}

def Request.Within (avail : BitVec 64) : Request → Prop
  | .available => True
  | .tryGet i => i < avail

theorem total_tryGet_bind {A : Type} {Q : A → Prop} {i : BitVec 64}
    {k : Option T → QueryProgram T A} (hi : i < avail)
    (hk : ∀ v, (k v).Total (Request.Within avail) Q) :
    (tryGet i >>= k).Total (Request.Within avail) Q := ⟨hi, hk⟩

/-- The index that is left over when the loop of `find_closest` stops is in range. -/
def SearchEnd.Within (avail : BitVec 64) : SearchEnd T → Prop
  | .stopped lo => lo < avail
  | _ => True

/-- `fuel + 1` turns are enough for an interval of fewer than `2 ^ (fuel + 1)` indices. The
interval is empty when `hi` has dropped below `lo`. -/
theorem closestSearch_total {fuel : ℕ} {lo hi : BitVec 64} (hlo : lo < avail) (hhi : hi < avail)
    (hfuel : hi.toNat + 1 - lo.toNat < 2 ^ (fuel + 1)) :
    (closestSearch key target (fuel + 1) lo hi).Total (Request.Within avail)
      (SearchEnd.Within avail) := by
  induction fuel generalizing lo hi with
  | zero =>
    have hempty : ¬ lo < hi := by
      rw [BitVec.lt_def]
      omega
    rw [closestSearch, if_neg hempty]
    exact hlo
  | succ fuel ih =>
    rw [closestSearch]
    by_cases hlt : lo < hi
    · rw [if_pos hlt]
      have hmid := toNat_middle hlt
      have hhalf := Nat.pow_succ 2 (fuel + 1)
      rw [BitVec.lt_def] at hlt hlo hhi
      generalize middle lo hi = mid at hmid
      apply total_tryGet_bind
      · rw [BitVec.lt_def]
        omega
      intro v
      cases v with
      | none => trivial
      | some elem =>
        have holder : (mid + 1).toNat = mid.toNat + 1 := by bv_omega
        simp only
        split
        · apply ih
          · rw [BitVec.lt_def]
            omega
          · exact BitVec.lt_def.mpr hhi
          · omega
        split
        · split
          · exact BitVec.lt_def.mpr hlo
          · rename_i hne
            have hnewer : (mid - 1).toNat = mid.toNat - 1 := by bv_omega
            apply ih (BitVec.lt_def.mpr hlo)
            · rw [BitVec.lt_def]
              omega
            · omega
        · trivial
    · rw [if_neg hlt]
      exact hlo

/-- With keys out of order `hi` can drop below `lo`: here the loop stops at 2 with `hi = 1`. -/
example : follow (closestSearch id (15 : BitVec 64) 3 0 3)
    [⟨.tryGet 1, some 20⟩, ⟨.tryGet 2, some 10⟩] = some (.stopped 2) := rfl

theorem closestScan_total {n : ℕ} {i : BitVec 64} {best : Option T} {bestDiff : BitVec kw}
    (h : i.toNat + n ≤ avail.toNat) :
    (closestScan key target n i best bestDiff).Total (Request.Within avail) (fun _ => True) := by
  induction n generalizing i best bestDiff with
  | zero => trivial
  | succ n ih =>
    have hnext : (i + 1).toNat + n ≤ avail.toNat := by bv_omega
    rw [closestScan]
    apply total_tryGet_bind
    · rw [BitVec.lt_def]
      omega
    intro v
    cases v with
    | none => exact ih hnext
    | some elem =>
      simp only
      split <;> exact ih hnext

theorem findClosestLinear_total (maxDistance : Option (BitVec kw)) :
    (findClosestLinear key target avail maxDistance).Total (Request.Within avail)
      (fun _ => True) := by
  apply (closestScan_total (by simp)).bind
  intro found _
  obtain ⟨best, bestDiff⟩ := found
  simp only
  split
  · split <;> trivial
  · trivial

theorem checkNeighbor_total {inRange : Bool} {i : BitVec 64} {best : T} {bestDiff : BitVec kw}
    (hi : inRange = true → i < avail) :
    (checkNeighbor key target inRange i best bestDiff).Total (Request.Within avail)
      (fun _ => True) := by
  rw [checkNeighbor]
  split
  · rename_i hin
    apply total_tryGet_bind (hi hin)
    intro v
    cases v with
    | none => trivial
    | some elem =>
      simp only
      split <;> trivial
  · trivial

theorem checkAround_total {lo : BitVec 64} (maxDistance : Option (BitVec kw)) (hlo : lo < avail) :
    (checkAround key target avail maxDistance lo).Total (Request.Within avail)
      (fun _ => True) := by
  apply total_tryGet_bind hlo
  intro v
  cases v with
  | none => exact findClosestLinear_total none
  | some best =>
    apply (checkNeighbor_total _).bind
    · intro best₁ _
      apply (checkNeighbor_total _).bind
      · intro best₂ _
        cases maxDistance with
        | none => trivial
        | some d =>
          simp only
          split <;> trivial
      · exact of_decide_eq_true
    · intro hpos
      have hpos := of_decide_eq_true hpos
      bv_omega

variable (key target) in
def closestAmong (fuel : ℕ) (maxDistance : Option (BitVec kw)) (avail : BitVec 64) :
    QueryProgram T (Option T) :=
  if avail = 0 then return none
  else do
    match ← closestSearch key target fuel 0 (avail - 1) with
    | .overwritten => findClosestLinear key target avail maxDistance
    | .exact elem => return some elem
    | .stopped lo => checkAround key target avail maxDistance lo

theorem findClosest_eq (fuel : ℕ) (maxDistance : Option (BitVec kw)) :
    findClosest key target fuel maxDistance =
      available >>= closestAmong key target fuel maxDistance := rfl

theorem closestSearch_total_start {fuel : ℕ} (hfuel : 64 < fuel) (hpos : 0 < avail) :
    (closestSearch key target fuel 0 (avail - 1)).Total (Request.Within avail)
      (SearchEnd.Within avail) := by
  obtain ⟨fuel, rfl⟩ := Nat.exists_eq_add_of_lt hfuel
  have hlast : (avail - 1).toNat = avail.toNat - 1 := by bv_omega
  apply closestSearch_total hpos
  · bv_omega
  · have hpow : 2 ^ 64 ≤ 2 ^ (64 + fuel + 1) := Nat.pow_le_pow_right (by omega) (by omega)
    omega

theorem closestAmong_total {fuel : ℕ} (maxDistance : Option (BitVec kw)) (hfuel : 64 < fuel) :
    (closestAmong key target fuel maxDistance avail).Total (Request.Within avail)
      (fun _ => True) := by
  rw [closestAmong]
  split
  · trivial
  rename_i hne
  have hpos : 0 < avail := by bv_omega
  apply (closestSearch_total_start hfuel hpos).bind
  intro r hr
  cases r with
  | overwritten => exact findClosestLinear_total maxDistance
  | exact elem => trivial
  | stopped lo => exact checkAround_total maxDistance hr

/-- `fuel + 1` turns are enough when `hi` is at most `2 ^ fuel` above `lo`. -/
theorem bracketSearch_total {fuel : ℕ} {lo hi : BitVec 64} (hlo : lo < avail) (hhi : hi < avail)
    (hfuel : hi.toNat - lo.toNat ≤ 2 ^ fuel) :
    (bracketSearch key target (fuel + 1) lo hi).Total (Request.Within avail)
      (fun r => ∀ ends ∈ r, ends.1 < avail ∧ ends.2 < avail) := by
  have hnext : (lo + 1).toNat = lo.toNat + 1 := by bv_omega
  induction fuel generalizing lo hi with
  | zero =>
    have hempty : ¬ lo + 1 < hi := by
      rw [BitVec.lt_def]
      omega
    rw [bracketSearch, if_neg hempty]
    intro ends hends
    obtain rfl := Option.mem_some_iff.mp hends
    exact ⟨hlo, hhi⟩
  | succ fuel ih =>
    rw [bracketSearch]
    by_cases hgap : lo + 1 < hi
    · rw [if_pos hgap]
      have hlt : lo < hi := by bv_omega
      have hmid := toNat_middle hlt
      have hhalf := Nat.pow_succ 2 fuel
      rw [BitVec.lt_def] at hgap hhi
      generalize middle lo hi = mid at hmid
      have hmid_lt : mid < avail := by
        rw [BitVec.lt_def]
        omega
      apply total_tryGet_bind hmid_lt
      intro v
      cases v with
      | none =>
        intro ends hends
        cases hends
      | some elem =>
        simp only
        split
        · apply ih hmid_lt (BitVec.lt_def.mpr hhi)
          · omega
          · bv_omega
        · apply ih hlo hmid_lt
          · omega
          · exact hnext
    · rw [if_neg hgap]
      intro ends hends
      obtain rfl := Option.mem_some_iff.mp hends
      exact ⟨hlo, hhi⟩

theorem bracketScan_total {n : ℕ} {i : BitVec 64} {b : Bracket T kw}
    (h : i.toNat + n ≤ avail.toNat) :
    (bracketScan key target n i b).Total (Request.Within avail) (fun _ => True) := by
  induction n generalizing i b with
  | zero => trivial
  | succ n ih =>
    have hnext : (i + 1).toNat + n ≤ avail.toNat := by bv_omega
    rw [bracketScan]
    apply total_tryGet_bind
    · rw [BitVec.lt_def]
      omega
    intro v
    cases v <;> exact ih hnext

theorem findInterpolationPairLinear_total :
    (findInterpolationPairLinear key target avail).Total (Request.Within avail)
      (fun _ => True) := by
  apply (bracketScan_total (by simp)).bind
  intro b _
  split <;> trivial

theorem readBracket_total {lo hi : BitVec 64} (hlo : lo < avail) (hhi : hi < avail) :
    (readBracket key target lo hi).Total (Request.Within avail) (fun _ => True) := by
  apply total_tryGet_bind hlo
  intro afterElem
  apply total_tryGet_bind hhi
  intro beforeElem
  split <;> trivial

theorem searchPair_total {fuel : ℕ} {newest oldest : T} (htwo : 2 ≤ avail) (hfuel : 64 < fuel) :
    (searchPair key target fuel avail newest oldest).Total (Request.Within avail)
      (fun _ => True) := by
  obtain ⟨fuel, rfl⟩ := Nat.exists_eq_add_of_lt hfuel
  have hlast : (avail - 1).toNat = avail.toNat - 1 := by bv_omega
  rw [searchPair]
  split
  · trivial
  split
  · trivial
  split
  · trivial
  apply (bracketSearch_total _ _ _).bind
  · intro r hr
    cases r with
    | none => exact findInterpolationPairLinear_total
    | some ends =>
      obtain ⟨hlo, hhi⟩ := hr ends rfl
      exact readBracket_total hlo hhi
  · bv_omega
  · bv_omega
  · have hpow : 2 ^ 64 ≤ 2 ^ (64 + fuel) := Nat.pow_le_pow_right (by omega) (by omega)
    omega

theorem pairAmong_total {fuel : ℕ} (hfuel : 64 < fuel) :
    (pairAmong key target fuel avail).Total (Request.Within avail) (fun _ => True) := by
  rw [pairAmong]
  split
  · trivial
  rename_i htwo
  apply total_tryGet_bind
  · bv_omega
  intro newest
  apply total_tryGet_bind
  · bv_omega
  intro oldest
  split
  · apply searchPair_total _ hfuel
    bv_omega
  · trivial

end Totality

section NoWrap
variable {T A B : Type} {kw : ℕ} {key : T → BitVec kw} {target : BitVec kw} {avail : BitVec 64}

theorem checkedSub_of_le {a b : BitVec 64} (h : b ≤ a) :
    (checkedSub a b : CheckedQuery T (BitVec 64)) = pure (a - b) := if_pos h

theorem checkedAdd_of_lt {a b : BitVec 64} (h : a.toNat + b.toNat < 2 ^ 64) :
    (checkedAdd a b : CheckedQuery T (BitVec 64)) = pure (a + b) := if_pos h

theorem checkedMiddle_of_lt {lo hi : BitVec 64} (h : lo < hi) :
    (checkedMiddle lo hi : CheckedQuery T (BitVec 64)) = pure (middle lo hi) := by
  have hsub : (hi - lo).toNat = hi.toNat - lo.toNat :=
    BitVec.toNat_sub_of_le (BitVec.le_of_lt h)
  have htwo : (2 : BitVec 64).toNat = 2 := rfl
  rw [checkedMiddle, checkedSub_of_le (BitVec.le_of_lt h), pure_bind]
  apply checkedAdd_of_lt
  rw [BitVec.toNat_udiv, hsub, htwo]
  omega

private theorem lift_bind_eq {p : QueryProgram T A} {f : A → CheckedQuery T B}
    {g : A → QueryProgram T B} (h : ∀ a, f a = OptionT.lift (g a)) :
    (OptionT.lift p >>= f) = OptionT.lift (p >>= g) := by
  rw [OptionT.lift_bind]
  exact congrArg _ (funext h)

private theorem lift_bind_eq_of_total {p : QueryProgram T A} {f : A → CheckedQuery T B}
    {g : A → QueryProgram T B} {S : Request → Prop} {Q : A → Prop} (hp : p.Total S Q)
    (h : ∀ a, Q a → f a = OptionT.lift (g a)) :
    (OptionT.lift p >>= f) = OptionT.lift (p >>= g) := by
  apply OptionT.ext
  rw [OptionT.run_bind_lift, OptionT.run_lift, bind_assoc]
  apply hp.bind_congr
  intro a ha
  rw [h a ha, OptionT.run_lift]

theorem closestSearchChecked_eq (fuel : ℕ) (lo hi : BitVec 64) :
    closestSearchChecked key target fuel lo hi =
      OptionT.lift (closestSearch key target fuel lo hi) := by
  induction fuel generalizing lo hi with
  | zero => rfl
  | succ fuel ih =>
    rw [closestSearchChecked, closestSearch]
    by_cases hlt : lo < hi
    · rw [if_pos hlt, if_pos hlt, checkedMiddle_of_lt hlt, pure_bind]
      have hmid := toNat_middle hlt
      rw [BitVec.lt_def] at hlt
      generalize middle lo hi = mid at hmid
      apply lift_bind_eq
      intro v
      cases v with
      | none => rfl
      | some elem =>
        have holder : mid.toNat + (1 : BitVec 64).toNat < 2 ^ 64 := by bv_omega
        simp only
        split
        · rw [checkedAdd_of_lt holder, pure_bind]
          exact ih (mid + 1) hi
        split
        · split
          · rfl
          · have hpos : 1 ≤ mid := by bv_omega
            rw [checkedSub_of_le hpos, pure_bind]
            exact ih lo (mid - 1)
        · rfl
    · rw [if_neg hlt, if_neg hlt]
      rfl

theorem checkNeighborChecked_eq {inRange : Bool} {index : CheckedQuery T (BitVec 64)}
    {i : BitVec 64} (best : T) (bestDiff : BitVec kw) (h : inRange = true → index = pure i) :
    checkNeighborChecked key target inRange index best bestDiff =
      OptionT.lift (checkNeighbor key target inRange i best bestDiff) := by
  rw [checkNeighborChecked]
  cases inRange with
  | true =>
    rw [if_pos rfl, h rfl, pure_bind]
  | false => rfl

theorem checkAroundChecked_eq {lo : BitVec 64} (maxDistance : Option (BitVec kw))
    (hlo : lo < avail) : checkAroundChecked key target avail maxDistance lo =
      OptionT.lift (checkAround key target avail maxDistance lo) := by
  apply lift_bind_eq
  intro v
  cases v with
  | none => rfl
  | some best =>
    have hnext : lo.toNat + (1 : BitVec 64).toNat < 2 ^ 64 := by bv_omega
    simp only
    rw [checkNeighborChecked_eq best _ (fun hpos => checkedSub_of_le ?_)]
    · apply lift_bind_eq
      intro best₁
      rw [checkedAdd_of_lt hnext, pure_bind, checkNeighborChecked_eq _ _ (fun _ => rfl)]
      apply lift_bind_eq
      intro best₂
      cases maxDistance with
      | none => rfl
      | some d =>
        simp only
        split <;> rfl
    · have hpos := of_decide_eq_true hpos
      bv_omega

theorem findClosestChecked_eq {fuel : ℕ} (maxDistance : Option (BitVec kw)) (hfuel : 64 < fuel) :
    findClosestChecked key target fuel maxDistance =
      OptionT.lift (findClosest key target fuel maxDistance) := by
  apply lift_bind_eq
  intro avail
  by_cases hzero : avail = 0
  · rw [if_pos hzero, if_pos hzero]
    rfl
  · rw [if_neg hzero, if_neg hzero]
    have hpos : 0 < avail := by bv_omega
    have hone : 1 ≤ avail := by bv_omega
    rw [checkedSub_of_le hone, pure_bind, closestSearchChecked_eq]
    apply lift_bind_eq_of_total (closestSearch_total_start hfuel hpos)
    intro r hr
    cases r with
    | overwritten => rfl
    | exact elem => rfl
    | stopped lo => exact checkAroundChecked_eq maxDistance hr

theorem bracketSearchChecked_eq (fuel : ℕ) {lo hi : BitVec 64} (hlo : lo < avail)
    (hhi : hi < avail) : bracketSearchChecked key target fuel lo hi =
      OptionT.lift (bracketSearch key target fuel lo hi) := by
  induction fuel generalizing lo hi with
  | zero => rfl
  | succ fuel ih =>
    have hnext : lo.toNat + (1 : BitVec 64).toNat < 2 ^ 64 := by bv_omega
    rw [bracketSearchChecked, bracketSearch, checkedAdd_of_lt hnext, pure_bind]
    by_cases hgap : lo + 1 < hi
    · rw [if_pos hgap, if_pos hgap]
      have hlt : lo < hi := by bv_omega
      have hmid := toNat_middle hlt
      rw [checkedMiddle_of_lt hlt, pure_bind]
      have hmid_lt : middle lo hi < avail := by
        rw [BitVec.lt_def] at hlt hhi ⊢
        omega
      apply lift_bind_eq
      intro v
      cases v with
      | none => rfl
      | some elem =>
        simp only
        split
        · exact ih hmid_lt hhi
        · exact ih hlo hmid_lt
    · rw [if_neg hgap, if_neg hgap]
      rfl

theorem searchPairChecked_eq {newest oldest : T} (fuel : ℕ) (htwo : 2 ≤ avail) :
    searchPairChecked key target fuel avail newest oldest =
      OptionT.lift (searchPair key target fuel avail newest oldest) := by
  rw [searchPairChecked, searchPair]
  split
  · rfl
  split
  · rfl
  split
  · rfl
  have hone : 1 ≤ avail := by bv_omega
  have hpos : 0 < avail := by bv_omega
  have hlast : avail - 1 < avail := by bv_omega
  rw [checkedSub_of_le hone, pure_bind, bracketSearchChecked_eq fuel hpos hlast]
  apply lift_bind_eq
  intro r
  cases r <;> rfl

theorem findInterpolationPairChecked_eq (fuel : ℕ) :
    findInterpolationPairChecked key target fuel =
      OptionT.lift (findInterpolationPair key target fuel) := by
  apply lift_bind_eq
  intro avail
  rw [pairAmong]
  by_cases hfew : avail < 2
  · rw [if_pos hfew, if_pos hfew]
    rfl
  · rw [if_neg hfew, if_neg hfew]
    have htwo : 2 ≤ avail := by bv_omega
    have hone : 1 ≤ avail := by bv_omega
    apply lift_bind_eq
    intro newest
    rw [checkedSub_of_le hone, pure_bind]
    apply lift_bind_eq
    intro oldest
    cases newest with
    | none => rfl
    | some newest =>
      cases oldest with
      | none => rfl
      | some oldest => exact searchPairChecked_eq fuel htwo

end NoWrap

section Bounds
variable {T A : Type} {p : QueryProgram T A} {k : BitVec 64 → QueryProgram T A}

/-- Whatever its calls are answered, the query returns, and it has called `try_get` only with
indices below the answer to its first call, which is `available()`. -/
def ReturnsInRange (p : QueryProgram T A) : Prop :=
  ∀ g : ℕ → (q : Request) → q.Answer T, ∃ tr r, Answers p tr r ∧ Serves g 0 tr ∧
    ∀ i v, ⟨.tryGet i, v⟩ ∈ tr → i < g 0 .available

private theorem lt_of_mem_calls {avail : BitVec 64} {tr : List ((q : Request) × q.Answer T)}
    {r : A} (hk : ∀ avail, (k avail).Total (Request.Within avail) (fun _ => True))
    (h : Answers (k avail) tr r) {i : BitVec 64} {v : Option T} (hmem : ⟨.tryGet i, v⟩ ∈ tr) :
    i < avail := h.loc_mem (hk avail).loadsIn _ hmem

theorem returnsInRange_of_total
    (hk : ∀ avail, (k avail).Total (Request.Within avail) (fun _ => True)) :
    ReturnsInRange (available >>= k) := by
  intro g
  obtain ⟨tr, r, htr, hserves⟩ := (hk (g 0 .available)).spinFree.answers g 1
  refine ⟨⟨.available, g 0 .available⟩ :: tr, r, .load _ htr, ⟨rfl, hserves⟩, ?_⟩
  intro i v hmem
  rcases List.mem_cons.mp hmem with heq | hmem
  · cases heq
  · exact lt_of_mem_calls hk htr hmem

variable {F : FlatType} (cap : Capacity) (slotFuel : ℕ)

/-- A call with the loads in `log`: `try_get` loads `total_writes` first, and its index passes
the range check on the value it finds. -/
def Accepted (σ : ℕ → Segment F) (log : List (Event (Place F))) : Request → Prop
  | .available => True
  | .tryGet i => ∃ t rest, log = ⟨t, .header ()⟩ :: rest ∧ i < umin ((σ t).header ()) cap.N

/-- An execution of the query during which `total_writes` does not decrease consists of its
calls, one after the other, and none of them is rejected by the range check of `try_get`. -/
def PassesRangeChecks (p : QueryProgram F.T A) : Prop :=
  ∀ (σ : ℕ → Segment F) a b log x, Exec memory.read σ a (onBuffer F cap slotFuel p) log b x →
    MonotoneOn (fun t => ((σ t).header ()).toNat) (Set.Ico a b) →
    ∃ tr logs, Answers p tr x ∧ log = logs.flatten ∧
      List.Forall₂ (fun (call : (q : Request) × q.Answer F.T) log' =>
        (∃ s b', Exec memory.read σ s (call.1.prog F cap slotFuel) log' b' call.2) ∧
          Accepted cap σ log' call.1) tr logs

theorem umin_le_umin {w w' : BitVec 64} (h : w.toNat ≤ w'.toNat) (n : BitVec 64) :
    umin w n ≤ umin w' n := by
  rw [BitVec.le_def, CyclicBuffer.toNat_umin, CyclicBuffer.toNat_umin]
  exact min_le_min_right _ h

theorem passesRangeChecks_of_total {k : BitVec 64 → QueryProgram F.T A}
    (hk : ∀ avail, (k avail).Total (Request.Within avail) (fun _ => True)) :
    PassesRangeChecks cap slotFuel (available >>= k) := by
  intro σ a b log x h hmono
  obtain ⟨tr, logs, htr, rfl, hcalls⟩ := h.calls_of_interp
  refine ⟨tr, logs, htr, rfl, ?_⟩
  obtain ⟨n, tail, rfl, htail⟩ := answers_available.mp htr
  obtain ⟨log₀, logs, ⟨s₀, b₀, -, -, hfirst⟩, hrest, rfl⟩ := List.forall₂_cons_left_iff.mp hcalls
  obtain ⟨t₀, rfl, hn⟩ := CyclicBuffer.exec_available hfirst
  dsimp only at hn
  refine .cons ⟨⟨s₀, b₀, hfirst⟩, trivial⟩ ?_
  -- each later call loads `total_writes` after `available()` did
  rw [List.forall₂_iff_zip] at hrest ⊢
  refine ⟨hrest.1, ?_⟩
  intro call log' hmem
  obtain ⟨s, b', -, -, hcall⟩ := hrest.2 hmem
  refine ⟨⟨s, b', hcall⟩, ?_⟩
  obtain ⟨hcall_mem, hlog_mem⟩ := List.of_mem_zip hmem
  obtain ⟨q, v⟩ := call
  cases q with
  | available => trivial
  | tryGet i =>
    obtain ⟨t, rest, rfl, -⟩ := CyclicBuffer.exec_tryGet_loads hcall
    refine ⟨t, rest, rfl, ?_⟩
    have ht : ⟨t, .header ()⟩ ∈ logs.flatten :=
      List.mem_flatten.mpr ⟨_, hlog_mem, List.mem_cons_self⟩
    have hlater : t₀ < t := List.rel_of_pairwise_cons h.pairwise_time ht
    have hgrows := umin_le_umin (hmono (h.mem_log _ List.mem_cons_self)
      (h.mem_log _ (List.mem_cons_of_mem _ ht)) hlater.le) cap.N
    have hlt := lt_of_mem_calls hk htail hcall_mem
    rw [hn, BitVec.lt_def] at hlt
    rw [BitVec.le_def] at hgrows
    exact BitVec.lt_def.mpr (hlt.trans_le hgrows)

/-- What the indices of a query keep to: it returns, its index arithmetic does not wrap, and
its calls of `try_get` are in range, both for the `avail` that it read and for the reader. -/
structure Bounded (p : QueryProgram F.T A) (checked : CheckedQuery F.T A) : Prop where
  returns : ReturnsInRange p
  never_wraps : checked = OptionT.lift p
  in_range : PassesRangeChecks cap slotFuel p

theorem totalWrites_monotoneOn {ι : Type} [DecidableEq ι] {A : ι → Type} (vals : ℕ → F.T)
    (sched : ℕ → Party ι) (readers : (i : ι) → ReadProgram F (A i)) {b : ℕ}
    (hb : published (writers cap vals sched readers b) < 2 ^ 64) :
    MonotoneOn (fun t => ((segments cap vals sched readers t).header ()).toNat) (Set.Iic b) := by
  intro t ht t' ht' htt'
  have hle := CyclicBuffer.published_mono cap vals sched readers htt'
  have hle' := CyclicBuffer.published_mono cap vals sched readers ht'
  simp only [CyclicBuffer.toNat_header] at hle hle' ⊢
  omega

variable {kw : ℕ} (key : F.T → BitVec kw) (target : BitVec kw) (maxDistance : Option (BitVec kw))

/-- Whatever they read, both temporal searches return, with index arithmetic that does not wrap
and with indices in range; `total_writes` does not decrease under the writer. -/
theorem searches_bounded {fuel : ℕ} (hfuel : 64 < fuel) :
    Bounded cap slotFuel (findClosest key target fuel maxDistance)
      (findClosestChecked key target fuel maxDistance) ∧
    Bounded cap slotFuel (findInterpolationPair key target fuel)
      (findInterpolationPairChecked key target fuel) ∧
    ∀ (ι : Type) [DecidableEq ι] (A : ι → Type) (vals : ℕ → F.T) (sched : ℕ → Party ι)
      (readers : (i : ι) → ReadProgram F (A i)) (b : ℕ),
      published (writers cap vals sched readers b) < 2 ^ 64 →
      MonotoneOn (fun t => ((segments cap vals sched readers t).header ()).toNat)
        (Set.Iic b) := by
  have hclosest : ∀ avail, (closestAmong key target fuel maxDistance avail).Total
      (Request.Within avail) (fun _ => True) := fun _ => closestAmong_total maxDistance hfuel
  have hpair : ∀ avail, (pairAmong key target fuel avail).Total (Request.Within avail)
      (fun _ => True) := fun _ => pairAmong_total hfuel
  refine ⟨⟨?_, ?_, ?_⟩, ⟨?_, ?_, ?_⟩, ?_⟩
  · rw [findClosest_eq]
    exact returnsInRange_of_total hclosest
  · exact findClosestChecked_eq maxDistance hfuel
  · rw [findClosest_eq]
    exact passesRangeChecks_of_total cap slotFuel hclosest
  · exact returnsInRange_of_total hpair
  · exact findInterpolationPairChecked_eq fuel
  · exact passesRangeChecks_of_total cap slotFuel hpair
  · intro ι _ A vals sched readers b hb
    exact totalWrites_monotoneOn cap vals sched readers hb

end Bounds

theorem searches_bounded_oneWord :
    Bounded capacityTwo 9 (findClosest wordKey 15 65 none) (findClosestChecked wordKey 15 65 none) ∧
    Bounded capacityTwo 9 (findInterpolationPair wordKey 15 65)
      (findInterpolationPairChecked wordKey 15 65) := by
  have hfuel : 64 < 65 := by omega
  obtain ⟨hclosest, hpair, -⟩ := searches_bounded capacityTwo 9 wordKey 15 none hfuel
  exact ⟨hclosest, hpair⟩

end SafeShm.TimeSeries
