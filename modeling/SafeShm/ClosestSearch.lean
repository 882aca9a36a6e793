import SafeShm.CyclicBufferRefinement
import SafeShm.TimeSeries

/-!
# Closest-element search

On a buffer that stays as it is, `find_closest` is nearest-neighbour search: the loop
leaves only newer elements with greater keys on one side of `lo` and only older elements
with smaller keys on the other, so one neighbour on each side is enough.

Under a live writer nothing is known about what the successive `try_get` calls return.
Whatever they return, the element found is within `max_distance`, except on one path: when
the element at `lo` cannot be read again, the linear search is called without the bound.
-/

namespace SafeShm.TimeSeries
open AtomicPrograms SingleWriterRuns SequenceLocks

variable {T : Type} {kw : ℕ} {key : T → BitVec kw} {target : BitVec kw}

section Fixed
variable {avail : BitVec 64} {elem : ℕ → T}

/-- What the loop of `find_closest` keeps: elements newer than `lo` are above the target,
elements older than `hi` are below it. -/
structure Enclosed (key : T → BitVec kw) (target : BitVec kw) (avail : BitVec 64) (elem : ℕ → T)
    (lo hi : BitVec 64) : Prop where
  lo_lt : lo.toNat < avail.toNat
  hi_lt : hi.toNat < avail.toNat
  lo_le : lo.toNat ≤ hi.toNat + 1
  newer : ∀ i < lo.toNat, target < key (elem i)
  older : ∀ i, hi.toNat < i → i < avail.toNat → key (elem i) < target

theorem enclosed_init (h : avail ≠ 0) : Enclosed key target avail elem 0 (avail - 1) := by
  have hpos : avail.toNat ≠ 0 := fun h0 => h (BitVec.eq_of_toNat_eq h0)
  have hlast : (avail - 1).toNat = avail.toNat - 1 := by bv_omega
  refine ⟨?_, by omega, ?_, ?_, ?_⟩
  · simpa using Nat.pos_of_ne_zero hpos
  · simp
  · intro i hi
    simp at hi
  · intro i hlt hi
    omega

section Step
variable {lo hi mid : BitVec 64} (hdesc : Descending key avail elem)
variable (h : Enclosed key target avail elem lo hi) (hlo : lo.toNat ≤ mid.toNat)
variable (hhi : mid.toNat < hi.toNat)
include hdesc h hlo hhi

theorem Enclosed.go_older (hkey : target < key (elem mid.toNat)) :
    Enclosed key target avail elem (mid + 1) hi := by
  have hhi_lt := h.hi_lt
  have hnext : (mid + 1).toNat = mid.toNat + 1 := by bv_omega
  refine ⟨by omega, hhi_lt, by omega, ?_, h.older⟩
  intro i hi
  have hle := hdesc i mid.toNat (by omega) (by omega)
  simp only [BitVec.lt_def, BitVec.le_def] at hkey hle ⊢
  omega

theorem Enclosed.go_newer (hkey : key (elem mid.toNat) < target) (hmid : mid ≠ 0) :
    Enclosed key target avail elem lo (mid - 1) := by
  have hhi_lt := h.hi_lt
  have hpos : mid.toNat ≠ 0 := fun h0 => hmid (BitVec.eq_of_toNat_eq h0)
  have hprev : (mid - 1).toNat = mid.toNat - 1 := by bv_omega
  refine ⟨h.lo_lt, by omega, by omega, h.newer, ?_⟩
  intro i hi hlt
  exact hdesc.key_lt hkey (by omega) hlt

omit hhi in
theorem Enclosed.stop_at_newest (hkey : key (elem mid.toNat) < target) (hmid : mid = 0) :
    Enclosed key target avail elem lo lo := by
  have hzero : mid.toNat = 0 := by rw [hmid]; rfl
  refine ⟨h.lo_lt, h.lo_lt, by omega, h.newer, ?_⟩
  intro i hi hlt
  exact hdesc.key_lt hkey (by omega) hlt

end Step

theorem Enclosed.stop {lo hi : BitVec 64} (h : Enclosed key target avail elem lo hi)
    (hlt : ¬ lo < hi) : Enclosed key target avail elem lo lo := by
  rw [BitVec.lt_def] at hlt
  refine ⟨h.lo_lt, h.lo_lt, by omega, h.newer, ?_⟩
  intro i hi hi'
  exact h.older i (by omega) hi'

/-- The way the loop ends: at an element with the target key, or at an index with the
greater keys on one side and the smaller ones on the other. -/
def SearchEnd.Sound (key : T → BitVec kw) (target : BitVec kw) (avail : BitVec 64)
    (elem : ℕ → T) : SearchEnd T → Prop
  | .overwritten => False
  | .exact e => ∃ i < avail.toNat, e = elem i ∧ key e = target
  | .stopped lo => Enclosed key target avail elem lo lo

theorem run_closestSearch (hdesc : Descending key avail elem) {fuel : ℕ} {lo hi : BitVec 64}
    (h : Enclosed key target avail elem lo hi) (hfuel : hi.toNat - lo.toNat < fuel) :
    ∃ r, (closestSearch key target fuel lo hi).run (fixedAnswers avail elem) = some r ∧
      r.Sound key target avail elem := by
  induction fuel generalizing lo hi with
  | zero => omega
  | succ fuel ih =>
    rw [closestSearch]
    by_cases hlt : lo < hi
    · rw [if_pos hlt]
      have hmid := toNat_middle hlt
      rw [BitVec.lt_def] at hlt
      have hlo : lo.toNat ≤ (middle lo hi).toNat := by omega
      have hhi : (middle lo hi).toNat < hi.toNat := by omega
      have hin : (middle lo hi).toNat < avail.toNat := hhi.trans h.hi_lt
      generalize middle lo hi = mid at hmid hlo hhi hin
      simp only [tryGet, Prog.load_bind, Prog.ret_bind, Prog.run_load, fixedAnswers, if_pos hin]
      by_cases habove : target < key (elem mid.toNat)
      · rw [if_pos habove]
        apply ih (h.go_older hdesc hlo hhi habove)
        have hnext : (mid + 1).toNat = mid.toNat + 1 := by bv_omega
        omega
      rw [if_neg habove]
      by_cases hbelow : key (elem mid.toNat) < target
      · rw [if_pos hbelow]
        by_cases hzero : mid = 0
        · rw [if_pos hzero]
          exact ⟨.stopped lo, rfl, h.stop_at_newest hdesc hlo hbelow hzero⟩
        · rw [if_neg hzero]
          apply ih (h.go_newer hdesc hlo hhi hbelow hzero)
          have hprev : (mid - 1).toNat = mid.toNat - 1 := by bv_omega
          omega
      · rw [if_neg hbelow]
        refine ⟨.exact (elem mid.toNat), rfl, mid.toNat, hin, rfl, ?_⟩
        apply BitVec.eq_of_toNat_eq
        rw [BitVec.lt_def] at habove hbelow
        omega
    · rw [if_neg hlt]
      exact ⟨.stopped lo, rfl, h.stop hlt⟩

variable (key target) in
/-- The distance of an element from the target, `|key - target|`. -/
def distance (e : T) : ℕ := ((key e).toNat - target.toNat : ℤ).natAbs

theorem toNat_keyDiff_eq (e : T) : (keyDiff (key e) target).toNat = distance key target e :=
  toNat_keyDiff _ _

variable (key target avail elem) in
theorem run_checkNeighbor (inRange : Bool) (i : BitVec 64)
    (hi : inRange = true → i.toNat < avail.toNat) (best : T) :
    ∃ e, (checkNeighbor key target inRange i best (keyDiff (key best) target)).run
        (fixedAnswers avail elem) = some (e, keyDiff (key e) target) ∧
      (e = best ∨ ∃ j < avail.toNat, e = elem j) ∧
      distance key target e ≤ distance key target best ∧
      (inRange = true → distance key target e ≤ distance key target (elem i.toNat)) := by
  cases inRange with
  | false => exact ⟨best, rfl, .inl rfl, le_rfl, by simp⟩
  | true =>
    have hin := hi rfl
    simp only [checkNeighbor, if_true, tryGet, Prog.load_bind, Prog.ret_bind, Prog.run_load,
      fixedAnswers, if_pos hin]
    by_cases hd : keyDiff (key (elem i.toNat)) target < keyDiff (key best) target
    · rw [if_pos hd]
      rw [BitVec.lt_def, toNat_keyDiff_eq, toNat_keyDiff_eq] at hd
      exact ⟨elem i.toNat, rfl, .inr ⟨_, hin, rfl⟩, hd.le, fun _ => le_rfl⟩
    · rw [if_neg hd]
      rw [BitVec.lt_def, toNat_keyDiff_eq, toNat_keyDiff_eq] at hd
      exact ⟨best, rfl, .inl rfl, le_rfl, fun _ => Nat.le_of_not_lt hd⟩

theorem Enclosed.distance_le (hdesc : Descending key avail elem) {lo : BitVec 64} {e : T}
    (h : Enclosed key target avail elem lo lo)
    (hlo : distance key target e ≤ distance key target (elem lo.toNat))
    (hprev : 0 < lo.toNat → distance key target e ≤ distance key target (elem (lo.toNat - 1)))
    (hnext : lo.toNat + 1 < avail.toNat →
      distance key target e ≤ distance key target (elem (lo.toNat + 1)))
    {i : ℕ} (hi : i < avail.toNat) : distance key target e ≤ distance key target (elem i) := by
  have hlt := h.lo_lt
  rcases Nat.lt_trichotomy i lo.toNat with hil | rfl | hil
  · have hbest := hprev (by omega)
    have habove := h.newer (lo.toNat - 1) (by omega)
    have hle := hdesc i (lo.toNat - 1) (by omega) (by omega)
    simp only [distance, BitVec.lt_def, BitVec.le_def] at *
    omega
  · exact hlo
  · have hbest := hnext (by omega)
    have hbelow := h.older (lo.toNat + 1) (by omega) (by omega)
    have hle := hdesc (lo.toNat + 1) i (by omega) hi
    simp only [distance, BitVec.lt_def, BitVec.le_def] at *
    omega

def withinDistance (key : T → BitVec kw) (target : BitVec kw) (maxDistance : Option (BitVec kw))
    (e : T) : Option T :=
  match maxDistance with
  | some d => if d < keyDiff (key e) target then none else some e
  | none => some e

theorem run_checkAround (hdesc : Descending key avail elem) (maxDistance : Option (BitVec kw))
    {lo : BitVec 64} (h : Enclosed key target avail elem lo lo) :
    ∃ j < avail.toNat,
      (∀ i < avail.toNat, distance key target (elem j) ≤ distance key target (elem i)) ∧
      (checkAround key target avail maxDistance lo).run (fixedAnswers avail elem) =
        some (withinDistance key target maxDistance (elem j)) := by
  have hlt := h.lo_lt
  have hpos : 0 < lo ↔ 0 < lo.toNat := BitVec.lt_def
  have hprev : 0 < lo.toNat → (lo - 1).toNat = lo.toNat - 1 := by bv_omega
  have hnext : (lo + 1).toNat = lo.toNat + 1 := by bv_omega
  have hrange : lo + 1 < avail ↔ lo.toNat + 1 < avail.toNat := by rw [BitVec.lt_def, hnext]
  obtain ⟨e₁, hrun₁, hmem₁, hle₁, hside₁⟩ := run_checkNeighbor key target avail elem
    (0 < lo) (lo - 1) (by simp only [decide_eq_true_eq, hpos]; omega) (elem lo.toNat)
  obtain ⟨e₂, hrun₂, hmem₂, hle₂, hside₂⟩ := run_checkNeighbor key target avail elem
    (lo + 1 < avail) (lo + 1) (by simp only [decide_eq_true_eq, hrange]; omega) e₁
  have hin : ∃ j < avail.toNat, e₂ = elem j := by
    rcases hmem₂ with rfl | hmem₂
    · rcases hmem₁ with rfl | hmem₁
      · exact ⟨lo.toNat, hlt, rfl⟩
      · exact hmem₁
    · exact hmem₂
  obtain ⟨j, hj, rfl⟩ := hin
  refine ⟨j, hj, ?_, ?_⟩
  · intro i hi
    apply h.distance_le hdesc (hle₂.trans hle₁) _ _ hi
    · intro hlo
      rw [← hprev hlo]
      exact hle₂.trans (hside₁ (decide_eq_true (hpos.mpr hlo)))
    · intro hlo
      rw [← hnext]
      exact hside₂ (decide_eq_true (hrange.mpr hlo))
  · simp only [checkAround, tryGet, Prog.load_bind, Prog.ret_bind, Prog.run_load, fixedAnswers,
      if_pos hlt, Prog.run_bind, hrun₁, hrun₂, Option.bind_some]
    cases maxDistance with
    | none => rfl
    | some d =>
      simp only [withinDistance]
      split <;> rfl

/-- On a buffer that stays as it is, `find_closest` finds a nearest element. -/
theorem run_findClosest (target : BitVec kw) (hdesc : Descending key avail elem) (havail : avail ≠ 0)
    (maxDistance : Option (BitVec kw)) {fuel : ℕ} (hfuel : avail.toNat ≤ fuel) :
    ∃ j < avail.toNat,
      (∀ i < avail.toNat, distance key target (elem j) ≤ distance key target (elem i)) ∧
      (findClosest key target fuel maxDistance).run (fixedAnswers avail elem) =
        some (withinDistance key target maxDistance (elem j)) := by
  have hinit : Enclosed key target avail elem 0 (avail - 1) := enclosed_init havail
  have hlast := hinit.hi_lt
  obtain ⟨r, hrun, hsound⟩ := run_closestSearch hdesc hinit
    (show (avail - 1).toNat - (0 : BitVec 64).toNat < fuel by omega)
  have hstart : (findClosest key target fuel maxDistance).run (fixedAnswers avail elem) =
      Prog.run (fixedAnswers avail elem) (match r with
        | .overwritten => findClosestLinear key target avail maxDistance
        | .exact e => return some e
        | .stopped lo => checkAround key target avail maxDistance lo) := by
    have havail' : fixedAnswers avail elem .available = avail := rfl
    simp only [findClosest, available, Prog.load_bind, Prog.ret_bind, Prog.run_load, havail']
    rw [if_neg havail, Prog.run_bind, hrun]
    rfl
  rw [hstart]
  cases r with
  | overwritten => exact hsound.elim
  | exact e =>
    obtain ⟨j, hj, rfl, hkey⟩ := hsound
    have hdist : distance key target (elem j) = 0 := by simp [distance, hkey]
    refine ⟨j, hj, by omega, ?_⟩
    cases maxDistance with
    | none => rfl
    | some d =>
      rw [withinDistance, if_neg]
      · rfl
      · rw [BitVec.lt_def, toNat_keyDiff_eq]
        omega
  | stopped lo => exact run_checkAround hdesc maxDistance hsound

end Fixed

section Quiet
variable {F : FlatType} {cap : Capacity} {key : F.T → BitVec kw}

theorem withinDistance_eq_none_iff {maxDistance : Option (BitVec kw)} {e : F.T} :
    withinDistance key target maxDistance e = none ↔
      ∃ d, maxDistance = some d ∧ d.toNat < distance key target e := by
  cases maxDistance with
  | none => simp [withinDistance]
  | some d => simp [withinDistance, BitVec.lt_def, toNat_keyDiff_eq]

theorem eq_of_withinDistance_eq_some {maxDistance : Option (BitVec kw)} {e e' : F.T}
    (h : withinDistance key target maxDistance e = some e') : e = e' := by
  cases maxDistance with
  | none => exact Option.some.inj h
  | some d => exact Option.some.inj (Option.ite_none_left_eq_some.mp h).2

/-- The same between insertions, for the elements that `available()` counts. -/
theorem run_findClosest_quiet {values : List F.T} {vals : ℕ → F.T}
    (hvals : ∀ k v, values[k]? = some v → vals k = v)
    (hsorted : values.Pairwise (fun a b => key a ≤ key b))
    (target : BitVec kw) (maxDistance : Option (BitVec kw)) {fuel : ℕ} (hfuel : cap.size ≤ fuel)
    (slotFuel : ℕ) :
    ∃ r, (onBuffer F cap (slotFuel + 1) (findClosest key target fuel maxDistance)).run
        (memory.read (CyclicBuffer.quiet cap vals values.length)) = some r ∧
      (r = none ↔ window cap values = [] ∨
        ∃ d, maxDistance = some d ∧ ∀ e ∈ window cap values, d.toNat < distance key target e) ∧
      ∀ e, r = some e → e ∈ window cap values ∧
        ∀ e' ∈ window cap values, distance key target e ≤ distance key target e' := by
  have havail := CyclicBuffer.toNat_available cap values.length
  have hmem : ∀ e, e ∈ window cap values ↔ _ := fun _ => mem_window cap hvals
  have hdesc := descending_of_pairwise cap hvals hsorted
  rw [run_onBuffer]
  generalize CyclicBuffer.umin (BitVec.ofNat 64 values.length) cap.N = avail at havail hdesc
  simp only [← havail] at hmem
  by_cases hzero : avail = 0
  · have hnil : window cap values = [] := by
      rw [List.eq_nil_iff_forall_not_mem]
      intro e he
      obtain ⟨i, hi, -⟩ := (hmem e).mp he
      simp [hzero] at hi
    refine ⟨none, ?_, by simp [hnil], by simp⟩
    rw [hzero]
    rfl
  · obtain ⟨j, hj, hmin, hrun⟩ := run_findClosest target hdesc hzero maxDistance
      (show avail.toNat ≤ fuel by omega)
    have hj' : vals (values.length - 1 - j) ∈ window cap values := (hmem _).mpr ⟨j, hj, rfl⟩
    have hmin' : ∀ e ∈ window cap values,
        distance key target (vals (values.length - 1 - j)) ≤ distance key target e := by
      intro e he
      obtain ⟨i, hi, rfl⟩ := (hmem e).mp he
      exact hmin i hi
    refine ⟨_, hrun, ?_, ?_⟩
    · rw [withinDistance_eq_none_iff]
      constructor
      · intro h
        obtain ⟨d, hd, hlt⟩ := h
        exact .inr ⟨d, hd, fun e he => hlt.trans_le (hmin' e he)⟩
      · intro h
        rcases h with hnil | ⟨d, hd, hlt⟩
        · rw [hnil] at hj'
          exact absurd hj' List.not_mem_nil
        · exact ⟨d, hd, hlt _ hj'⟩
    · intro e he
      obtain rfl := eq_of_withinDistance_eq_some he
      exact ⟨hj', hmin'⟩

/-- `find_closest` is nearest-neighbour search: after fewer than `2 ^ 64` insertions with
non-decreasing keys, and with no insertion going on, it returns nothing exactly when nothing
was inserted or all of the last `N` elements are too far away, and otherwise one of the
nearest of them. -/
theorem findClosest_nearest (cap : Capacity) (key : F.T → BitVec kw) (sessions : List (List F.T))
    (hn : sessions.flatten.length < 2 ^ 64)
    (hsorted : sessions.flatten.Pairwise (fun a b => key a ≤ key b))
    (target : BitVec kw) (maxDistance : Option (BitVec kw)) {fuel : ℕ} (hfuel : cap.size ≤ fuel)
    (slotFuel : ℕ) :
    let last := sessions.flatten.drop (sessions.flatten.length - cap.size)
    ∃ r, (onBuffer F cap (slotFuel + 1) (findClosest key target fuel maxDistance)).run
        (memory.read (CyclicBuffer.insertAll cap sessions)) = some r ∧
      (r = none ↔ sessions.flatten = [] ∨
        ∃ d, maxDistance = some d ∧ ∀ e ∈ last, d.toNat < distance key target e) ∧
      ∀ e, r = some e → e ∈ last ∧
        ∀ e' ∈ last, distance key target e ≤ distance key target e' := by
  intro last
  obtain ⟨vals, hvals, hquiet⟩ := CyclicBuffer.represents_insertAll cap sessions
  have hlast : window cap sessions.flatten = last := by
    rw [window, Nat.mod_eq_of_lt hn]
    congr 1
    omega
  have hnil : last = [] ↔ sessions.flatten = [] := by
    have hsize := cap.size_pos
    rw [List.drop_eq_nil_iff, ← List.length_eq_zero_iff]
    omega
  have h := run_findClosest_quiet hvals hsorted target maxDistance hfuel slotFuel
  rw [hquiet]
  rwa [hlast, hnil] at h

/-- The key of a one-word payload is the word. -/
abbrev wordKey (e : oneWord.T) : BitVec 64 := e ⟨0, Nat.zero_lt_one⟩

theorem findClosest_nearest_threeWrites :
    (onBuffer oneWord capacityTwo 1 (findClosest wordKey 24 2 none)).run
        (memory.read (CyclicBuffer.insertAll capacityTwo [[tens 0, tens 1], [tens 2]])) =
      some (some (tens 1)) ∧
    ∀ e' ∈ [tens 1, tens 2], distance wordKey 24 (tens 1) ≤
      distance wordKey 24 e' := by
  obtain ⟨r, hrun, -, hmin⟩ := findClosest_nearest capacityTwo wordKey
    [[tens 0, tens 1], [tens 2]] (by decide) (by decide) 24 none
    (show capacityTwo.size ≤ 2 by decide) 0
  have hresult : (onBuffer oneWord capacityTwo 1 (findClosest wordKey 24 2 none)).run
      (memory.read (CyclicBuffer.insertAll capacityTwo [[tens 0, tens 1], [tens 2]])) =
        some (some (tens 1)) := by decide +kernel
  obtain rfl := Option.some.inj (hrun.symm.trans hresult)
  exact ⟨hresult, (hmin _ rfl).2⟩

end Quiet

section AnyAnswers
variable {fuel : ℕ} {tr : List ((q : Request) × q.Answer T)} {e : T} {d : BitVec kw}

/-- The scan ends with the nearest of the elements it read, if one was near enough to
replace the initial difference. -/
theorem answers_closestScan {n : ℕ} {i : BitVec 64} {best best' : Option T}
    {bestDiff bestDiff' : BitVec kw}
    (h : Answers (closestScan key target n i best bestDiff) tr (best', bestDiff')) :
    (∀ e ∈ reads tr, bestDiff'.toNat ≤ distance key target e) ∧
      (best' = best ∧ bestDiff' = bestDiff ∨
        ∃ e ∈ reads tr, best' = some e ∧ bestDiff'.toNat = distance key target e ∧
          bestDiff'.toNat < bestDiff.toNat) := by
  induction n generalizing i best bestDiff tr with
  | zero =>
    obtain ⟨rfl, heq⟩ := answers_ret.mp h
    obtain ⟨rfl, rfl⟩ := Prod.mk.inj heq
    exact ⟨by simp [reads], .inl ⟨rfl, rfl⟩⟩
  | succ n ih =>
    obtain ⟨v, tail, rfl, htail⟩ := answers_tryGet.mp h
    cases v with
    | none =>
      have hrest := ih htail
      exact hrest
    | some elem =>
      simp only at htail
      simp only [reads, List.mem_cons, forall_eq_or_imp, exists_eq_or_imp]
      split at htail
      · rename_i hd
        obtain ⟨hall, hbest⟩ := ih htail
        rw [BitVec.lt_def, toNat_keyDiff_eq] at hd
        rw [toNat_keyDiff_eq] at hbest
        rcases hbest with ⟨rfl, rfl⟩ | ⟨e, he, hbest, hdiff, hlt⟩
        · rw [toNat_keyDiff_eq] at hall ⊢
          exact ⟨⟨le_rfl, hall⟩, .inr (.inl ⟨rfl, rfl, hd⟩)⟩
        · exact ⟨⟨hlt.le, hall⟩, .inr (.inr ⟨e, he, hbest, hdiff, hlt.trans hd⟩)⟩
      · rename_i hd
        obtain ⟨hall, hbest⟩ := ih htail
        rw [BitVec.lt_def, toNat_keyDiff_eq] at hd
        rcases hbest with ⟨rfl, rfl⟩ | ⟨e, he, hbest, hdiff, hlt⟩
        · exact ⟨⟨Nat.le_of_not_lt hd, hall⟩, .inl ⟨rfl, rfl⟩⟩
        · exact ⟨⟨by omega, hall⟩, .inr (.inr ⟨e, he, hbest, hdiff, hlt⟩)⟩

/-- What the linear search returns is the nearest element it read, and within
`max_distance` when it was given one. -/
theorem answers_findClosestLinear {avail : BitVec 64} {maxDistance : Option (BitVec kw)}
    (h : Answers (findClosestLinear key target avail maxDistance) tr (some e)) :
    (∃ e' ∈ reads tr, e = e' ∧ distance key target e' < (BitVec.allOnes kw).toNat) ∧
      (∀ e' ∈ reads tr, distance key target e ≤ distance key target e') ∧
      ∀ d, maxDistance = some d → distance key target e ≤ d.toNat := by
  obtain ⟨⟨best, bestDiff⟩, tr₁, tr₂, rfl, h₁, h₂⟩ := answers_bind.mp h
  obtain ⟨hall, hbest⟩ := answers_closestScan h₁
  have hend : tr₂ = [] ∧ best = some e ∧ ∀ d, maxDistance = some d → ¬ d < bestDiff := by
    cases best with
    | none =>
      exact absurd h₂ not_answers_ret_none
    | some b =>
      cases maxDistance with
      | none =>
        obtain ⟨hnil, heq⟩ := answers_ret.mp h₂
        exact ⟨hnil, heq, by simp⟩
      | some d =>
        simp only at h₂
        split at h₂
        · exact absurd h₂ not_answers_ret_none
        · rename_i hd
          obtain ⟨hnil, heq⟩ := answers_ret.mp h₂
          exact ⟨hnil, heq, by simpa using hd⟩
  obtain ⟨rfl, rfl, hd⟩ := hend
  rw [List.append_nil]
  rcases hbest with ⟨hnone, -⟩ | ⟨e', he', hbest, hdiff, hlt⟩
  · exact absurd hnone (by simp)
  · obtain rfl := Option.some.inj hbest
    rw [hdiff] at hall hlt
    refine ⟨⟨e, he', rfl, hlt⟩, hall, ?_⟩
    intro d hmax
    have hle := hd d hmax
    rw [BitVec.lt_def] at hle
    omega

/-- The linear search without a bound returns nothing only when no element that it read
is nearer than the greatest key difference. -/
theorem answers_findClosestLinear_none {avail : BitVec 64}
    (h : Answers (findClosestLinear key target avail none) tr none) :
    ∀ e ∈ reads tr, (BitVec.allOnes kw).toNat ≤ distance key target e := by
  obtain ⟨⟨best, bestDiff⟩, tr₁, tr₂, rfl, h₁, h₂⟩ := answers_bind.mp h
  obtain ⟨hall, hbest⟩ := answers_closestScan h₁
  cases best with
  | none =>
    obtain ⟨rfl, -⟩ := answers_ret.mp h₂
    rw [List.append_nil]
    rcases hbest with ⟨-, rfl⟩ | ⟨e, he, hbest, -, -⟩
    · exact hall
    · exact absurd hbest (by simp)
  | some b =>
    obtain ⟨-, heq⟩ := answers_ret.mp h₂
    simp at heq

/-- After the loop: either the element at `lo` could be read and the bound is applied, or
the linear search is called without it. -/
theorem answers_checkAround {avail lo : BitVec 64} {r : Option T}
    (h : Answers (checkAround key target avail (some d) lo) tr r) :
    (∃ best tail, tr = ⟨.tryGet lo, some best⟩ :: tail ∧
      ∀ e, r = some e → distance key target e ≤ d.toNat) ∨
      ∃ scan, tr = ⟨.tryGet lo, none⟩ :: scan ∧
        Answers (findClosestLinear key target avail none) scan r := by
  obtain ⟨v, tail, rfl, htail⟩ := answers_tryGet.mp h
  cases v with
  | none => exact .inr ⟨tail, rfl, htail⟩
  | some best =>
    refine .inl ⟨best, tail, rfl, ?_⟩
    intro e he
    obtain ⟨⟨best₁, diff₁⟩, tr₁, tr₂, -, -, h₂⟩ := answers_bind.mp htail
    obtain ⟨⟨best₂, diff₂⟩, tr₃, tr₄, -, -, h₄⟩ := answers_bind.mp h₂
    simp only at h₄
    split at h₄
    · obtain ⟨-, heq⟩ := answers_ret.mp h₄
      rw [← heq] at he
      simp at he
    · rename_i hd
      obtain ⟨-, heq⟩ := answers_ret.mp h₄
      obtain rfl := Option.some.inj (heq.trans he)
      rw [BitVec.lt_def, toNat_keyDiff_eq] at hd
      exact Nat.le_of_not_lt hd

/-- The loop ends early only at an element with the target key. -/
theorem key_eq_of_answers_closestSearch {lo hi : BitVec 64}
    (h : Answers (closestSearch key target fuel lo hi) tr (.exact e)) : key e = target := by
  induction fuel generalizing lo hi tr with
  | zero => exact absurd h not_answers_spin
  | succ fuel ih =>
    rw [closestSearch] at h
    split at h
    · obtain ⟨v, tail, rfl, htail⟩ := answers_tryGet.mp h
      cases v with
      | none =>
        obtain ⟨-, heq⟩ := answers_ret.mp htail
        cases heq
      | some elem =>
        simp only at htail
        split at htail
        · exact ih htail
        split at htail
        · split at htail
          · obtain ⟨-, heq⟩ := answers_ret.mp htail
            cases heq
          · exact ih htail
        · rename_i habove hbelow
          obtain ⟨-, heq⟩ := answers_ret.mp htail
          cases heq
          apply BitVec.eq_of_toNat_eq
          rw [BitVec.lt_def] at habove hbelow
          omega
    · obtain ⟨-, heq⟩ := answers_ret.mp h
      cases heq

variable (key target) in
/-- The answers `tr` lead the loop to an index `lo` whose element then cannot be read again;
`scan` is what the linear search is answered after that. -/
def UnguardedFallback (fuel : ℕ) (tr scan : List ((q : Request) × q.Answer T)) : Prop :=
  ∃ avail search lo, tr = ⟨.available, avail⟩ :: (search ++ ⟨.tryGet lo, none⟩ :: scan) ∧
    Answers (closestSearch key target fuel 0 (avail - 1)) search (.stopped lo)

private theorem UnguardedFallback.unique {avail : BitVec 64} {r : SearchEnd T}
    {search rest scan : List ((q : Request) × q.Answer T)}
    (h : Answers (closestSearch key target fuel 0 (avail - 1)) search r)
    (hfall : UnguardedFallback key target fuel (⟨.available, avail⟩ :: (search ++ rest)) scan) :
    ∃ lo, r = .stopped lo ∧ rest = ⟨.tryGet lo, none⟩ :: scan := by
  obtain ⟨avail', search', lo, heq, hsearch⟩ := hfall
  simp only [List.cons.injEq, Sigma.mk.injEq, heq_eq_eq, true_and] at heq
  obtain ⟨rfl, heq⟩ := heq
  obtain ⟨rfl, rfl⟩ := h.eq_of_append hsearch heq
  exact ⟨lo, rfl, rfl⟩

variable (key target d) in
/-- The linear search that is answered by `scan` cannot return an element farther than `d`:
it reads one within `d`, or none at all that it could return. -/
def ScanWithin (scan : List ((q : Request) × q.Answer T)) : Prop :=
  (∃ e ∈ reads scan, distance key target e ≤ d.toNat) ∨
    ∀ e ∈ reads scan, (BitVec.allOnes kw).toNat ≤ distance key target e

theorem answers_unguarded {avail : BitVec 64} {scan : List ((q : Request) × q.Answer T)}
    {r : Option T} (h : Answers (findClosestLinear key target avail none) scan r) :
    (∀ e, r = some e → distance key target e ≤ d.toNat) ↔ ScanWithin key target d scan := by
  cases r with
  | none => exact iff_of_true (by simp) (.inr (answers_findClosestLinear_none h))
  | some e =>
    obtain ⟨⟨e', hmem, rfl, hlt⟩, hmin, -⟩ := answers_findClosestLinear h
    simp only [Option.some.injEq, forall_eq']
    constructor
    · intro hle
      exact .inl ⟨e, hmem, hle⟩
    · intro hscan
      rcases hscan with ⟨e', he', hle⟩ | hfar
      · exact (hmin e' he').trans hle
      · have := hfar e hmem
        omega

/-- Whatever the calls of one `find_closest(target, d)` return, the element that it returns
is within `d` exactly when the unguarded linear search is not reached or cannot return an
element farther than `d`. -/
theorem findClosest_within_iff {r : Option T}
    (h : Answers (findClosest key target fuel (some d)) tr r) :
    (∀ e, r = some e → distance key target e ≤ d.toNat) ↔
      ∀ scan, UnguardedFallback key target fuel tr scan → ScanWithin key target d scan := by
  obtain ⟨avail, tail, rfl, htail⟩ := answers_available.mp h
  split at htail
  · obtain ⟨rfl, rfl⟩ := answers_ret.mp htail
    refine iff_of_true (by simp) ?_
    intro scan hfall
    obtain ⟨avail', search, lo, heq, -⟩ := hfall
    simp at heq
  obtain ⟨last, search, rest, rfl, hsearch, hrest⟩ := answers_bind.mp htail
  -- on every path but one the bound is applied
  have hguarded : (∀ lo scan, ¬ (last = .stopped lo ∧ rest = ⟨.tryGet lo, none⟩ :: scan)) →
      ∀ scan, UnguardedFallback key target fuel (⟨.available, avail⟩ :: (search ++ rest)) scan →
        ScanWithin key target d scan := by
    intro hpath scan hfall
    obtain ⟨lo, hend, hscan⟩ := hfall.unique hsearch
    exact absurd ⟨hend, hscan⟩ (hpath lo scan)
  cases last with
  | overwritten =>
    refine iff_of_true ?_ (hguarded (by simp))
    intro e he
    rw [he] at hrest
    obtain ⟨-, -, hle⟩ := answers_findClosestLinear hrest
    exact hle d rfl
  | exact elem =>
    refine iff_of_true ?_ (hguarded (by simp))
    intro e he
    obtain ⟨-, heq⟩ := answers_ret.mp hrest
    obtain rfl := Option.some.inj (heq.trans he)
    rw [distance, key_eq_of_answers_closestSearch hsearch]
    simp
  | stopped lo =>
    rcases answers_checkAround hrest with ⟨best, tail, rfl, hle⟩ | ⟨scan, rfl, hscan⟩
    · exact iff_of_true hle (hguarded (by simp))
    · rw [answers_unguarded hscan]
      constructor
      · intro hwithin scan' hfall
        obtain ⟨lo', -, heq⟩ := hfall.unique hsearch
        obtain rfl := (List.cons.inj heq).2
        exact hwithin
      · intro hall
        exact hall scan ⟨avail, search, lo, rfl, hsearch⟩

end AnyAnswers

section Samples

/-- What the linear search of the sample reads. -/
abbrev scanned : List ((q : Request) × q.Answer oneWord.T) :=
  [⟨.tryGet 0, some (tens 1)⟩, ⟨.tryGet 1, some (tens 0)⟩]

/-- The loop stops at index 1, whose element then cannot be read, and the linear search finds one
within the bound. -/
theorem findClosest_within_iff_scanned :
    UnguardedFallback wordKey 17 2
        (⟨.available, 2⟩ :: ([⟨.tryGet 0, some (tens 1)⟩] ++ ⟨.tryGet 1, none⟩ :: scanned)) scanned ∧
      ScanWithin wordKey 17 5 scanned := by
  have hfall : UnguardedFallback wordKey 17 2
      (⟨.available, 2⟩ :: ([⟨.tryGet 0, some (tens 1)⟩] ++ ⟨.tryGet 1, none⟩ :: scanned))
      scanned :=
    ⟨2, _, 1, rfl, answers_of_follow rfl⟩
  have hanswers : Answers (findClosest wordKey 17 2 (some 5))
      (⟨.available, 2⟩ :: ([⟨.tryGet 0, some (tens 1)⟩] ++ ⟨.tryGet 1, none⟩ :: scanned))
      (some (tens 1)) := answers_of_follow (by decide +kernel)
  refine ⟨hfall, (findClosest_within_iff hanswers).mp ?_ scanned hfall⟩
  simp only [Option.some.injEq, forall_eq']
  decide

/-- `find_closest(10, 5)` on a ring of one slot. -/
abbrev oneFindClosest (_ : Unit) : CyclicBuffer.ReadProgram oneWord (Option oneWord.T) :=
  onBuffer oneWord capacityOne 9 (findClosest wordKey 10 1 (some 5))

/-- After the first insertion and the call of `available()`, the second insertion keeps the
counter odd while `try_get(0)` makes its five attempts, and is complete before the linear
search begins. -/
def contended : ℕ → Party Unit :=
  blocks [(.writer, 8), (.reader (), 1), (.writer, 4), (.reader (), 6), (.writer, 4),
    (.reader (), 4)]

/-- The element with key 20 is returned although it is farther than 5 from the target 10. -/
theorem findClosest_exceeds_bound :
    Answers (findClosest wordKey 10 1 (some 5))
      [⟨.available, 1⟩, ⟨.tryGet 0, none⟩, ⟨.tryGet 0, some (tens 1)⟩] (some (tens 1)) ∧
    ((CyclicBuffer.states capacityOne tens contended oneFindClosest 27).reader ()).result? =
      some (some (tens 1)) ∧
    ¬ distance wordKey 10 (tens 1) ≤ (5 : BitVec 64).toNat :=
  ⟨answers_of_follow (by decide +kernel), by decide +kernel, by decide +kernel⟩

end Samples

end SafeShm.TimeSeries
