import SafeShm.InterpolationSearch

/-!
# The linear searches

The linear searches are what a query falls back on when an element cannot be read. On a buffer
that stays as it is they are compared here with the binary searches. A linear scan starts from the
greatest key as its best difference and takes only a smaller one: for the closest element this
loses a buffer whose elements are all at the greatest possible distance, while no element of an
interpolation pair can be that far from the target.
-/

namespace SafeShm.TimeSeries
open AtomicPrograms SequenceLocks

variable {T : Type} {kw : ℕ} {key : T → BitVec kw} {target : BitVec kw}
variable {avail : BitVec 64} {elem : ℕ → T}

section Closest

theorem distance_le_max (e : T) : distance key target e ≤ 2 ^ kw - 1 := by
  have hkey := (key e).isLt
  have htarget := target.isLt
  rw [distance]
  omega

variable (key target elem) in
/-- The scan ends with the nearest of the elements from `i` on, if one of them is nearer than the
difference that it starts with. -/
theorem run_closestScan {n : ℕ} {i : BitVec 64} (best : Option T) (bestDiff : BitVec kw)
    (hn : i.toNat + n = avail.toNat) :
    ∃ best' bestDiff', (closestScan key target n i best bestDiff).run (fixedAnswers avail elem) =
        some (best', bestDiff') ∧
      bestDiff'.toNat ≤ bestDiff.toNat ∧
      (∀ j, i.toNat ≤ j → j < avail.toNat → bestDiff'.toNat ≤ distance key target (elem j)) ∧
      (best' = best ∧ bestDiff' = bestDiff ∨
        ∃ j < avail.toNat, best' = some (elem j) ∧ bestDiff'.toNat = distance key target (elem j) ∧
          bestDiff'.toNat < bestDiff.toNat) := by
  induction n generalizing i best bestDiff with
  | zero => exact ⟨best, bestDiff, rfl, le_rfl, by omega, .inl ⟨rfl, rfl⟩⟩
  | succ n ih =>
    have hin : i.toNat < avail.toNat := by omega
    have hnext : (i + 1).toNat = i.toNat + 1 := by bv_omega
    simp only [closestScan, tryGet, Prog.load_bind, Prog.ret_bind, Prog.run_load, fixedAnswers,
      if_pos hin]
    by_cases hd : keyDiff (key (elem i.toNat)) target < bestDiff
    · rw [if_pos hd]
      rw [BitVec.lt_def, toNat_keyDiff_eq] at hd
      obtain ⟨best', bestDiff', hrun, hle, hall, hbest⟩ := ih (i := i + 1) (some (elem i.toNat))
        (keyDiff (key (elem i.toNat)) target) (by omega)
      rw [toNat_keyDiff_eq] at hle hbest
      refine ⟨best', bestDiff', hrun, hle.trans hd.le, ?_, ?_⟩
      · intro j hij hj
        rcases Nat.lt_or_eq_of_le hij with hlt | rfl
        · exact hall j (by omega) hj
        · exact hle
      · rcases hbest with ⟨rfl, rfl⟩ | ⟨j, hj, hbest, hdiff, hlt⟩
        · exact .inr ⟨i.toNat, hin, rfl, toNat_keyDiff_eq _, by rwa [toNat_keyDiff_eq]⟩
        · exact .inr ⟨j, hj, hbest, hdiff, hlt.trans hd⟩
    · rw [if_neg hd]
      rw [BitVec.lt_def, toNat_keyDiff_eq] at hd
      obtain ⟨best', bestDiff', hrun, hle, hall, hbest⟩ := ih (i := i + 1) best bestDiff (by omega)
      refine ⟨best', bestDiff', hrun, hle, ?_, hbest⟩
      intro j hij hj
      rcases Nat.lt_or_eq_of_le hij with hlt | rfl
      · exact hall j (by omega) hj
      · omega

variable (key target avail elem) in
/-- The linear search finds a nearest element, unless all of them are at the greatest distance. -/
theorem run_findClosestLinear (maxDistance : Option (BitVec kw)) :
    ((∀ j < avail.toNat, distance key target (elem j) = 2 ^ kw - 1) ∧
        (findClosestLinear key target avail maxDistance).run (fixedAnswers avail elem) =
          some none) ∨
      ∃ j < avail.toNat, distance key target (elem j) < 2 ^ kw - 1 ∧
        (∀ i < avail.toNat, distance key target (elem j) ≤ distance key target (elem i)) ∧
        (findClosestLinear key target avail maxDistance).run (fixedAnswers avail elem) =
          some (withinDistance key target maxDistance (elem j)) := by
  obtain ⟨best, bestDiff, hrun, -, hall, hbest⟩ := run_closestScan key target elem
    none (BitVec.allOnes kw) (show (0 : BitVec 64).toNat + avail.toNat = avail.toNat
      from Nat.zero_add _)
  rw [findClosestLinear, Prog.run_bind, hrun, Option.bind_some]
  rcases hbest with ⟨rfl, rfl⟩ | ⟨j, hj, rfl, hdiff, hlt⟩
  · refine .inl ⟨?_, rfl⟩
    intro j hj
    have hle := hall j (Nat.zero_le _) hj
    rw [BitVec.toNat_allOnes] at hle
    exact Nat.le_antisymm (distance_le_max _) hle
  · rw [BitVec.toNat_allOnes, hdiff] at hlt
    refine .inr ⟨j, hj, hlt, ?_, ?_⟩
    · intro i hi
      rw [← hdiff]
      exact hall i (Nat.zero_le _) hi
    · have heq : bestDiff = keyDiff (key (elem j)) target := by
        apply BitVec.eq_of_toNat_eq
        rw [hdiff, toNat_keyDiff_eq]
      cases maxDistance with
      | none => rfl
      | some d =>
        simp only [withinDistance, heq]
        split <;> rfl

variable (key target) in
/-- Nothing is returned twice, or two elements at the same distance from the target. -/
def SameDistance (r r' : Option T) : Prop :=
  (r = none ∧ r' = none) ∨
    ∃ e e', r = some e ∧ r' = some e' ∧ distance key target e = distance key target e'

variable (key target) in
/-- There are elements, all of them at the greatest possible distance from the target, and the
bound does not exclude them. -/
def AllFarthest (maxDistance : Option (BitVec kw)) (view : List T) : Prop :=
  view ≠ [] ∧ (∀ e ∈ view, distance key target e = 2 ^ kw - 1) ∧
    ∀ d, maxDistance = some d → d = BitVec.allOnes kw

theorem sameDistance_withinDistance {maxDistance : Option (BitVec kw)} {e e' : T}
    (h : distance key target e = distance key target e') :
    SameDistance key target (withinDistance key target maxDistance e)
      (withinDistance key target maxDistance e') := by
  cases maxDistance with
  | none => exact .inr ⟨e, e', rfl, rfl, h⟩
  | some d =>
    have hdiff : keyDiff (key e) target = keyDiff (key e') target := by
      apply BitVec.eq_of_toNat_eq
      rw [toNat_keyDiff_eq, toNat_keyDiff_eq, h]
    simp only [withinDistance, hdiff]
    split
    · exact .inl ⟨rfl, rfl⟩
    · exact .inr ⟨e, e', rfl, rfl, h⟩

theorem withinDistance_farthest {maxDistance : Option (BitVec kw)} {e : T}
    (h : distance key target e = 2 ^ kw - 1) :
    withinDistance key target maxDistance e = none ↔
      ¬ ∀ d, maxDistance = some d → d = BitVec.allOnes kw := by
  cases maxDistance with
  | none => simp [withinDistance]
  | some d =>
    have hd := d.isLt
    have heq : d = BitVec.allOnes kw ↔ d.toNat = 2 ^ kw - 1 := by
      rw [← BitVec.toNat_inj, BitVec.toNat_allOnes]
    simp only [withinDistance, BitVec.lt_def, toNat_keyDiff_eq, h, Option.some.injEq, forall_eq',
      heq, ite_eq_left_iff, reduceCtorEq, imp_false, not_lt]
    omega

/-- On a buffer that stays as it is, the two searches agree unless all elements are farthest. -/
theorem run_findClosest_linear (target : BitVec kw) (hdesc : Descending key avail elem)
    (maxDistance : Option (BitVec kw)) {fuel : ℕ} (hfuel : avail.toNat ≤ fuel) :
    ∃ r r', (findClosest key target fuel maxDistance).run (fixedAnswers avail elem) = some r ∧
      (findClosestLinear key target avail maxDistance).run (fixedAnswers avail elem) = some r' ∧
      (SameDistance key target r r' ↔
        ¬ AllFarthest key target maxDistance ((List.range avail.toNat).map elem)) := by
  have hmem : ∀ e, e ∈ (List.range avail.toNat).map elem ↔ ∃ j < avail.toNat, elem j = e := by simp
  by_cases hzero : avail = 0
  · subst hzero
    refine ⟨none, none, rfl, rfl, iff_of_true (.inl ⟨rfl, rfl⟩) ?_⟩
    rintro ⟨hne, -⟩
    exact hne rfl
  obtain ⟨j, hj, hmin, hrun⟩ := run_findClosest target hdesc hzero maxDistance hfuel
  rcases run_findClosestLinear key target avail elem maxDistance with
    ⟨hfar, hrun'⟩ | ⟨j', hj', hlt, hmin', hrun'⟩
  · refine ⟨_, _, hrun, hrun', ?_⟩
    have hsame : SameDistance key target (withinDistance key target maxDistance (elem j)) none ↔
        withinDistance key target maxDistance (elem j) = none := by simp [SameDistance]
    have hview : (List.range avail.toNat).map elem ≠ [] :=
      List.ne_nil_of_mem ((hmem _).mpr ⟨j, hj, rfl⟩)
    rw [hsame, withinDistance_farthest (hfar j hj), not_iff_not]
    constructor
    · intro hbound
      refine ⟨hview, ?_, hbound⟩
      intro e he
      obtain ⟨i, hi, rfl⟩ := (hmem e).mp he
      exact hfar i hi
    · exact fun h => h.2.2
  · have heq : distance key target (elem j) = distance key target (elem j') :=
      Nat.le_antisymm (hmin j' hj') (hmin' j hj)
    refine ⟨_, _, hrun, hrun', iff_of_true (sameDistance_withinDistance heq) ?_⟩
    rintro ⟨-, hfar, -⟩
    have := hfar (elem j') ((hmem _).mpr ⟨j', hj', rfl⟩)
    omega

variable (key target) in
theorem allFarthest_reverse (maxDistance : Option (BitVec kw)) (view : List T) :
    AllFarthest key target maxDistance view.reverse ↔ AllFarthest key target maxDistance view := by
  simp [AllFarthest]

/-- `find_closest` and `find_closest_linear`: after any insertions with non-decreasing keys, and
with no insertion going on, both return nothing or both return elements at the same distance from
the target, except exactly when there are available elements, all of them are at the greatest
possible distance, and `max_distance` is absent or the greatest key. -/
theorem findClosest_agrees_iff {F : FlatType} (cap : Capacity) (key : F.T → BitVec kw)
    (sessions : List (List F.T)) (hsorted : sessions.flatten.Pairwise (fun a b => key a ≤ key b))
    (target : BitVec kw) (maxDistance : Option (BitVec kw)) {fuel : ℕ} (hfuel : cap.size ≤ fuel)
    (slotFuel : ℕ) :
    ∃ r r', (onBuffer F cap (slotFuel + 1) (findClosest key target fuel maxDistance)).run
        (memory.read (CyclicBuffer.insertAll cap sessions)) = some r ∧
      (onBuffer F cap (slotFuel + 1)
          (available >>= fun avail => findClosestLinear key target avail maxDistance)).run
        (memory.read (CyclicBuffer.insertAll cap sessions)) = some r' ∧
      (SameDistance key target r r' ↔
        ¬ AllFarthest key target maxDistance (window cap sessions.flatten)) := by
  obtain ⟨vals, hvals, hquiet⟩ := CyclicBuffer.represents_insertAll cap sessions
  have havail := CyclicBuffer.toNat_available cap sessions.flatten.length
  have hdesc := descending_of_pairwise cap hvals hsorted
  have hfuel' : (CyclicBuffer.umin (BitVec.ofNat 64 sessions.flatten.length) cap.N).toNat ≤ fuel :=
    havail ▸ (Nat.min_le_right _ _).trans hfuel
  have h := run_findClosest_linear target hdesc maxDistance hfuel'
  rw [hquiet, run_onBuffer, run_onBuffer, ← allFarthest_reverse, window_reverse cap hvals]
  rwa [havail] at h

theorem findClosest_agrees_threeWrites :
    ∃ r r', (onBuffer oneWord capacityTwo 1 (findClosest wordKey 24 2 (some 7))).run
        (memory.read (CyclicBuffer.insertAll capacityTwo [[tens 0, tens 1], [tens 2]])) = some r ∧
      (onBuffer oneWord capacityTwo 1
          (available >>= fun avail => findClosestLinear wordKey 24 avail (some 7))).run
        (memory.read (CyclicBuffer.insertAll capacityTwo [[tens 0, tens 1], [tens 2]])) = some r' ∧
      SameDistance wordKey 24 r r' := by
  obtain ⟨r, r', hrun, hrun', hiff⟩ := findClosest_agrees_iff capacityTwo wordKey
    [[tens 0, tens 1], [tens 2]] (by decide) 24 (some 7) (show capacityTwo.size ≤ 2 by decide) 0
  refine ⟨r, r', hrun, hrun', hiff.mpr ?_⟩
  rintro ⟨-, -, hbound⟩
  exact absurd (hbound 7 rfl) (by decide)

/-- The element with key 0. -/
abbrev zeroWord : oneWord.T := fun _ => 0

/-- One element with key 0, and the greatest key as the target. -/
theorem findClosest_disagrees_farthest :
    (onBuffer oneWord capacityTwo 1 (findClosest wordKey (BitVec.allOnes 64) 2 none)).run
        (memory.read (CyclicBuffer.insertAll capacityTwo [[zeroWord]])) =
      some (some zeroWord) ∧
    (onBuffer oneWord capacityTwo 1
        (available >>= fun avail => findClosestLinear wordKey (BitVec.allOnes 64) avail none)).run
        (memory.read (CyclicBuffer.insertAll capacityTwo [[zeroWord]])) = some none ∧
    ¬ SameDistance wordKey (BitVec.allOnes 64) (some zeroWord) none :=
  ⟨by decide +kernel, by decide +kernel, by simp [SameDistance]⟩

end Closest

section Pair

/-- What the scan has on one side of the target after `n` elements: the nearest of them, if one is
nearer than the greatest key. -/
structure Side (key : T → BitVec kw) (onSide : BitVec kw → Prop) (diff : BitVec kw → BitVec kw)
    (elem : ℕ → T) (n : ℕ) (best : Option T) (bestDiff : BitVec kw) : Prop where
  read : ∀ e, best = some e → onSide (key e) ∧ bestDiff = diff (key e) ∧ ∃ j < n, e = elem j
  unread : best = none → bestDiff = BitVec.allOnes kw
  le : ∀ j < n, onSide (key (elem j)) → bestDiff ≤ diff (key (elem j))

section Sides
variable {onSide : BitVec kw → Prop} [DecidablePred onSide] {diff : BitVec kw → BitVec kw} {n : ℕ}
variable {best : Option T} {bestDiff : BitVec kw}

theorem Side.add (h : Side key onSide diff elem n best bestDiff) :
    Side key onSide diff elem (n + 1)
      (if onSide (key (elem n)) ∧ diff (key (elem n)) < bestDiff then some (elem n) else best)
      (if onSide (key (elem n)) ∧ diff (key (elem n)) < bestDiff then diff (key (elem n))
        else bestDiff) := by
  split
  · rename_i hnearer
    refine ⟨?_, by simp, ?_⟩
    · intro e he
      obtain rfl := Option.some.inj he
      exact ⟨hnearer.1, rfl, n, Nat.lt_succ_self n, rfl⟩
    · intro j hj hside
      rcases Nat.lt_succ_iff_lt_or_eq.mp hj with hlt | rfl
      · exact BitVec.le_trans (BitVec.le_of_lt hnearer.2) (h.le j hlt hside)
      · exact BitVec.le_refl _
  · rename_i hfarther
    refine ⟨?_, h.unread, ?_⟩
    · intro e he
      obtain ⟨hside, hdiff, j, hj, heq⟩ := h.read e he
      exact ⟨hside, hdiff, j, Nat.lt_succ_of_lt hj, heq⟩
    · intro j hj hside
      rcases Nat.lt_succ_iff_lt_or_eq.mp hj with hlt | rfl
      · exact h.le j hlt hside
      · rw [BitVec.le_def]
        exact Nat.le_of_not_lt fun hlt => hfarther ⟨hside, BitVec.lt_def.mpr hlt⟩

omit [DecidablePred onSide] in
theorem Side.eq_some (h : Side key onSide diff elem n best bestDiff) {j : ℕ} (hj : j < n)
    (hside : onSide (key (elem j))) (hnear : (diff (key (elem j))).toNat < 2 ^ kw - 1)
    (honly : ∀ i < n, i ≠ j → onSide (key (elem i)) →
      (diff (key (elem j))).toNat < (diff (key (elem i))).toNat) :
    best = some (elem j) := by
  have hle := BitVec.le_def.mp (h.le j hj hside)
  cases hbest : best with
  | none =>
    rw [h.unread hbest, BitVec.toNat_allOnes] at hle
    omega
  | some e =>
    obtain ⟨hside', hdiff, i, hi, rfl⟩ := h.read e hbest
    by_cases hij : i = j
    · rw [hij]
    · have hlt := honly i hi hij hside'
      rw [hdiff] at hle
      omega

omit [DecidablePred onSide] in
theorem Side.eq_none (h : Side key onSide diff elem n best bestDiff)
    (hnone : ∀ j < n, ¬ onSide (key (elem j))) : best = none := by
  cases hbest : best with
  | none => rfl
  | some e =>
    obtain ⟨hside, -, j, hj, rfl⟩ := h.read e hbest
    exact absurd hside (hnone j hj)

end Sides

/-- What the scan of `find_interpolation_pair_linear` has after `n` elements. -/
structure Bracket.Nearest (key : T → BitVec kw) (target : BitVec kw) (elem : ℕ → T) (n : ℕ)
    (b : Bracket T kw) : Prop where
  sound : b.Sound key target
  before : Side key (· ≤ target) (target - ·) elem n b.beforeElem b.beforeDiff
  after : Side key (target ≤ ·) (· - target) elem n b.afterElem b.afterDiff

variable (key target) in
private theorem Bracket.add_sides (b : Bracket T kw) (e : T) :
    ((b.add key target e).beforeElem =
        if key e ≤ target ∧ target - key e < b.beforeDiff then some e else b.beforeElem) ∧
      ((b.add key target e).beforeDiff =
        if key e ≤ target ∧ target - key e < b.beforeDiff then target - key e
        else b.beforeDiff) ∧
      ((b.add key target e).afterElem =
        if target ≤ key e ∧ key e - target < b.afterDiff then some e else b.afterElem) ∧
      (b.add key target e).afterDiff =
        if target ≤ key e ∧ key e - target < b.afterDiff then key e - target
        else b.afterDiff := by
  by_cases hbefore : key e ≤ target ∧ target - key e < b.beforeDiff
  · by_cases hafter : target ≤ key e ∧ key e - target < b.afterDiff
    · simp [Bracket.add, hbefore, hafter]
    · simp [Bracket.add, hbefore, hafter]
  · by_cases hafter : target ≤ key e ∧ key e - target < b.afterDiff
    · simp [Bracket.add, hbefore, hafter]
    · simp [Bracket.add, hbefore, hafter]

theorem Bracket.Nearest.add {b : Bracket T kw} {n : ℕ} (h : b.Nearest key target elem n) :
    (b.add key target (elem n)).Nearest key target elem (n + 1) := by
  obtain ⟨hbefore, hbeforeDiff, hafter, hafterDiff⟩ :=
    Bracket.add_sides key target b (elem n)
  refine ⟨h.sound.add _, ?_, ?_⟩
  · rw [hbefore, hbeforeDiff]
    exact h.before.add
  · rw [hafter, hafterDiff]
    exact h.after.add

theorem run_bracketScan {n : ℕ} {i : BitVec 64} {b : Bracket T kw}
    (hb : b.Nearest key target elem i.toNat) (hn : i.toNat + n = avail.toNat) :
    ∃ b', (bracketScan key target n i b).run (fixedAnswers avail elem) = some b' ∧
      b'.Nearest key target elem avail.toNat := by
  induction n generalizing i b with
  | zero =>
    rw [Nat.add_zero] at hn
    exact ⟨b, rfl, hn ▸ hb⟩
  | succ n ih =>
    have hin : i.toNat < avail.toNat := by omega
    have hnext : (i + 1).toNat = i.toNat + 1 := by bv_omega
    simp only [bracketScan, tryGet, Prog.load_bind, Prog.ret_bind, Prog.run_load, fixedAnswers,
      if_pos hin]
    apply ih
    · rw [hnext]
      exact hb.add
    · omega

variable (key target avail elem) in
/-- The linear search returns the pair of the nearest elements on the two sides. -/
theorem run_findInterpolationPairLinear : ∃ b : Bracket T kw,
    b.Nearest key target elem avail.toNat ∧
    (findInterpolationPairLinear key target avail).run (fixedAnswers avail elem) =
      some (match b.beforeElem, b.afterElem with
        | some before, some after =>
            some (interpPair target before after (key before) (key after))
        | _, _ => none) := by
  have hinit : Bracket.Nearest key target elem (0 : BitVec 64).toNat
      ⟨none, none, 0, 0, BitVec.allOnes kw, BitVec.allOnes kw⟩ := by
    refine ⟨⟨by simp, by simp⟩, ⟨by simp, fun _ => rfl, ?_⟩, ⟨by simp, fun _ => rfl, ?_⟩⟩
    all_goals
      intro j hj
      exact absurd hj (Nat.not_lt_zero j)
  obtain ⟨b, hrun, hb⟩ := run_bracketScan hinit (Nat.zero_add avail.toNat)
  refine ⟨b, hb, ?_⟩
  rw [findInterpolationPairLinear, Prog.run_bind, hrun, Option.bind_some]
  cases hbefore : b.beforeElem with
  | none => rfl
  | some before =>
    cases hafter : b.afterElem with
    | none => rfl
    | some after =>
      rw [(hb.sound.before before hbefore).1, (hb.sound.after after hafter).1]
      rfl

section Strict
variable (hstrict : ∀ i j, i < j → j < avail.toNat → key (elem j) < key (elem i))
variable {b : Bracket T kw} (hb : b.Nearest key target elem avail.toNat) {j : ℕ}
variable (hj : j < avail.toNat)
include hstrict hb hj

theorem Bracket.Nearest.before_eq (hle : key (elem j) ≤ target)
    (hnewer : ∀ i < j, target < key (elem i))
    (hnear : target.toNat - (key (elem j)).toNat < 2 ^ kw - 1) : b.beforeElem = some (elem j) := by
  apply hb.before.eq_some hj hle
  · rwa [BitVec.toNat_sub_of_le hle]
  · intro i hi hij hside
    rw [BitVec.toNat_sub_of_le hle, BitVec.toNat_sub_of_le hside]
    have hlt : j < i := by
      rcases Nat.lt_or_gt_of_ne hij with hlt | hgt
      · have habove := hnewer i hlt
        rw [BitVec.lt_def] at habove
        rw [BitVec.le_def] at hside
        omega
      · exact hgt
    have hkey := hstrict j i hlt hi
    rw [BitVec.lt_def] at hkey
    rw [BitVec.le_def] at hle
    omega

theorem Bracket.Nearest.after_eq (hle : target ≤ key (elem j))
    (holder : ∀ i, j < i → i < avail.toNat → key (elem i) < target)
    (hnear : (key (elem j)).toNat - target.toNat < 2 ^ kw - 1) : b.afterElem = some (elem j) := by
  apply hb.after.eq_some hj hle
  · rwa [BitVec.toNat_sub_of_le hle]
  · intro i hi hij hside
    rw [BitVec.toNat_sub_of_le hle, BitVec.toNat_sub_of_le hside]
    have hlt : i < j := by
      rcases Nat.lt_or_gt_of_ne hij with hlt | hgt
      · exact hlt
      · have hbelow := holder i hgt hi
        rw [BitVec.lt_def] at hbelow
        rw [BitVec.le_def] at hside
        omega
    have hkey := hstrict i j hlt hj
    rw [BitVec.lt_def] at hkey
    rw [BitVec.le_def] at hle
    omega

/-- An element whose key is the target is the nearest one on both sides. -/
theorem Bracket.Nearest.exact_eq (htwo : 2 ≤ avail.toNat) (heq : target = key (elem j)) :
    b.beforeElem = some (elem j) ∧ b.afterElem = some (elem j) := by
  -- the keys take more than one value, so the greatest one is not 0
  have hwide := BitVec.lt_def.mp (hstrict 0 1 Nat.zero_lt_one (by omega))
  have hbound := (key (elem 0)).isLt
  have hself : target ≤ target := BitVec.le_refl _
  constructor
  · apply hb.before_eq hstrict hj
    · rw [← heq]
      exact hself
    · intro i hi
      rw [heq]
      exact hstrict i j hi hj
    · rw [← heq]
      omega
  · apply hb.after_eq hstrict hj
    · rw [← heq]
      exact hself
    · intro i hi hlt
      rw [heq]
      exact hstrict j i hi hlt
    · rw [← heq]
      omega

omit hj in
/-- Two neighbours with the target strictly between their keys are the nearest elements. -/
theorem Bracket.Nearest.between_eq {i : ℕ} (hi : i + 1 < avail.toNat)
    (hbelow : key (elem (i + 1)) < target) (habove : target < key (elem i)) :
    b.beforeElem = some (elem (i + 1)) ∧ b.afterElem = some (elem i) := by
  have hkey := (key (elem i)).isLt
  have hbelow' := BitVec.lt_def.mp hbelow
  have habove' := BitVec.lt_def.mp habove
  constructor
  · apply hb.before_eq hstrict hi (BitVec.le_of_lt hbelow)
    · intro i' hi'
      rcases Nat.lt_succ_iff_lt_or_eq.mp hi' with hlt | rfl
      · have hkey' := BitVec.lt_def.mp (hstrict i' i hlt (by omega))
        rw [BitVec.lt_def]
        omega
      · exact habove
    · omega
  · apply hb.after_eq hstrict (by omega) (BitVec.le_of_lt habove)
    · intro i' hi' hlt
      rcases Nat.lt_or_eq_of_le (Nat.succ_le_of_lt hi') with hlater | rfl
      · have hkey' := BitVec.lt_def.mp (hstrict (i + 1) i' hlater hlt)
        rw [BitVec.lt_def]
        omega
      · exact hbelow
    · omega

end Strict

variable (key target) in
/-- Nothing is returned twice, or two pairs with the same element before the target and the same
factor, and with the same element after it unless the target is a key. -/
def SamePair (r r' : Option (InterpPair T)) : Prop :=
  (r = none ∧ r' = none) ∨
    ∃ p p', r = some p ∧ r' = some p' ∧ p.before = p'.before ∧ p.alpha = p'.alpha ∧
      (target ≠ key p.before → p.after = p'.after)

private theorem interpPair_alpha_eq_zero {before after : T} (h : target = key before) :
    (interpPair target before after (key before) (key after)).alpha = 0 := by
  rw [interpPair]
  split
  · rfl
  · simp [h]

private theorem samePair_interpPair {p : InterpPair T} {after : T}
    (halpha : p.alpha = (interpPair target p.before after (key p.before) (key after)).alpha)
    (hafter : target ≠ key p.before → p.after = after) :
    SamePair key target (some p)
      (some (interpPair target p.before after (key p.before) (key after))) := by
  refine .inr ⟨p, _, rfl, rfl, interpPair_before.symm, halpha, ?_⟩
  rw [interpPair_after]
  exact hafter

section Agreement
variable {view : List T} {b : Bracket T kw} {p : InterpPair T}
variable (hstrict : ∀ i j, i < j → j < avail.toNat → key (elem j) < key (elem i))
variable (htwo : 2 ≤ avail.toNat) (hb : b.Nearest key target elem avail.toNat)
variable (hlen : view.length = avail.toNat) (hget : ∀ i < avail.toNat, view[i]? = some (elem i))
include hstrict htwo hb hlen hget

private theorem one_side_of_outOfRange (h : OutOfRange key target view) :
    b.beforeElem = none ∨ b.afterElem = none := by
  rcases h with hfew | hbelow | habove
  · omega
  · rw [List.head?_eq_getElem?, hget 0 (by omega)] at hbelow
    simp only [Option.mem_some_iff, exists_eq_left', BitVec.lt_def] at hbelow
    refine .inr (hb.after.eq_none ?_)
    intro j hj hle
    rw [BitVec.le_def] at hle
    rcases Nat.eq_zero_or_pos j with rfl | hpos
    · omega
    · have hkey := BitVec.lt_def.mp (hstrict 0 j hpos hj)
      omega
  · rw [List.getLast?_eq_getElem?, hlen, hget _ (by omega)] at habove
    simp only [Option.mem_some_iff, exists_eq_left', BitVec.lt_def] at habove
    refine .inl (hb.before.eq_none ?_)
    intro j hj hle
    rw [BitVec.le_def] at hle
    rcases Nat.lt_or_eq_of_le (Nat.le_sub_one_of_lt hj) with hlt | rfl
    · have hkey := BitVec.lt_def.mp (hstrict j _ hlt (by omega))
      omega
    · omega

/-- In range, the scan has the pair of the binary search, up to an element whose key is the
target. -/
private theorem nearest_of_brackets (h : Brackets key target view p) :
    ∃ after, b.beforeElem = some p.before ∧ b.afterElem = some after ∧
      p.alpha = (interpPair target p.before after (key p.before) (key after)).alpha ∧
      (target ≠ key p.before → p.after = after) := by
  cases h with
  | newest hn h =>
    rw [List.head?_eq_getElem?, hget 0 (by omega)] at hn
    obtain rfl := Option.some.inj hn
    obtain ⟨hbefore, hafter⟩ := hb.exact_eq hstrict (j := 0) (by omega) htwo h
    exact ⟨elem 0, hbefore, hafter, (interpPair_alpha_eq_zero h).symm, fun _ => rfl⟩
  | oldest hn ho hne h =>
    rw [List.getLast?_eq_getElem?, hlen, hget _ (by omega)] at ho
    obtain rfl := Option.some.inj ho
    obtain ⟨hbefore, hafter⟩ := hb.exact_eq hstrict (by omega) htwo h
    exact ⟨_, hbefore, hafter, (interpPair_alpha_eq_zero h).symm, fun _ => rfl⟩
  | between i hn ho hnewest holdest hbefore hafter hle hlt halpha =>
    have hi : i + 1 < avail.toNat := by
      rw [← hlen]
      exact (List.getElem?_eq_some_iff.mp hbefore).1
    rw [hget _ hi] at hbefore
    rw [hget _ (by omega)] at hafter
    obtain ⟨before, after, alpha⟩ := p
    obtain rfl := Option.some.inj hbefore
    obtain rfl := Option.some.inj hafter
    dsimp only at hle hlt halpha ⊢
    by_cases heq : target = key (elem (i + 1))
    · obtain ⟨hbefore, hafter⟩ := hb.exact_eq hstrict hi htwo heq
      refine ⟨_, hbefore, hafter, ?_, fun hne => absurd heq hne⟩
      rw [interpPair_alpha_eq_zero heq, halpha, heq]
      simp
    · have hbelow : key (elem (i + 1)) < target :=
        BitVec.lt_def.mpr (Nat.lt_of_le_of_ne (BitVec.le_def.mp hle)
          (fun h => heq (BitVec.eq_of_toNat_eq h.symm)))
      obtain ⟨hbefore, hafter⟩ := hb.between_eq hstrict hi hbelow hlt
      refine ⟨elem i, hbefore, hafter, ?_, fun _ => rfl⟩
      rw [halpha, interpPair_alpha hle (BitVec.le_of_lt hlt)]
      intro hsame
      rw [hsame, BitVec.lt_def] at hlt
      rw [BitVec.lt_def] at hbelow
      omega

end Agreement

/-- On a buffer that stays as it is and holds strictly increasing keys, the two searches agree. -/
theorem run_findInterpolationPair_linear
    (hstrict : ∀ i j, i < j → j < avail.toNat → key (elem j) < key (elem i))
    (htwo : 2 ≤ avail.toNat) {fuel : ℕ} (hfuel : avail.toNat ≤ fuel) :
    ∃ r r', (findInterpolationPair key target fuel).run (fixedAnswers avail elem) = some r ∧
      (findInterpolationPairLinear key target avail).run (fixedAnswers avail elem) = some r' ∧
      SamePair key target r r' := by
  obtain ⟨r, hrun, hnone, hsome⟩ := run_findInterpolationPair key target elem hfuel
  obtain ⟨b, hb, hrun'⟩ := run_findInterpolationPairLinear key target avail elem
  have hlen : ((List.range avail.toNat).map elem).length = avail.toNat := by simp
  have hget : ∀ i < avail.toNat, ((List.range avail.toNat).map elem)[i]? = some (elem i) :=
    fun i hi => view_getElem elem hi
  refine ⟨r, _, hrun, hrun', ?_⟩
  cases r with
  | none =>
    refine .inl ⟨rfl, ?_⟩
    rcases one_side_of_outOfRange hstrict htwo hb hlen hget (hnone.mp rfl) with hbefore | hafter
    · rw [hbefore]
    · rw [hafter]
      cases b.beforeElem <;> rfl
  | some p =>
    obtain ⟨after, hbefore, hafter, halpha, hsame⟩ :=
      nearest_of_brackets hstrict htwo hb hlen hget (hsome p rfl)
    rw [hbefore, hafter]
    exact samePair_interpPair halpha hsame

/-- `find_interpolation_pair` and `find_interpolation_pair_linear` agree: after any insertions with
strictly increasing keys, and with no insertion going on and at least two elements available. -/
theorem findInterpolationPair_agrees {F : FlatType} (cap : Capacity) (key : F.T → BitVec kw)
    (sessions : List (List F.T)) (hsorted : sessions.flatten.Pairwise (fun a b => key a < key b))
    (htwo : 2 ≤ (window cap sessions.flatten).length) (target : BitVec kw) {fuel : ℕ}
    (hfuel : cap.size ≤ fuel) (slotFuel : ℕ) :
    ∃ r r', (onBuffer F cap (slotFuel + 1) (findInterpolationPair key target fuel)).run
        (memory.read (CyclicBuffer.insertAll cap sessions)) = some r ∧
      (onBuffer F cap (slotFuel + 1)
          (available >>= fun avail => findInterpolationPairLinear key target avail)).run
        (memory.read (CyclicBuffer.insertAll cap sessions)) = some r' ∧
      SamePair key target r r' := by
  obtain ⟨vals, hvals, hquiet⟩ := CyclicBuffer.represents_insertAll cap sessions
  have havail := CyclicBuffer.toNat_available cap sessions.flatten.length
  have hlen : (window cap sessions.flatten).length =
      (CyclicBuffer.umin (BitVec.ofNat 64 sessions.flatten.length) cap.N).toNat := by
    rw [← List.length_reverse, window_reverse cap hvals, List.length_map, List.length_range, havail]
  have hfuel' : (CyclicBuffer.umin (BitVec.ofNat 64 sessions.flatten.length) cap.N).toNat ≤ fuel :=
    havail ▸ (Nat.min_le_right _ _).trans hfuel
  rw [hquiet, run_onBuffer, run_onBuffer]
  exact run_findInterpolationPair_linear
    (fun i j hij hj => pairwise_window cap hvals hsorted hij hj) (hlen ▸ htwo) hfuel'

theorem findInterpolationPair_agrees_threeWrites :
    ∃ r r', (onBuffer oneWord capacityTwo 1 (findInterpolationPair wordKey 24 2)).run
        (memory.read (CyclicBuffer.insertAll capacityTwo [[tens 0, tens 1], [tens 2]])) = some r ∧
      (onBuffer oneWord capacityTwo 1
          (available >>= fun avail => findInterpolationPairLinear wordKey 24 avail)).run
        (memory.read (CyclicBuffer.insertAll capacityTwo [[tens 0, tens 1], [tens 2]])) = some r' ∧
      SamePair wordKey 24 r r' :=
  findInterpolationPair_agrees capacityTwo wordKey [[tens 0, tens 1], [tens 2]] (by decide)
    (by decide) 24 (show capacityTwo.size ≤ 2 by decide) 0

end Pair

end SafeShm.TimeSeries
