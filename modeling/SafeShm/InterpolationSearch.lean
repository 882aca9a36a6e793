import SafeShm.ClosestSearch
import Mathlib.Algebra.Order.Field.Rat
import Mathlib.Algebra.Order.Field.Basic
import Mathlib.Data.Rat.Cast.Order
import Mathlib.Tactic.Linarith
import Mathlib.Tactic.NormNum

/-!
# Interpolation pairs

The loop of `find_interpolation_pair` keeps an index `lo` with a key above the target and an
index `hi` with a key that is not, and ends when they are adjacent. Both ends are then read
again. On a buffer that stays as it is they are the same elements, and the query is exact
bracketing; under a live writer it brackets the target as long as equal indices are answered
by equal elements.
-/

namespace SafeShm.TimeSeries
open AtomicPrograms SingleWriterRuns SequenceLocks

variable {T : Type} {kw : ℕ} {key : T → BitVec kw} {target : BitVec kw}

section Alpha
variable {before after : T} {beforeKey afterKey : BitVec kw}

@[simp] theorem interpPair_before :
    (interpPair target before after beforeKey afterKey).before = before := by
  rw [interpPair]
  split <;> rfl

@[simp] theorem interpPair_after :
    (interpPair target before after beforeKey afterKey).after = after := by
  rw [interpPair]
  split <;> rfl

variable (hb : beforeKey ≤ target) (ha : target ≤ afterKey)
include hb ha

theorem interpPair_alpha (hne : afterKey ≠ beforeKey) :
    (interpPair target before after beforeKey afterKey).alpha =
      ((target.toNat : ℚ) - beforeKey.toNat) / (afterKey.toNat - beforeKey.toNat) := by
  have hle := BitVec.le_trans hb ha
  rw [interpPair, if_neg hne]
  simp only [BitVec.toNat_sub_of_le hb, BitVec.toNat_sub_of_le hle]
  rw [BitVec.le_def] at hb hle
  rw [Nat.cast_sub hb, Nat.cast_sub hle]

private theorem denominator_pos (hne : afterKey ≠ beforeKey) :
    (0 : ℚ) < (afterKey.toNat : ℚ) - beforeKey.toNat := by
  have hle := BitVec.le_def.mp (BitVec.le_trans hb ha)
  have hlt : beforeKey.toNat < afterKey.toNat :=
    Nat.lt_of_le_of_ne hle (fun h => hne (BitVec.eq_of_toNat_eq h.symm))
  have hcast : (beforeKey.toNat : ℚ) < afterKey.toNat := by exact_mod_cast hlt
  linarith

theorem interpPair_alpha_nonneg :
    0 ≤ (interpPair target before after beforeKey afterKey).alpha := by
  by_cases hne : afterKey = beforeKey
  · rw [interpPair, if_pos hne]
  · rw [interpPair_alpha hb ha hne]
    apply div_nonneg _ (denominator_pos hb ha hne).le
    have hcast : (beforeKey.toNat : ℚ) ≤ target.toNat := by exact_mod_cast BitVec.le_def.mp hb
    linarith

theorem interpPair_alpha_le_one :
    (interpPair target before after beforeKey afterKey).alpha ≤ 1 := by
  by_cases hne : afterKey = beforeKey
  · rw [interpPair, if_pos hne]
    norm_num
  · rw [interpPair_alpha hb ha hne, div_le_one (denominator_pos hb ha hne)]
    have hcast : (target.toNat : ℚ) ≤ afterKey.toNat := by exact_mod_cast BitVec.le_def.mp ha
    linarith

omit ha in
theorem interpPair_alpha_lt_one (ha : target < afterKey) (hne : afterKey ≠ beforeKey) :
    (interpPair target before after beforeKey afterKey).alpha < 1 := by
  have hle := BitVec.le_of_lt ha
  rw [interpPair_alpha hb hle hne, div_lt_one (denominator_pos hb hle hne)]
  have hcast : (target.toNat : ℚ) < afterKey.toNat := by exact_mod_cast BitVec.lt_def.mp ha
  linarith

end Alpha

section Fixed
variable {avail : BitVec 64} {elem : ℕ → T}

/-- What the loop of `find_interpolation_pair` keeps. -/
structure Straddled (key : T → BitVec kw) (target : BitVec kw) (avail : BitVec 64) (elem : ℕ → T)
    (lo hi : BitVec 64) : Prop where
  lo_lt : lo.toNat < hi.toNat
  hi_lt : hi.toNat < avail.toNat
  above : target < key (elem lo.toNat)
  below : key (elem hi.toNat) ≤ target

theorem run_bracketSearch {fuel : ℕ} {lo hi : BitVec 64}
    (h : Straddled key target avail elem lo hi) (hfuel : hi.toNat - lo.toNat ≤ fuel) :
    ∃ lo' hi', (bracketSearch key target fuel lo hi).run (fixedAnswers avail elem) =
        some (some (lo', hi')) ∧
      hi'.toNat = lo'.toNat + 1 ∧ Straddled key target avail elem lo' hi' := by
  induction fuel generalizing lo hi with
  | zero =>
    have := h.lo_lt
    omega
  | succ fuel ih =>
    have hlt := h.lo_lt
    have hhi := h.hi_lt
    have hnext : (lo + 1).toNat = lo.toNat + 1 := by bv_omega
    rw [bracketSearch]
    by_cases hgap : lo + 1 < hi
    · rw [if_pos hgap]
      have hmid := toNat_middle (BitVec.lt_def.mpr hlt)
      rw [BitVec.lt_def, hnext] at hgap
      have hlo_mid : lo.toNat < (middle lo hi).toNat := by omega
      have hmid_hi : (middle lo hi).toNat < hi.toNat := by omega
      have hin : (middle lo hi).toNat < avail.toNat := hmid_hi.trans hhi
      generalize middle lo hi = mid at hmid hlo_mid hmid_hi hin
      simp only [tryGet, Prog.load_bind, Prog.ret_bind, Prog.run_load, fixedAnswers, if_pos hin]
      by_cases habove : target < key (elem mid.toNat)
      · rw [if_pos habove]
        apply ih ⟨hmid_hi, hhi, habove, h.below⟩
        omega
      · rw [if_neg habove]
        apply ih ⟨hlo_mid, hin, h.above, ?_⟩
        · omega
        · rw [BitVec.lt_def] at habove
          exact BitVec.le_def.mpr (Nat.le_of_not_lt habove)
    · rw [if_neg hgap]
      rw [BitVec.lt_def, hnext] at hgap
      exact ⟨lo, hi, rfl, by omega, h⟩

variable (key target) in
/-- There is no pair: fewer than two elements, or the target is beyond the newest or the
oldest key. The elements are given newest first. -/
def OutOfRange (view : List T) : Prop :=
  view.length < 2 ∨ (∃ e ∈ view.head?, key e < target) ∨ ∃ e ∈ view.getLast?, target < key e

variable (key target) in
/-- The exact answer for a target in range: the newest or the oldest element twice, or two
adjacent elements with the target between them and the exact ratio. -/
inductive Brackets (view : List T) : InterpPair T → Prop
  | newest {newest : T} (hn : view.head? = some newest) (h : target = key newest) :
      Brackets view ⟨newest, newest, 0⟩
  | oldest {newest oldest : T} (hn : view.head? = some newest) (ho : view.getLast? = some oldest)
      (hne : target ≠ key newest) (h : target = key oldest) : Brackets view ⟨oldest, oldest, 0⟩
  | between {newest oldest : T} {p : InterpPair T} (i : ℕ) (hn : view.head? = some newest)
      (ho : view.getLast? = some oldest) (hnewest : target ≠ key newest)
      (holdest : target ≠ key oldest) (hbefore : view[i + 1]? = some p.before)
      (hafter : view[i]? = some p.after) (hle : key p.before ≤ target)
      (hlt : target < key p.after)
      (halpha : p.alpha = ((target.toNat : ℚ) - (key p.before).toNat) /
        ((key p.after).toNat - (key p.before).toNat))
      (hnonneg : 0 ≤ p.alpha) (hone : p.alpha < 1) : Brackets view p

theorem run_readBracket {lo hi : BitVec 64} (h : Straddled key target avail elem lo hi) :
    (readBracket key target lo hi).run (fixedAnswers avail elem) =
      some (some (interpPair target (elem hi.toNat) (elem lo.toNat) (key (elem hi.toNat))
        (key (elem lo.toNat)))) := by
  have hlo : lo.toNat < avail.toNat := h.lo_lt.trans h.hi_lt
  simp only [readBracket, tryGet, Prog.load_bind, Prog.ret_bind, Prog.run_load, fixedAnswers,
    if_pos hlo, if_pos h.hi_lt, Prog.pure_eq, Prog.run_ret]

private theorem run_bracket {fuel : ℕ} (hfuel : avail.toNat ≤ fuel) (htwo : 2 ≤ avail.toNat)
    (hnewest : target < key (elem 0)) (holdest : key (elem (avail.toNat - 1)) ≤ target) :
    ∃ i, i + 1 < avail.toNat ∧ key (elem (i + 1)) ≤ target ∧ target < key (elem i) ∧
      (bracketSearch key target fuel 0 (avail - 1) >>= fun ends =>
        match ends with
        | none => findInterpolationPairLinear key target avail
        | some (lo, hi) => readBracket key target lo hi).run (fixedAnswers avail elem) =
      some (some (interpPair target (elem (i + 1)) (elem i) (key (elem (i + 1)))
        (key (elem i)))) := by
  have hlast : (avail - 1).toNat = avail.toNat - 1 := by bv_omega
  have hinit : Straddled key target avail elem 0 (avail - 1) := by
    refine ⟨?_, by omega, hnewest, ?_⟩
    · rw [hlast]
      exact Nat.sub_pos_of_lt htwo
    · rwa [hlast]
  obtain ⟨lo, hi, hrun, hadj, hend⟩ := run_bracketSearch hinit
    (show (avail - 1).toNat - (0 : BitVec 64).toNat ≤ fuel by omega)
  refine ⟨lo.toNat, ?_, ?_, hend.above, ?_⟩
  · rw [← hadj]
    exact hend.hi_lt
  · rw [← hadj]
    exact hend.below
  · rw [Prog.run_bind, hrun, ← hadj]
    exact run_readBracket hend

private theorem Brackets.interpPair_between {view : List T} {newest oldest before after : T} {i : ℕ}
    (hn : view.head? = some newest) (ho : view.getLast? = some oldest)
    (hnewest : target ≠ key newest) (holdest : target ≠ key oldest)
    (hbefore : view[i + 1]? = some before) (hafter : view[i]? = some after)
    (hle : key before ≤ target) (hlt : target < key after) :
    Brackets key target view (interpPair target before after (key before) (key after)) := by
  have hne : key after ≠ key before := by
    intro heq
    rw [BitVec.le_def] at hle
    rw [BitVec.lt_def, heq] at hlt
    omega
  have hle' := BitVec.le_of_lt hlt
  apply Brackets.between i hn ho hnewest holdest
  · rwa [interpPair_before]
  · rwa [interpPair_after]
  · rwa [interpPair_before]
  · rwa [interpPair_after]
  · rw [interpPair_before, interpPair_after, interpPair_alpha hle hle' hne]
  · exact interpPair_alpha_nonneg hle hle'
  · exact interpPair_alpha_lt_one hle hlt hne

private theorem run_boundaries {fuel : ℕ} (htwo : 2 ≤ avail.toNat) :
    (findInterpolationPair key target fuel).run (fixedAnswers avail elem) =
      (searchPair key target fuel avail (elem 0) (elem (avail.toNat - 1))).run
        (fixedAnswers avail elem) := by
  have hfew : ¬ avail < 2 := by
    rw [BitVec.lt_def]
    exact Nat.not_lt_of_le htwo
  have hlast : (avail - 1).toNat = avail.toNat - 1 := by bv_omega
  have hfirst : (0 : BitVec 64).toNat < avail.toNat := Nat.zero_lt_of_lt htwo
  have hfinal : avail.toNat - 1 < avail.toNat := by omega
  refine (congrArg (Prog.run (fixedAnswers avail elem)) (if_neg hfew)).trans ?_
  simp only [tryGet, Prog.load_bind, Prog.ret_bind, Prog.run_load, fixedAnswers, if_pos hfirst,
    hlast, if_pos hfinal]
  rfl

theorem view_getElem {n : ℕ} (elem : ℕ → T) {i : ℕ} (hi : i < n) :
    ((List.range n).map elem)[i]? = some (elem i) := by
  rw [List.getElem?_map, List.getElem?_range hi]
  rfl

variable (key target elem) in
/-- On a buffer that stays as it is, `find_interpolation_pair` is exact bracketing. -/
theorem run_findInterpolationPair {fuel : ℕ} (hfuel : avail.toNat ≤ fuel) :
    ∃ r, (findInterpolationPair key target fuel).run (fixedAnswers avail elem) = some r ∧
      (r = none ↔ OutOfRange key target ((List.range avail.toNat).map elem)) ∧
      ∀ p, r = some p → Brackets key target ((List.range avail.toNat).map elem) p := by
  have hlen : ((List.range avail.toNat).map elem).length = avail.toNat := by simp
  have hget : ∀ i < avail.toNat, ((List.range avail.toNat).map elem)[i]? = some (elem i) :=
    fun i hi => view_getElem elem hi
  generalize (List.range avail.toNat).map elem = view at hlen hget
  by_cases hfew : avail < 2
  · refine ⟨none, ?_, ?_, by simp⟩
    · exact congrArg (Prog.run (fixedAnswers avail elem)) (if_pos hfew)
    · refine iff_of_true rfl (.inl ?_)
      rw [hlen]
      exact BitVec.lt_def.mp hfew
  have htwo : 2 ≤ avail.toNat := by
    rw [BitVec.lt_def] at hfew
    exact Nat.le_of_not_lt hfew
  have hn : view.head? = some (elem 0) := by rw [List.head?_eq_getElem?, hget 0 (by omega)]
  have ho : view.getLast? = some (elem (avail.toNat - 1)) := by
    rw [List.getLast?_eq_getElem?, hlen, hget _ (by omega)]
  rw [run_boundaries htwo]
  by_cases hout : key (elem 0) < target ∨ target < key (elem (avail.toNat - 1))
  · rw [searchPair, if_pos hout]
    refine ⟨none, rfl, iff_of_true rfl (.inr ?_), by simp⟩
    simpa [hn, ho] using hout
  have hin : ¬ OutOfRange key target view := by
    intro h
    rcases h with hlt | hbeyond
    · omega
    · simp only [hn, ho, Option.mem_some_iff, exists_eq_left'] at hbeyond
      exact hout hbeyond
  -- from here on a pair is returned, and it remains to say which one
  suffices hpair : ∃ p, (searchPair key target fuel avail (elem 0) (elem (avail.toNat - 1))).run
      (fixedAnswers avail elem) = some (some p) ∧ Brackets key target view p by
    obtain ⟨p, hrun, hp⟩ := hpair
    refine ⟨some p, hrun, iff_of_false (by simp) hin, ?_⟩
    intro p' hp'
    obtain rfl := Option.some.inj hp'
    exact hp
  rw [searchPair, if_neg hout]
  by_cases hnewest : target = key (elem 0)
  · rw [if_pos hnewest]
    exact ⟨_, rfl, .newest hn hnewest⟩
  rw [if_neg hnewest]
  by_cases holdest : target = key (elem (avail.toNat - 1))
  · rw [if_pos holdest]
    exact ⟨_, rfl, .oldest hn ho hnewest holdest⟩
  rw [if_neg holdest]
  have hbelow : target < key (elem 0) := by
    rw [BitVec.lt_def] at hout ⊢
    have hne : target.toNat ≠ (key (elem 0)).toNat := fun h => hnewest (BitVec.eq_of_toNat_eq h)
    omega
  have habove : key (elem (avail.toNat - 1)) ≤ target := by
    rw [BitVec.lt_def, BitVec.lt_def] at hout
    rw [BitVec.le_def]
    omega
  obtain ⟨i, hi, hle, hlt, hrun⟩ := run_bracket hfuel htwo hbelow habove
  refine ⟨_, hrun, ?_⟩
  exact Brackets.interpPair_between hn ho hnewest holdest (hget _ hi) (hget _ (by omega)) hle hlt

end Fixed

section Quiet
variable {F : FlatType}

theorem run_findInterpolationPair_quiet (cap : Capacity) (key : F.T → BitVec kw)
    {values : List F.T} {vals : ℕ → F.T} (hvals : ∀ k v, values[k]? = some v → vals k = v)
    (target : BitVec kw) {fuel : ℕ} (hfuel : cap.size ≤ fuel) (slotFuel : ℕ) :
    ∃ r, (onBuffer F cap (slotFuel + 1) (findInterpolationPair key target fuel)).run
        (memory.read (CyclicBuffer.quiet cap vals values.length)) = some r ∧
      (r = none ↔ OutOfRange key target (window cap values).reverse) ∧
      ∀ p, r = some p → Brackets key target (window cap values).reverse p := by
  have havail := CyclicBuffer.toNat_available cap values.length
  have hle : (CyclicBuffer.umin (BitVec.ofNat 64 values.length) cap.N).toNat ≤ fuel := by
    rw [havail]
    exact (Nat.min_le_right _ _).trans hfuel
  rw [run_onBuffer, window_reverse cap hvals, ← havail]
  exact run_findInterpolationPair key target (fun i => vals (values.length - 1 - i)) hle

/-- `find_interpolation_pair` is exact bracketing: after any insertions, and with no insertion
going on, it returns nothing exactly when fewer than two elements are available or the target
is out of range, and otherwise the bracketing pair of the available elements. -/
theorem findInterpolationPair_brackets (cap : Capacity) (key : F.T → BitVec kw)
    (sessions : List (List F.T)) (target : BitVec kw) {fuel : ℕ} (hfuel : cap.size ≤ fuel)
    (slotFuel : ℕ) :
    let view := (window cap sessions.flatten).reverse
    ∃ r, (onBuffer F cap (slotFuel + 1) (findInterpolationPair key target fuel)).run
        (memory.read (CyclicBuffer.insertAll cap sessions)) = some r ∧
      (r = none ↔ OutOfRange key target view) ∧
      ∀ p, r = some p → Brackets key target view p := by
  intro view
  obtain ⟨vals, hvals, hquiet⟩ := CyclicBuffer.represents_insertAll cap sessions
  have havail := CyclicBuffer.toNat_available cap sessions.flatten.length
  have hview : view = _ := window_reverse cap hvals
  have hle : (CyclicBuffer.umin (BitVec.ofNat 64 sessions.flatten.length) cap.N).toNat ≤ fuel := by
    rw [havail]
    exact (Nat.min_le_right _ _).trans hfuel
  have h := run_findInterpolationPair key target
    (fun i => vals (sessions.flatten.length - 1 - i)) hle
  rw [hquiet, run_onBuffer, hview]
  rwa [havail] at h

/-- Keys 10, 20, 30 in a ring of two slots, and the target 24. -/
theorem findInterpolationPair_brackets_threeWrites : ∃ p,
    (onBuffer oneWord capacityTwo 1 (findInterpolationPair wordKey 24 2)).run
        (memory.read (CyclicBuffer.insertAll capacityTwo [[tens 0, tens 1], [tens 2]])) =
      some (some p) ∧
    p.before = tens 1 ∧ p.after = tens 2 ∧ Brackets wordKey 24 [tens 2, tens 1] p := by
  obtain ⟨r, hrun, -, hbrackets⟩ := findInterpolationPair_brackets capacityTwo wordKey
    [[tens 0, tens 1], [tens 2]] 24 (show capacityTwo.size ≤ 2 by decide) 0
  have helems : ((onBuffer oneWord capacityTwo 1 (findInterpolationPair wordKey 24 2)).run
      (memory.read (CyclicBuffer.insertAll capacityTwo [[tens 0, tens 1], [tens 2]]))).map
        (Option.map (fun p => (p.before, p.after))) = some (some (tens 1, tens 2)) := by
    decide +kernel
  rw [hrun] at helems
  cases r with
  | none => simp at helems
  | some p =>
    simp only [Option.map_some, Option.some.injEq, Prod.mk.injEq] at helems
    exact ⟨p, hrun, helems.1, helems.2, hbrackets p rfl⟩

end Quiet

section AnyAnswers
variable {fuel : ℕ} {tr : List ((q : Request) × q.Answer T)} {elem : BitVec 64 → T}

/-- The pair brackets the target: its unsigned subtractions do not wrap and its factor is
between 0 and 1. -/
structure Bracketed (key : T → BitVec kw) (target : BitVec kw) (p : InterpPair T) : Prop where
  before_le : key p.before ≤ target
  le_after : target ≤ key p.after
  sub_before : ((target - key p.before).toNat : ℤ) = target.toNat - (key p.before).toNat
  sub_after :
    ((key p.after - key p.before).toNat : ℤ) = (key p.after).toNat - (key p.before).toNat
  alpha_nonneg : 0 ≤ p.alpha
  alpha_le_one : p.alpha ≤ 1

theorem bracketed_of_le {p : InterpPair T} (hb : key p.before ≤ target)
    (ha : target ≤ key p.after) (hnonneg : 0 ≤ p.alpha) (hone : p.alpha ≤ 1) :
    Bracketed key target p := by
  have hle := BitVec.le_trans hb ha
  refine ⟨hb, ha, ?_, ?_, hnonneg, hone⟩
  · rw [BitVec.toNat_sub_of_le hb]
    exact Nat.cast_sub (BitVec.le_def.mp hb)
  · rw [BitVec.toNat_sub_of_le hle]
    exact Nat.cast_sub (BitVec.le_def.mp hle)

theorem bracketed_interpPair {before after : T} (hb : key before ≤ target)
    (ha : target ≤ key after) :
    Bracketed key target (interpPair target before after (key before) (key after)) := by
  apply bracketed_of_le
  · rwa [interpPair_before]
  · rwa [interpPair_after]
  · exact interpPair_alpha_nonneg hb ha
  · exact interpPair_alpha_le_one hb ha

theorem bracketed_boundary {e : T} (h : target = key e) :
    Bracketed key target ⟨e, e, 0⟩ := by
  have hle : key e ≤ target := by
    rw [h]
    exact BitVec.le_refl _
  have hle' : target ≤ key e := by
    rw [h]
    exact BitVec.le_refl _
  exact bracketed_of_le hle hle' le_rfl zero_le_one

/-- Every element that was read at index `i` is `elem i`. -/
def AnsweredBy (elem : BitVec 64 → T) (tr : List ((q : Request) × q.Answer T)) : Prop :=
  ∀ i e, ⟨.tryGet i, some e⟩ ∈ tr → e = elem i

theorem AnsweredBy.mono {tr' : List ((q : Request) × q.Answer T)} (h : AnsweredBy elem tr)
    (hsub : tr' ⊆ tr) : AnsweredBy elem tr' :=
  fun i e he => h i e (hsub he)

/-- What the loop of the linear search keeps: the elements on the two sides of the target and
their keys. -/
structure Bracket.Sound (key : T → BitVec kw) (target : BitVec kw) (b : Bracket T kw) : Prop where
  before : ∀ e, b.beforeElem = some e → b.beforeKey = key e ∧ key e ≤ target
  after : ∀ e, b.afterElem = some e → b.afterKey = key e ∧ target ≤ key e

theorem Bracket.Sound.add {b : Bracket T kw} (h : b.Sound key target) (e : T) :
    (b.add key target e).Sound key target := by
  have hfirst : (if key e ≤ target ∧ target - key e < b.beforeDiff then
      { b with beforeElem := some e, beforeKey := key e, beforeDiff := target - key e }
      else b).Sound key target := by
    split
    · rename_i hle
      refine ⟨?_, h.after⟩
      intro e' he'
      obtain rfl := Option.some.inj he'
      exact ⟨rfl, hle.1⟩
    · exact h
  rw [Bracket.add]
  generalize (if key e ≤ target ∧ target - key e < b.beforeDiff then
      { b with beforeElem := some e, beforeKey := key e, beforeDiff := target - key e }
      else b) = b' at hfirst
  split
  · rename_i hle
    refine ⟨hfirst.before, ?_⟩
    intro e' he'
    obtain rfl := Option.some.inj he'
    exact ⟨rfl, hle.1⟩
  · exact hfirst

theorem answers_bracketScan {n : ℕ} {i : BitVec 64} {b b' : Bracket T kw}
    (h : Answers (bracketScan key target n i b) tr b') (hb : b.Sound key target) :
    b'.Sound key target := by
  induction n generalizing i b tr with
  | zero =>
    obtain ⟨-, rfl⟩ := answers_ret.mp h
    exact hb
  | succ n ih =>
    obtain ⟨v, tail, -, htail⟩ := answers_tryGet.mp h
    cases v with
    | none => exact ih htail hb
    | some e => exact ih htail (hb.add e)

theorem answers_findInterpolationPairLinear {avail : BitVec 64} {p : InterpPair T}
    (h : Answers (findInterpolationPairLinear key target avail) tr (some p)) :
    Bracketed key target p := by
  obtain ⟨b, tr₁, tr₂, -, h₁, h₂⟩ := answers_bind.mp h
  have hb := answers_bracketScan h₁ ⟨by simp, by simp⟩
  split at h₂
  · rename_i before after hbefore hafter
    obtain ⟨-, heq⟩ := answers_ret.mp h₂
    obtain rfl := Option.some.inj heq
    obtain ⟨hkb, hle⟩ := hb.before before hbefore
    obtain ⟨hka, hle'⟩ := hb.after after hafter
    rw [hkb, hka]
    exact bracketed_interpPair hle hle'
  · exact absurd h₂ not_answers_ret_none

/-- The ends of the loop straddle the target, for elements that do not change. -/
theorem answers_bracketSearch {lo hi lo' hi' : BitVec 64}
    (h : Answers (bracketSearch key target fuel lo hi) tr (some (lo', hi')))
    (htr : AnsweredBy elem tr) (hlo : target < key (elem lo)) (hhi : key (elem hi) ≤ target) :
    target < key (elem lo') ∧ key (elem hi') ≤ target := by
  induction fuel generalizing lo hi tr with
  | zero => exact absurd h not_answers_spin
  | succ fuel ih =>
    rw [bracketSearch] at h
    split at h
    · obtain ⟨v, tail, rfl, htail⟩ := answers_tryGet.mp h
      have hrest := htr.mono (List.subset_cons_self _ tail)
      cases v with
      | none =>
        exact absurd htail not_answers_ret_none
      | some e =>
        obtain rfl := htr _ e List.mem_cons_self
        simp only at htail
        split at htail
        · rename_i habove
          exact ih htail hrest habove hhi
        · rename_i habove
          apply ih htail hrest hlo
          rw [BitVec.lt_def] at habove
          exact BitVec.le_def.mpr (Nat.le_of_not_lt habove)
    · obtain ⟨-, heq⟩ := answers_ret.mp h
      simp only [Option.some.injEq, Prod.mk.injEq] at heq
      obtain ⟨rfl, rfl⟩ := heq
      exact ⟨hlo, hhi⟩

theorem answers_readBracket {lo hi : BitVec 64} {p : InterpPair T}
    (h : Answers (readBracket key target lo hi) tr (some p)) (htr : AnsweredBy elem tr) :
    p = interpPair target (elem hi) (elem lo) (key (elem hi)) (key (elem lo)) := by
  obtain ⟨after, tail, rfl, htail⟩ := answers_tryGet.mp h
  obtain ⟨before, tail', rfl, htail'⟩ := answers_tryGet.mp htail
  split at htail'
  · obtain ⟨-, heq⟩ := answers_ret.mp htail'
    obtain rfl := htr lo _ List.mem_cons_self
    obtain rfl := htr hi _ (List.mem_cons_of_mem _ List.mem_cons_self)
    exact (Option.some.inj heq).symm
  · exact absurd htail' not_answers_ret_none

theorem answers_searchPair {avail : BitVec 64} {p : InterpPair T}
    (h : Answers (searchPair key target fuel avail (elem 0) (elem (avail - 1))) tr (some p))
    (htr : AnsweredBy elem tr) : Bracketed key target p := by
  rw [searchPair] at h
  split at h
  · exact absurd h not_answers_ret_none
  rename_i hout
  split at h
  · rename_i hnewest
    obtain ⟨-, heq⟩ := answers_ret.mp h
    obtain rfl := Option.some.inj heq
    exact bracketed_boundary hnewest
  rename_i hnewest
  split at h
  · rename_i holdest
    obtain ⟨-, heq⟩ := answers_ret.mp h
    obtain rfl := Option.some.inj heq
    exact bracketed_boundary holdest
  have hne : target.toNat ≠ (key (elem 0)).toNat := fun h => hnewest (BitVec.eq_of_toNat_eq h)
  rw [BitVec.lt_def, BitVec.lt_def] at hout
  obtain ⟨ends, tr₁, tr₂, rfl, h₁, h₂⟩ := answers_bind.mp h
  cases ends with
  | none => exact answers_findInterpolationPairLinear h₂
  | some ends =>
    obtain ⟨lo, hi⟩ := ends
    obtain ⟨hlo, hhi⟩ := answers_bracketSearch h₁ (htr.mono (List.subset_append_left tr₁ tr₂))
      (BitVec.lt_def.mpr (by omega)) (BitVec.le_def.mpr (by omega))
    rw [answers_readBracket h₂ (htr.mono (List.subset_append_right tr₁ tr₂))]
    exact bracketed_interpPair hhi (BitVec.le_of_lt hlo)

/-- Whatever `available()` returned: when equal indices are answered by equal elements, a
pair that is returned brackets the target. -/
theorem answers_pairAmong {avail : BitVec 64} {p : InterpPair T}
    (h : Answers (pairAmong key target fuel avail) tr (some p)) (htr : AnsweredBy elem tr) :
    Bracketed key target p := by
  rw [pairAmong] at h
  split at h
  · exact absurd h not_answers_ret_none
  · obtain ⟨newest, tail, rfl, htail⟩ := answers_tryGet.mp h
    obtain ⟨oldest, tail', rfl, htail'⟩ := answers_tryGet.mp htail
    have hrest := (htr.mono (List.subset_cons_self _ _)).mono (List.subset_cons_self _ tail')
    split at htail'
    · obtain rfl := htr 0 _ List.mem_cons_self
      obtain rfl := htr (avail - 1) _ (List.mem_cons_of_mem _ List.mem_cons_self)
      exact answers_searchPair htail' hrest
    · exact absurd htail' not_answers_ret_none

end AnyAnswers

end SafeShm.TimeSeries
