import SafeShm.InterpolationSearch

/-!
# Sanitized keys

`sanitize` checks a 64-bit value and wraps it; the overloads of the queries of `TimeSeries` unwrap
it and pass it on as a key. The conversion to the key type is implicit in the source and drops the
upper bits, so that with keys of fewer than 64 bits the query may be for another number than the
one that was checked.
-/

namespace SafeShm.TimeSeries
open AtomicPrograms SequenceLocks

/-- `SanitizedKey<Tag>`. -/
structure SanitizedKey (Tag : Type) where
  value : BitVec 64

/-- `sanitize<Tag>(raw, fn)`, the only way to make a `SanitizedKey`. -/
def sanitize (Tag : Type) (raw : BitVec 64) (fn : BitVec 64 → Bool) : Option (SanitizedKey Tag) :=
  if fn raw then some ⟨raw⟩ else none

/-- `RangeValidator`. -/
def rangeValidator (minVal maxVal v : BitVec 64) : Bool := minVal ≤ v && v ≤ maxVal

section Overloads
variable {T Tag : Type} {kw : ℕ} (key : T → BitVec kw) (target : SanitizedKey Tag)

/-- `find_closest(SanitizedKey<Tag>, max_distance)`. -/
def findClosestSanitized (fuel : ℕ) (maxDistance : Option (BitVec kw)) :
    QueryProgram T (Option T) :=
  findClosest key (target.value.setWidth kw) fuel maxDistance

/-- `find_interpolation_pair(SanitizedKey<Tag>)`. -/
def findInterpolationPairSanitized (fuel : ℕ) : QueryProgram T (Option (InterpPair T)) :=
  findInterpolationPair key (target.value.setWidth kw) fuel

/-- `get_latest_if_fresh(SanitizedKey<Tag>)`. -/
def getLatestIfFreshSanitized : QueryProgram T (Option T) :=
  getLatestIfFresh key (target.value.setWidth kw)

end Overloads

section Views
variable {T : Type} {kw : ℕ} {key : T → BitVec kw} {target : BitVec kw} {view : List T}

variable (key) in
/-- The element is one of those whose key is nearest to `v`, as an integer. -/
def NearestTo (v : BitVec 64) (view : List T) (e : T) : Prop :=
  e ∈ view ∧ ∀ e' ∈ view,
    ((key e).toNat - v.toNat : ℤ).natAbs ≤ ((key e').toNat - v.toNat : ℤ).natAbs

variable (key) in
/-- The number `v` lies between the keys of the pair. -/
def Encloses (v : BitVec 64) (p : InterpPair T) : Prop :=
  (key p.before).toNat ≤ v.toNat ∧ v.toNat ≤ (key p.after).toNat

variable (key) in
/-- The conversion of `v` to a key does no harm: it keeps the number, or there is only one element,
or the new number is still above all keys, or all keys are equal and above the new number. -/
def Survives (v : BitVec 64) (view : List T) : Prop :=
  v.toNat < 2 ^ kw ∨ view.length = 1 ∨ (∀ e ∈ view, key e < v.setWidth kw) ∨
    ∀ e ∈ view, v.setWidth kw < key e ∧ ∀ e' ∈ view, key e = key e'

theorem Brackets.key_le {p : InterpPair T} (h : Brackets key target view p) :
    key p.before ≤ target ∧ target ≤ key p.after := by
  cases h with
  | newest hn h =>
    rw [h]
    exact ⟨BitVec.le_refl _, BitVec.le_refl _⟩
  | oldest hn ho hne h =>
    rw [h]
    exact ⟨BitVec.le_refl _, BitVec.le_refl _⟩
  | between i hn ho hnewest holdest hbefore hafter hle hlt => exact ⟨hle, BitVec.le_of_lt hlt⟩

section Sorted
variable (hview : view.Pairwise (fun a b => key b ≤ key a))
include hview

theorem key_le_of_head? {newest e : T} (hn : view.head? = some newest) (he : e ∈ view) :
    key e ≤ key newest := by
  cases view with
  | nil => exact absurd he List.not_mem_nil
  | cons a rest =>
    obtain rfl := Option.some.inj hn
    rcases List.mem_cons.mp he with rfl | he
    · exact BitVec.le_refl _
    · exact (List.pairwise_cons.mp hview).1 e he

theorem key_le_of_getLast? {oldest e : T} (ho : view.getLast? = some oldest) (he : e ∈ view) :
    key oldest ≤ key e := by
  obtain ⟨rest, rfl⟩ := List.getLast?_eq_some_iff.mp ho
  rcases List.mem_append.mp he with he | he
  · exact (List.pairwise_append.mp hview).2.2 e he oldest (List.mem_singleton_self _)
  · rw [List.mem_singleton.mp he]
    exact BitVec.le_refl _

/-- Out of range with two elements or more means below all keys or above all of them. -/
theorem outOfRange_iff (htwo : 2 ≤ view.length) : OutOfRange key target view ↔
    (∀ e ∈ view, key e < target) ∨ ∀ e ∈ view, target < key e := by
  have hne : view ≠ [] := by
    rintro rfl
    simp at htwo
  obtain ⟨newest, hn⟩ : ∃ newest, view.head? = some newest := ⟨_, List.head?_eq_some_head hne⟩
  obtain ⟨oldest, ho⟩ : ∃ oldest, view.getLast? = some oldest :=
    ⟨_, List.getLast?_eq_some_getLast hne⟩
  rw [OutOfRange, hn, ho]
  simp only [Option.mem_some_iff, exists_eq_left', Nat.not_lt_of_le htwo, false_or]
  constructor
  · rintro (hbelow | habove)
    · refine .inl fun e he => ?_
      have hle := key_le_of_head? hview hn he
      rw [BitVec.le_def] at hle
      rw [BitVec.lt_def] at hbelow ⊢
      omega
    · refine .inr fun e he => ?_
      have hle := key_le_of_getLast? hview ho he
      rw [BitVec.le_def] at hle
      rw [BitVec.lt_def] at habove ⊢
      omega
  · rintro (hbelow | habove)
    · exact .inl (hbelow newest (List.mem_of_head? hn))
    · exact .inr (habove oldest (List.mem_of_getLast? ho))

omit hview in
private theorem nearestTo_iff_of_le {v : BitVec 64} (hv : 2 ^ kw ≤ v.toNat) {e : T}
    (he : e ∈ view) : NearestTo key v view e ↔ ∀ e' ∈ view, key e' ≤ key e := by
  have hkey := (key e).isLt
  constructor
  · rintro ⟨-, hnear⟩ e' he'
    have hle := hnear e' he'
    have hkey' := (key e').isLt
    rw [BitVec.le_def]
    omega
  · intro hall
    refine ⟨he, ?_⟩
    intro e' he'
    have hle := BitVec.le_def.mp (hall e' he')
    have hkey' := (key e').isLt
    omega

omit hview in
private theorem forall_encloses_iff_of_le {v : BitVec 64} (hv : 2 ^ kw ≤ v.toNat)
    {r : Option (InterpPair T)} : (∀ p, r = some p → Encloses key v p) ↔ r = none := by
  constructor
  · intro hall
    cases hr : r with
    | none => rfl
    | some p =>
      have hle := (hall p hr).2
      have hkey := (key p.after).isLt
      omega
  · rintro rfl p hp
    cases hp

/-- With two elements or more, an element nearest to `target` has the greatest key and the target
is out of range exactly if the target is above all keys, or below all of them and they are equal. -/
private theorem greatest_and_outOfRange_iff (htwo : 2 ≤ view.length) {e : T} (he : e ∈ view)
    (hnear : ∀ e' ∈ view, distance key target e ≤ distance key target e') :
    ((∀ e' ∈ view, key e' ≤ key e) ∧ OutOfRange key target view) ↔
      (∀ e ∈ view, key e < target) ∨ ∀ e ∈ view, target < key e ∧ ∀ e' ∈ view, key e = key e' := by
  rw [outOfRange_iff hview htwo]
  constructor
  · rintro ⟨hgreatest, hbelow | habove⟩
    · exact .inl hbelow
    · -- the element nearest to a target below all keys has the smallest of them
      have hleast : ∀ e' ∈ view, key e' = key e := by
        intro e' he'
        have hle := hnear e' he'
        have hgreat := BitVec.le_def.mp (hgreatest e' he')
        have h := BitVec.lt_def.mp (habove e he)
        have h' := BitVec.lt_def.mp (habove e' he')
        apply BitVec.eq_of_toNat_eq
        rw [distance, distance] at hle
        omega
      refine .inr fun e₁ he₁ => ⟨habove e₁ he₁, ?_⟩
      intro e₂ he₂
      rw [hleast e₁ he₁, hleast e₂ he₂]
  · rintro (hbelow | habove)
    · refine ⟨?_, .inl hbelow⟩
      intro e' he'
      have hle := hnear e' he'
      have h := BitVec.lt_def.mp (hbelow e he)
      have h' := BitVec.lt_def.mp (hbelow e' he')
      rw [distance, distance] at hle
      rw [BitVec.le_def]
      omega
    · refine ⟨?_, .inr fun e' he' => (habove e' he').1⟩
      intro e' he'
      rw [(habove e he).2 e' he']
      exact BitVec.le_refl _

/-- What the queries return is right for the value itself exactly if the conversion does no harm. -/
theorem queries_right_iff {v : BitVec 64} {e : T} {r : Option (InterpPair T)} (he : e ∈ view)
    (hnear : ∀ e' ∈ view, distance key (v.setWidth kw) e ≤ distance key (v.setWidth kw) e')
    (hnone : r = none ↔ OutOfRange key (v.setWidth kw) view)
    (hsome : ∀ p, r = some p → Brackets key (v.setWidth kw) view p) :
    (NearestTo key v view e ∧ ∀ p, r = some p → Encloses key v p) ↔ Survives key v view := by
  have hwidth : (v.setWidth kw).toNat = v.toNat % 2 ^ kw := BitVec.toNat_setWidth ..
  by_cases hfits : v.toNat < 2 ^ kw
  · -- the key is the value
    rw [Nat.mod_eq_of_lt hfits] at hwidth
    refine iff_of_true ⟨⟨he, ?_⟩, ?_⟩ (.inl hfits)
    · intro e' he'
      have hle := hnear e' he'
      rwa [distance, distance, hwidth] at hle
    · intro p hp
      have hle := (hsome p hp).key_le
      rw [BitVec.le_def, BitVec.le_def, hwidth] at hle
      exact hle
  · have hv := Nat.le_of_not_lt hfits
    rw [nearestTo_iff_of_le hv he, forall_encloses_iff_of_le hv, hnone, Survives]
    simp only [hfits, false_or]
    by_cases hone : view.length = 1
    · obtain ⟨x, rfl⟩ := List.length_eq_one_iff.mp hone
      refine iff_of_true ⟨?_, .inl (by simp)⟩ (.inl hone)
      intro e' he'
      rw [List.mem_singleton.mp he, List.mem_singleton.mp he']
      exact BitVec.le_refl _
    · have hpos := List.length_pos_of_mem he
      simp only [hone, false_or]
      exact greatest_and_outOfRange_iff hview (by omega) he hnear

end Sorted

end Views

section Quiet
variable {F : FlatType} {kw : ℕ}

/-- The overloads for sanitized keys: for a value `v` that its validator accepts, and a buffer that
is not empty, filled with non-decreasing keys and in no insertion, `find_closest` returns an
available element nearest to `v` and `find_interpolation_pair` returns only pairs around `v`,
exactly if the conversion to the key type does no harm. -/
theorem sanitized_queries_iff (Tag : Type) (cap : Capacity) (key : F.T → BitVec kw)
    (sessions : List (List F.T))
    (hsorted : sessions.flatten.Pairwise (fun a b => key a ≤ key b))
    (hne : window cap sessions.flatten ≠ []) (fn : BitVec 64 → Bool) (v : BitVec 64)
    (hv : fn v = true) {fuel : ℕ} (hfuel : cap.size ≤ fuel) (slotFuel : ℕ) :
    let m := memory.read (CyclicBuffer.insertAll cap sessions)
    ∃ k, sanitize Tag v fn = some k ∧
      (((∃ e, (onBuffer F cap (slotFuel + 1) (findClosestSanitized key k fuel none)).run m =
            some (some e) ∧ NearestTo key v (window cap sessions.flatten) e) ∧
          ∀ p, (onBuffer F cap (slotFuel + 1) (findInterpolationPairSanitized key k fuel)).run m =
            some (some p) → Encloses key v p) ↔
        Survives key v (window cap sessions.flatten)) := by
  intro m
  refine ⟨⟨v⟩, if_pos hv, ?_⟩
  have hview : (window cap sessions.flatten).reverse.Pairwise (fun a b => key b ≤ key a) :=
    List.pairwise_reverse.mpr (hsorted.sublist (List.drop_sublist _ _))
  obtain ⟨vals, hvals, hquiet⟩ := CyclicBuffer.represents_insertAll cap sessions
  obtain ⟨r, hrun, hempty, hnear⟩ :=
    run_findClosest_quiet hvals hsorted (v.setWidth kw) none hfuel slotFuel
  obtain ⟨pair, hpair, hnone, hsome⟩ :=
    run_findInterpolationPair_quiet cap key hvals (v.setWidth kw) hfuel slotFuel
  have hrun' : (onBuffer F cap (slotFuel + 1) (findClosest key (v.setWidth kw) fuel none)).run m =
      some r := by
    rw [← hrun]
    exact congrArg (fun s => Prog.run (memory.read s) _) hquiet
  have hpair' : (onBuffer F cap (slotFuel + 1)
      (findInterpolationPair key (v.setWidth kw) fuel)).run m = some pair := by
    rw [← hpair]
    exact congrArg (fun s => Prog.run (memory.read s) _) hquiet
  cases r with
  | none =>
    simp only [true_iff, reduceCtorEq, false_and, exists_false, or_false] at hempty
    exact absurd hempty hne
  | some e =>
    obtain ⟨he, hmin⟩ := hnear e rfl
    have hiff := queries_right_iff hview (List.mem_reverse.mpr he)
      (fun e' he' => hmin e' (List.mem_reverse.mp he')) hnone hsome
    simp only [NearestTo, Survives, List.mem_reverse, List.length_reverse] at hiff
    rw [findClosestSanitized, findInterpolationPairSanitized, hrun', hpair']
    simp only [Option.some.injEq, exists_eq_left', NearestTo, Survives]
    exact hiff

private theorem run_getLatestIfFresh {T : Type} (key : T → BitVec kw) (minKey : BitVec kw)
    (avail : BitVec 64) (elem : ℕ → T) :
    (getLatestIfFresh key minKey).run (fixedAnswers avail elem) =
      some (((List.range avail.toNat).map elem).head?.filter (fun e => minKey ≤ key e)) := by
  by_cases hzero : avail = 0
  · subst hzero
    rfl
  · have hpos : 0 < avail.toNat := BitVec.toNat_pos_of_ne_zero hzero
    have hhead : ((List.range avail.toNat).map elem).head? = some (elem 0) := by
      rw [List.head?_map, List.head?_range, if_neg hpos.ne']
      rfl
    have hanswer : fixedAnswers avail elem (.tryGet 0) = some (elem 0) := if_pos hpos
    rw [hhead, getLatestIfFresh]
    change Prog.run _ (if avail = 0 then _ else _) = _
    rw [if_neg hzero]
    simp only [tryGet, Prog.load_bind, Prog.ret_bind, Prog.run_load, hanswer, Option.filter_some,
      decide_eq_true_eq]
    split <;> rfl

theorem getLatestIfFresh_quiet (cap : Capacity) (key : F.T → BitVec kw)
    (sessions : List (List F.T)) (minKey : BitVec kw) (slotFuel : ℕ) :
    (onBuffer F cap (slotFuel + 1) (getLatestIfFresh key minKey)).run
        (memory.read (CyclicBuffer.insertAll cap sessions)) =
      some ((window cap sessions.flatten).getLast?.filter (fun e => minKey ≤ key e)) := by
  obtain ⟨vals, hvals, hquiet⟩ := CyclicBuffer.represents_insertAll cap sessions
  have havail := CyclicBuffer.toNat_available cap sessions.flatten.length
  rw [hquiet, run_onBuffer, run_getLatestIfFresh, List.getLast?_eq_head?_reverse,
    window_reverse cap hvals, ← havail]
  rfl

/-- The overload for sanitized keys returns only elements that are fresh for `v` itself, exactly if
`v` is a key or the newest element is stale for the number that is left of it. -/
theorem getLatestIfFreshSanitized_fresh_iff (Tag : Type) (cap : Capacity) (key : F.T → BitVec kw)
    (sessions : List (List F.T)) (v : BitVec 64) (slotFuel : ℕ) :
    (∀ e, (onBuffer F cap (slotFuel + 1)
          (getLatestIfFreshSanitized key (⟨v⟩ : SanitizedKey Tag))).run
        (memory.read (CyclicBuffer.insertAll cap sessions)) = some (some e) →
          v.toNat ≤ (key e).toNat) ↔
      v.toNat < 2 ^ kw ∨ ∀ e ∈ (window cap sessions.flatten).getLast?, key e < v.setWidth kw := by
  have hwidth : (v.setWidth kw).toNat = v.toNat % 2 ^ kw := BitVec.toNat_setWidth ..
  simp only [getLatestIfFreshSanitized, getLatestIfFresh_quiet, Option.some.injEq,
    Option.filter_eq_some_iff, decide_eq_true_eq, Option.mem_def, BitVec.le_def, BitVec.lt_def]
  constructor
  · intro hfresh
    by_cases hfits : v.toNat < 2 ^ kw
    · exact .inl hfits
    · refine .inr ?_
      intro e he
      by_contra hstale
      have hle := hfresh e ⟨he, Nat.le_of_not_lt hstale⟩
      have hkey := (key e).isLt
      omega
  · rintro (hfits | hstale) e ⟨he, hle⟩
    · rwa [hwidth, Nat.mod_eq_of_lt hfits] at hle
    · exact absurd hle (Nat.not_le_of_lt (hstale e he))

/-- A payload of one 32-bit word. -/
abbrev halfWord : FlatType := ⟨1, BitVec 32, 0, fun _ => 0⟩

/-- The key of a 32-bit payload is the word. -/
abbrev halfKey (e : halfWord.T) : BitVec 32 := e ⟨0, Nat.zero_lt_one⟩

/-- The elements with keys 10 and 20. -/
abbrev halfTens (m : ℕ) : halfWord.T := fun _ => BitVec.ofNat 32 (10 * (m + 1))

theorem sanitized_queries_fifteen : ∃ k, sanitize Unit 15 (rangeValidator 1 100) = some k ∧
    (∃ e, (onBuffer halfWord capacityTwo 1 (findClosestSanitized halfKey k 2 none)).run
        (memory.read (CyclicBuffer.insertAll capacityTwo [[halfTens 0, halfTens 1]])) =
          some (some e) ∧
      NearestTo halfKey 15 (window capacityTwo [[halfTens 0, halfTens 1]].flatten) e) := by
  obtain ⟨k, hk, hiff⟩ := sanitized_queries_iff Unit capacityTwo halfKey
    [[halfTens 0, halfTens 1]] (by decide) (by decide) (rangeValidator 1 100) 15 (by decide)
    (show capacityTwo.size ≤ 2 by decide) 0
  exact ⟨k, hk, (hiff.mpr (.inl (by decide))).1⟩

/-- The value `2 ^ 32 + 10` is accepted; the element with key 10 is returned although the one with
key 20 is nearer, and the pair of 10 and 10 for a value that is not between them. -/
theorem sanitized_queries_truncated :
    sanitize Unit 4294967306 (rangeValidator 1 8589934592) = some ⟨4294967306⟩ ∧
    (onBuffer halfWord capacityTwo 1 (findClosestSanitized halfKey
        (⟨4294967306⟩ : SanitizedKey Unit) 2 none)).run
        (memory.read (CyclicBuffer.insertAll capacityTwo [[halfTens 0, halfTens 1]])) =
      some (some (halfTens 0)) ∧
    ¬ NearestTo halfKey 4294967306 (window capacityTwo [[halfTens 0, halfTens 1]].flatten)
      (halfTens 0) ∧
    ∃ p, (onBuffer halfWord capacityTwo 1 (findInterpolationPairSanitized halfKey
        (⟨4294967306⟩ : SanitizedKey Unit) 2)).run
        (memory.read (CyclicBuffer.insertAll capacityTwo [[halfTens 0, halfTens 1]])) =
      some (some p) ∧ ¬ Encloses halfKey 4294967306 p := by
  refine ⟨if_pos (by decide), by decide +kernel, ?_, ?_⟩
  · rintro ⟨-, hnear⟩
    exact absurd (hnear (halfTens 1) (by decide)) (by decide)
  · have hpair : ((onBuffer halfWord capacityTwo 1 (findInterpolationPairSanitized halfKey
        (⟨4294967306⟩ : SanitizedKey Unit) 2)).run
        (memory.read (CyclicBuffer.insertAll capacityTwo [[halfTens 0, halfTens 1]]))).map
          (Option.map (fun p => halfKey p.after)) = some (some 10) := by decide +kernel
    obtain ⟨r, hrun, hr⟩ := Option.map_eq_some_iff.mp hpair
    obtain ⟨p, rfl, hkey⟩ := Option.map_eq_some_iff.mp hr
    refine ⟨p, hrun, ?_⟩
    rintro ⟨-, hle⟩
    rw [hkey] at hle
    exact absurd hle (by decide)

end Quiet

end SafeShm.TimeSeries
