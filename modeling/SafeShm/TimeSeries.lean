import SafeShm.CyclicBufferRefinement
import Mathlib.Data.Rat.Defs

/-!
# The time series

The queries of `TimeSeries` on top of a `CyclicBufferReader`. A query is a program whose
loads are the calls `available()` and `try_get(i)` of the reader; each of them loads
`total_writes` again, so under a live writer the same index may be answered by different
elements. `Request.prog` gives the reader's program for a call, and `onBuffer` puts the two
levels together.

Keys are unsigned integers of `kw` bits, indices are `std::size_t`. The `double` of an
interpolation pair is an exact rational here.
-/

namespace SafeShm.TimeSeries
open AtomicPrograms SequenceLocks

/-- The calls that a query makes on its reader. -/
inductive Request where
  | available
  | tryGet (reverseIndex : BitVec 64)
  deriving DecidableEq

/-- What a call returns for elements of type `T`. -/
@[reducible] def Request.Answer (T : Type) : Request → Type
  | .available => BitVec 64
  | .tryGet _ => Option T

abbrev QueryProgram (T A : Type) := Prog Request (Request.Answer T) Empty A

def available {T : Type} : QueryProgram T (BitVec 64) := .load .available .ret

def tryGet {T : Type} (reverseIndex : BitVec 64) : QueryProgram T (Option T) :=
  .load (.tryGet reverseIndex) .ret

/-- `InterpPair`. -/
structure InterpPair (T : Type) where
  before : T
  after : T
  alpha : ℚ

section Queries
variable {T : Type} {kw : ℕ} (key : T → BitVec kw) (target : BitVec kw)

/-- `TimeSeries::key_diff`. -/
def keyDiff (a b : BitVec kw) : BitVec kw := if b < a then a - b else b - a

/-- `lo + (hi - lo) / 2`. -/
def middle (lo hi : BitVec 64) : BitVec 64 := lo + (hi - lo) / 2

/-- The loop of `find_closest_linear`, with `n` turns left, at index `i`. -/
def closestScan : ℕ → BitVec 64 → Option T → BitVec kw → QueryProgram T (Option T × BitVec kw)
  | 0, _, best, bestDiff => return (best, bestDiff)
  | n + 1, i, best, bestDiff => do
      match ← tryGet i with
      | none => closestScan n (i + 1) best bestDiff
      | some elem =>
          let d := keyDiff (key elem) target
          if d < bestDiff then closestScan n (i + 1) (some elem) d
          else closestScan n (i + 1) best bestDiff

/-- `TimeSeries::find_closest_linear`. -/
def findClosestLinear (avail : BitVec 64) (maxDistance : Option (BitVec kw)) :
    QueryProgram T (Option T) := do
  let (best, bestDiff) ← closestScan key target avail.toNat 0 none (BitVec.allOnes kw)
  match best, maxDistance with
  | some _, some d => if d < bestDiff then return none else return best
  | _, _ => return best

/-- How the loop of `find_closest` ends. -/
inductive SearchEnd (T : Type) where
  | overwritten -- `try_get(mid)` returned nothing
  | exact (elem : T)
  | stopped (lo : BitVec 64)

/-- The loop of `find_closest`; `fuel` bounds the turns followed. -/
def closestSearch : ℕ → BitVec 64 → BitVec 64 → QueryProgram T (SearchEnd T)
  | 0, _, _ => .spin
  | fuel + 1, lo, hi =>
      if lo < hi then do
        let mid := middle lo hi
        match ← tryGet mid with
        | none => return .overwritten
        | some elem =>
            if target < key elem then closestSearch fuel (mid + 1) hi
            else if key elem < target then
              if mid = 0 then return .stopped lo else closestSearch fuel lo (mid - 1)
            else return .exact elem
      else return .stopped lo

/-- The check of one neighbour: the nearer of the best element so far and the element at
`i`, when there is one. -/
def checkNeighbor (inRange : Bool) (i : BitVec 64) (best : T) (bestDiff : BitVec kw) :
    QueryProgram T (T × BitVec kw) := do
  if inRange then
    match ← tryGet i with
    | some elem =>
        let d := keyDiff (key elem) target
        if d < bestDiff then return (elem, d) else return (best, bestDiff)
    | none => return (best, bestDiff)
  else return (best, bestDiff)

/-- The rest of `find_closest` after the loop. When the element at `lo` cannot be read
again, the linear search is called without `max_distance`. -/
def checkAround (avail : BitVec 64) (maxDistance : Option (BitVec kw)) (lo : BitVec 64) :
    QueryProgram T (Option T) := do
  match ← tryGet lo with
  | none => findClosestLinear key target avail none
  | some best =>
      let bestDiff := keyDiff (key best) target
      let (best, bestDiff) ← checkNeighbor key target (0 < lo) (lo - 1) best bestDiff
      let (best, _) ← checkNeighbor key target (lo + 1 < avail) (lo + 1) best bestDiff
      match maxDistance with
      | some d => if d < keyDiff (key best) target then return none else return some best
      | none => return some best

/-- `TimeSeries::find_closest`. -/
def findClosest (fuel : ℕ) (maxDistance : Option (BitVec kw)) : QueryProgram T (Option T) := do
  let avail ← available
  if avail = 0 then return none
  match ← closestSearch key target fuel 0 (avail - 1) with
  | .overwritten => findClosestLinear key target avail maxDistance
  | .exact elem => return some elem
  | .stopped lo => checkAround key target avail maxDistance lo

/-- The variables of the loop of `find_interpolation_pair_linear`. -/
structure Bracket (T : Type) (kw : ℕ) where
  beforeElem : Option T
  afterElem : Option T
  beforeKey : BitVec kw
  afterKey : BitVec kw
  beforeDiff : BitVec kw
  afterDiff : BitVec kw

/-- The body of the loop on an element that was read. -/
def Bracket.add (b : Bracket T kw) (elem : T) : Bracket T kw :=
  let k := key elem
  let b := if k ≤ target ∧ target - k < b.beforeDiff then
    { b with beforeElem := some elem, beforeKey := k, beforeDiff := target - k } else b
  if target ≤ k ∧ k - target < b.afterDiff then
    { b with afterElem := some elem, afterKey := k, afterDiff := k - target }
  else b

/-- The loop of `find_interpolation_pair_linear`, with `n` turns left, at index `i`. -/
def bracketScan : ℕ → BitVec 64 → Bracket T kw → QueryProgram T (Bracket T kw)
  | 0, _, b => return b
  | n + 1, i, b => do
      match ← tryGet i with
      | none => bracketScan n (i + 1) b
      | some elem => bracketScan n (i + 1) (b.add key target elem)

/-- The pair for two elements and their keys: `alpha` is 0 for equal keys. -/
def interpPair (before after : T) (beforeKey afterKey : BitVec kw) : InterpPair T :=
  if afterKey = beforeKey then ⟨before, after, 0⟩
  else ⟨before, after, ((target - beforeKey).toNat : ℚ) / (afterKey - beforeKey).toNat⟩

/-- `TimeSeries::find_interpolation_pair_linear`. -/
def findInterpolationPairLinear (avail : BitVec 64) :
    QueryProgram T (Option (InterpPair T)) := do
  let b ← bracketScan key target avail.toNat 0
    ⟨none, none, 0, 0, BitVec.allOnes kw, BitVec.allOnes kw⟩
  match b.beforeElem, b.afterElem with
  | some before, some after => return some (interpPair target before after b.beforeKey b.afterKey)
  | _, _ => return none

/-- The loop of `find_interpolation_pair`: the last `lo` and `hi`, or nothing when
`try_get(mid)` returned nothing. -/
def bracketSearch : ℕ → BitVec 64 → BitVec 64 → QueryProgram T (Option (BitVec 64 × BitVec 64))
  | 0, _, _ => .spin
  | fuel + 1, lo, hi =>
      if lo + 1 < hi then do
        let mid := middle lo hi
        match ← tryGet mid with
        | none => return none
        | some elem =>
            if target < key elem then bracketSearch fuel mid hi else bracketSearch fuel lo mid
      else return some (lo, hi)

/-- The rest of `find_interpolation_pair` after the loop: both ends are read again. -/
def readBracket (lo hi : BitVec 64) : QueryProgram T (Option (InterpPair T)) := do
  let afterElem ← tryGet lo
  let beforeElem ← tryGet hi
  match afterElem, beforeElem with
  | some after, some before => return some (interpPair target before after (key before) (key after))
  | _, _ => return none

/-- `find_interpolation_pair` once the newest and the oldest element have been read. -/
def searchPair (fuel : ℕ) (avail : BitVec 64) (newest oldest : T) :
    QueryProgram T (Option (InterpPair T)) := do
  if key newest < target ∨ target < key oldest then return none
  if target = key newest then return some ⟨newest, newest, 0⟩
  if target = key oldest then return some ⟨oldest, oldest, 0⟩
  match ← bracketSearch key target fuel 0 (avail - 1) with
  | none => findInterpolationPairLinear key target avail
  | some (lo, hi) => readBracket key target lo hi

def pairAmong (fuel : ℕ) (avail : BitVec 64) : QueryProgram T (Option (InterpPair T)) := do
  if avail < 2 then return none
  let newest ← tryGet 0
  let oldest ← tryGet (avail - 1)
  match newest, oldest with
  | some newest, some oldest => searchPair key target fuel avail newest oldest
  | _, _ => return none

/-- `TimeSeries::find_interpolation_pair`. -/
def findInterpolationPair (fuel : ℕ) : QueryProgram T (Option (InterpPair T)) := do
  let avail ← available
  pairAmong key target fuel avail

/-- `TimeSeries::get_latest_if_fresh`. -/
def getLatestIfFresh (minKey : BitVec kw) : QueryProgram T (Option T) := do
  let avail ← available
  if avail = 0 then return none
  match ← tryGet 0 with
  | none => return none
  | some latest => if minKey ≤ key latest then return some latest else return none

end Queries

section Arithmetic
variable {kw : ℕ}

theorem toNat_keyDiff (a b : BitVec kw) :
    (keyDiff a b).toNat = ((a.toNat : ℤ) - b.toNat).natAbs := by
  rw [keyDiff]
  split
  · rename_i h
    rw [BitVec.toNat_sub_of_le (BitVec.le_of_lt h)]
    rw [BitVec.lt_def] at h
    omega
  · rename_i h
    rw [BitVec.lt_def] at h
    rw [BitVec.toNat_sub_of_le (BitVec.le_def.mpr (Nat.le_of_not_lt h))]
    omega

theorem toNat_middle {lo hi : BitVec 64} (h : lo < hi) :
    (middle lo hi).toNat = lo.toNat + (hi.toNat - lo.toNat) / 2 := by
  have hsub : (hi - lo).toNat = hi.toNat - lo.toNat :=
    BitVec.toNat_sub_of_le (BitVec.le_of_lt h)
  have htwo : (2 : BitVec 64).toNat = 2 := rfl
  rw [BitVec.lt_def] at h
  rw [middle, BitVec.toNat_add, BitVec.toNat_udiv, hsub, htwo, Nat.mod_eq_of_lt (by omega)]

end Arithmetic

/-- The answers of a buffer that stays as it is: `avail` elements, with `elem i` at reverse
index `i`. -/
def fixedAnswers {T : Type} (avail : BitVec 64) (elem : ℕ → T) : (q : Request) → q.Answer T
  | .available => avail
  | .tryGet i => if i.toNat < avail.toNat then some (elem i.toNat) else none

section Descending
variable {T : Type} {kw : ℕ} {key : T → BitVec kw} {avail : BitVec 64} {elem : ℕ → T}

/-- Keys do not increase with the reverse index. -/
def Descending (key : T → BitVec kw) (avail : BitVec 64) (elem : ℕ → T) : Prop :=
  ∀ i j, i ≤ j → j < avail.toNat → key (elem j) ≤ key (elem i)

theorem Descending.key_lt (h : Descending key avail elem) {target : BitVec kw}
    {i j : ℕ} (hkey : key (elem i) < target) (hij : i ≤ j) (hj : j < avail.toNat) :
    key (elem j) < target := by
  have hle := h i j hij hj
  simp only [BitVec.lt_def, BitVec.le_def] at hkey hle ⊢
  omega

end Descending

section Reads
variable {T A : Type}

def reads : List ((q : Request) × q.Answer T) → List T
  | [] => []
  | ⟨.available, _⟩ :: tr => reads tr
  | ⟨.tryGet _, none⟩ :: tr => reads tr
  | ⟨.tryGet _, some e⟩ :: tr => e :: reads tr

theorem answers_available {k : BitVec 64 → QueryProgram T A}
    {tr : List ((q : Request) × q.Answer T)} {a : A} : Answers (available >>= k) tr a ↔
      ∃ n tail, tr = ⟨.available, n⟩ :: tail ∧ Answers (k n) tail a :=
  answers_load

theorem answers_tryGet {i : BitVec 64} {k : Option T → QueryProgram T A}
    {tr : List ((q : Request) × q.Answer T)} {a : A} : Answers (tryGet i >>= k) tr a ↔
      ∃ v tail, tr = ⟨.tryGet i, v⟩ :: tail ∧ Answers (k v) tail a :=
  answers_load

end Reads

section OnBuffer
variable (F : FlatType) (cap : Capacity) (fuel : ℕ)

/-- The reader's program for a call; `try_get` is called with its default bound. -/
def Request.prog : (q : Request) → CyclicBuffer.ReadProgram F (q.Answer F.T)
  | .available => CyclicBuffer.available F cap
  | .tryGet r => CyclicBuffer.tryGet F cap fuel r 4

/-- A query on the segment of a cyclic buffer. -/
def onBuffer {A : Type} (p : QueryProgram F.T A) : CyclicBuffer.ReadProgram F A :=
  p.interp (Request.prog F cap fuel)

variable {F} {cap} {fuel}

theorem run_request (vals : ℕ → F.T) (n : ℕ) (q : Request) :
    (Request.prog F cap (fuel + 1) q).run (memory.read (CyclicBuffer.quiet cap vals n)) =
      some (fixedAnswers (CyclicBuffer.umin (BitVec.ofNat 64 n) cap.N)
        (fun i => vals (n - 1 - i)) q) := by
  cases q with
  | available => rfl
  | tryGet r =>
    rw [Request.prog, CyclicBuffer.run_tryGet, fixedAnswers, CyclicBuffer.toNat_available]

theorem run_onBuffer {A : Type} (vals : ℕ → F.T) (n : ℕ) (p : QueryProgram F.T A) :
    (onBuffer F cap (fuel + 1) p).run (memory.read (CyclicBuffer.quiet cap vals n)) =
      p.run (fixedAnswers (CyclicBuffer.umin (BitVec.ofNat 64 n) cap.N)
        (fun i => vals (n - 1 - i))) :=
  Prog.run_interp (run_request vals n) p

end OnBuffer

section Window
variable {F : FlatType} (cap : Capacity) {kw : ℕ} {key : F.T → BitVec kw}

/-- The elements that a query can reach: as many of the last ones as `available()` says. -/
def window (values : List F.T) : List F.T :=
  values.drop (values.length - min (values.length % 2 ^ 64) cap.size)

variable {values : List F.T} {vals : ℕ → F.T} (hvals : ∀ k v, values[k]? = some v → vals k = v)
include hvals

theorem window_reverse : (window cap values).reverse =
    (List.range (min (values.length % 2 ^ 64) cap.size)).map
      (fun i => vals (values.length - 1 - i)) := by
  have hle := Nat.mod_le values.length (2 ^ 64)
  apply List.ext_getElem
  · simp only [window, List.length_reverse, List.length_drop, List.length_map, List.length_range]
    omega
  · intro i hi hi'
    simp only [List.length_map, List.length_range] at hi'
    simp only [window, List.getElem_reverse, List.getElem_drop, List.getElem_map,
      List.getElem_range, List.length_drop]
    apply Eq.symm
    apply hvals
    rw [List.getElem?_eq_getElem (by omega)]
    congr 2
    omega

theorem mem_window {e : F.T} : e ∈ window cap values ↔
    ∃ i < min (values.length % 2 ^ 64) cap.size, e = vals (values.length - 1 - i) := by
  rw [← List.mem_reverse, window_reverse cap hvals]
  simp only [List.mem_map, List.mem_range, eq_comm]

theorem pairwise_window {R : F.T → F.T → Prop} (h : values.Pairwise R) {i j : ℕ} (hij : i < j)
    (hj : j < (CyclicBuffer.umin (BitVec.ofNat 64 values.length) cap.N).toNat) :
    R (vals (values.length - 1 - j)) (vals (values.length - 1 - i)) := by
  rw [CyclicBuffer.toNat_available] at hj
  have hle := Nat.mod_le values.length (2 ^ 64)
  have hval : ∀ k, (hk : k < values.length) → values[k] = vals k := fun k hk =>
    (hvals k _ (List.getElem?_eq_getElem hk)).symm
  have hpair := List.pairwise_iff_getElem.mp h (values.length - 1 - j)
    (values.length - 1 - i) (by omega) (by omega) (by omega)
  rwa [hval, hval] at hpair

/-- Keys that do not decrease with the insertion number do not increase with the reverse
index. -/
theorem descending_of_pairwise (hsorted : values.Pairwise (fun a b => key a ≤ key b)) :
    Descending key (CyclicBuffer.umin (BitVec.ofNat 64 values.length) cap.N)
      (fun i => vals (values.length - 1 - i)) := by
  intro i j hij hj
  rcases Nat.lt_or_eq_of_le hij with hlt | rfl
  · exact pairwise_window cap hvals hsorted hlt hj
  · exact BitVec.le_refl _

end Window

end SafeShm.TimeSeries
