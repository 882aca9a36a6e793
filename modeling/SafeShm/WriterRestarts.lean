import SafeShm.CyclicBufferReads
import SafeShm.CyclicBufferRefinement
import SafeShm.InterruptedStores
import SafeShm.Seqlock

/-!
# Writers that die and are replaced

A writer process may stop for ever at any step of `SeqlockWriter::store` or of
`CyclicBufferWriter::insert`. A new writer object attaches to the segment; the constructors write
nothing, so it goes on from what it finds. It adds 1 and then 2 to the counter it has loaded. If the
counter was left odd, it is even during all later stores and odd after them: readers then copy
half-written values, and spin for ever on complete ones (`restart_poisons`). If no writer stops
between the two stores of the counter, nothing is lost (`restart_harmless`).
-/

namespace SafeShm.Seqlock
open AtomicPrograms SingleWriterRuns SequenceLocks InterruptedStores

variable {F : FlatType}

/-- Stores of `vals 0, vals 1, …`; the writer of store number `k` stops for ever after `stop k`
steps of it, if it has that many, and the next store is made by a new writer. -/
def restarts (vals : ℕ → F.T) (stop : ℕ → ℕ) : Series Empty Unit F.words F.Word where
  script k := store (vals k)
  stop := stop
  zero := F.zero
  cell _ := ()
  val := vals
  before := 0
  locked k n := by
    intro m
    rw [iterate_store, Nat.zero_add, Nat.zero_add]
    exact ⟨rfl, rfl⟩
  long k := by
    rw [Nat.zero_add, steps_store]
    exact Nat.le_succ _

/-- All steps of `store` (`steps_store`): its load and its two stores of the counter, the words, the
wake-up call. -/
def storeSteps (F : FlatType) : ℕ := F.words + 4

section Runs
variable {ι : Type} [DecidableEq ι] {A : ι → Type}
variable (vals : ℕ → F.T) (stop : ℕ → ℕ) (sched : ℕ → Party ι)
variable (readers : (i : ι) → ReadProgram F (A i))

/-- What a death must not do to a segment. When a store has been completed and none is in progress,
the counter is even and `load` returns its value. A `load` never returns a mixture, as long as
fewer than `2 ^ 31` stores fall within one attempt. -/
structure Unpoisoned : Prop where
  recovered : ∀ t k, ((restarts vals stop).writers sched readers t).begun = k + 1 →
    ((restarts vals stop).writers sched readers t).prog = .ret () → storeSteps F ≤ stop k →
      ((restarts vals stop).regions sched readers t).seq () &&& 1 = 0 ∧
        ∀ fuel, (load F (fuel + 1)).run
          (memory.read ((restarts vals stop).regions sched readers t)) = some (vals k)
  whole : ∀ fuel a log b v,
    Exec memory.read ((restarts vals stop).regions sched readers) a (load F fuel) log b v →
    (∀ tb ta, Attempt () log tb ta → (restarts vals stop).storesWithin sched readers () tb ta < 2 ^ 31) →
      ∃ k ≤ ((restarts vals stop).writers sched readers b).begun, v = stored vals k

/-- The writer of store number `k` stops after its store of `cur + 1` and before that of `cur + 2`.
-/
def StopsInside (k : ℕ) : Prop := 2 ≤ stop k ∧ stop k < F.words + 3

variable {stop} (hstop : ∀ k, ¬ StopsInside (F := F) stop k)
include hstop

private theorem not_interrupted (k : ℕ) : ¬ (restarts vals stop).Interrupted k := by
  have hk := hstop k
  rw [StopsInside] at hk
  change ¬ (0 + 2 ≤ stop k ∧ stop k < 0 + (F.words + 3))
  omega

private theorem recovered {t k : ℕ} (hbegun : ((restarts vals stop).writers sched readers t).begun = k + 1)
    (hidle : ((restarts vals stop).writers sched readers t).prog = .ret ())
    (hall : storeSteps F ≤ stop k) :
    ((restarts vals stop).regions sched readers t).seq () &&& 1 = 0 ∧
      ∀ fuel, (load F (fuel + 1)).run
        (memory.read ((restarts vals stop).regions sched readers t)) = some (vals k) := by
  obtain ⟨hseq, hdata⟩ := Series.idle_cell sched readers (not_interrupted vals hstop) hidle ()
  have heven : ((restarts vals stop).regions sched readers t).seq () &&& 1 = 0 := by
    rw [hseq]
    exact ofNat_two_mul_and_one _
  refine ⟨heven, fun fuel => ?_⟩
  have hfinishes : (restarts vals stop).Finishes k := by
    rw [storeSteps] at hall
    change 0 + (F.words + 3) ≤ stop k
    omega
  rw [load, run_spinRead heven, hdata, hbegun, Series.held, if_pos ⟨hfinishes, rfl⟩]
  rfl

private theorem whole {fuel a b : ℕ} {log : List (Event (Loc Empty Unit F.words))} {v : F.T}
    (hexec : Exec memory.read ((restarts vals stop).regions sched readers) a (load F fuel) log b v)
    (hfew : ∀ tb ta, Attempt () log tb ta →
      (restarts vals stop).storesWithin sched readers () tb ta < 2 ^ 31) :
    ∃ k ≤ ((restarts vals stop).writers sched readers b).begun, v = stored vals k := by
  obtain ⟨tb, ta, hread⟩ := exec_spinRead hexec
  rcases Series.cleanRead_whole sched readers (not_interrupted vals hstop) hread
    (hfew tb ta hread.attempt) with hv | ⟨j, hj, -, hv⟩
  · exact ⟨0, Nat.zero_le _, hv⟩
  · have htb : tb < b := (hexec.mem_log _ hread.attempt.mem_log.1).2
    have hle := Series.begun_le (restarts vals stop) sched readers htb.le
    exact ⟨j + 1, by omega, hv⟩

theorem unpoisoned : Unpoisoned vals stop sched readers :=
  ⟨fun _ _ => recovered vals sched readers hstop, fun _ _ _ _ _ => whole vals sched readers hstop⟩

end Runs

end SafeShm.Seqlock

namespace SafeShm.CyclicBuffer
open AtomicPrograms SingleWriterRuns SequenceLocks InterruptedStores

variable {F : FlatType} (cap : Capacity)

def publishedOf (F : FlatType) (stop : ℕ → ℕ) (k : ℕ) : ℕ :=
  Nat.count (fun j => F.words + 5 ≤ stop j) k

theorem header_callMem (vals : ℕ → F.T) (stop : ℕ → ℕ) (k : ℕ) :
    (callMem memory (fun k => cutOff (stop k) (insert cap (vals k))) (Region.zeroed F.zero) k).header () =
      BitVec.ofNat 64 (publishedOf F stop k) := by
  induction k with
  | zero => rfl
  | succ k ih =>
    rw [callMem, finish_cutOff, iterate_insert, publishedOf, Nat.count_succ]
    rw [publishedOf] at ih
    split
    · rw [if_neg (by omega), Nat.add_zero]
      exact ih
    split
    · rw [if_neg (by omega), Nat.add_zero]
      exact ih
    split
    · rw [if_neg (by omega), Nat.add_zero]
      exact ih
    · rw [if_pos (by omega), BitVec.ofNat_add, ← ih]
      rfl

theorem sameCells_insert (vals : ℕ → F.T) (stop : ℕ → ℕ) (k n : ℕ) :
    let m := callMem memory (fun k => cutOff (stop k) (insert cap (vals k))) (Region.zeroed F.zero) k
    SameCells ((soloStep memory)^[n] (m, insert cap (vals k))).1
      (if n < 1 + 2 then m
      else if n < 1 + (F.words + 3) then
        m.writing (slot cap (publishedOf F stop k)) (vals k) (n - (1 + 2))
      else m.written (slot cap (publishedOf F stop k)) (vals k)) := by
  intro m
  have hslot : nextSlot cap m = slot cap (publishedOf F stop k) := by
    rw [nextSlot, header_callMem, slot]
  rw [iterate_insert, hslot, show 1 + (F.words + 3) = F.words + 4 by omega]
  split
  · exact ⟨rfl, rfl⟩
  split
  · exact ⟨rfl, rfl⟩
  split
  · exact ⟨rfl, rfl⟩
  · exact ⟨rfl, rfl⟩

/-- Insertions of `vals 0, vals 1, …`; the writer of insertion number `k` stops for ever after
`stop k` steps of it, if it has that many, and the next insertion is made by a new writer. -/
def restarts (vals : ℕ → F.T) (stop : ℕ → ℕ) : Series Unit (BitVec 64) F.words F.Word where
  script k := insert cap (vals k)
  stop := stop
  zero := F.zero
  cell k := slot cap (publishedOf F stop k)
  val := vals
  before := 1
  locked := sameCells_insert cap vals stop
  long k := by
    rw [steps_insert]
    omega

/-- All steps of `insert` (`steps_insert`): two loads, the stores of the counter, the words and
`total_writes`, the wake-up call. -/
def insertSteps (F : FlatType) : ℕ := F.words + 6

section Runs
variable {ι : Type} [DecidableEq ι] {A : ι → Type}
variable (vals : ℕ → F.T) (stop : ℕ → ℕ) (sched : ℕ → Party ι)
variable (readers : (i : ι) → ReadProgram F (A i))

/-- What a death must not do to a segment. When an insertion has been completed and none is in
progress, all counters are even and `get_latest` returns its value, as long as `total_writes` has
not wrapped. A read never returns a mixture, as long as fewer than `2 ^ 31` insertions into the slot
fall within one attempt. -/
structure Unpoisoned : Prop where
  recovered : ∀ t k, ((restarts cap vals stop).writers sched readers t).begun = k + 1 →
    ((restarts cap vals stop).writers sched readers t).prog = .ret () → insertSteps F ≤ stop k →
      (∀ i, ((restarts cap vals stop).regions sched readers t).seq i &&& 1 = 0) ∧
        (publishedOf F stop (k + 1) < 2 ^ 64 → ∀ fuel, (getLatest F cap (fuel + 1)).run
          (memory.read ((restarts cap vals stop).regions sched readers t)) = some (vals k))
  whole : ∀ (call : ReadCall) fuel a log b v,
    Exec memory.read ((restarts cap vals stop).regions sched readers) a (call.prog F cap fuel) log b
      (some v) →
    (∀ i tb ta, Attempt i log tb ta →
      (restarts cap vals stop).storesWithin sched readers i tb ta < 2 ^ 31) →
      v = F.valueInit ∨ v = (fun _ => F.zero) ∨
        ∃ k < ((restarts cap vals stop).writers sched readers b).begun, v = vals k

/-- The writer of insertion number `k` stops after its store of `cur + 1` and before that of
`cur + 2`. -/
def StopsInside (k : ℕ) : Prop := 3 ≤ stop k ∧ stop k < F.words + 4

variable {stop} (hstop : ∀ k, ¬ StopsInside (F := F) stop k)
include hstop

private theorem not_interrupted_insert (k : ℕ) : ¬ (restarts cap vals stop).Interrupted k := by
  have hk := hstop k
  rw [StopsInside] at hk
  change ¬ (1 + 2 ≤ stop k ∧ stop k < 1 + (F.words + 3))
  omega

omit hstop in
private theorem idle_header {t : ℕ}
    (hidle : ((restarts cap vals stop).writers sched readers t).prog = .ret ()) :
    ((restarts cap vals stop).regions sched readers t).header () = BitVec.ofNat 64
      (publishedOf F stop ((restarts cap vals stop).writers sched readers t).begun) := by
  rw [Series.regions, Series.states, mem_eq_callMem _ _ _ _ _ hidle]
  exact header_callMem cap vals stop _

private theorem recovered_insert {t k : ℕ}
    (hbegun : ((restarts cap vals stop).writers sched readers t).begun = k + 1)
    (hidle : ((restarts cap vals stop).writers sched readers t).prog = .ret ())
    (hall : insertSteps F ≤ stop k) :
    (∀ i, ((restarts cap vals stop).regions sched readers t).seq i &&& 1 = 0) ∧
      (publishedOf F stop (k + 1) < 2 ^ 64 → ∀ fuel, (getLatest F cap (fuel + 1)).run
        (memory.read ((restarts cap vals stop).regions sched readers t)) = some (vals k)) := by
  have hcell := Series.idle_cell sched readers (not_interrupted_insert cap vals hstop) hidle
  have heven : ∀ i, ((restarts cap vals stop).regions sched readers t).seq i &&& 1 = 0 := by
    intro i
    rw [(hcell i).1]
    exact ofNat_two_mul_and_one _
  refine ⟨heven, fun h64 fuel => ?_⟩
  rw [insertSteps] at hall
  have hpublished : publishedOf F stop (k + 1) = publishedOf F stop k + 1 := by
    rw [publishedOf, Nat.count_succ, if_pos (by omega), publishedOf]
  have hheader := idle_header cap vals sched readers hidle
  rw [hbegun, hpublished] at hheader
  have hne : BitVec.ofNat 64 (publishedOf F stop k + 1) ≠ 0 := by
    intro h0
    have := congrArg BitVec.toNat h0
    rw [BitVec.toNat_ofNat, Nat.mod_eq_of_lt (hpublished ▸ h64)] at this
    simp at this
  have hslot : (BitVec.ofNat 64 (publishedOf F stop k + 1) - 1) &&& (cap.N - 1) =
      slot cap (publishedOf F stop k) := by
    rw [slot, BitVec.ofNat_add]
    exact congrArg (· &&& (cap.N - 1)) (BitVec.add_sub_cancel _ _)
  have hfinishes : (restarts cap vals stop).Finishes k := by
    change 1 + (F.words + 3) ≤ stop k
    omega
  rw [run_getLatest_even cap (heven _), hheader, if_neg hne, hslot, (hcell _).2, hbegun,
    Series.held, if_pos ⟨hfinishes, rfl⟩]
  rfl

private theorem whole_read {call : ReadCall} {fuel a b : ℕ} {log : List (Event (Place F))} {v : F.T}
    (hexec : Exec memory.read ((restarts cap vals stop).regions sched readers) a
      (call.prog F cap fuel) log b (some v))
    (hfew : ∀ i tb ta, Attempt i log tb ta →
      (restarts cap vals stop).storesWithin sched readers i tb ta < 2 ^ 31) :
    v = F.valueInit ∨ v = (fun _ => F.zero) ∨
      ∃ k < ((restarts cap vals stop).writers sched readers b).begun, v = vals k := by
  obtain ⟨t₀, -, -, ⟨-, -, hv⟩ | ⟨-, tb, ta, -, hread⟩⟩ := exec_readCall_cases hexec
  · exact .inl hv
  · right
    rcases Series.cleanRead_whole sched readers (not_interrupted_insert cap vals hstop) hread
      (hfew _ tb ta hread.attempt) with hv | ⟨j, hj, -, hv⟩
    · exact .inl hv
    · have htb : tb < b := (hexec.mem_log _ hread.attempt.mem_log.1).2
      have hle := Series.begun_le (restarts cap vals stop) sched readers htb.le
      exact .inr ⟨j, by omega, hv⟩

theorem unpoisoned : Unpoisoned cap vals stop sched readers :=
  ⟨fun _ _ => recovered_insert cap vals sched readers hstop,
    fun _ _ _ _ _ _ => whole_read cap vals sched readers hstop⟩

end Runs

end SafeShm.CyclicBuffer

namespace SafeShm.WriterRestarts
open AtomicPrograms SingleWriterRuns SequenceLocks InterruptedStores

/-- A writer's death does not poison the segment, if no writer stops between its store of `cur + 1`
and its store of `cur + 2`: in every run of stores, or of insertions, of which any number are cut
off elsewhere, a completed store is what the readers get, and they never get a mixture. -/
theorem restart_harmless {F : FlatType} (cap : Capacity) {ι : Type} [DecidableEq ι] {A B : ι → Type}
    (vals : ℕ → F.T) (sched : ℕ → Party ι) (loaders : (i : ι) → Seqlock.ReadProgram F (A i))
    (readers : (i : ι) → CyclicBuffer.ReadProgram F (B i)) (stopStore stopInsert : ℕ → ℕ)
    (hstore : ∀ k, ¬ Seqlock.StopsInside (F := F) stopStore k)
    (hinsert : ∀ k, ¬ CyclicBuffer.StopsInside (F := F) stopInsert k) :
    Seqlock.Unpoisoned vals stopStore sched loaders ∧
      CyclicBuffer.Unpoisoned cap vals stopInsert sched readers :=
  ⟨Seqlock.unpoisoned vals sched loaders hstore, CyclicBuffer.unpoisoned cap vals sched readers hinsert⟩

section Samples

abbrev nobodyStores (_ : Unit) : Seqlock.ReadProgram oneWord Unit := .ret ()

abbrev nobodyInserts (_ : Unit) : CyclicBuffer.ReadProgram oneWord Unit := .ret ()

def writerOnly (_ : ℕ) : Party Unit := .writer

/-- The first writer dies after its first step of `store`. -/
def diesBefore (k : ℕ) : ℕ := if k = 0 then 1 else 5

/-- The first writer dies when the slot is complete and before its store of `total_writes`. -/
def diesUnpublished (k : ℕ) : ℕ := if k = 0 then 5 else 7

theorem restart_harmless_diesOutside :
    (Seqlock.load oneWord 1).run (memory.read
      ((Seqlock.restarts tens diesBefore).regions writerOnly nobodyStores 8)) = some (tens 1) ∧
    (CyclicBuffer.getLatest oneWord capacityTwo 1).run (memory.read
      ((CyclicBuffer.restarts capacityTwo tens diesUnpublished).regions writerOnly nobodyInserts 14)) =
        some (tens 1) := by
  obtain ⟨hstore, hinsert⟩ := restart_harmless (F := oneWord) capacityTwo tens writerOnly nobodyStores
    nobodyInserts diesBefore diesUnpublished
    (fun k => by
      rw [Seqlock.StopsInside, diesBefore]
      split <;> simp)
    (fun k => by
      rw [CyclicBuffer.StopsInside, diesUnpublished]
      split <;> simp)
  constructor
  · have hret := Prog.eq_ret_of_result? (show ((Seqlock.restarts tens diesBefore).writers writerOnly
      nobodyStores 8).prog.result? = some () by decide +kernel)
    exact (hstore.recovered 8 1 (by decide +kernel) hret (by decide)).2 0
  · have hret := Prog.eq_ret_of_result? (show ((CyclicBuffer.restarts capacityTwo tens
      diesUnpublished).writers writerOnly nobodyInserts 14).prog.result? = some () by decide +kernel)
    exact (hinsert.recovered 14 1 (by decide +kernel) hret (by decide)).2 (by decide) 0

/-- Both words of value number `m` are `m + 1`. -/
abbrev pairs (m : ℕ) : Seqlock.twoWords.T := fun _ => m + 1

/-- The writer of the second store dies after its store of `cur + 1`. -/
def diesInside (k : ℕ) : ℕ := if k = 1 then 2 else 6

/-- The reader has its turns when the new writer has copied one word. -/
def halfway : ℕ → Party Unit := blocks [(.writer, 14), (.reader (), 4)]

abbrev oneLoader (_ : Unit) : Seqlock.ReadProgram Seqlock.twoWords Seqlock.twoWords.T :=
  Seqlock.load Seqlock.twoWords 1

/-- The first word of the third store and the second word of the first one. -/
def mixture : Seqlock.twoWords.T := fun j => if j = 0 then 3 else 1

/-- The first insertion is left with an odd counter. -/
def diesInsideInsert (k : ℕ) : ℕ := if k = 0 then 3 else 7

/-- A death between the two stores of the counter: while the new writer makes its store, a load
returns a mixture, and when the store is complete, the counter is odd and no load returns. The same
death in `insert` leaves the slot with an odd counter for ever. -/
theorem restart_poisons :
    (((Seqlock.restarts pairs diesInside).states halfway oneLoader 18).reader ()).result? =
      some mixture ∧
    (∀ k ≤ 3, mixture ≠ Seqlock.stored pairs k) ∧
    (∀ fuel, (Seqlock.load Seqlock.twoWords fuel).run (memory.read
      ((Seqlock.restarts pairs diesInside).regions halfway oneLoader 21)) = none) ∧
    ¬ Seqlock.Unpoisoned pairs diesInside halfway oneLoader ∧
    ¬ CyclicBuffer.Unpoisoned capacityTwo tens diesInsideInsert writerOnly nobodyInserts := by
  have hodd : ((Seqlock.restarts pairs diesInside).regions halfway oneLoader 21).seq () &&& 1 ≠ 0 := by
    decide +kernel
  refine ⟨by decide +kernel, by decide +kernel, ?_, ?_, ?_⟩
  · intro fuel
    exact run_spinRead_odd hodd fuel _
  · intro h
    have hret := Prog.eq_ret_of_result? (show ((Seqlock.restarts pairs diesInside).writers halfway
      oneLoader 21).prog.result? = some () by decide +kernel)
    exact hodd (h.recovered 21 2 (by decide +kernel) hret (by decide)).1
  · intro h
    have hret := Prog.eq_ret_of_result? (show ((CyclicBuffer.restarts capacityTwo tens
      diesInsideInsert).writers writerOnly nobodyInserts 12).prog.result? = some () by decide +kernel)
    have hslot : ((CyclicBuffer.restarts capacityTwo tens diesInsideInsert).regions writerOnly
      nobodyInserts 12).seq 0 &&& 1 ≠ 0 := by decide +kernel
    exact hslot ((h.recovered 12 1 (by decide +kernel) hret (by decide)).1 0)

end Samples

end SafeShm.WriterRestarts
