import SafeShm.SequenceLocks
import SafeShm.Parameters

/-!
# The seqlock

`SeqlockWriter::store` and `SeqlockReader::load` on a segment that holds one counter
and one payload. Every load is linearized at the first counter load of its last
attempt: there the counter is even and the payload is that of the last store whose
counter is complete.
-/

namespace SafeShm.Seqlock
open AtomicPrograms SingleWriterRuns SequenceLocks

variable (F : FlatType)

/-- The segment: no header word, one cell. -/
abbrev Segment := Region Empty Unit F.words F.Word

abbrev ReadProgram (A : Type) := Program Empty Unit F.words F.Word Empty A

abbrev WriteProgram (A : Type) :=
  Program Empty Unit F.words F.Word (Cmd Empty Unit F.words F.Word) A

variable {F}

/-- `SeqlockWriter::store`. -/
def store (data : F.T) : WriteProgram F Unit := do
  lockedStore () data
  issue .wake

variable (F) in
/-- `SeqlockReader::load`. The local `result` is overwritten before it is returned. -/
def load (fuel : ℕ) : ReadProgram F F.T := spinRead fuel () (fun _ => F.zero)

/-- The value of store number `k`; number 0 stands for the zero-filled segment. -/
def stored (vals : ℕ → F.T) : ℕ → F.T
  | 0 => fun _ => F.zero
  | k + 1 => vals k

/-- Stores whose counter is even again (the comment in `store` says "write complete"):
the last one begun counts from its `words + 3`-rd step on. -/
def finished (w : Client (Loc Empty Unit F.words) (Val F.Word) (Cmd Empty Unit F.words F.Word)) :
    ℕ :=
  if F.words + 3 ≤ w.pc then w.begun else w.begun - 1

/-- 1 while the counter is odd, 0 otherwise. -/
def midStore (w : Client (Loc Empty Unit F.words) (Val F.Word) (Cmd Empty Unit F.words F.Word)) :
    ℕ :=
  if 2 ≤ w.pc ∧ w.pc < F.words + 3 then 1 else 0

theorem midStore_le_one
    (w : Client (Loc Empty Unit F.words) (Val F.Word) (Cmd Empty Unit F.words F.Word)) :
    midStore w ≤ 1 := by
  rw [midStore]
  split <;> omega

section Runs
variable {ι : Type} [DecidableEq ι] {A : ι → Type}
variable (vals : ℕ → F.T) (sched : ℕ → Party ι) (readers : (i : ι) → ReadProgram F (A i))

/-- The run of one writer that stores `vals 0, vals 1, …` and of the readers, from a
zero-filled segment. -/
def states : ℕ → System (Loc Empty Unit F.words) (Val F.Word) (Cmd Empty Unit F.words F.Word)
    (Segment F) ι A :=
  (System.start (Region.zeroed F.zero) readers).after memory (fun k => store (vals k)) sched

def segments (t : ℕ) : Segment F := (states vals sched readers t).mem

theorem exec_of_states (i : ι) (v : A i) (b : ℕ)
    (h : ((states vals sched readers b).reader i).result? = some v) :
    ∃ log, Exec memory.read (segments vals sched readers) 0 (readers i) log b v :=
  exec_of_after memory _ sched _ i (Nat.zero_le b) h

end Runs

section Writer
variable (vals : ℕ → F.T)

private theorem iterate_store_end (r : Segment F) (v : F.T) (j : ℕ) :
    ((soloStep memory)^[j + (F.words + 3)] (r, store v)).1 = r.written () v := by
  rw [Function.iterate_add_apply, store, iterate_lockedStore_end]
  induction j with
  | zero => rfl
  | succ j ih =>
    rw [Function.iterate_succ_apply]
    cases j with
    | zero => rfl
    | succ j => rw [Function.iterate_fixed rfl]; rfl

theorem iterate_store (r : Segment F) (v : F.T) (n : ℕ) :
    ((soloStep memory)^[n] (r, store v)).1 =
      if n < 2 then r
      else if n < F.words + 3 then r.writing () v (n - 2)
      else r.written () v := by
  rcases Nat.lt_or_ge n (F.words + 3) with hn | hn
  · rw [if_pos hn, store, iterate_lockedStore _ _ _ _ (by omega)]
  · obtain ⟨j, rfl⟩ : ∃ j, n = j + (F.words + 3) := ⟨n - (F.words + 3), by omega⟩
    rw [iterate_store_end, if_neg (by omega), if_neg (by omega)]

private theorem finish_store (r : Segment F) (v : F.T) :
    finish memory (store v) r = r.written () v := by
  have h := finish_iterate memory (F.words + 3) (r, store v)
  rw [store, iterate_lockedStore_end] at h
  exact h.symm

theorem steps_store (r : Segment F) (v : F.T) : steps memory (store v) r = F.words + 4 := by
  have h := steps_iterate memory (F.words + 3) (r, store v)
  rw [store, iterate_lockedStore_end] at h
  have hwake : steps memory (issue .wake : WriteProgram F Unit) (r.written () v) = 1 := rfl
  rw [hwake] at h
  dsimp only at h
  rw [store]
  omega

private theorem callMem_eq (k : ℕ) :
    callMem memory (fun k => store (vals k)) (Region.zeroed F.zero) k =
      ⟨Empty.elim, fun _ => BitVec.ofNat 32 (2 * k), fun _ => stored vals k⟩ := by
  induction k with
  | zero => simp [callMem, Region.zeroed, stored, funext_iff]
  | succ k ih =>
    rw [callMem, finish_store, ih]
    simp [Region.written, stored, Nat.mul_add, BitVec.ofNat_add, funext_iff]

private theorem memAt_seq (k pc : ℕ) :
    (memAt memory (fun k => store (vals k)) (Region.zeroed F.zero) k pc).seq () =
      BitVec.ofNat 32 (2 * (if F.words + 3 ≤ pc then k + 1 else k) +
        if 2 ≤ pc ∧ pc < F.words + 3 then 1 else 0) := by
  rw [memAt, callMem_eq, iterate_store]
  split
  · simp [show ¬ F.words + 3 ≤ pc by omega, show ¬ 2 ≤ pc by omega]
  split
  · simp [show ¬ F.words + 3 ≤ pc by omega, show 2 ≤ pc by omega, show pc < F.words + 3 by omega,
      Region.writing, BitVec.ofNat_add]
  · simp [show F.words + 3 ≤ pc by omega, show ¬ pc < F.words + 3 by omega, Region.written,
      BitVec.ofNat_add, Nat.mul_add]

private theorem memAt_data (k pc : ℕ) (h : ¬ (2 ≤ pc ∧ pc < F.words + 3)) :
    (memAt memory (fun k => store (vals k)) (Region.zeroed F.zero) k pc).data () =
      stored vals (if F.words + 3 ≤ pc then k + 1 else k) := by
  rw [memAt, callMem_eq, iterate_store]
  split
  · simp [show ¬ F.words + 3 ≤ pc by omega]
  · rw [if_neg (by omega), if_pos (by omega)]
    simp [Region.written, stored]

end Writer

section Loads
variable {ι : Type} [DecidableEq ι] {A : ι → Type}
variable (vals : ℕ → F.T) (sched : ℕ → Party ι) (readers : (i : ι) → ReadProgram F (A i))

/-- Stores begun by instant `ta` that were not finished at instant `tb`. -/
def storesWithin (tb ta : ℕ) : ℕ :=
  (states vals sched readers ta).writer.begun - finished (states vals sched readers tb).writer

theorem finished_mono : Monotone (fun t => finished (states vals sched readers t).writer) := by
  apply monotone_position memory (fun k => store (vals k)) (Region.zeroed F.zero) sched readers
    (fun k pc => if F.words + 3 ≤ pc then k else k - 1) (F.words + 3)
  · intro k
    rw [steps_store]
    omega
  · intro k pc
    split <;> split <;> omega
  · simp
  · intro k pc hpc
    simp [hpc]

private theorem finished_eq (t : ℕ) : finished (states vals sched readers t).writer =
    if F.words + 3 ≤ (states vals sched readers t).writer.pc then
      (states vals sched readers t).writer.begun - 1 + 1
    else (states vals sched readers t).writer.begun - 1 := by
  rw [finished]
  split
  · rename_i hpc
    have h0 : (states vals sched readers t).writer.begun ≠ 0 := by
      intro h0
      rw [states, pc_eq_zero _ _ _ _ _ h0] at hpc
      omega
    omega
  · rfl

private theorem finished_add_midStore_le (t : ℕ) :
    finished (states vals sched readers t).writer + midStore (states vals sched readers t).writer ≤
      (states vals sched readers t).writer.begun := by
  have hpc : (states vals sched readers t).writer.begun = 0 →
      (states vals sched readers t).writer.pc = 0 := pc_eq_zero _ _ _ _ _
  simp only [finished, midStore]
  split <;> split <;> omega

theorem segments_seq (t : ℕ) : (segments vals sched readers t).seq () =
    BitVec.ofNat 32 (2 * finished (states vals sched readers t).writer +
      midStore (states vals sched readers t).writer) := by
  rw [segments, states, mem_after, memAt_seq, ← states, finished_eq, midStore]

theorem segments_data {t : ℕ} (h : midStore (states vals sched readers t).writer = 0) :
    (segments vals sched readers t).data () =
      stored vals (finished (states vals sched readers t).writer) := by
  rw [finished_eq, segments, states, mem_after]
  apply memAt_data
  intro hmid
  rw [midStore, states, if_pos hmid] at h
  omega

theorem midStore_eq_zero {t : ℕ} (hidle : (states vals sched readers t).writer.prog = .ret ()) :
    midStore (states vals sched readers t).writer = 0 := by
  have hpc : (states vals sched readers t).writer.begun = 0 →
      (states vals sched readers t).writer.pc = 0 := pc_eq_zero _ _ _ _ _
  have hsteps : (states vals sched readers t).writer.begun ≠ 0 →
      F.words + 3 ≤ (states vals sched readers t).writer.pc := by
    intro hbegun
    have hle := steps_le_pc _ _ _ _ _ hidle hbegun
    rw [steps_store] at hle
    exact (Nat.le_succ _).trans hle
  rw [midStore]
  split <;> omega

/-- The version of the cell: twice the finished stores, one more while the counter is odd. -/
def versioned : Versioned (segments vals sched readers) () where
  ver t := 2 * finished (states vals sched readers t).writer +
    midStore (states vals sched readers t).writer
  mono := by
    apply monotone_position memory (fun k => store (vals k)) (Region.zeroed F.zero) sched readers
      (fun k pc => 2 * (if F.words + 3 ≤ pc then k else k - 1) +
        if 2 ≤ pc ∧ pc < F.words + 3 then 1 else 0) (F.words + 3)
    · intro k
      rw [steps_store]
      omega
    · intro k pc
      split <;> split <;> split <;> split <;> omega
    · simp
    · intro k pc hpc
      simp [hpc, show ¬ pc < F.words + 3 by omega]
  seq_eq := segments_seq vals sched readers
  data_eq t t' ht heq := by
    have hle := midStore_le_one (states vals sched readers t).writer
    have hle' := midStore_le_one (states vals sched readers t').writer
    rw [segments_data vals sched readers (by omega), segments_data vals sched readers (by omega)]
    congr 1
    omega

theorem ver_lt {tb ta : ℕ} (h : storesWithin vals sched readers tb ta < 2 ^ 31) :
    (versioned vals sched readers).ver ta < (versioned vals sched readers).ver tb + 2 ^ 32 := by
  have hta := finished_add_midStore_le vals sched readers ta
  simp only [storesWithin, versioned] at h ⊢
  omega

theorem exec_load_value {fuel s b : ℕ} {log : List (Event (Loc Empty Unit F.words))} {v : F.T}
    (h : Exec memory.read (segments vals sched readers) s (load F fuel) log b v)
    (hfew : ∀ tb ta, Attempt () log tb ta → storesWithin vals sched readers tb ta < 2 ^ 31) :
    ∃ t, s ≤ t ∧ t < b ∧ v = stored vals (finished (states vals sched readers t).writer) := by
  obtain ⟨tb, ta, hread⟩ := exec_spinRead h
  obtain ⟨-, heven, hv⟩ := (versioned vals sched readers).cleanRead hread
    (ver_lt vals sched readers (hfew tb ta hread.attempt))
  have htb := h.mem_log ⟨tb, .seq ()⟩ (by
    obtain ⟨front, words, back, rfl, -⟩ := hread.attempt
    simp)
  refine ⟨tb, htb.1, htb.2, ?_⟩
  have hle := midStore_le_one (states vals sched readers tb).writer
  have hmid : midStore (states vals sched readers tb).writer = 0 := by
    simp only [versioned] at heven
    omega
  rw [hv, segments_data vals sched readers hmid]

/-- Seqlock loads are linearizable: the successive loads of a reader can be numbered,
each with the number of stores finished at an instant between its call and its return,
such that each returned the value of the store it is numbered with. The numbers do not
decrease. -/
theorem loads_linearizable
    {calls : List (Call (Loc Empty Unit F.words) (Val F.Word) F.T)}
    (hcalls : Successive memory.read (segments vals sched readers) calls)
    (hload : ∀ c ∈ calls, ∃ fuel, c.prog = load F fuel)
    (hfew : ∀ c ∈ calls, ∀ tb ta, Attempt () c.log tb ta →
      storesWithin vals sched readers tb ta < 2 ^ 31) :
    ∃ numbers : List ℕ,
      List.Forall₂ (fun c k => c.value = stored vals k ∧ ∃ t, c.start ≤ t ∧ t ≤ c.stop ∧
        k = finished (states vals sched readers t).writer) calls numbers ∧
      numbers.Pairwise (· ≤ ·) := by
  have hmono := finished_mono vals sched readers
  apply hcalls.exists_ordered hmono
  intro c hc
  obtain ⟨fuel, hfuel⟩ := hload c hc
  have hexec := hcalls.exec c hc
  rw [hfuel] at hexec
  obtain ⟨t, hs, hb, hv⟩ := exec_load_value vals sched readers hexec (hfew c hc)
  exact ⟨_, ⟨hv, t, hs, hb.le, rfl⟩, hmono hs, hmono hb.le⟩

end Loads

section Sample

/-- A payload of two words. -/
abbrev twoWords : FlatType := ⟨2, ℕ, 0, fun _ => 0⟩

abbrev twoWordVals (_ : ℕ) : twoWords.T := fun j => j.val + 7

abbrev oneLoad (_ : Unit) : ReadProgram twoWords twoWords.T := load twoWords 4

/-- One store; the load makes its first attempt in the middle of it. -/
def oneStore (t : ℕ) : Party Unit :=
  if t < 5 then .writer else if t < 7 then .reader () else if t < 9 then .writer else .reader ()

theorem loads_linearizable_oneStore : ∃ log, ∃ numbers : List ℕ,
    List.Forall₂ (fun c k => c.value = stored twoWordVals k ∧ ∃ t, c.start ≤ t ∧ t ≤ c.stop ∧
      k = finished (states twoWordVals oneStore oneLoad t).writer)
      [Call.mk (oneLoad ()) 0 log 20 (twoWordVals 0)] numbers ∧ numbers.Pairwise (· ≤ ·) := by
  obtain ⟨log, hlog⟩ := exec_of_states twoWordVals oneStore oneLoad () (twoWordVals 0) 20
    (by decide +kernel)
  refine ⟨log, loads_linearizable _ _ _ ⟨by simpa using hlog, List.pairwise_singleton _ _⟩
    (by simp) ?_⟩
  intro c hc tb ta hatt
  obtain rfl := List.mem_singleton.mp hc
  have hta := (hlog.mem_log _ hatt.mem_log.2).2
  have hbegun : (states twoWordVals oneStore oneLoad 20).writer.begun = 1 := by decide +kernel
  have hmono : (states twoWordVals oneStore oneLoad ta).writer.begun ≤
      (states twoWordVals oneStore oneLoad 20).writer.begun :=
    begun_mono memory _ _ oneStore _ hta.le
  rw [storesWithin]
  omega

end Sample

end SafeShm.Seqlock
