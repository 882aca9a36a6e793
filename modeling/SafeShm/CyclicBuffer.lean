import SafeShm.Parameters
import SafeShm.RingSlots
import SafeShm.SequenceLocks

/-!
# The cyclic buffer

`CyclicBufferWriter::insert` and the queries of `CyclicBufferReader` (the members of
`CyclicBuffer` have the same bodies) on a segment with the header word `total_writes`
and one counted cell per slot.

The second half says what the segment holds at every position of the writer, for runs
of any length: insertion `m` goes into slot `m % N`, the counter of a slot is twice the
number of insertions into it, and `total_writes` counts the published insertions.
-/

namespace SafeShm.CyclicBuffer
open AtomicPrograms SingleWriterRuns SequenceLocks RingSlots

/-- Header word `total_writes`; the cells are the slots by index. -/
abbrev Place (F : FlatType) := Loc Unit (BitVec 64) F.words

abbrev Command (F : FlatType) := Cmd Unit (BitVec 64) F.words F.Word

abbrev Segment (F : FlatType) := Region Unit (BitVec 64) F.words F.Word

abbrev ReadProgram (F : FlatType) (A : Type) :=
  Program Unit (BitVec 64) F.words F.Word Empty A

abbrev WriteProgram (F : FlatType) (A : Type) :=
  Program Unit (BitVec 64) F.words F.Word (Command F) A

/-- `std::min` on `uint64_t`. -/
def umin (a b : BitVec 64) : BitVec 64 := if b < a then b else a

theorem toNat_umin (a b : BitVec 64) : (umin a b).toNat = min a.toNat b.toNat := by
  simp only [umin, BitVec.lt_def]
  split <;> omega

theorem toNat_available (cap : Capacity) (n : ℕ) :
    (umin (BitVec.ofNat 64 n) cap.N).toNat = min (n % 2 ^ 64) cap.size := by
  rw [toNat_umin, BitVec.toNat_ofNat]
  rfl

section Programs
variable {F : FlatType} (cap : Capacity)

/-- `CyclicBufferWriter::insert`. -/
def insert (data : F.T) : WriteProgram F Unit := do
  let writes ← loadHeader ()
  let idx := writes &&& (cap.N - 1)
  lockedStore idx data
  issue (.header () (writes + 1))
  issue .wake

variable (F)

/-- `CyclicBufferReader::total_writes`. -/
def totalWrites : ReadProgram F (BitVec 64) := loadHeader ()

/-- `CyclicBufferReader::available`. -/
def available : ReadProgram F (BitVec 64) := do
  let writes ← loadHeader ()
  return umin writes cap.N

/-- `CyclicBufferReader::read_slot`. The local `result` is overwritten before it is
returned. -/
def readSlot (fuel : ℕ) (idx : BitVec 64) : ReadProgram F F.T :=
  spinRead fuel idx (fun _ => F.zero)

variable {F} in
/-- The loop of `try_read_slot` from a given attempt on. The bound is inclusive and the
counter is a 32-bit one. -/
def tryReadSlotFrom (idx : BitVec 64) (maxRetries : BitVec 32) :
    ℕ → BitVec 32 → F.T → ReadProgram F (Option F.T)
  | 0, _, _ => .spin
  | fuel + 1, attempt, result =>
      if attempt ≤ maxRetries then do
        let (done, result) ← readAttempt idx result
        if done then return some result
        tryReadSlotFrom idx maxRetries fuel (attempt + 1) result
      else return none

/-- `CyclicBufferReader::try_read_slot`. -/
def tryReadSlot (fuel : ℕ) (idx : BitVec 64) (maxRetries : BitVec 32) :
    ReadProgram F (Option F.T) :=
  tryReadSlotFrom idx maxRetries fuel 0 (fun _ => F.zero)

/-- `CyclicBufferReader::get_latest`. -/
def getLatest (fuel : ℕ) : ReadProgram F F.T := do
  let writes ← loadHeader ()
  if writes = 0 then return F.valueInit
  readSlot F fuel ((writes - 1) &&& (cap.N - 1))

/-- `CyclicBufferReader::get`. -/
def get (fuel : ℕ) (reverseIndex : BitVec 64) : ReadProgram F F.T := do
  let writes ← loadHeader ()
  let idx := (writes - 1 - reverseIndex) &&& (cap.N - 1)
  readSlot F fuel idx

/-- `CyclicBufferReader::try_get`. -/
def tryGet (fuel : ℕ) (reverseIndex : BitVec 64) (maxRetries : BitVec 32) :
    ReadProgram F (Option F.T) := do
  let writes ← loadHeader ()
  if umin writes cap.N ≤ reverseIndex then return none
  let idx := (writes - 1 - reverseIndex) &&& (cap.N - 1)
  tryReadSlot F fuel idx maxRetries

end Programs

section Writer
variable {F : FlatType} (cap : Capacity) (vals : ℕ → F.T)

def slot (k : ℕ) : BitVec 64 := BitVec.ofNat 64 k &&& (cap.N - 1)

theorem toNat_slot (k : ℕ) : (slot cap k).toNat = k % cap.size := by
  rw [slot, cap.toNat_and_mask, BitVec.toNat_ofNat, Nat.mod_mod_of_dvd _ cap.size_dvd]

theorem eq_slot_iff {i : BitVec 64} {k : ℕ} : i = slot cap k ↔ i.toNat = k % cap.size := by
  rw [← BitVec.toNat_inj, toNat_slot]

/-- The segment between insertions, `n` of them made. -/
def quiet (n : ℕ) : Segment F where
  header _ := BitVec.ofNat 64 n
  seq i := BitVec.ofNat 32 (2 * hits cap.size i.toNat n)
  data i := content cap.size (fun _ => F.zero) vals i.toNat n

theorem quiet_succ (n : ℕ) : quiet cap vals (n + 1) =
    memory.write ((quiet cap vals n).written (slot cap n) (vals n))
      (.header () (BitVec.ofNat 64 n + 1)) := by
  simp only [quiet, memory, Region.written, Region.mk.injEq]
  refine ⟨?_, ?_, ?_⟩
  · funext u
    simp [BitVec.ofNat_add]
  · funext i
    by_cases hi : i = slot cap n
    · have hn := (eq_slot_iff cap).mp hi
      subst hi
      simp [hits_succ, hn, Nat.mul_add, BitVec.ofNat_add]
    · have hn : ¬ n % cap.size = i.toNat := fun h => hi ((eq_slot_iff cap).mpr h.symm)
      simp [hits_succ, hn, Function.update_of_ne hi]
  · funext i
    by_cases hi : i = slot cap n
    · have hn := (eq_slot_iff cap).mp hi
      subst hi
      simp [content, hn]
    · have hn : ¬ n % cap.size = i.toNat := fun h => hi ((eq_slot_iff cap).mpr h.symm)
      simp [content, hn, Function.update_of_ne hi]

def nextSlot (m : Segment F) : BitVec 64 := m.header () &&& (cap.N - 1)

private theorem iterate_insert_end (m : Segment F) (v : F.T) :
    (soloStep memory)^[F.words + 4] (m, insert cap v) =
      (m.written (nextSlot cap m) v,
        issue (.header () (m.header () + 1)) >>= fun _ => issue .wake) := by
  rw [show F.words + 4 = (F.words + 3) + 1 by omega, Function.iterate_succ_apply]
  exact iterate_lockedStore_end m (nextSlot cap m) v _

/-- The segment after each step of `insert`. -/
theorem iterate_insert (m : Segment F) (v : F.T) (n : ℕ) :
    ((soloStep memory)^[n] (m, insert cap v)).1 =
      if n < 3 then m
      else if n < F.words + 4 then m.writing (nextSlot cap m) v (n - 3)
      else if n < F.words + 5 then m.written (nextSlot cap m) v
      else memory.write (m.written (nextSlot cap m) v) (.header () (m.header () + 1)) := by
  rcases Nat.lt_or_ge n (F.words + 4) with hn | hn
  · rw [if_pos hn]
    cases n with
    | zero => rfl
    | succ p =>
      rw [Function.iterate_succ_apply]
      have h := iterate_lockedStore m (nextSlot cap m) v
        (fun _ => issue (.header () (m.header () + 1)) >>= fun _ => issue .wake)
        (show p ≤ F.words + 2 by omega)
      rw [show p + 1 - 3 = p - 2 by omega]
      refine Eq.trans h ?_
      by_cases hp : p < 2
      · rw [if_pos hp, if_pos (by omega)]
      · rw [if_neg hp, if_neg (by omega)]
  · rw [if_neg (by omega), if_neg (by omega)]
    obtain ⟨j, rfl⟩ : ∃ j, n = j + (F.words + 4) := ⟨n - (F.words + 4), by omega⟩
    rw [Function.iterate_add_apply, iterate_insert_end]
    match j with
    | 0 => rw [if_pos (by omega)]; rfl
    | 1 => rw [if_neg (by omega)]; rfl
    | j + 2 =>
      rw [if_neg (by omega), Function.iterate_succ_apply, Function.iterate_succ_apply,
        Function.iterate_fixed rfl]
      rfl

theorem steps_insert (m : Segment F) (v : F.T) : steps memory (insert cap v) m = F.words + 6 := by
  have h := steps_iterate memory (F.words + 4) (m, insert cap v)
  rw [iterate_insert_end] at h
  have htail : steps memory (issue (.header () (m.header () + 1)) >>= fun _ => issue .wake)
      (m.written (nextSlot cap m) v) = 2 := rfl
  rw [htail] at h
  dsimp only at h
  omega

private theorem le_steps_insert (m : Segment F) (v : F.T) :
    F.words + 5 ≤ steps memory (insert cap v) m := by
  rw [steps_insert]
  exact Nat.le_succ _

theorem finish_insert_eq (m : Segment F) (v : F.T) :
    finish memory (insert cap v) m =
      memory.write (m.written (nextSlot cap m) v) (.header () (m.header () + 1)) := by
  have h := finish_iterate memory (F.words + 4) (m, insert cap v)
  rw [iterate_insert_end] at h
  exact h.symm

theorem finish_insert (n : ℕ) :
    finish memory (insert cap (vals n)) (quiet cap vals n) = quiet cap vals (n + 1) := by
  rw [finish_insert_eq, quiet_succ]
  rfl

theorem callMem_insert (k : ℕ) :
    callMem memory (fun k => insert cap (vals k)) (Region.zeroed F.zero) k =
      quiet cap vals k := by
  induction k with
  | zero => rfl
  | succ k ih => rw [callMem, ih, finish_insert]

private theorem memAt_insert (k pc : ℕ) :
    memAt memory (fun k => insert cap (vals k)) (Region.zeroed F.zero) k pc =
      if pc < 3 then quiet cap vals k
      else if pc < F.words + 4 then (quiet cap vals k).writing (slot cap k) (vals k) (pc - 3)
      else if pc < F.words + 5 then (quiet cap vals k).written (slot cap k) (vals k)
      else quiet cap vals (k + 1) := by
  rw [memAt, callMem_insert, quiet_succ]
  exact iterate_insert cap (quiet cap vals k) (vals k) pc

end Writer

section Positions
variable {F : FlatType} (cap : Capacity)

abbrev Writer (F : FlatType) := Client (Place F) (Val F.Word) (Command F)

/-- Insertions whose slot is complete: the counter is even again. -/
def completed (w : Writer F) : ℕ := if F.words + 4 ≤ w.pc then w.begun else w.begun - 1

/-- Insertions that `total_writes` counts. -/
def published (w : Writer F) : ℕ := if F.words + 5 ≤ w.pc then w.begun else w.begun - 1

/-- 1 while the last insertion begun keeps the counter of slot `i` odd, 0 otherwise. -/
def midInsert (w : Writer F) (i : ℕ) : ℕ :=
  if 3 ≤ w.pc ∧ w.pc < F.words + 4 ∧ i = (w.begun - 1) % cap.size then 1 else 0

/-- No insertion is between its first store and its publication. -/
def Settled (w : Writer F) : Prop := w.pc < 3 ∨ F.words + 5 ≤ w.pc

theorem midInsert_le_one (w : Writer F) (i : ℕ) : midInsert cap w i ≤ 1 := by
  rw [midInsert]
  split <;> omega

theorem published_le_completed (w : Writer F) : published w ≤ completed w := by
  rw [published, completed]
  split <;> split <;> omega

theorem completed_le_succ (w : Writer F) : completed w ≤ published w + 1 := by
  rw [published, completed]
  split <;> split <;> omega

theorem completed_le_begun (w : Writer F) : completed w ≤ w.begun := by
  rw [completed]
  split <;> omega

end Positions

section Runs
variable {F : FlatType} (cap : Capacity) {ι : Type} [DecidableEq ι] {A : ι → Type}
variable (vals : ℕ → F.T) (sched : ℕ → Party ι) (readers : (i : ι) → ReadProgram F (A i))

/-- The run of one writer that inserts `vals 0, vals 1, …` and of the readers, from a
zero-filled segment. -/
def states : ℕ → System (Place F) (Val F.Word) (Command F) (Segment F) ι A :=
  (System.start (Region.zeroed F.zero) readers).after memory (fun k => insert cap (vals k)) sched

def segments (t : ℕ) : Segment F := (states cap vals sched readers t).mem

def writers (t : ℕ) : Writer F := (states cap vals sched readers t).writer

/-- A reader that has its first turn at instant `a` or later and has returned at instant `b`
has executed its program along the segments of the run. -/
theorem exec_of_states (i : ι) {v : A i} {a b : ℕ} (hab : a ≤ b)
    (hidle : ∀ t < a, sched t ≠ .reader i)
    (h : ((states cap vals sched readers b).reader i).result? = some v) :
    ∃ log, Exec memory.read (segments cap vals sched readers) a (readers i) log b v := by
  have hexec := exec_of_after memory (fun k => insert cap (vals k)) sched
    (System.start (Region.zeroed F.zero) readers) i hab h
  rw [reader_eq_of_idle hidle] at hexec
  exact hexec

theorem writers_begun_mono : Monotone (fun t => (writers cap vals sched readers t).begun) :=
  begun_mono memory _ _ sched readers

theorem completed_mono : Monotone (fun t => completed (writers cap vals sched readers t)) := by
  apply monotone_position memory (fun k => insert cap (vals k)) (Region.zeroed F.zero) sched readers
    (fun k pc => if F.words + 4 ≤ pc then k else k - 1) (F.words + 5) (fun _ => le_steps_insert cap _ _)
  · intro k pc
    split <;> split <;> omega
  · simp
  · intro k pc hpc
    simp [show F.words + 4 ≤ pc by omega]

theorem completed_le {t t' : ℕ} (h : t ≤ t') : completed (writers cap vals sched readers t) ≤
    completed (writers cap vals sched readers t') := completed_mono cap vals sched readers h

theorem published_mono : Monotone (fun t => published (writers cap vals sched readers t)) := by
  apply monotone_position memory (fun k => insert cap (vals k)) (Region.zeroed F.zero) sched readers
    (fun k pc => if F.words + 5 ≤ pc then k else k - 1) (F.words + 5) (fun _ => le_steps_insert cap _ _)
  · intro k pc
    split <;> split <;> omega
  · simp
  · intro k pc hpc
    simp [hpc]

private theorem begun_ne_zero {t : ℕ} (h : (writers cap vals sched readers t).pc ≠ 0) :
    (writers cap vals sched readers t).begun ≠ 0 :=
  fun h0 => h (pc_eq_zero memory _ _ sched readers h0)

private theorem segments_eq (t : ℕ) : segments cap vals sched readers t =
    memAt memory (fun k => insert cap (vals k)) (Region.zeroed F.zero)
      ((writers cap vals sched readers t).begun - 1) (writers cap vals sched readers t).pc :=
  mem_after memory _ _ sched readers t

theorem segments_header (t : ℕ) : (segments cap vals sched readers t).header () =
    BitVec.ofNat 64 (published (writers cap vals sched readers t)) := by
  have hne : (writers cap vals sched readers t).pc ≠ 0 → _ :=
    begun_ne_zero cap vals sched readers
  rw [segments_eq, memAt_insert, published]
  generalize writers cap vals sched readers t = w at hne
  split
  · rw [if_neg (by omega)]
    rfl
  split
  · rw [if_neg (by omega)]
    rfl
  split
  · rw [if_neg (by omega)]
    rfl
  · rw [if_pos (by omega), Nat.sub_add_cancel (by omega)]
    rfl

/-- A slot counter is twice the number of complete insertions into the slot, plus one
while an insertion is going on there. -/
theorem segments_seq (i : BitVec 64) (t : ℕ) : (segments cap vals sched readers t).seq i =
    BitVec.ofNat 32 (2 * hits cap.size i.toNat (completed (writers cap vals sched readers t)) +
      midInsert cap (writers cap vals sched readers t) i.toNat) := by
  have hne : (writers cap vals sched readers t).pc ≠ 0 → _ :=
    begun_ne_zero cap vals sched readers
  rw [segments_eq, memAt_insert, completed, midInsert]
  generalize writers cap vals sched readers t = w at hne
  split
  · rw [if_neg (by omega), if_neg (by omega)]
    rfl
  split
  · rw [if_neg (by omega)]
    by_cases hi : i = slot cap (w.begun - 1)
    · have hw := (eq_slot_iff cap).mp hi
      rw [if_pos ⟨by omega, by omega, hw⟩]
      subst hi
      simp [Region.writing, quiet, BitVec.ofNat_add]
    · have hw : ¬ i.toNat = (w.begun - 1) % cap.size := fun h => hi ((eq_slot_iff cap).mpr h)
      rw [if_neg (fun h => hw h.2.2)]
      simp [Region.writing, quiet, Function.update_of_ne hi]
  · have hsucc := congrArg (fun r => Region.seq r i) (quiet_succ cap vals (w.begun - 1))
    rw [Nat.sub_add_cancel (by omega)] at hsucc
    rw [if_pos (show F.words + 4 ≤ w.pc by omega),
      if_neg (show ¬ (3 ≤ w.pc ∧ w.pc < F.words + 4 ∧ _) by omega), Nat.add_zero]
    split
    · exact hsucc.symm
    · rw [Nat.sub_add_cancel (by omega)]
      rfl

/-- A slot whose counter is even holds the last complete insertion into it. -/
theorem segments_data {i : BitVec 64} {t : ℕ}
    (h : midInsert cap (writers cap vals sched readers t) i.toNat = 0) :
    (segments cap vals sched readers t).data i =
      content cap.size (fun _ => F.zero) vals i.toNat
        (completed (writers cap vals sched readers t)) := by
  have hne : (writers cap vals sched readers t).pc ≠ 0 → _ :=
    begun_ne_zero cap vals sched readers
  rw [midInsert] at h
  rw [segments_eq, memAt_insert, completed]
  generalize writers cap vals sched readers t = w at h hne
  split
  · rw [if_neg (by omega)]
    rfl
  split
  · rw [if_neg (by omega)]
    by_cases hi : i = slot cap (w.begun - 1)
    · rw [if_pos ⟨by omega, by omega, (eq_slot_iff cap).mp hi⟩] at h
      omega
    · simp [Region.writing, quiet, Function.update_of_ne hi]
  · have hsucc := congrArg (fun r => Region.data r i) (quiet_succ cap vals (w.begun - 1))
    rw [Nat.sub_add_cancel (by omega)] at hsucc
    rw [if_pos (show F.words + 4 ≤ w.pc by omega)]
    split
    · exact hsucc.symm
    · rw [Nat.sub_add_cancel (by omega)]
      rfl

/-- A slot looks as it does between insertions when nothing is being written, or when the
ring is not full and the slot holds a published insertion. -/
theorem segments_eq_quiet {i : BitVec 64} {t P : ℕ}
    (hP : published (writers cap vals sched readers t) = P)
    (h : Settled (writers cap vals sched readers t) ∨ P < cap.size ∧ i.toNat < P) :
    (segments cap vals sched readers t).seq i = (quiet cap vals P).seq i ∧
      (segments cap vals sched readers t).data i = (quiet cap vals P).data i := by
  have hmid : midInsert cap (writers cap vals sched readers t) i.toNat = 0 ∧
      hits cap.size i.toNat (completed (writers cap vals sched readers t)) =
        hits cap.size i.toNat P := by
    generalize writers cap vals sched readers t = w at hP h
    rw [midInsert, completed]
    rw [published] at hP
    rcases h with hsettled | ⟨hlt, hi⟩
    · rw [Settled] at hsettled
      rw [if_neg (by omega)]
      refine ⟨rfl, ?_⟩
      congr 1
      split at hP <;> split <;> omega
    · have hslot : P % cap.size = P := Nat.mod_eq_of_lt hlt
      have hhits : hits cap.size i.toNat (P + 1) = hits cap.size i.toNat P := by
        rw [hits_succ, if_neg (by omega), Nat.add_zero]
      constructor
      · rw [if_neg]
        intro hmid
        obtain ⟨-, hpc, hi'⟩ := hmid
        rw [if_neg (by omega)] at hP
        rw [hP, hslot] at hi'
        omega
      · split at hP
        · rw [if_pos (by omega), hP]
        · split
          · rw [show w.begun = P + 1 by omega, hhits]
          · rw [hP]
  obtain ⟨hmid, hhits⟩ := hmid
  constructor
  · rw [segments_seq, hmid, hhits]
    rfl
  · have hle := published_le_completed (writers cap vals sched readers t)
    rw [hP] at hle
    rw [segments_data cap vals sched readers hmid]
    exact (content_eq_of_hits_eq hle hhits.symm).symm

def versioned (i : BitVec 64) : Versioned (segments cap vals sched readers) i where
  ver t := 2 * hits cap.size i.toNat (completed (writers cap vals sched readers t)) +
    midInsert cap (writers cap vals sched readers t) i.toNat
  mono := by
    apply monotone_position memory (fun k => insert cap (vals k)) (Region.zeroed F.zero) sched
      readers (fun k pc => 2 * hits cap.size i.toNat (if F.words + 4 ≤ pc then k else k - 1) +
        if 3 ≤ pc ∧ pc < F.words + 4 ∧ i.toNat = (k - 1) % cap.size then 1 else 0)
      (F.words + 5) (fun _ => le_steps_insert cap _ _)
    · intro k pc
      have hk := hits_succ cap.size i.toNat k
      simp only [Nat.add_sub_cancel]
      rcases Nat.lt_trichotomy (pc + 1) (F.words + 4) with hpc | hpc | hpc
      · rw [if_neg (show ¬ F.words + 4 ≤ pc by omega), if_neg (show ¬ F.words + 4 ≤ pc + 1 by omega)]
        split <;> split <;> omega
      · rw [if_neg (show ¬ F.words + 4 ≤ pc by omega), if_pos (show F.words + 4 ≤ pc + 1 by omega)]
        split <;> split at hk <;> omega
      · rw [if_pos (show F.words + 4 ≤ pc by omega), if_pos (show F.words + 4 ≤ pc + 1 by omega),
          if_neg (by omega)]
        omega
    · simp
    · intro k pc hpc
      simp [show F.words + 4 ≤ pc by omega, show ¬ pc < F.words + 4 by omega]
  seq_eq := segments_seq cap vals sched readers i
  data_eq t t' ht heq := by
    have hle := midInsert_le_one cap (writers cap vals sched readers t) i.toNat
    have hle' := midInsert_le_one cap (writers cap vals sched readers t') i.toNat
    rw [segments_data cap vals sched readers (by omega),
      segments_data cap vals sched readers (by omega)]
    rcases le_total t t' with htt | htt
    · exact (content_eq_of_hits_eq (completed_le cap vals sched readers htt) (by omega)).symm
    · exact content_eq_of_hits_eq (completed_le cap vals sched readers htt) (by omega)

end Runs

end SafeShm.CyclicBuffer
