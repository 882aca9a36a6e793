import SafeShm.CyclicBufferReads
import SafeShm.ReadProgress
import SafeShm.Seqlock

/-!
# Loads return

`load`, `get_latest` and `get` have no bound on their retries, and a writer that goes on storing
can keep them from returning. It has to do so with every attempt: a reader that does not return
loses its turns to an odd counter, or it loses an attempt to a store that was opened during it. A
reader of the ring loses nothing to insertions into other slots than the one it reads.
-/

namespace SafeShm.LoadProgress
open AtomicPrograms SingleWriterRuns SequenceLocks RingSlots

variable {F : FlatType} {ι : Type} [DecidableEq ι] {A : ι → Type}

section Seqlock
open Seqlock

variable (vals : ℕ → F.T) (sched : ℕ → Party ι) (readers : (i : ι) → Seqlock.ReadProgram F (A i))

def storesOpened (t : ℕ) : ℕ :=
  finished (states vals sched readers t).writer + midStore (states vals sched readers t).writer

private theorem opened_eq (t : ℕ) : (Seqlock.versioned vals sched readers).opened t =
    storesOpened vals sched readers t := by
  have hle := midStore_le_one (states vals sched readers t).writer
  simp only [Versioned.opened, Seqlock.versioned, storesOpened]
  omega

private theorem countP_oddAt (ts : List ℕ) :
    ts.countP (oddAt (segments vals sched readers) ()) =
      ts.countP (fun t => midStore (states vals sched readers t).writer = 1) := by
  apply List.countP_congr
  intro t _
  have hle := midStore_le_one (states vals sched readers t).writer
  rw [(Seqlock.versioned vals sched readers).oddAt_eq, decide_eq_true_iff, decide_eq_true_iff]
  simp only [Seqlock.versioned]
  omega

/-- A load returns once its reader has had more turns than those at which a store kept the counter
odd, than `words + 2` for every store that was opened meanwhile, and than `words + 1` for the last
attempt. What it returns is the value of the last store finished at some instant since its call. -/
theorem load_returns {i : ι} {a b fuel : ℕ} (hab : a ≤ b) {k : F.T → Seqlock.ReadProgram F (A i)}
    (hprog : (states vals sched readers a).reader i = load F fuel >>= k)
    (hfuel : (turnsOf sched i a b).length ≤ fuel)
    (hturns : (turnsOf sched i a b).countP
          (fun t => midStore (states vals sched readers t).writer = 1) +
        (F.words + 2) * (storesOpened vals sched readers b - storesOpened vals sched readers a) +
        (F.words + 1) < (turnsOf sched i a b).length) :
    ∃ t v, a ≤ t ∧ t ≤ b ∧ (states vals sched readers t).reader i = k v ∧
      (storesWithin vals sched readers a b < 2 ^ 31 → ∃ u, a ≤ u ∧ u < t ∧
        v = stored vals (finished (states vals sched readers u).writer)) := by
  rw [← countP_oddAt, ← opened_eq, ← opened_eq] at hturns
  obtain ⟨v, hv⟩ := spinRead_returns (Seqlock.versioned vals sched readers) pairwise_turnsOf
    (fun t => mem_turnsOf) hfuel hturns
  obtain ⟨t, log, hat, htb, hk, hexec, -⟩ := exists_returned hab hprog hv
  refine ⟨t, v, hat, htb, hk, ?_⟩
  intro hfew
  apply exec_load_value vals sched readers hexec
  intro tb ta hatt
  have htb' := (hexec.mem_log _ hatt.mem_log.1).1
  have hta := (hexec.mem_log _ hatt.mem_log.2).2
  have hfinished : finished (states vals sched readers a).writer ≤
      finished (states vals sched readers tb).writer := finished_mono vals sched readers htb'
  have hbegun : (states vals sched readers ta).writer.begun ≤
      (states vals sched readers b).writer.begun :=
    begun_mono memory _ _ sched readers (hta.le.trans htb)
  rw [storesWithin] at hfew ⊢
  omega

/-- The run with one store, in which the reader may make twenty attempts. -/
abbrev patientLoad (_ : Unit) : Seqlock.ReadProgram twoWords twoWords.T := load twoWords 20

theorem load_returns_oneStore : ∃ t v, 0 ≤ t ∧ t ≤ 20 ∧
    (states twoWordVals oneStore patientLoad t).reader () = .ret v ∧
    (storesWithin twoWordVals oneStore patientLoad 0 20 < 2 ^ 31 → ∃ u, 0 ≤ u ∧ u < t ∧
      v = stored twoWordVals (finished (states twoWordVals oneStore patientLoad u).writer)) :=
  load_returns twoWordVals oneStore patientLoad (Nat.zero_le 20) (bind_pure (load twoWords 20)).symm
    (by decide +kernel) (by decide +kernel)

end Seqlock

section Ring
open CyclicBuffer

variable (cap : Capacity) (vals : ℕ → F.T) (sched : ℕ → Party ι)
variable (readers : (i : ι) → CyclicBuffer.ReadProgram F (A i))

/-- The insertions that have made the counter of slot `i` odd by instant `t`. -/
def insertsOpened (i : BitVec 64) (t : ℕ) : ℕ :=
  hits cap.size i.toNat (completed (writers cap vals sched readers t)) +
    midInsert cap (writers cap vals sched readers t) i.toNat

/-- The slot that a call reads when it has loaded `total_writes` at instant `t₀`. -/
def slotOf (call : ReadCall) (t₀ : ℕ) : BitVec 64 :=
  ((segments cap vals sched readers t₀).header () - 1 - call.reverseIndex) &&& (cap.N - 1)

private theorem slot_opened_eq (i : BitVec 64) (t : ℕ) :
    (versioned cap vals sched readers i).opened t = insertsOpened cap vals sched readers i t := by
  have hle := midInsert_le_one cap (writers cap vals sched readers t) i.toNat
  simp only [Versioned.opened, versioned, insertsOpened]
  omega

private theorem slot_countP_oddAt (i : BitVec 64) (ts : List ℕ) :
    ts.countP (oddAt (segments cap vals sched readers) i) =
      ts.countP (fun t => midInsert cap (writers cap vals sched readers t) i.toNat = 1) := by
  apply List.countP_congr
  intro t _
  have hle := midInsert_le_one cap (writers cap vals sched readers t) i.toNat
  rw [(versioned cap vals sched readers i).oddAt_eq, decide_eq_true_iff, decide_eq_true_iff]
  simp only [versioned]
  omega

def Retries : ReadCall → Prop
  | .getLatest => True
  | .get _ => True
  | .tryGet _ _ => False

private theorem afterTurns_readCall {σ : ℕ → Segment F} {call : ReadCall} (hcall : Retries call)
    {t₀ fuel : ℕ} {ts : List ℕ}
    (h : ∃ v, afterTurns memory σ ts (readSlot F fuel
      (((σ t₀).header () - 1 - call.reverseIndex) &&& (cap.N - 1))) = .ret v) :
    ∃ v, afterTurns memory σ (t₀ :: ts) (call.prog F cap fuel) = .ret (some v) := by
  obtain ⟨v, hv⟩ := h
  have hheader : memory.read (σ t₀) (.header ()) = (σ t₀).header () := rfl
  cases call with
  | getLatest =>
    have hslot : (σ t₀).header () - 1 - ReadCall.getLatest.reverseIndex = (σ t₀).header () - 1 :=
      BitVec.sub_zero _
    rw [hslot] at hv
    simp only [ReadCall.prog, getLatest, loadHeader, Prog.load_bind, Prog.ret_bind]
    rw [afterTurns_load, hheader]
    split
    · exact ⟨F.valueInit, afterTurns_ret ..⟩
    · exact ⟨v, afterTurns_map hv some⟩
  | get r =>
    simp only [ReadCall.prog, CyclicBuffer.get, loadHeader, Prog.load_bind, Prog.ret_bind]
    rw [afterTurns_load, hheader]
    exact ⟨v, afterTurns_map hv some⟩
  | tryGet r maxRetries => exact hcall.elim

/-- `get_latest` and `get` return once their reader has had more turns than those at which an
insertion kept the counter of its slot odd, than `words + 2` for every insertion that was opened in
that slot since `total_writes` was loaded, and than `words + 2` for that load and the last attempt.
On a ring without insertions `get_latest` returns `T{}`. For an element that is there, what they
return is an insertion into its slot, no older than the one asked for. -/
theorem readCall_returns {i : ι} {a b fuel t₀ : ℕ} (hab : a ≤ b) {call : ReadCall}
    (hcall : Retries call) {k : Option F.T → CyclicBuffer.ReadProgram F (A i)}
    (hprog : (states cap vals sched readers a).reader i = call.prog F cap fuel >>= k)
    (hfirst : (turnsOf sched i a b).head? = some t₀)
    (hfuel : (turnsOf sched i a b).length ≤ fuel)
    (hturns : (turnsOf sched i a b).countP (fun t => midInsert cap (writers cap vals sched readers t)
            (slotOf cap vals sched readers call t₀).toNat = 1) +
        (F.words + 2) *
          (insertsOpened cap vals sched readers (slotOf cap vals sched readers call t₀) b -
            insertsOpened cap vals sched readers (slotOf cap vals sched readers call t₀) t₀) +
        (F.words + 2) < (turnsOf sched i a b).length) :
    ∃ t v log, a ≤ t ∧ t ≤ b ∧ (states cap vals sched readers t).reader i = k (some v) ∧
      Exec memory.read (segments cap vals sched readers) a (call.prog F cap fuel) log t (some v) ∧
      log.head? = some ⟨t₀, .header ()⟩ ∧
      (call = .getLatest → (segments cap vals sched readers t₀).header () = 0 →
        v = F.valueInit) ∧
      (call.reverseIndex.toNat <
          min ((segments cap vals sched readers t₀).header ()).toNat cap.size →
        (∀ idx tb ta, Attempt idx log tb ta →
          hitsWithin cap vals sched readers idx.toNat tb ta < 2 ^ 31) →
        ∃ m, v = vals m ∧ m ≡ asked cap vals sched readers call t₀ [MOD cap.size] ∧
          asked cap vals sched readers call t₀ ≤ m ∧
          m < (writers cap vals sched readers t).begun) := by
  obtain ⟨rest, hrest⟩ := List.head?_eq_some_iff.mp hfirst
  have hsorted : (t₀ :: rest).Pairwise (· < ·) := hrest ▸ pairwise_turnsOf
  have hbounds : ∀ t ∈ rest, t₀ ≤ t ∧ t < b := by
    intro t ht
    have hmem : t ∈ turnsOf sched i a b := hrest ▸ List.mem_cons_of_mem t₀ ht
    exact ⟨((List.pairwise_cons.mp hsorted).1 t ht).le, (mem_turnsOf hmem).2⟩
  rw [hrest, List.length_cons] at hfuel
  rw [← slot_countP_oddAt, ← slot_opened_eq, ← slot_opened_eq, hrest, List.length_cons,
    List.countP_cons] at hturns
  have hread : ∃ v, afterTurns memory (segments cap vals sched readers) rest
      (readSlot F fuel (slotOf cap vals sched readers call t₀)) = .ret v :=
    spinRead_returns (versioned cap vals sched readers (slotOf cap vals sched readers call t₀))
      (List.pairwise_cons.mp hsorted).2 hbounds (by omega) (by omega)
  obtain ⟨v, hv⟩ := afterTurns_readCall cap hcall hread
  rw [← hrest] at hv
  obtain ⟨t, log, hat, htb, hk, hexec, htimes⟩ := exists_returned hab hprog hv
  obtain ⟨t', hhead, -, hcases⟩ := exec_readCall_cases hexec
  obtain rfl : t' = t₀ := by
    obtain ⟨log', rfl⟩ := List.head?_eq_some_iff.mp hhead
    rw [hrest, List.map_cons, List.cons_prefix_cons] at htimes
    exact htimes.1
  refine ⟨t, v, log, hat, htb, hk, hexec, hhead, ?_, ?_⟩
  · intro hlatest hzero
    rcases hcases with ⟨-, -, hv⟩ | ⟨hsome, -⟩
    · exact hv
    · exact absurd hzero (hsome hlatest)
  · intro hr hfew
    obtain ⟨slot, tb, ta, m, -, -, -, hta, hread, hv, hm, -, hmod, hle⟩ :=
      readCall_value cap vals sched readers hexec hhead hr hfew
    have hcompleted : completed (writers cap vals sched readers tb) ≤
        (writers cap vals sched readers t).begun :=
      completed_le_begun_of_le cap vals sched readers (hread.le.trans hta.le)
    exact ⟨m, hv, hmod, hle, hm.trans_le hcompleted⟩

abbrev patientGet (_ : Unit) : CyclicBuffer.ReadProgram oneWord (Option oneWord.T) :=
  (ReadCall.get 0).prog oneWord capacityOne 20

/-- `get(0)` loads `total_writes` after one insertion, and finds the slot odd twice. -/
def held : ℕ → Party Unit :=
  blocks [(.writer, 8), (.reader (), 1), (.writer, 4), (.reader (), 2), (.writer, 4),
    (.reader (), 7)]

theorem readCall_returns_held :
    ∃ t v m, 0 ≤ t ∧ t ≤ 26 ∧
      (states capacityOne tens held patientGet t).reader () = .ret (some v) ∧
      v = tens m ∧ m ≡ asked capacityOne tens held patientGet (.get 0) 8 [MOD capacityOne.size] ∧
      asked capacityOne tens held patientGet (.get 0) 8 ≤ m ∧
      m < (writers capacityOne tens held patientGet t).begun := by
  obtain ⟨t, v, log, hle, hlt, hk, hexec, -, -, hvalue⟩ := readCall_returns capacityOne tens held
    patientGet (Nat.zero_le 26) (show Retries (.get 0) from trivial)
    (bind_pure (patientGet ())).symm (show (turnsOf held () 0 26).head? = some 8 by decide +kernel)
    (by decide +kernel) (by decide +kernel)
  have hfew : (writers capacityOne tens held patientGet 26).begun < 2 ^ 31 := by decide +kernel
  have hmono : (writers capacityOne tens held patientGet t).begun ≤
      (writers capacityOne tens held patientGet 26).begun :=
    writers_begun_mono capacityOne tens held patientGet hlt
  obtain ⟨m, hm⟩ := hvalue (by decide +kernel)
    (hitsWithin_lt capacityOne tens held patientGet hexec (by omega))
  exact ⟨t, v, m, hle, hlt, hk, hm⟩

end Ring

end SafeShm.LoadProgress
