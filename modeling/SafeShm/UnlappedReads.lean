import SafeShm.CyclicBufferReads
import SafeShm.CyclicBufferRefinement

/-!
# Reads that the writer does not go round

The writer comes back to a slot after a whole round of the ring. Until it begins the insertion that
goes into the slot of an element, nothing touches that slot, whatever the writer does in the other
ones. A call for the element then succeeds at its first attempt: also a `try_get` that may not
retry returns a value, and it is the value that was asked for.
-/

namespace SafeShm.CyclicBuffer
open AtomicPrograms SingleWriterRuns SequenceLocks RingSlots

variable {F : FlatType} (cap : Capacity)

/-- A call loads `total_writes` first and then only the slot computed from it. -/
theorem exec_readCall_loads {cap : Capacity} {σ : ℕ → Segment F} {s b fuel : ℕ} {call : ReadCall}
    {log : List (Event (Place F))} {x : Option F.T}
    (h : Exec memory.read σ s (call.prog F cap fuel) log b x) :
    ∃ t₀ log', log = ⟨t₀, .header ()⟩ :: log' ∧ ∀ e ∈ log',
      OfCell (((σ t₀).header () - 1 - call.reverseIndex) &&& (cap.N - 1)) e.loc := by
  cases call with
  | getLatest =>
    simp only [ReadCall.prog, CyclicBuffer.getLatest, bind_assoc] at h
    obtain ⟨t₀, m, log', rfl, -, -, h'⟩ := exec_header_bind h
    refine ⟨t₀, log', rfl, ?_⟩
    intro e he
    have hslot : (σ t₀).header () - 1 - ReadCall.getLatest.reverseIndex = (σ t₀).header () - 1 :=
      BitVec.sub_zero _
    rw [hslot]
    split at h'
    · obtain ⟨rfl, -, -⟩ := exec_ret.mp h'
      exact absurd he List.not_mem_nil
    · exact h'.loc_mem ((loadsIn_spinRead _ _ _).bind fun _ => trivial) e he
  | get r =>
    simp only [ReadCall.prog, CyclicBuffer.get, bind_assoc] at h
    obtain ⟨t₀, m, log', rfl, -, -, h'⟩ := exec_header_bind h
    refine ⟨t₀, log', rfl, ?_⟩
    intro e he
    exact h'.loc_mem ((loadsIn_spinRead _ _ _).bind fun _ => trivial) e he
  | tryGet r maxRetries =>
    obtain ⟨t₀, log', rfl, hloads⟩ := exec_tryGet_loads h
    exact ⟨t₀, log', rfl, fun e he => (hloads e he).2⟩

section Quiet
variable (vals : ℕ → F.T) {n : ℕ} {call : ReadCall}

/-- Between insertions a call for an element that is there returns it, if it may make an
attempt. -/
theorem run_readCall {fuel : ℕ} {x : Option F.T}
    (hr : call.reverseIndex.toNat < min (n % 2 ^ 64) cap.size)
    (h : (call.prog F cap fuel).run (memory.read (quiet cap vals n)) = some x) :
    x = some (vals (n - 1 - call.reverseIndex.toNat)) := by
  have hheader : memory.read (quiet cap vals n) (.header ()) = BitVec.ofNat 64 n := rfl
  cases call with
  | getLatest =>
    have hn : n % 2 ^ 64 ≠ 0 := Nat.ne_of_gt (Nat.zero_lt_of_lt (lt_min_iff.mp hr).1)
    rw [ReadCall.prog, Prog.run_bind] at h
    cases fuel with
    | zero =>
      have hne : BitVec.ofNat 64 n ≠ 0 := by
        intro hzero
        have := congrArg BitVec.toNat hzero
        rw [BitVec.toNat_ofNat] at this
        exact hn this
      simp only [CyclicBuffer.getLatest, loadHeader, Prog.load_bind, Prog.ret_bind, Prog.run_load,
        hheader] at h
      rw [if_neg hne] at h
      exact absurd h (by simp [readSlot, spinRead, Prog.run])
    | succ fuel =>
      rw [run_getLatest, if_neg hn] at h
      exact (Option.some.inj h).symm
  | get r =>
    rw [ReadCall.prog, Prog.run_bind] at h
    cases fuel with
    | zero => exact absurd h (by simp [CyclicBuffer.get, loadHeader, readSlot, spinRead, Prog.run])
    | succ fuel =>
      rw [run_get cap vals n fuel (show r.toNat < _ from hr)] at h
      exact (Option.some.inj h).symm
  | tryGet r maxRetries =>
    rw [ReadCall.prog] at h
    cases fuel with
    | zero =>
      have hle : ¬ umin (BitVec.ofNat 64 n) cap.N ≤ r := by
        rw [BitVec.le_def, toNat_available, Nat.not_le]
        exact hr
      simp only [CyclicBuffer.tryGet, loadHeader, Prog.load_bind, Prog.ret_bind, Prog.run_load,
        hheader] at h
      rw [if_neg hle] at h
      exact absurd h (by simp [tryReadSlot, tryReadSlotFrom, Prog.run])
    | succ fuel =>
      rw [run_tryGet, if_pos (show r.toNat < _ from hr)] at h
      exact (Option.some.inj h).symm

end Quiet

section Runs
variable {ι : Type} [DecidableEq ι] {A : ι → Type}
variable (vals : ℕ → F.T) (sched : ℕ → Party ι) (readers : (i : ι) → ReadProgram F (A i))

/-- The slot of insertion `m` looks as it does after `n` insertions until the writer begins the
next insertion into it. -/
theorem segments_eq_quiet_of_begun_le {i : BitVec 64} {t m n : ℕ} (hi : i.toNat = m % cap.size)
    (hm : m < n) (hn : n ≤ completed (writers cap vals sched readers t))
    (hbegun : (writers cap vals sched readers t).begun ≤ m + cap.size) :
    (segments cap vals sched readers t).seq i = (quiet cap vals n).seq i ∧
      (segments cap vals sched readers t).data i = (quiet cap vals n).data i := by
  have hcompleted := completed_le_begun (writers cap vals sched readers t)
  have hhits : hits cap.size i.toNat (completed (writers cap vals sched readers t)) =
      hits cap.size i.toNat n := by
    rw [hi, hits_eq (hm.trans_le hn) (hcompleted.trans hbegun), hits_eq hm (by omega)]
  have hmid : midInsert cap (writers cap vals sched readers t) i.toNat = 0 := by
    rw [midInsert, if_neg]
    rintro ⟨-, hpc, hslot⟩
    rw [completed, if_neg (by omega)] at hn
    have hround := add_size_le (hm.trans_le hn) (hslot.symm.trans hi)
    have hpos := cap.size_pos
    omega
  constructor
  · rw [segments_seq, hmid, hhits]
    rfl
  · rw [segments_data cap vals sched readers hmid]
    exact (content_eq_of_hits_eq hn hhits.symm).symm

variable {fuel a b t₀ : ℕ} {call : ReadCall} {log : List (Event (Place F))} {x : Option F.T}

/-- Until the writer begins the insertion that goes into its slot next, a call for an element finds
what it would find if there were no insertions after its load of `total_writes`. -/
theorem run_quiet_of_begun_le
    (hexec : Exec memory.read (segments cap vals sched readers) a (call.prog F cap fuel) log b x)
    (hload : log.head? = some ⟨t₀, .header ()⟩)
    (hr : call.reverseIndex.toNat <
      min ((segments cap vals sched readers t₀).header ()).toNat cap.size)
    (hbegun : (writers cap vals sched readers b).begun ≤
      asked cap vals sched readers call t₀ + cap.size) :
    (call.prog F cap fuel).run
        (memory.read (quiet cap vals (published (writers cap vals sched readers t₀)))) = some x ∧
      asked cap vals sched readers call t₀ =
        published (writers cap vals sched readers t₀) - 1 - call.reverseIndex.toNat := by
  obtain ⟨t, log', rfl, hloads⟩ := exec_readCall_loads hexec
  obtain rfl : t = t₀ := by simpa using hload
  have htime := hexec.mem_log
  have hheader := toNat_header cap vals sched readers t
  have hpub : published (writers cap vals sched readers t) ≤
      (writers cap vals sched readers b).begun :=
    (published_le_completed _).trans
      (completed_le_begun_of_le cap vals sched readers (htime _ List.mem_cons_self).2.le)
  -- `total_writes` has not wrapped: that takes more insertions than the ring has slots
  have hw : ((segments cap vals sched readers t).header ()).toNat =
      published (writers cap vals sched readers t) := by
    have hsize := cap.size_lt
    rw [asked] at hbegun
    omega
  rw [asked, hw] at hbegun ⊢
  refine ⟨hexec.run ?_, rfl⟩
  intro e he
  rcases List.mem_cons.mp he with rfl | he'
  · exact segments_header cap vals sched readers t
  obtain ⟨t', l⟩ := e
  have htt' : t < t' := (List.pairwise_cons.mp hexec.pairwise_time).1 _ he'
  have ht'b : t' < b := (htime _ (List.mem_cons_of_mem _ he')).2
  have hle : (writers cap vals sched readers t').begun ≤ (writers cap vals sched readers b).begun :=
    writers_begun_mono cap vals sched readers ht'b.le
  have hslot : ((((segments cap vals sched readers t).header () - 1 - call.reverseIndex) &&&
      (cap.N - 1)).toNat) =
        (published (writers cap vals sched readers t) - 1 - call.reverseIndex.toNat) %
          cap.size := by
    rw [cap.toNat_and_mask, ← hw]
    generalize (segments cap vals sched readers t).header () = w at hr
    congr 1
    bv_omega
  rw [hw] at hr
  have hquiet := segments_eq_quiet_of_begun_le cap vals sched readers hslot
    (show _ < published (writers cap vals sched readers t) by omega)
    (published_le_completed_of_le cap vals sched readers htt'.le) (hle.trans hbegun)
  have hcell := hloads ⟨t', l⟩ he'
  cases l with
  | header h => exact hcell.elim
  | seq c =>
    obtain rfl : c = _ := hcell
    exact hquiet.1
  | word c j =>
    obtain rfl : c = _ := hcell
    exact congrFun hquiet.2 j

/-- A call for an element that is there returns this element, and `try_get` does not return
`nullopt`, if the insertion that goes into its slot next has not begun when the call returns. -/
theorem readCall_unlapped
    (hexec : Exec memory.read (segments cap vals sched readers) a (call.prog F cap fuel) log b x)
    (hload : log.head? = some ⟨t₀, .header ()⟩)
    (hr : call.reverseIndex.toNat <
      min ((segments cap vals sched readers t₀).header ()).toNat cap.size)
    (hbegun : (writers cap vals sched readers b).begun ≤
      asked cap vals sched readers call t₀ + cap.size) :
    x = some (vals (asked cap vals sched readers call t₀)) := by
  obtain ⟨hrun, hasked⟩ := run_quiet_of_begun_le cap vals sched readers hexec hload hr hbegun
  rw [toNat_header] at hr
  rw [hasked]
  exact run_readCall cap vals hr hrun

/-- `try_get(0)` that may not retry, on a ring of two slots. -/
abbrev onlyAttempt (_ : Unit) : ReadProgram oneWord (Option oneWord.T) :=
  (ReadCall.tryGet 0 0).prog oneWord capacityTwo 1

/-- The call loads `total_writes` after one insertion, and reads while the next one goes into the
other slot. -/
def otherSlot : ℕ → Party Unit :=
  blocks [(.writer, 8), (.reader (), 1), (.writer, 4), (.reader (), 3)]

theorem readCall_unlapped_otherSlot :
    ∃ x, ((states capacityTwo tens otherSlot onlyAttempt 16).reader ()).result? = some x ∧
      x = some (tens (asked capacityTwo tens otherSlot onlyAttempt (.tryGet 0 0) 8)) := by
  have hexec : Exec memory.read (segments capacityTwo tens otherSlot onlyAttempt) 8
      ((ReadCall.tryGet 0 0).prog oneWord capacityTwo 1)
      [⟨8, .header ()⟩, ⟨13, .seq 0⟩, ⟨14, .word 0 0⟩, ⟨15, .seq 0⟩] 16 (some (tens 0)) :=
    exec_of_replay (show replay _ _ _ _ _ [8, 13, 14, 15] = _ by decide +kernel)
  exact ⟨some (tens 0), by decide +kernel, readCall_unlapped capacityTwo tens otherSlot onlyAttempt
    hexec rfl (by decide +kernel) (by decide +kernel)⟩

end Runs

end SafeShm.CyclicBuffer
