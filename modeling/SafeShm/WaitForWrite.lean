import SafeShm.CyclicBufferLatest
import SafeShm.CyclicBufferRefinement
import SafeShm.SleepingReaders

/-!
# Waiting for an insertion

`CyclicBufferReader::wait_for_write` for any number of readers of one writer. The call compares
all 64 bits of `total_writes` but sleeps on its low 32 bits. The slot is complete before
`total_writes` announces it, so that what a wait returns can be read.
-/

namespace SafeShm.CyclicBuffer
open AtomicPrograms SingleWriterRuns SequenceLocks RingSlots SleepingReaders

variable {F : FlatType}

/-- The next access of `wait_for_write`: the load of `total_writes` at the head of the loop, or the
call of `FUTEX_WAIT`; or it is asleep there. -/
inductive WaitPc where
  | outside
  | loading
  | waiting
  | asleep
  deriving DecidableEq

/-- A reader between its calls, or in `wait_for_write(last_seen, timeout_ns)`, which may have a
time-out. -/
structure WaitingReader where
  lastSeen : BitVec 64
  timed : Bool
  pc : WaitPc

/-- What happens to a reader from outside: a call, or `FUTEX_WAIT` returns for no reason (or is
interrupted), or with `ETIMEDOUT`. -/
inductive WaitEvent where
  | call (lastSeen : BitVec 64) (timed : Bool)
  | spurious
  | timeout

/-- `static_cast<uint32_t>`, and the 32-bit word at the address of a little-endian 64-bit one. -/
def low (w : BitVec 64) : BitVec 32 := w.setWidth 32

namespace WaitingReader

def turn (m : Segment F) (r : WaitingReader) : WaitingReader :=
  match r.pc with
  | .outside => r
  | .loading =>
      if m.header () ≠ r.lastSeen then { r with pc := .outside } -- returns `total_writes`
      else { r with pc := .waiting }
  | .waiting =>
      if low (m.header ()) = low r.lastSeen then { r with pc := .asleep }
      else { r with pc := .loading }
  | .asleep => r

def woken (r : WaitingReader) : WaitingReader :=
  match r.pc with
  | .asleep => { r with pc := .loading }
  | _ => r

def event (e : WaitEvent) (r : WaitingReader) : WaitingReader :=
  match e, r.pc with
  | .call lastSeen timed, .outside => ⟨lastSeen, timed, .loading⟩
  | .spurious, .asleep => { r with pc := .loading }
  | .timeout, .asleep => if r.timed then { r with pc := .outside } else r -- returns `nullopt`
  | _, _ => r

theorem woken_pc (r : WaitingReader) : r.woken.pc = .loading ∨ r.woken = r ∧ r.pc ≠ .asleep := by
  obtain ⟨last, timed, pc⟩ := r
  cases pc <;> simp [woken]

theorem event_pc (e : WaitEvent) (r : WaitingReader) :
    (r.event e).pc = .loading ∨ (r.event e).pc = .outside ∨ r.event e = r := by
  obtain ⟨last, timed, pc⟩ := r
  cases e <;> cases pc <;> cases timed <;> simp [event]

theorem turn_waiting {m : Segment F} {r : WaitingReader} (h : (r.turn m).pc = .waiting) :
    r.pc = .loading ∧ m.header () = r.lastSeen ∧ (r.turn m).lastSeen = r.lastSeen := by
  rw [turn] at h ⊢
  cases hpc : r.pc with
  | loading =>
    simp only [hpc] at h ⊢
    split at h
    · cases h
    · rename_i heq
      rw [if_neg heq]
      exact ⟨trivial, not_not.mp heq, rfl⟩
  | waiting =>
    simp only [hpc] at h
    split at h <;> cases h
  | outside =>
    simp only [hpc] at h
    cases h
  | asleep =>
    simp only [hpc] at h
    cases h

theorem turn_asleep {m : Segment F} {r : WaitingReader} (hawake : r.pc ≠ .asleep)
    (h : (r.turn m).pc = .asleep) :
    r.pc = .waiting ∧ low (m.header ()) = low r.lastSeen ∧ (r.turn m).lastSeen = r.lastSeen := by
  rw [turn] at h ⊢
  cases hpc : r.pc with
  | waiting =>
    simp only [hpc] at h ⊢
    split at h
    · rename_i heq
      rw [if_pos heq]
      exact ⟨trivial, heq, rfl⟩
    · cases h
  | loading =>
    simp only [hpc] at h
    split at h <;> cases h
  | outside =>
    simp only [hpc] at h
    cases h
  | asleep => exact absurd hpc hawake

/-- `wait_for_write` as a machine. -/
def machine : Machine (Segment F) WaitingReader WaitEvent where
  turn := turn
  event := event
  woken := woken
  asleep r := r.pc = .asleep
  asleep_woken r := by
    rcases r.woken_pc with h | ⟨heq, h⟩
    · simp [h]
    · rw [heq]
      simpa using h
  turn_asleep m r h := by
    have hpc : r.pc = .asleep := by simpa using h
    rw [turn, hpc]
  event_asleep e r h := by
    have hpc : (r.event e).pc = .asleep := by simpa using h
    rcases r.event_pc e with h | h | h
    · rw [h] at hpc
      cases hpc
    · rw [h] at hpc
      cases hpc
    · exact h

end WaitingReader

section Runs
variable {ι : Type} [DecidableEq ι] (cap : Capacity) (vals : ℕ → F.T)
variable (acts : ℕ → Action ι WaitEvent)

/-- One writer that inserts `vals 0, vals 1, …` into a zero-filled segment, and waiting readers. -/
def waiting : Design (Place F) (Val F.Word) (Command F) (Segment F) WaitingReader WaitEvent where
  toMemory := memory
  toMachine := WaitingReader.machine
  wake
    | .wake => true
    | _ => false
  script k := insert cap (vals k)
  wakesLast k := wakesLast_bind (loadHeader ()) fun writes =>
    wakesLast_bind (lockedStore (writes &&& (cap.N - 1)) (vals k)) fun _ =>
      wakesLast_bind (issue (.header () (writes + 1))) fun _ => wakesLast_store rfl ()
  m₀ := Region.zeroed F.zero

abbrev waitingStates (t : ℕ) :
    State (Place F) (Val F.Word) (Command F) (Segment F) ι WaitingReader :=
  (waiting cap vals).states (fun _ => ⟨0, false, .outside⟩) acts t

def Announces (s : State (Place F) (Val F.Word) (Command F) (Segment F) ι WaitingReader)
    (a : Action ι WaitEvent) (i : ι) (w : BitVec 64) : Prop :=
  a = .reader i ∧ (s.reader i).pc = .loading ∧ s.mem.header () = w ∧ w ≠ (s.reader i).lastSeen

theorem waiting_mem (t : ℕ) :
    (waitingStates cap vals acts t).mem = segments cap vals (turns acts) nobody t :=
  (states_writer (waiting cap vals) _ acts t).1

theorem waiting_writer (t : ℕ) :
    (waitingStates cap vals acts t).writer = writers cap vals (turns acts) nobody t :=
  (states_writer (waiting cap vals) _ acts t).2

/-- Reader `i` has loaded `total_writes` at instant `t₀`, has found `last_seen` in it, and has been
about to sleep until instant `t`. -/
structure WaitsSince (i : ι) (t₀ t : ℕ) : Prop where
  lt : t₀ < t
  turn : acts t₀ = .reader i
  loading : ((waitingStates cap vals acts t₀).reader i).pc = .loading
  waiting : ∀ t', t₀ < t' → t' ≤ t → ((waitingStates cap vals acts t').reader i).pc = .waiting
  found : (waitingStates cap vals acts t₀).mem.header () =
    ((waitingStates cap vals acts t).reader i).lastSeen

variable {cap vals acts}

private theorem WaitsSince.succ {i : ι} {t₀ t : ℕ} (h : WaitsSince cap vals acts i t₀ t)
    (hsame : (waitingStates cap vals acts (t + 1)).reader i = (waitingStates cap vals acts t).reader i) :
    WaitsSince cap vals acts i t₀ (t + 1) := by
  refine ⟨Nat.lt_succ_of_lt h.lt, h.turn, h.loading, ?_, ?_⟩
  · intro t' hlt hle
    rcases Nat.le_succ_iff.mp hle with hle | rfl
    · exact h.waiting t' hlt hle
    · rw [Nat.succ_eq_add_one, hsame]
      exact h.waiting t h.lt le_rfl
  · rw [hsame]
    exact h.found

variable (cap vals acts) in
theorem exists_waitsSince {i : ι} {t : ℕ}
    (h : ((waitingStates cap vals acts t).reader i).pc = .waiting) :
    ∃ t₀, WaitsSince cap vals acts i t₀ t := by
  induction t with
  | zero => cases h
  | succ t ih =>
    have keeps : (waitingStates cap vals acts (t + 1)).reader i =
        (waitingStates cap vals acts t).reader i → ∃ t₀, WaitsSince cap vals acts i t₀ (t + 1) := by
      intro hsame
      obtain ⟨t₀, ht₀⟩ := ih (by rw [← hsame, h])
      exact ⟨t₀, ht₀.succ hsame⟩
    rcases Design.step_reader (waitingStates cap vals acts t) (acts t) i with
      heq | heq | ⟨hact, heq⟩ | ⟨e, -, heq⟩
    · exact keeps heq
    · rcases ((waitingStates cap vals acts t).reader i).woken_pc with hpc | ⟨hsame, -⟩
      · have hloading := (congrArg WaitingReader.pc heq).trans hpc
        exact absurd (hloading.symm.trans h) (by simp)
      · exact keeps (heq.trans hsame)
    · have hpc := (congrArg WaitingReader.pc heq).symm.trans h
      obtain ⟨hloading, hfound, hlast⟩ := WaitingReader.turn_waiting hpc
      refine ⟨t, Nat.lt_succ_self t, hact, hloading, ?_, ?_⟩
      · intro t' hlt hle
        rw [show t' = t + 1 by omega, h]
      · exact hfound.trans (hlast.symm.trans (congrArg WaitingReader.lastSeen heq).symm)
    · rcases ((waitingStates cap vals acts t).reader i).event_pc e with hpc | hpc | hsame
      · have hloading := (congrArg WaitingReader.pc heq).trans hpc
        exact absurd (hloading.symm.trans h) (by simp)
      · have houtside := (congrArg WaitingReader.pc heq).trans hpc
        exact absurd (houtside.symm.trans h) (by simp)
      · exact keeps (heq.trans hsame)

theorem eq_of_low_eq {n n' : ℕ} (h : low (BitVec.ofNat 64 n') = low (BitVec.ofNat 64 n))
    (hle : n ≤ n') (hfew : n' < n + 2 ^ 32) : n' = n := by
  have hmod := congrArg BitVec.toNat h
  simp only [low, BitVec.toNat_setWidth, BitVec.toNat_ofNat] at hmod
  omega

/-- Fewer than `2 ^ 32` insertions are published between a reader's load of `total_writes` and its
call of `FUTEX_WAIT`. -/
def SleepsInTime (acts : ℕ → Action ι WaitEvent)
    (s : ℕ → State (Place F) (Val F.Word) (Command F) (Segment F) ι WaitingReader) : Prop :=
  ∀ i t₀ t, t₀ < t → acts t₀ = .reader i → ((s t₀).reader i).pc = .loading →
    (∀ t', t₀ < t' → t' ≤ t → ((s t').reader i).pc = .waiting) → acts t = .reader i →
      published (s t).writer < published (s t₀).writer + 2 ^ 32

theorem finds_lastSeen (hsleep : SleepsInTime acts (waitingStates cap vals acts)) (t : ℕ) :
    Finds (waiting cap vals) (fun m r => m.header () = r.lastSeen) (waitingStates cap vals acts t)
      (acts t) := by
  cases hact : acts t with
  | reader i =>
    intro hawake hasleep
    have hawake : ((waitingStates cap vals acts t).reader i).pc ≠ .asleep := of_decide_eq_false hawake
    obtain ⟨hwaiting, hlow, hlast⟩ := WaitingReader.turn_asleep hawake (of_decide_eq_true hasleep)
    obtain ⟨t₀, hsince⟩ := exists_waitsSince cap vals acts hwaiting
    have hfew := hsleep i t₀ t hsince.lt hsince.turn hsince.loading hsince.waiting hact
    have hfound := hsince.found
    have hle : published (writers cap vals (turns acts) nobody t₀) ≤
        published (writers cap vals (turns acts) nobody t) :=
      published_mono cap vals (turns acts) nobody hsince.lt.le
    rw [waiting_writer, waiting_writer] at hfew
    rw [waiting_mem, segments_header] at hfound
    rw [← hfound, waiting_mem, segments_header] at hlow
    refine Eq.trans ?_ (hfound.trans hlast.symm)
    rw [waiting_mem, segments_header, eq_of_low_eq hlow hle hfew]
  | writer => trivial
  | event i e => trivial

private theorem settled_mem {t : ℕ} (h : Settled (waitingStates cap vals acts t).writer) :
    (waitingStates cap vals acts t).mem =
      quiet cap vals (published (waitingStates cap vals acts t).writer) := by
  rw [waiting_writer] at h ⊢
  rw [waiting_mem]
  have hheader := segments_header cap vals (turns acts) nobody t
  have hcell := fun i => segments_eq_quiet cap vals (turns acts) nobody (i := i) rfl (.inl h)
  generalize segments cap vals (turns acts) nobody t = m at hheader hcell ⊢
  obtain ⟨header, seq, data⟩ := m
  simp only [quiet, Region.mk.injEq]
  refine ⟨?_, ?_, ?_⟩
  · funext u
    exact hheader
  · funext i
    exact (hcell i).1
  · funext i
    exact (hcell i).2

private theorem announced_le {t a : ℕ} {i : ι} {w : BitVec 64}
    (h : Announces (waitingStates cap vals acts t) (acts t) i w) (hlt : t < a) :
    w.toNat ≤ published (writers cap vals (turns acts) nobody a) := by
  have hw : w.toNat ≤ published (writers cap vals (turns acts) nobody t) := by
    rw [← h.2.2.1, waiting_mem, toNat_header]
    exact Nat.mod_le _ _
  exact hw.trans (published_mono cap vals (turns acts) nobody hlt.le)

private theorem latest_of_announced {t a b fuel : ℕ} {i : ι} {w : BitVec 64} {v : F.T}
    {log : List (Event (Place F))} (h : Announces (waitingStates cap vals acts t) (acts t) i w)
    (hpos : 0 < w) (hlt : t < a) (h64 : published (waitingStates cap vals acts b).writer < 2 ^ 64)
    (hexec : Exec memory.read (fun t => (waitingStates cap vals acts t).mem) a (getLatest F cap fuel)
      log b v)
    (hfew : ∀ i tb ta, Attempt i log tb ta →
      hits cap.size i.toNat (waitingStates cap vals acts ta).writer.begun -
        hits cap.size i.toNat (published (waitingStates cap vals acts tb).writer) < 2 ^ 31) :
    ∃ m, w.toNat - 1 ≤ m ∧ v = vals m ∧ ∃ t', a ≤ t' ∧ t' ≤ b ∧
      m < completed (waitingStates cap vals acts t').writer ∧
      completed (waitingStates cap vals acts t').writer ≤ m + cap.size := by
  have hpos : 0 < w.toNat := by simpa [BitVec.lt_def] using hpos
  have hle := announced_le h hlt
  have hmem : (fun t => (waitingStates cap vals acts t).mem) = segments cap vals (turns acts) nobody :=
    funext (waiting_mem cap vals acts)
  have hcall : Exec memory.read (segments cap vals (turns acts) nobody) a
      (ReadCall.getLatest.prog F cap fuel) (log ++ []) b (some v) :=
    exec_bind.mpr ⟨v, b, log, [], rfl, hmem ▸ hexec, .ret _ le_rfl⟩
  rw [List.append_nil] at hcall
  simp only [waiting_writer] at hfew h64 ⊢
  obtain ⟨m, -, tb, -, hv, hs, hb, -, -, hpub, hm, hn⟩ :=
    latest_value cap vals (turns acts) nobody hcall trivial (hpos.trans_le hle) hfew h64
  exact ⟨m, by omega, hv, tb, hs, hb, hm, hn⟩

private theorem run_latest_of_announced {t a : ℕ} {i : ι} {w : BitVec 64}
    (h : Announces (waitingStates cap vals acts t) (acts t) i w) (hpos : 0 < w) (hlt : t < a)
    (h64 : published (waitingStates cap vals acts a).writer < 2 ^ 64)
    (hsettled : Settled (waitingStates cap vals acts a).writer) (fuel : ℕ) :
    ∃ m, w.toNat - 1 ≤ m ∧ m < published (waitingStates cap vals acts a).writer ∧
      (getLatest F cap (fuel + 1)).run (memory.read (waitingStates cap vals acts a).mem) =
        some (vals m) := by
  have hpos : 0 < w.toNat := by simpa [BitVec.lt_def] using hpos
  have hle := announced_le h hlt
  rw [← waiting_writer] at hle
  refine ⟨published (waitingStates cap vals acts a).writer - 1, Nat.sub_le_sub_right hle 1, ?_, ?_⟩
  · exact Nat.sub_lt (hpos.trans_le hle) Nat.one_pos
  · rw [settled_mem hsettled, run_getLatest, Nat.mod_eq_of_lt h64, if_neg (hpos.trans_le hle).ne']

/-- `wait_for_write` misses no wake-up, and what it announces can be read. A reader that sleeps
while the writer is between two insertions was called with the present `total_writes`. After a
reader has been told of `w > 0` insertions, a `get_latest` that returns gives an insertion with a
number of at least `w - 1`, and one that is made while no insertion is in progress returns. -/
theorem wait_for_write_announces (cap : Capacity) (vals : ℕ → F.T) (acts : ℕ → Action ι WaitEvent)
    (hsleep : SleepsInTime acts (waitingStates cap vals acts)) :
    let s := waitingStates cap vals acts
    (∀ t i, (s t).writer.prog = .ret () → ((s t).reader i).pc = .asleep →
      (s t).mem.header () = ((s t).reader i).lastSeen) ∧
    ∀ t i w, Announces (s t) (acts t) i w → 0 < w →
      (∀ fuel a log b v, t < a → published (s b).writer < 2 ^ 64 →
        Exec memory.read (fun t => (s t).mem) a (getLatest F cap fuel) log b v →
        (∀ i tb ta, Attempt i log tb ta → hits cap.size i.toNat (s ta).writer.begun -
          hits cap.size i.toNat (published (s tb).writer) < 2 ^ 31) →
        ∃ m, w.toNat - 1 ≤ m ∧ v = vals m ∧ ∃ t', a ≤ t' ∧ t' ≤ b ∧
          m < completed (s t').writer ∧ completed (s t').writer ≤ m + cap.size) ∧
      ∀ fuel a, t < a → published (s a).writer < 2 ^ 64 → Settled (s a).writer →
        ∃ m, w.toNat - 1 ≤ m ∧ m < published (s a).writer ∧
          (getLatest F cap (fuel + 1)).run (memory.read (s a).mem) = some (vals m) := by
  intro s
  constructor
  · intro t i hidle hasleep
    exact sleepers_undisturbed (D := waiting cap vals) (P := fun m r => m.header () = r.lastSeen)
      (fun _ => rfl) (fun t' _ => finds_lastSeen hsleep t') hidle (decide_eq_true hasleep)
  · intro t i w hann hpos
    constructor
    · intro fuel a log b v hlt h64 hexec hfew
      exact latest_of_announced hann hpos hlt h64 hexec hfew
    · intro fuel a hlt h64 hsettled
      exact run_latest_of_announced hann hpos hlt h64 hsettled fuel

end Runs

section Sample

/-- The reader finds that nothing has been inserted and falls asleep; an insertion wakes it up. -/
def asleepThenInserted : ℕ → Action Unit WaitEvent :=
  StateMachines.script (.event () .spurious)
    ([.event () (.call 0 true), .reader (), .reader ()] ++ List.replicate 8 .writer ++ [.reader ()])

abbrev insertedOnce (t : ℕ) := waitingStates (F := oneWord) capacityTwo tens asleepThenInserted t

theorem wait_for_write_announces_asleepThenInserted :
    ((insertedOnce 3).reader ()).pc = .asleep ∧
    (insertedOnce 3).mem.header () = ((insertedOnce 3).reader ()).lastSeen ∧
    Announces (insertedOnce 11) (asleepThenInserted 11) () 1 ∧
    (∃ log, Exec memory.read (fun t => (insertedOnce t).mem) 12 (getLatest oneWord capacityTwo 1)
        log 16 (tens 0) ∧
      ∃ m, (1 : BitVec 64).toNat - 1 ≤ m ∧ tens 0 = tens m ∧ ∃ t', 12 ≤ t' ∧ t' ≤ 16 ∧
        m < completed (insertedOnce t').writer ∧ completed (insertedOnce t').writer ≤ m + 2) ∧
    ∃ m, (1 : BitVec 64).toNat - 1 ≤ m ∧ m < published (insertedOnce 12).writer ∧
      (getLatest oneWord capacityTwo 1).run (memory.read (insertedOnce 12).mem) = some (tens m) := by
  have hbegun : ∀ t < 16, (insertedOnce t).writer.begun < 2 := by decide +kernel
  have hsleep : SleepsInTime asleepThenInserted
      (waitingStates (F := oneWord) capacityTwo tens asleepThenInserted) := by
    intro i t₀ t _ _ _ _ hact
    have hlt : t < 12 := by
      by_contra hge
      have hrest : asleepThenInserted t = .event () .spurious :=
        StateMachines.script_of_le (by simpa using hge)
      rw [hrest] at hact
      cases hact
    have hpublished : ∀ t < 12, published (insertedOnce t).writer < 2 := by decide +kernel
    exact (hpublished t hlt).trans_le (by omega)
  obtain ⟨hasleep, hread⟩ :=
    wait_for_write_announces (F := oneWord) capacityTwo tens asleepThenInserted hsleep
  have hann : Announces (insertedOnce 11) (asleepThenInserted 11) () 1 :=
    ⟨rfl, by decide +kernel, by decide +kernel, by decide +kernel⟩
  obtain ⟨hexec, hrun⟩ := hread 11 () 1 hann (by decide)
  refine ⟨by decide +kernel, hasleep 3 () rfl (by decide +kernel), hann, ?_, ?_⟩
  · have hlatest : Exec memory.read (fun t => (insertedOnce t).mem) 12
        (getLatest oneWord capacityTwo 1) [⟨12, .header ()⟩, ⟨13, .seq 0⟩,
          ⟨14, .word 0 ⟨0, Nat.zero_lt_one⟩⟩, ⟨15, .seq 0⟩] 16 (tens 0) :=
      exec_of_replay (show replay _ _ _ _ _ [12, 13, 14, 15] = _ by decide +kernel)
    refine ⟨_, hlatest, hexec 1 12 _ 16 (tens 0) (by omega) (by decide +kernel) hlatest ?_⟩
    intro i tb ta hatt
    have hta := hbegun ta (hlatest.mem_log _ hatt.mem_log.2).2
    have hhits := hits_le capacityTwo.size i.toNat (insertedOnce ta).writer.begun
    exact (Nat.sub_le _ _).trans_lt (hhits.trans_lt (by omega))
  · exact hrun 0 12 (by omega) (by decide +kernel) (.inr (by decide +kernel))

end Sample

end SafeShm.CyclicBuffer
