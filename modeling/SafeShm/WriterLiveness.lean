import SafeShm.StateMachines
import Mathlib.Data.BitVec
import Mathlib.Tactic.IntervalCases

/-!
# Heartbeats and the check for a live writer

`OwnedShm::update_heartbeat` and `is_writer_alive` on one header, access by access, under one
monotonic clock. The check reads the clock before it loads the heartbeat, and the writer may beat
in between: the heartbeat is then ahead of the reading, and the unsigned age wraps.
-/

namespace SafeShm.ShmLifecycle
open StateMachines

/-- `struct ShmHeader`. -/
structure ShmHeader where
  magic : BitVec 32
  version : BitVec 32
  heartbeatNs : BitVec 64
  writerPid : BitVec 32
  reserved : Fin 3 → BitVec 32

/-- `SHM_HEADER_MAGIC`. -/
def shmHeaderMagic : BitVec 32 := 0x53484D48

/-- `SHM_HEADER_VERSION`. -/
def shmHeaderVersion : BitVec 32 := 1

/-- `struct timespec`. -/
structure Timespec where
  sec : BitVec 64
  nsec : BitVec 64

/-- `clock_gettime(CLOCK_MONOTONIC, ..)` at the given number of nanoseconds. -/
def clockGettime (clock : BitVec 64) : Timespec := ⟨clock / 1000000000, clock % 1000000000⟩

/-- `static_cast<uint64_t>(ts.tv_sec) * 1'000'000'000ULL + static_cast<uint64_t>(ts.tv_nsec)`. -/
def Timespec.toNs (ts : Timespec) : BitVec 64 := ts.sec * 1000000000 + ts.nsec

private theorem udiv_mul_add_umod {w : ℕ} (x k : BitVec w) : x / k * k + x % k = x := by
  apply BitVec.eq_of_toNat_eq
  have hdiv := Nat.div_add_mod' x.toNat k.toNat
  rw [BitVec.toNat_add, BitVec.toNat_mul, BitVec.toNat_udiv, BitVec.toNat_umod, Nat.mod_add_mod,
    hdiv]
  exact Nat.mod_eq_of_lt x.isLt

theorem toNs_clockGettime (clock : BitVec 64) : (clockGettime clock).toNs = clock :=
  udiv_mul_add_umod clock 1000000000

/-- The next access of `update_heartbeat`: `clock_gettime`, or the store of `heartbeat_ns`. -/
inductive WriterPc where
  | reading
  | storing (now : BitVec 64)

/-- The next access of `is_writer_alive`: the load of `magic`, `kill(header.writer_pid, 0)`,
`clock_gettime`, or the load of `heartbeat_ns`. -/
inductive ReaderPc where
  | outside
  | loadingMagic (maxStaleNs : BitVec 64)
  | killing (maxStaleNs : BitVec 64)
  | readingClock (maxStaleNs : BitVec 64)
  | loadingHeartbeat (maxStaleNs now : BitVec 64)
  | returned (alive : Bool)

/-- The monotonic clock, in the 64 bits of nanoseconds that the kernel keeps of it, the header,
the writer and a reader. -/
structure State where
  clock : BitVec 64
  header : ShmHeader
  writer : WriterPc
  reader : ReaderPc

/-- After the constructor of `OwnedShm` in process `pid`. -/
def constructed (pid : BitVec 32) (clock : BitVec 64) : State :=
  { clock
    header := ⟨shmHeaderMagic, shmHeaderVersion, (clockGettime clock).toNs, pid, fun _ => 0⟩
    writer := .reading
    reader := .outside }

/-- The clock goes on by `d` nanoseconds; the writer makes the next access of `update_heartbeat`; or
the reader calls `is_writer_alive` or makes its next access. -/
inductive Action where
  | tick (d : BitVec 64)
  | beat
  | call (maxStaleNs : BitVec 64)
  | check

def State.beat (s : State) : State :=
  match s.writer with
  | .reading => { s with writer := .storing (clockGettime s.clock).toNs }
  | .storing now =>
      { s with writer := .reading, header := { s.header with heartbeatNs := now } }

def State.call (s : State) (maxStaleNs : BitVec 64) : State :=
  match s.reader with
  | .outside | .returned _ => { s with reader := .loadingMagic maxStaleNs }
  | _ => s

section Machine
variable (kill : BitVec 32 → Bool)

/-- The next access of `is_writer_alive`; `kill pid` says that `kill(pid, 0)` is 0. -/
def State.check (s : State) : State :=
  match s.reader with
  | .loadingMagic m =>
      { s with reader := if s.header.magic ≠ shmHeaderMagic then .returned false else .killing m }
  | .killing m =>
      { s with reader :=
          if kill s.header.writerPid then
            if 0 < m then .readingClock m else .returned true
          else .returned false }
  | .readingClock m => { s with reader := .loadingHeartbeat m (clockGettime s.clock).toNs }
  | .loadingHeartbeat m now =>
      { s with reader := .returned (!decide (m < now - s.header.heartbeatNs)) }
  | _ => s

def step (s : State) : Action → State
  | .tick d => if s.clock.toNat + d.toNat < 2 ^ 64 then { s with clock := s.clock + d } else s
  | .beat => s.beat
  | .call m => s.call m
  | .check => s.check kill

def Stores (s : State) (a : Action) (now : BitVec 64) : Prop :=
  a = .beat ∧ s.writer = .storing now

def State.Fresh (s : State) (m : BitVec 64) : Prop :=
  s.clock.toNat ≤ s.header.heartbeatNs.toNat + m.toNat

instance (s : State) (m : BitVec 64) : Decidable (s.Fresh m) :=
  inferInstanceAs (Decidable (s.clock.toNat ≤ s.header.heartbeatNs.toNat + m.toNat))

/-- Heartbeats are readings of the clock, and go up. -/
structure Beating (pid : BitVec 32) (s : State) : Prop where
  magic : s.header.magic = shmHeaderMagic
  writerPid : s.header.writerPid = pid
  heartbeat : s.header.heartbeatNs.toNat ≤ s.clock.toNat
  pending : ∀ now, s.writer = .storing now →
    s.header.heartbeatNs.toNat ≤ now.toNat ∧ now.toNat ≤ s.clock.toNat

section Steps
variable {kill} {pid : BitVec 32} {s : State}

theorem beating_constructed (pid : BitVec 32) (clock : BitVec 64) :
    Beating pid (constructed pid clock) := by
  constructor
  · rfl
  · rfl
  · simp [constructed, toNs_clockGettime]
  · intro now h
    cases h

variable (kill) in
theorem step_clock_le (s : State) (a : Action) : s.clock.toNat ≤ (step kill s a).clock.toNat := by
  cases a with
  | tick d =>
    rw [step]
    split
    · rename_i h
      simp only [BitVec.toNat_add]
      omega
    · exact Nat.le_refl _
  | beat =>
    rw [step, State.beat]
    split <;> exact Nat.le_refl _
  | call m =>
    rw [step, State.call]
    split <;> exact Nat.le_refl _
  | check =>
    rw [step, State.check]
    split <;> exact Nat.le_refl _

variable (kill) in
/-- What a step does to the header and the writer: nothing, a reading of the clock, or a store. -/
theorem step_writer (s : State) (a : Action) :
    ((step kill s a).header = s.header ∧ (step kill s a).writer = s.writer ∧
        ∀ now, ¬ Stores s a now) ∨
      ((step kill s a).header = s.header ∧ (step kill s a).writer = .storing s.clock ∧
        (step kill s a).clock = s.clock ∧ ∀ now, ¬ Stores s a now) ∨
      ∃ now, Stores s a now ∧ (step kill s a).header = { s.header with heartbeatNs := now } ∧
        (step kill s a).writer = .reading := by
  cases a with
  | tick d =>
    refine .inl ?_
    rw [step]
    split <;> simp [Stores]
  | beat =>
    cases hw : s.writer with
    | reading =>
      refine .inr (.inl ?_)
      simp [step, State.beat, hw, toNs_clockGettime, Stores]
    | storing now =>
      refine .inr (.inr ⟨now, ⟨rfl, hw⟩, ?_⟩)
      simp [step, State.beat, hw]
  | call m =>
    refine .inl ?_
    rw [step, State.call]
    split <;> simp [Stores]
  | check =>
    refine .inl ?_
    rw [step, State.check]
    split <;> simp [Stores]

theorem Beating.step (h : Beating pid s) (a : Action) : Beating pid (step kill s a) := by
  have hclock := step_clock_le kill s a
  rcases step_writer kill s a with
    ⟨hheader, hwriter, -⟩ | ⟨hheader, hwriter, hsame, -⟩ | ⟨now, hstores, hheader, hwriter⟩
  · refine ⟨hheader ▸ h.magic, hheader ▸ h.writerPid, ?_, ?_⟩
    · rw [hheader]
      exact h.heartbeat.trans hclock
    · intro now hnow
      rw [hwriter] at hnow
      rw [hheader]
      exact ⟨(h.pending now hnow).1, (h.pending now hnow).2.trans hclock⟩
  · refine ⟨hheader ▸ h.magic, hheader ▸ h.writerPid, ?_, ?_⟩
    · rw [hheader]
      exact h.heartbeat.trans hclock
    · intro now hnow
      rw [hwriter] at hnow
      cases hnow
      rw [hheader]
      exact ⟨h.heartbeat, hclock⟩
  · refine ⟨by rw [hheader]; exact h.magic, by rw [hheader]; exact h.writerPid, ?_, ?_⟩
    · rw [hheader]
      exact (h.pending now hstores.2).2.trans hclock
    · intro later hlater
      rw [hwriter] at hlater
      cases hlater

end Steps

/-- A call of `is_writer_alive(header, m)` that begins at instant `t₀` and has returned `alive`
at instant `t₁`. -/
structure Call (run : ℕ → State) (acts : ℕ → Action) (m : BitVec 64) (t₀ t₁ : ℕ)
    (alive : Bool) : Prop where
  lt : t₀ < t₁
  called : acts t₀ = .call m
  free : (run t₀).reader = .outside ∨ ∃ b, (run t₀).reader = .returned b
  running : ∀ u, t₀ < u → u < t₁ → ∀ b, (run u).reader ≠ .returned b
  returned : (run t₁).reader = .returned alive

def ReadsClock (run : ℕ → State) (acts : ℕ → Action) (m : BitVec 64) (t : ℕ) : Prop :=
  (run t).reader = .readingClock m ∧ acts t = .check

/-- The call loads the heartbeat at instant `t`, after the clock was read as `now`. -/
def LoadsHeartbeat (run : ℕ → State) (acts : ℕ → Action) (m now : BitVec 64) (t : ℕ) : Prop :=
  (run t).reader = .loadingHeartbeat m now ∧ acts t = .check

section Runs
variable {kill} {pid : BitVec 32} {clock m : BitVec 64} {acts : ℕ → Action} {run : ℕ → State}
variable {t₀ t₁ t₂ u : ℕ}

/-- The heartbeat stays below `c` exactly if no store brings a later one. -/
theorem heartbeat_le_iff (hnext : ∀ t, run (t + 1) = step kill (run t) (acts t))
    (hbeating : ∀ t, Beating pid (run t)) {c : BitVec 64}
    (h : (run t₂).header.heartbeatNs ≤ c) {t₃ : ℕ} (hle : t₂ ≤ t₃) :
    (run t₃).header.heartbeatNs ≤ c ↔
      ∀ u, t₂ ≤ u → u < t₃ → ∀ now, Stores (run u) (acts u) now → now ≤ c := by
  induction t₃, hle using Nat.le_induction with
  | base =>
    refine iff_of_true h ?_
    intro u hu hlt
    omega
  | succ t hle ih =>
    rw [hnext]
    have hsplit : (∀ u, t₂ ≤ u → u < t + 1 → ∀ now, Stores (run u) (acts u) now → now ≤ c) ↔
        (run t).header.heartbeatNs ≤ c ∧ ∀ now, Stores (run t) (acts t) now → now ≤ c := by
      rw [ih]
      constructor
      · intro hall
        exact ⟨fun u hu hlt => hall u hu (by omega), hall t hle (Nat.lt_succ_self t)⟩
      · rintro ⟨hbefore, hlast⟩ u hu hlt
        rcases Nat.lt_succ_iff_lt_or_eq.mp hlt with hlt | rfl
        · exact hbefore u hu hlt
        · exact hlast
    rw [hsplit]
    rcases step_writer kill (run t) (acts t) with
      ⟨hheader, -, hnone⟩ | ⟨hheader, -, -, hnone⟩ | ⟨now, hstores, hheader, -⟩
    · rw [hheader]
      exact ⟨fun hc => ⟨hc, fun now hnow => absurd hnow (hnone now)⟩, And.left⟩
    · rw [hheader]
      exact ⟨fun hc => ⟨hc, fun now hnow => absurd hnow (hnone now)⟩, And.left⟩
    · rw [hheader]
      constructor
      · intro hc
        refine ⟨BitVec.le_trans ((hbeating t).pending now hstores.2).1 hc, ?_⟩
        intro now' hstores'
        have hsame : WriterPc.storing now' = .storing now := hstores'.2.symm.trans hstores.2
        cases hsame
        exact hc
      · rintro ⟨-, hlast⟩
        exact hlast now hstores

def Reached (run : ℕ → State) (acts : ℕ → Action) (m : BitVec 64) (t₀ u : ℕ) : Prop :=
  (run u).reader = .loadingMagic m ∨ (run u).reader = .killing m ∨
    (run u).reader = .readingClock m ∨
    ∃ t₂, t₀ < t₂ ∧ t₂ < u ∧ ReadsClock run acts m t₂ ∧
      (run u).reader = .loadingHeartbeat m (run t₂).clock

variable (kill) in
private theorem step_reader {s : State} {a : Action} (ha : a ≠ .check)
    (hout : s.reader ≠ .outside) (hret : ∀ b, s.reader ≠ .returned b) :
    (step kill s a).reader = s.reader := by
  cases a with
  | tick d =>
    rw [step]
    split <;> rfl
  | beat =>
    rw [step, State.beat]
    split <;> rfl
  | call m =>
    rw [step, State.call]
    split
    · rename_i h
      exact absurd h hout
    · rename_i b h
      exact absurd h (hret b)
    · rfl
  | check => exact absurd rfl ha

/-- One instant of a call: it goes on, or it loads the heartbeat and returns. -/
private theorem Reached.next (hnext : ∀ t, run (t + 1) = step kill (run t) (acts t))
    (hbeating : ∀ t, Beating pid (run t)) (hkill : kill pid = true) (hm : 0 < m) (hlt : t₀ < u)
    (h : Reached run acts m t₀ u) : Reached run acts m t₀ (u + 1) ∨
      ∃ t₂, t₀ < t₂ ∧ t₂ < u ∧ ReadsClock run acts m t₂ ∧
        LoadsHeartbeat run acts m (run t₂).clock u ∧
        (run (u + 1)).reader =
          .returned (!decide (m < (run t₂).clock - (run u).header.heartbeatNs)) := by
  by_cases hcheck : acts u = .check
  · have hstep := hnext u
    rw [hcheck, step, State.check] at hstep
    rcases h with hpc | hpc | hpc | ⟨t₂, ht₀, ht₂, hreads, hpc⟩
    · refine .inl (.inr (.inl ?_))
      rw [hstep]
      simp [hpc, (hbeating u).magic]
    · refine .inl (.inr (.inr (.inl ?_)))
      rw [hstep]
      simp only [hpc, (hbeating u).writerPid, if_pos hkill, if_pos hm]
    · refine .inl (.inr (.inr (.inr ⟨u, hlt, Nat.lt_succ_self u, ⟨hpc, hcheck⟩, ?_⟩)))
      rw [hstep]
      simp [hpc, toNs_clockGettime]
    · refine .inr ⟨t₂, ht₀, ht₂, hreads, ⟨hpc, hcheck⟩, ?_⟩
      rw [hstep]
      simp [hpc]
  · refine .inl ?_
    rcases h with hpc | hpc | hpc | ⟨t₂, ht₀, ht₂, hreads, hpc⟩
    all_goals
      have hsame := step_reader kill (s := run u) hcheck (by simp [hpc]) (by simp [hpc])
      rw [← hnext, hpc] at hsame
    · exact .inl hsame
    · exact .inr (.inl hsame)
    · exact .inr (.inr (.inl hsame))
    · exact .inr (.inr (.inr ⟨t₂, ht₀, by omega, hreads, hsame⟩))

/-- A call that returns has read the clock, and later loaded the heartbeat, and compared them. -/
private theorem Call.accesses {alive : Bool} (hcall : Call run acts m t₀ t₁ alive)
    (hnext : ∀ t, run (t + 1) = step kill (run t) (acts t))
    (hbeating : ∀ t, Beating pid (run t)) (hkill : kill pid = true) (hm : 0 < m) :
    ∃ t₂ t₃, t₀ < t₂ ∧ t₂ < t₃ ∧ t₃ < t₁ ∧ ReadsClock run acts m t₂ ∧
      LoadsHeartbeat run acts m (run t₂).clock t₃ ∧
      alive = !decide (m < (run t₂).clock - (run t₃).header.heartbeatNs) := by
  have hstart : Reached run acts m t₀ (t₀ + 1) := by
    refine .inl ?_
    rw [hnext, hcall.called, step, State.call]
    rcases hcall.free with hpc | ⟨b, hpc⟩ <;> simp [hpc]
  have hreached : ∀ u, t₀ + 1 ≤ u → u < t₁ → Reached run acts m t₀ u := by
    intro u hle
    induction u, hle using Nat.le_induction with
    | base => exact fun _ => hstart
    | succ u hle ih =>
      intro hlt
      rcases (ih (by omega)).next hnext hbeating hkill hm (by omega) with
        hgoes | ⟨_, _, _, _, _, hret⟩
      · exact hgoes
      · exact absurd hret (hcall.running (u + 1) (by omega) hlt _)
  obtain ⟨t₃, rfl⟩ : ∃ t₃, t₁ = t₃ + 1 := ⟨t₁ - 1, by have := hcall.lt; omega⟩
  have hnot : ¬ Reached run acts m t₀ (t₃ + 1) := by
    intro h
    rcases h with hpc | hpc | hpc | ⟨_, _, _, _, hpc⟩
    all_goals
      rw [hcall.returned] at hpc
      cases hpc
  have hlt : t₀ < t₃ := by
    rcases Nat.lt_succ_iff_lt_or_eq.mp hcall.lt with hlt | heq
    · exact hlt
    · exact absurd (heq ▸ hstart) hnot
  rcases (hreached t₃ hlt (Nat.lt_succ_self _)).next hnext hbeating hkill hm hlt with
    hgoes | ⟨t₂, ht₀, ht₂, hreads, hloads, hret⟩
  · exact absurd hgoes hnot
  · refine ⟨t₂, t₃, ht₀, ht₂, Nat.lt_succ_self _, hreads, hloads, ?_⟩
    rw [hcall.returned] at hret
    exact ReaderPc.returned.inj hret

private theorem age_le_iff {now beat m : BitVec 64} (hfresh : now.toNat ≤ beat.toNat + m.toNat) :
    (!decide (m < now - beat)) = true ↔
      beat ≤ now ∨ 2 ^ 64 ≤ m.toNat + (beat.toNat - now.toNat) := by
  have hnow := now.isLt
  have hbeat := beat.isLt
  simp only [Bool.not_eq_true', decide_eq_false_iff_not, BitVec.lt_def, BitVec.le_def,
    BitVec.toNat_sub]
  omega

/-- A writer that beats may be declared dead. While the heartbeat is fresh at every instant of the
call, `is_writer_alive` computes an age that does not wrap, and returns true, exactly if the writer
stores no heartbeat later than the clock reading of the call between this reading and the load of
the heartbeat. An age that wraps is taken for a fresh one only if the bound comes within the
overrun of `2 ^ 64`. -/
theorem isWriterAlive_iff (acts : ℕ → Action) (alive : Bool)
    (hcall : Call (after (step kill) (constructed pid clock) acts) acts m t₀ t₁ alive)
    (hkill : kill pid = true) (hm : 0 < m)
    (hfresh : ∀ u, t₀ ≤ u → u ≤ t₁ → (after (step kill) (constructed pid clock) acts u).Fresh m) :
    let run := after (step kill) (constructed pid clock) acts
    ∃ t₂ t₃, t₀ < t₂ ∧ t₂ < t₃ ∧ t₃ < t₁ ∧ ReadsClock run acts m t₂ ∧
      LoadsHeartbeat run acts m (run t₂).clock t₃ ∧
      ((alive = true ∧ (run t₃).header.heartbeatNs ≤ (run t₂).clock) ↔
        ∀ u, t₂ ≤ u → u < t₃ → ∀ now, Stores (run u) (acts u) now → now ≤ (run t₂).clock) ∧
      (alive = true ↔ (run t₃).header.heartbeatNs ≤ (run t₂).clock ∨
        2 ^ 64 ≤ m.toNat + ((run t₃).header.heartbeatNs.toNat - (run t₂).clock.toNat)) := by
  intro run
  have hbeating : ∀ t, Beating pid (run t) :=
    fun t => after_invariant (beating_constructed pid clock) (fun _ a h => h.step a) t
  have hclock : Monotone (fun t => (run t).clock.toNat) :=
    monotone_nat_of_le_succ (fun t => step_clock_le _ (run t) (acts t))
  obtain ⟨t₂, t₃, ht₀, ht₂, ht₃, hreads, hloads, heq⟩ :=
    hcall.accesses (fun _ => rfl) hbeating hkill hm
  have hlater : (run t₂).clock.toNat ≤ (run t₃).clock.toNat := hclock ht₂.le
  have hage := age_le_iff (hlater.trans (hfresh t₃ (by omega) ht₃.le))
  rw [← heq] at hage
  have hstores := heartbeat_le_iff (fun _ => rfl) hbeating (c := (run t₂).clock)
    (hbeating t₂).heartbeat ht₂.le
  refine ⟨t₂, t₃, ht₀, ht₂, ht₃, hreads, hloads, ?_, hage⟩
  rw [← hstores, hage]
  exact ⟨And.right, fun h => ⟨.inl h, h⟩⟩

/-- The writer beats after the load of the heartbeat, which is 7 nanoseconds old by then. -/
def calmActions : ℕ → Action :=
  script .beat [.tick 4, .call 1000, .check, .check, .check, .tick 3, .check]

theorem calm_isWriterAlive :
    let run := after (step (· = 77)) (constructed 77 5000000000) calmActions
    Call run calmActions 1000 1 7 true ∧ (∀ u, 1 ≤ u → u ≤ 7 → (run u).Fresh 1000) ∧
      ∃ t₂ t₃, t₂ < t₃ ∧ ReadsClock run calmActions 1000 t₂ ∧
        LoadsHeartbeat run calmActions 1000 (run t₂).clock t₃ := by
  intro run
  have hcall : Call run calmActions 1000 1 7 true := by
    refine ⟨by decide, rfl, .inl rfl, ?_, rfl⟩
    intro u hu hlt b hret
    interval_cases u <;> cases hret
  have hfresh : ∀ u, 1 ≤ u → u ≤ 7 → (run u).Fresh 1000 := by
    intro u hu hle
    interval_cases u <;> decide
  obtain ⟨t₂, t₃, -, ht₂, -, hreads, hloads, -⟩ :=
    isWriterAlive_iff calmActions true hcall rfl (by decide) hfresh
  exact ⟨hcall, hfresh, t₂, t₃, ht₂, hreads, hloads⟩

/-- The writer beats between the clock reading and the load of the heartbeat. -/
def overtakingActions : ℕ → Action :=
  script .beat [.tick 4, .call 1000, .check, .check, .check, .tick 3, .beat, .beat, .check]

/-- The heartbeat is never older than 7 of 1000 nanoseconds, and the writer is declared dead. -/
theorem beating_writer_declared_dead :
    let run := after (step (· = 77)) (constructed 77 5000000000) overtakingActions
    (∀ u, 1 ≤ u → u ≤ 9 → (run u).Fresh 1000) ∧
      Call run overtakingActions 1000 1 9 false := by
  intro run
  constructor
  · intro u hu hle
    interval_cases u <;> decide
  · refine ⟨by decide, rfl, .inl rfl, ?_, rfl⟩
    intro u hu hlt b hret
    interval_cases u <;> cases hret

end Runs

end Machine

end SafeShm.ShmLifecycle
