import SafeShm.WriterLiveness

/-!
# Owners that come and go

Any number of processes construct `OwnedShm` on one name, one after another or at the same time,
access by access. Each of them may stop for ever at any step, and its process id may then be that
of another process. A true answer of `is_writer_alive` still shows that some owner has beaten a
short time ago, so that owners who are gone are found out after `max_stale_ns`.
-/

namespace SafeShm.ShmLifecycle
open StateMachines

/-- The next access of an owner to the header: the stores of the constructor, with word `k` of the
`memset` of `reserved`, or those of `update_heartbeat`, which the constructor calls first. -/
inductive OwnerPc where
  | absent
  | storingMagic
  | storingVersion
  | storingPid
  | clearing (k : Fin 3)
  | beating (w : WriterPc)

/-- The clock, the header in the segment, its owners and a reader. -/
structure Segment (ι : Type) where
  clock : BitVec 64
  header : ShmHeader
  owners : ι → OwnerPc
  reader : ReaderPc

/-- The clock goes on by `d` nanoseconds; an owner makes its next access; or the reader calls
`is_writer_alive` or makes its next access, where `kill` says which processes exist at that moment.
-/
inductive SegmentAction (ι : Type) where
  | tick (d : BitVec 64)
  | owner (i : ι)
  | call (maxStaleNs : BitVec 64)
  | check (kill : BitVec 32 → Bool)

variable {ι : Type} [DecidableEq ι]

def zeroFilled (clock : BitVec 64) : Segment ι :=
  ⟨clock, ⟨0, 0, 0, 0, fun _ => 0⟩, fun _ => .absent, .outside⟩

def Segment.alone {ι : Type} (s : Segment ι) (w : WriterPc) : State :=
  ⟨s.clock, s.header, w, s.reader⟩

def Segment.goto (s : Segment ι) (i : ι) (p : OwnerPc) : Segment ι :=
  { s with owners := Function.update s.owners i p }

def SegmentAction.alone {ι : Type} : SegmentAction ι → Action
  | .tick d => .tick d
  | .owner _ => .beat
  | .call m => .call m
  | .check _ => .check

section Machine
variable (pid : ι → BitVec 32)

/-- The next access of owner `i`, in the constructor of `OwnedShm` or in `update_heartbeat`. -/
def Segment.turn (s : Segment ι) (i : ι) : Segment ι :=
  match s.owners i with
  | .absent => s.goto i .storingMagic
  | .storingMagic =>
      { (s.goto i .storingVersion) with header := { s.header with magic := shmHeaderMagic } }
  | .storingVersion =>
      { (s.goto i .storingPid) with header := { s.header with version := shmHeaderVersion } }
  | .storingPid => { (s.goto i (.clearing 0)) with header := { s.header with writerPid := pid i } }
  | .clearing k =>
      { (s.goto i (if k = 2 then .beating .reading else .clearing (k + 1))) with
        header := { s.header with reserved := Function.update s.header.reserved k 0 } }
  | .beating w =>
      { (s.goto i (.beating (s.alone w).beat.writer)) with header := (s.alone w).beat.header }

def Segment.step (s : Segment ι) : SegmentAction ι → Segment ι
  | .tick d => if s.clock.toNat + d.toNat < 2 ^ 64 then { s with clock := s.clock + d } else s
  | .owner i => s.turn pid i
  | .call m => { s with reader := ((s.alone .reading).call m).reader }
  | .check kill => { s with reader := ((s.alone .reading).check kill).reader }

end Machine

section Events
variable {ι : Type}

def StoresMagic (s : Segment ι) (a : SegmentAction ι) (i : ι) : Prop :=
  a = .owner i ∧ s.owners i = .storingMagic

def StoresPid (s : Segment ι) (a : SegmentAction ι) (i : ι) : Prop :=
  a = .owner i ∧ s.owners i = .storingPid

def Beats (s : Segment ι) (a : SegmentAction ι) (i : ι) : Prop :=
  a = .owner i ∧ s.owners i = .beating .reading

end Events

section Steps
variable {pid : ι → BitVec 32} {s : Segment ι} {a : SegmentAction ι} {i : ι}

theorem step_of_ne_owner (ha : ∀ i, a ≠ .owner i) :
    (s.step pid a).header = s.header ∧ (s.step pid a).owners = s.owners := by
  cases a with
  | tick d =>
    rw [Segment.step]
    split
    · exact ⟨rfl, rfl⟩
    · exact ⟨rfl, rfl⟩
  | owner i => exact absurd rfl (ha i)
  | call m => exact ⟨rfl, rfl⟩
  | check kill => exact ⟨rfl, rfl⟩

theorem turn_magic (pid : ι → BitVec 32) (s : Segment ι) (i : ι) :
    (s.turn pid i).header.magic = s.header.magic ∨ s.owners i = .storingMagic := by
  rw [Segment.turn]
  split
  · exact .inl rfl
  · rename_i hpc
    exact .inr hpc
  · exact .inl rfl
  · exact .inl rfl
  · exact .inl rfl
  · rename_i w hpc
    cases w with
    | reading => exact .inl rfl
    | storing now => exact .inl rfl

theorem turn_pid (pid : ι → BitVec 32) (s : Segment ι) (i : ι) :
    (s.turn pid i).header.writerPid = s.header.writerPid ∨
      s.owners i = .storingPid ∧ (s.turn pid i).header.writerPid = pid i := by
  rw [Segment.turn]
  split
  · exact .inl rfl
  · exact .inl rfl
  · exact .inl rfl
  · rename_i hpc
    exact .inr ⟨hpc, rfl⟩
  · exact .inl rfl
  · rename_i w hpc
    cases w with
    | reading => exact .inl rfl
    | storing now => exact .inl rfl

theorem turn_heartbeat (pid : ι → BitVec 32) (s : Segment ι) (i : ι) :
    (s.turn pid i).header.heartbeatNs = s.header.heartbeatNs ∨
      s.owners i = .beating (.storing (s.turn pid i).header.heartbeatNs) := by
  rw [Segment.turn]
  split
  · exact .inl rfl
  · exact .inl rfl
  · exact .inl rfl
  · exact .inl rfl
  · exact .inl rfl
  · rename_i w hpc
    cases w with
    | reading => exact .inl rfl
    | storing now => exact .inr hpc

/-- An owner that is about to store a heartbeat has just read the clock, or was so before. -/
theorem turn_storing {j : ι} {now : BitVec 64}
    (h : (s.turn pid i).owners j = .beating (.storing now)) :
    s.owners j = .beating (.storing now) ∨
      j = i ∧ s.owners i = .beating .reading ∧ now = s.clock := by
  have hother : ∀ p, j ≠ i → (s.goto i p).owners j = s.owners j :=
    fun p hne => Function.update_of_ne hne ..
  have hself : ∀ p, (s.goto i p).owners i = p := fun p => Function.update_self ..
  by_cases hne : j = i
  · subst hne
    rw [Segment.turn] at h
    split at h
    · exact absurd ((hself _).symm.trans h) (by simp)
    · exact absurd ((hself _).symm.trans h) (by simp)
    · exact absurd ((hself _).symm.trans h) (by simp)
    · exact absurd ((hself _).symm.trans h) (by simp)
    · have hpc := (hself _).symm.trans h
      split at hpc
      · exact absurd hpc (by simp)
      · exact absurd hpc (by simp)
    · rename_i w hpc
      have hnext := (hself _).symm.trans h
      cases w with
      | reading =>
        refine .inr ⟨rfl, hpc, ?_⟩
        simpa [Segment.alone, State.beat, toNs_clockGettime] using hnext.symm
      | storing now' => simp [Segment.alone, State.beat] at hnext
  · left
    rw [← h, Segment.turn]
    split
    all_goals exact (hother _ hne).symm

theorem step_clock (s : Segment ι) (a : SegmentAction ι) :
    s.clock.toNat ≤ (s.step pid a).clock.toNat := by
  cases a with
  | tick d =>
    rw [Segment.step]
    split
    · rename_i h
      rw [BitVec.toNat_add, Nat.mod_eq_of_lt h]
      exact Nat.le_add_right _ _
    · exact le_rfl
  | owner i =>
    rw [Segment.step, Segment.turn]
    split
    all_goals exact le_rfl
  | call m => exact le_rfl
  | check kill => exact le_rfl

/-- After the stores of its constructor the only owner is the writer of a `State`. -/
theorem alone_step {kill : BitVec 32 → Bool} {w : WriterPc} (hw : s.owners i = .beating w)
    (hother : ∀ j, a = .owner j → j = i) (hkill : ∀ k, a = .check k → k = kill) :
    ∃ w', (s.step pid a).owners i = .beating w' ∧
      (s.step pid a).alone w' = step kill (s.alone w) a.alone := by
  cases a with
  | tick d =>
    refine ⟨w, ?_⟩
    by_cases h : s.clock.toNat + d.toNat < 2 ^ 64
    · have htick : step kill (s.alone w) (.tick d) = _ := if_pos h
      rw [Segment.step, if_pos h, SegmentAction.alone, htick]
      exact ⟨hw, rfl⟩
    · have htick : step kill (s.alone w) (.tick d) = _ := if_neg h
      rw [Segment.step, if_neg h, SegmentAction.alone, htick]
      exact ⟨hw, rfl⟩
  | owner j =>
    obtain rfl := hother j rfl
    refine ⟨(s.alone w).beat.writer, ?_⟩
    rw [Segment.step, Segment.turn, hw]
    refine ⟨Function.update_self .., ?_⟩
    cases w with
    | reading => rfl
    | storing now => rfl
  | call m =>
    refine ⟨w, hw, ?_⟩
    cases hpc : s.reader <;>
      simp [Segment.step, Segment.alone, SegmentAction.alone, step, State.call, hpc]
  | check k =>
    obtain rfl := hkill k rfl
    refine ⟨w, hw, ?_⟩
    cases hpc : s.reader <;>
      simp [Segment.step, Segment.alone, SegmentAction.alone, step, State.check, hpc]

end Steps

def segments (pid : ι → BitVec 32) (clock : BitVec 64) (acts : ℕ → SegmentAction ι) (t : ℕ) :
    Segment ι :=
  after (Segment.step pid) (zeroFilled clock) acts t

section Runs
variable {pid : ι → BitVec 32} {clock m : BitVec 64} {acts : ℕ → SegmentAction ι}

/-- From the heartbeat of its constructor on, a run of one owner is a run of one writer. -/
theorem alone_runs {kill : BitVec 32 → Bool} {t₀ : ℕ} {i : ι} {w : WriterPc}
    (hw : (segments pid clock acts t₀).owners i = .beating w)
    (hother : ∀ t j, acts t = .owner j → j = i) (hkill : ∀ t k, acts t = .check k → k = kill)
    (t : ℕ) : ∃ w', (segments pid clock acts (t₀ + t)).owners i = .beating w' ∧
      (segments pid clock acts (t₀ + t)).alone w' = after (step kill)
        ((segments pid clock acts t₀).alone w) (fun t => (acts (t₀ + t)).alone) t := by
  induction t with
  | zero => exact ⟨w, hw, rfl⟩
  | succ t ih =>
    obtain ⟨w', hpc, hsame⟩ := ih
    rw [after, ← hsame]
    exact alone_step hpc (hother (t₀ + t)) (hkill (t₀ + t))

theorem exists_storesMagic {t : ℕ}
    (ht : (segments pid clock acts t).header.magic = shmHeaderMagic) :
    ∃ u < t, ∃ i, StoresMagic (segments pid clock acts u) (acts u) i := by
  have hstep : ∀ (s : Segment ι) a, (s.step pid a).header.magic = shmHeaderMagic →
      s.header.magic = shmHeaderMagic ∨ ∃ i, StoresMagic s a i := by
    intro s a h
    by_cases ha : ∃ i, a = .owner i
    · obtain ⟨i, rfl⟩ := ha
      rcases turn_magic pid s i with hsame | hpc
      · exact .inl (hsame.symm.trans h)
      · exact .inr ⟨i, rfl, hpc⟩
    · rw [(step_of_ne_owner (not_exists.mp ha)).1] at h
      exact .inl h
  obtain ⟨u, hu, hstores, -⟩ :=
    exists_entry (P := fun s => s.header.magic = shmHeaderMagic) (s := zeroFilled clock)
      (show (0 : BitVec 32) ≠ shmHeaderMagic by decide) hstep ht
  exact ⟨u, hu, hstores⟩

theorem exists_storesPid (t : ℕ) :
    let p := (segments pid clock acts t).header.writerPid
    p = 0 ∨ ∃ u < t, ∃ i,
      StoresPid (segments pid clock acts u) (acts u) i ∧ p = pid i := by
  intro p
  by_cases hp : p = 0
  · exact .inl hp
  have hstep : ∀ (s : Segment ι) a, (s.step pid a).header.writerPid = p →
      s.header.writerPid = p ∨ ∃ i, StoresPid s a i ∧ p = pid i := by
    intro s a h
    by_cases ha : ∃ i, a = .owner i
    · obtain ⟨i, rfl⟩ := ha
      rcases turn_pid pid s i with hsame | ⟨hpc, hnew⟩
      · exact .inl (hsame.symm.trans h)
      · exact .inr ⟨i, ⟨rfl, hpc⟩, h.symm.trans hnew⟩
    · rw [(step_of_ne_owner (not_exists.mp ha)).1] at h
      exact .inl h
  obtain ⟨u, hu, hstores, -⟩ :=
    exists_entry (P := fun s => s.header.writerPid = p) (s := zeroFilled clock)
      (fun h => hp h.symm) hstep (t := t) rfl
  exact .inr ⟨u, hu, hstores⟩

variable (pid clock acts) in
/-- The heartbeat in the header is 0, or the reading of an owner that has beaten. -/
theorem exists_beats (t : ℕ) :
    let h := (segments pid clock acts t).header.heartbeatNs
    h = 0 ∨ ∃ u < t, ∃ i,
      Beats (segments pid clock acts u) (acts u) i ∧
        h = (segments pid clock acts u).clock := by
  intro h
  by_cases hh : h = 0
  · exact .inl hh
  have hstores : ∀ (s : Segment ι) a, (s.step pid a).header.heartbeatNs = h →
      s.header.heartbeatNs = h ∨ ∃ i, s.owners i = .beating (.storing h) := by
    intro s a hnow
    by_cases ha : ∃ i, a = .owner i
    · obtain ⟨i, rfl⟩ := ha
      rcases turn_heartbeat pid s i with hsame | hpc
      · exact .inl (hsame.symm.trans hnow)
      · exact .inr ⟨i, hnow ▸ hpc⟩
    · rw [(step_of_ne_owner (not_exists.mp ha)).1] at hnow
      exact .inl hnow
  obtain ⟨v, hv, ⟨i, hpending⟩, -⟩ :=
    exists_entry (P := fun s => s.header.heartbeatNs = h) (s := zeroFilled clock)
      (fun heq => hh heq.symm) hstores (t := t) rfl
  have hreads : ∀ (s : Segment ι) a, (s.step pid a).owners i = .beating (.storing h) →
      s.owners i = .beating (.storing h) ∨ Beats s a i ∧ h = s.clock := by
    intro s a hpc
    by_cases ha : ∃ j, a = .owner j
    · obtain ⟨j, rfl⟩ := ha
      rcases turn_storing hpc with hsame | ⟨rfl, hreading, hclock⟩
      · exact .inl hsame
      · exact .inr ⟨⟨rfl, hreading⟩, hclock⟩
    · rw [(step_of_ne_owner (not_exists.mp ha)).2] at hpc
      exact .inl hpc
  obtain ⟨u, hu, ⟨hbeats, hclock⟩, -⟩ :=
    exists_entry (P := fun s : Segment ι => s.owners i = .beating (.storing h))
      (s := zeroFilled clock) (by simp [zeroFilled]) hreads hpending
  exact .inr ⟨u, hu.trans hv, i, hbeats, hclock⟩

def Begun (pid : ι → BitVec 32) (clock : BitVec 64) (acts : ℕ → SegmentAction ι) (u : ℕ) : Prop :=
  ∃ t < u, ∃ i, StoresMagic (segments pid clock acts t) (acts t) i

/-- Between the instants `t₀` and `u` the process in the header existed; its id was 0, or that of an
owner which had stored it. -/
def Probed (pid : ι → BitVec 32) (clock : BitVec 64) (acts : ℕ → SegmentAction ι) (t₀ u : ℕ) :
    Prop :=
  ∃ t, t₀ < t ∧ t < u ∧ ∃ kill p, acts t = .check kill ∧ kill p = true ∧
    (p = 0 ∨ ∃ t' < t, ∃ i, StoresPid (segments pid clock acts t') (acts t') i ∧ p = pid i)

/-- At instant `t₀` the clock was still within `m` nanoseconds of 0, or of the reading of an owner
that has beaten by instant `u`. -/
def BeatenSince (pid : ι → BitVec 32) (clock : BitVec 64) (acts : ℕ → SegmentAction ι)
    (m : BitVec 64) (t₀ u : ℕ) : Prop :=
  (segments pid clock acts t₀).clock.toNat ≤ m.toNat ∨
    ∃ t < u, ∃ i, Beats (segments pid clock acts t) (acts t) i ∧
      (segments pid clock acts t₀).clock.toNat ≤ (segments pid clock acts t).clock.toNat + m.toNat

/-- What a call that began at instant `t₀` has found out by instant `u`. -/
def Found (pid : ι → BitVec 32) (clock : BitVec 64) (acts : ℕ → SegmentAction ι) (m : BitVec 64)
    (t₀ u : ℕ) : ReaderPc → Prop
  | .outside => False
  | .loadingMagic m' => m' = m
  | .killing m' => m' = m ∧ Begun pid clock acts u
  | .readingClock m' => m' = m ∧ Begun pid clock acts u ∧ Probed pid clock acts t₀ u
  | .loadingHeartbeat m' now =>
      m' = m ∧ Begun pid clock acts u ∧ Probed pid clock acts t₀ u ∧
        (segments pid clock acts t₀).clock.toNat ≤ now.toNat
  | .returned alive =>
      alive = true → Begun pid clock acts u ∧ Probed pid clock acts t₀ u ∧
        (0 < m → BeatenSince pid clock acts m t₀ u)

section Calls
variable {t₀ u : ℕ}

theorem Begun.mono (h : Begun pid clock acts u) : Begun pid clock acts (u + 1) := by
  obtain ⟨t, ht, hstores⟩ := h
  exact ⟨t, Nat.lt_succ_of_lt ht, hstores⟩

theorem Probed.mono (h : Probed pid clock acts t₀ u) : Probed pid clock acts t₀ (u + 1) := by
  obtain ⟨t, ht₀, ht, hprobe⟩ := h
  exact ⟨t, ht₀, Nat.lt_succ_of_lt ht, hprobe⟩

private theorem le_add_of_age_le {now beat : BitVec 64} (h : now - beat ≤ m) :
    now.toNat ≤ beat.toNat + m.toNat := by
  have hnow := now.isLt
  have hbeat := beat.isLt
  simp only [BitVec.le_def, BitVec.toNat_sub] at h
  omega

private theorem clock_le {t : ℕ} (hle : t₀ ≤ t) :
    (segments pid clock acts t₀).clock.toNat ≤ (segments pid clock acts t).clock.toNat :=
  monotone_nat_of_le_succ (f := fun t => (segments pid clock acts t).clock.toNat)
    (fun t => step_clock (segments pid clock acts t) (acts t)) hle

private theorem beatenSince_of_age_le {now : BitVec 64}
    (hnow : (segments pid clock acts t₀).clock.toNat ≤ now.toNat)
    (hage : now - (segments pid clock acts u).header.heartbeatNs ≤ m) :
    BeatenSince pid clock acts m t₀ (u + 1) := by
  have hle := hnow.trans (le_add_of_age_le hage)
  rcases exists_beats pid clock acts u with
    hzero | ⟨t, ht, i, hbeats, hclock⟩
  · rw [hzero] at hle
    exact .inl (by simpa using hle)
  · rw [hclock] at hle
    exact .inr ⟨t, Nat.lt_succ_of_lt ht, i, hbeats, hle⟩

/-- An access of the call adds what it has seen. -/
private theorem Found.check {kill : BitVec 32 → Bool} (hlt : t₀ < u) (hact : acts u = .check kill)
    (hrunning : ∀ b, (segments pid clock acts u).reader ≠ .returned b)
    (h : Found pid clock acts m t₀ u (segments pid clock acts u).reader) :
    Found pid clock acts m t₀ (u + 1) (segments pid clock acts (u + 1)).reader := by
  have hnext : (segments pid clock acts (u + 1)).reader =
      (((segments pid clock acts u).alone .reading).check kill).reader := by
    rw [segments, after, hact]
    rfl
  rw [hnext]
  cases hpc : (segments pid clock acts u).reader with
  | outside =>
    rw [hpc] at h
    exact h.elim
  | loadingMagic m' =>
    rw [hpc] at h
    obtain rfl : m' = m := h
    simp only [State.check, Segment.alone, hpc]
    split
    · exact fun hfalse => absurd hfalse (by decide)
    · rename_i hmagic
      obtain ⟨t, ht, hstores⟩ := exists_storesMagic (not_not.mp hmagic)
      exact ⟨rfl, t, Nat.lt_succ_of_lt ht, hstores⟩
  | killing m' =>
    rw [hpc] at h
    obtain ⟨rfl, hbegun⟩ := h
    simp only [State.check, Segment.alone, hpc]
    split
    · rename_i hkill
      have hprobed : Probed pid clock acts t₀ (u + 1) :=
        ⟨u, hlt, Nat.lt_succ_self u, kill, _, hact, hkill, exists_storesPid u⟩
      split
      · exact ⟨rfl, hbegun.mono, hprobed⟩
      · rename_i hm
        exact fun _ => ⟨hbegun.mono, hprobed, fun hpos => absurd hpos hm⟩
    · exact fun hfalse => absurd hfalse (by decide)
  | readingClock m' =>
    rw [hpc] at h
    obtain ⟨rfl, hbegun, hprobed⟩ := h
    simp only [State.check, Segment.alone, hpc, toNs_clockGettime]
    exact ⟨rfl, hbegun.mono, hprobed.mono, clock_le hlt.le⟩
  | loadingHeartbeat m' now =>
    rw [hpc] at h
    obtain ⟨rfl, hbegun, hprobed, hnow⟩ := h
    simp only [State.check, Segment.alone, hpc]
    intro halive
    refine ⟨hbegun.mono, hprobed.mono, fun _ => beatenSince_of_age_le hnow ?_⟩
    simpa using halive
  | returned b => exact absurd hpc (hrunning b)

private theorem Found.mono {r : ReaderPc} (hr : ∀ b, r ≠ .returned b)
    (h : Found pid clock acts m t₀ u r) : Found pid clock acts m t₀ (u + 1) r := by
  cases r with
  | outside => exact h
  | loadingMagic m' => exact h
  | killing m' => exact ⟨h.1, h.2.mono⟩
  | readingClock m' => exact ⟨h.1, h.2.1.mono, h.2.2.mono⟩
  | loadingHeartbeat m' now => exact ⟨h.1, h.2.1.mono, h.2.2.1.mono, h.2.2.2⟩
  | returned b => exact absurd rfl (hr b)

private theorem Found.step (hlt : t₀ < u)
    (hrunning : ∀ b, (segments pid clock acts u).reader ≠ .returned b)
    (h : Found pid clock acts m t₀ u (segments pid clock acts u).reader) :
    Found pid clock acts m t₀ (u + 1) (segments pid clock acts (u + 1)).reader := by
  have hnext : segments pid clock acts (u + 1) =
      (segments pid clock acts u).step pid (acts u) := rfl
  cases hact : acts u with
  | tick d =>
    have hsame : (segments pid clock acts (u + 1)).reader = (segments pid clock acts u).reader := by
      rw [hnext, hact, Segment.step]
      split <;> rfl
    rw [hsame]
    exact h.mono hrunning
  | owner i =>
    have hsame : (segments pid clock acts (u + 1)).reader = (segments pid clock acts u).reader := by
      rw [hnext, hact, Segment.step, Segment.turn]
      split <;> rfl
    rw [hsame]
    exact h.mono hrunning
  | call m' =>
    have hsame : (segments pid clock acts (u + 1)).reader = (segments pid clock acts u).reader := by
      rw [hnext, hact, Segment.step, State.call]
      split
      · rename_i hpc
        rw [show (segments pid clock acts u).reader = .outside from hpc] at h
        exact h.elim
      · rename_i b hpc
        exact absurd hpc (hrunning b)
      · rfl
    rw [hsame]
    exact h.mono hrunning
  | check kill => exact h.check hlt hact hrunning

/-- What a true answer of `is_writer_alive` shows, whichever owners have come and gone: some owner
has begun to construct the segment; during the call a process existed with the id of an owner, or
with id 0; and if a bound is given, then some owner has beaten no more than `max_stale_ns` before
the call, unless the clock itself had not run for longer. -/
theorem alive_shows (pid : ι → BitVec 32) (clock : BitVec 64) (acts : ℕ → SegmentAction ι)
    {t₁ : ℕ} (hcall : Call (fun t => (segments pid clock acts t).alone .reading)
      (fun t => (acts t).alone) m t₀ t₁ true) :
    Begun pid clock acts t₁ ∧ Probed pid clock acts t₀ t₁ ∧
      (0 < m → BeatenSince pid clock acts m t₀ t₁) := by
  have hstart : Found pid clock acts m t₀ (t₀ + 1) (segments pid clock acts (t₀ + 1)).reader := by
    have hact : acts t₀ = .call m := by
      have hcalled := hcall.called
      revert hcalled
      cases acts t₀ <;> simp [SegmentAction.alone]
    have hfree := hcall.free
    rw [segments, after, ← segments, hact, Segment.step, State.call]
    split
    · exact rfl
    · exact rfl
    · rename_i hout hret
      rcases hfree with hpc | ⟨b, hpc⟩
      · exact absurd hpc hout
      · exact absurd hpc (hret b)
  have hfound : ∀ u, t₀ + 1 ≤ u → u ≤ t₁ →
      Found pid clock acts m t₀ u (segments pid clock acts u).reader := by
    apply holds_between
    · exact hstart
    · intro u hle hlt hfound
      exact hfound.step hle (hcall.running u hle hlt)
  have hlast := hfound t₁ hcall.lt le_rfl
  rw [show (segments pid clock acts t₁).reader = .returned true from hcall.returned] at hlast
  exact hlast rfl

end Calls

/-- One owner constructs the segment, and the reader asks 4 nanoseconds later. -/
def oneOwner : ℕ → SegmentAction Unit :=
  script (.owner ()) (repeated [(.owner (), 9), (.tick 4, 1), (.call 1000, 1),
    (.check (fun p => p == 77), 4)])

theorem alive_shows_oneOwner : Begun (fun _ => 77) 5000000000 oneOwner 15 ∧
    Probed (fun _ => 77) 5000000000 oneOwner 10 15 ∧
      BeatenSince (fun _ => 77) 5000000000 oneOwner 1000 10 15 := by
  have hcall : Call (fun t => (segments (fun _ => 77) 5000000000 oneOwner t).alone .reading)
      (fun t => (oneOwner t).alone) 1000 10 15 true := by
    refine ⟨by decide, rfl, .inl rfl, ?_, rfl⟩
    intro u hu hlt b hret
    interval_cases u <;> cases hret
  obtain ⟨hbegun, hprobed, hbeaten⟩ := alive_shows (fun _ => 77) 5000000000 oneOwner hcall
  exact ⟨hbegun, hprobed, hbeaten (by decide)⟩

end Runs

end SafeShm.ShmLifecycle
