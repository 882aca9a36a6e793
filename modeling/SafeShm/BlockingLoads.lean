import SafeShm.Seqlock
import SafeShm.SleepingReaders

/-!
# Loads that wait for a new value

`SeqlockReader::load_blocking` for any number of readers of one writer. A reader hands the same
variable `last_seq` to all its calls. It keeps what it returned last in it, so that a value is
returned again only if the counter has come back to the same 32 bits.
-/

namespace SafeShm.Seqlock
open AtomicPrograms SingleWriterRuns SequenceLocks SleepingReaders

variable {F : FlatType}

/-- The next access of `load_blocking`: the load of the counter at the head of the loop, the word of
`std::memcpy` or the second load of the counter, or the call of `FUTEX_WAIT`; or it is asleep there.
-/
inductive BlockingPc (F : FlatType) where
  | outside
  | loading
  | copying (cur : BitVec 32) (result : F.T) (j : ℕ)
  | rechecking (cur : BitVec 32) (result : F.T)
  | waiting (cur : BitVec 32)
  | asleep (cur : BitVec 32)

/-- A reader; a call of it may have a time-out. -/
structure BlockingReader (F : FlatType) where
  lastSeq : BitVec 32
  timed : Bool
  pc : BlockingPc F

/-- What happens to a reader from outside: a call, or `FUTEX_WAIT` returns for no reason (or is
interrupted), or with `ETIMEDOUT`. -/
inductive Outside where
  | call (timed : Bool)
  | spurious
  | timeout

/-- The next access of a reader while the segment is `m`. -/
def BlockingReader.turn (m : Segment F) (r : BlockingReader F) : BlockingReader F :=
  match r.pc with
  | .outside => r
  | .loading =>
      if m.seq () ≠ r.lastSeq ∧ m.seq () &&& 1 = 0 then
        { r with pc := .copying (m.seq ()) (fun _ => F.zero) 0 }
      else { r with pc := .waiting (m.seq ()) }
  | .copying cur result j =>
      if h : j < F.words then
        { r with pc := .copying cur (Function.update result ⟨j, h⟩ (m.data () ⟨j, h⟩)) (j + 1) }
      else { r with pc := .rechecking cur result }
  | .rechecking cur _ =>
      if cur = m.seq () then { r with lastSeq := cur, pc := .outside } -- returns the result
      else { r with pc := .loading }
  | .waiting cur =>
      if m.seq () = cur then { r with pc := .asleep cur }
      else { r with pc := .loading }
  | .asleep _ => r

def BlockingReader.woken (r : BlockingReader F) : BlockingReader F :=
  match r.pc with
  | .asleep _ => { r with pc := .loading }
  | _ => r

def BlockingReader.event (e : Outside) (r : BlockingReader F) : BlockingReader F :=
  match e, r.pc with
  | .call timed, .outside => { r with timed := timed, pc := .loading }
  | .spurious, .asleep _ => { r with pc := .loading }
  | .timeout, .asleep _ => if r.timed then { r with pc := .outside } else r -- returns `nullopt`
  | _, _ => r

def BlockingReader.isAsleep (r : BlockingReader F) : Bool :=
  match r.pc with
  | .asleep _ => true
  | _ => false

/-- `load_blocking` as a machine. -/
def blockingReader : Machine (Segment F) (BlockingReader F) Outside where
  turn := BlockingReader.turn
  event := BlockingReader.event
  woken := BlockingReader.woken
  asleep := BlockingReader.isAsleep
  asleep_woken r := by
    rw [BlockingReader.woken]
    split
    · rfl
    · rename_i hpc
      rw [BlockingReader.isAsleep]
      split
      · exact absurd ‹_› (hpc _)
      · rfl
  turn_asleep m r h := by
    cases hpc : r.pc with
    | asleep cur => rw [BlockingReader.turn, hpc]
    | _ => simp [BlockingReader.isAsleep, hpc] at h
  event_asleep e r h := by
    obtain ⟨last, timed, pc⟩ := r
    cases e <;> cases pc <;> cases timed <;> simp_all [BlockingReader.event, BlockingReader.isAsleep]

/-- What a reader knows of the counter that it has loaded. -/
def BlockingReader.Knows (r : BlockingReader F) : Prop :=
  match r.pc with
  | .copying cur _ _ => cur ≠ r.lastSeq ∧ cur &&& 1 = 0
  | .rechecking cur _ => cur ≠ r.lastSeq ∧ cur &&& 1 = 0
  | .waiting cur => cur = r.lastSeq ∨ cur &&& 1 ≠ 0
  | .asleep cur => cur = r.lastSeq ∨ cur &&& 1 ≠ 0
  | _ => True

theorem BlockingReader.Knows.turn {r : BlockingReader F} (h : r.Knows) (m : Segment F) :
    (r.turn m).Knows := by
  rw [BlockingReader.turn]
  cases hpc : r.pc with
  | loading =>
    dsimp only
    split
    · assumption
    · rename_i hnot
      by_cases heq : m.seq () = r.lastSeq
      · exact .inl heq
      · exact .inr (fun heven => hnot ⟨heq, heven⟩)
  | copying cur result j =>
    simp only [BlockingReader.Knows, hpc] at h
    dsimp only
    split <;> exact h
  | rechecking cur result =>
    dsimp only
    split <;> trivial
  | waiting cur =>
    simp only [BlockingReader.Knows, hpc] at h
    dsimp only
    split
    · exact h
    · trivial
  | outside => exact h
  | asleep cur => exact h

/-- What is not a turn of a reader leaves it where it is, or sends it to the head of the loop or
out of the call. -/
theorem BlockingReader.event_cases (e : Outside) (r : BlockingReader F) : r.event e = r ∨
    (r.event e).lastSeq = r.lastSeq ∧ ((r.event e).pc = .loading ∨ (r.event e).pc = .outside) := by
  obtain ⟨last, timed, pc⟩ := r
  cases e <;> cases pc <;> cases timed <;> simp [BlockingReader.event]

theorem BlockingReader.woken_cases (r : BlockingReader F) : r.woken = r ∨
    r.woken.lastSeq = r.lastSeq ∧ r.woken.pc = .loading := by
  obtain ⟨last, timed, pc⟩ := r
  cases pc <;> simp [BlockingReader.woken]

section Runs
variable {ι : Type} [DecidableEq ι]
variable (vals : ℕ → F.T) (lastSeqs : ι → BitVec 32) (acts : ℕ → Action ι Outside)

/-- One writer that stores `vals 0, vals 1, …` on a zero-filled segment, and blocking readers. -/
def blocking : Design (Loc Empty Unit F.words) (Val F.Word) (Cmd Empty Unit F.words F.Word)
    (Segment F) (BlockingReader F) Outside where
  toMemory := memory
  toMachine := blockingReader
  wake
    | .wake => true
    | _ => false
  script k := store (vals k)
  wakesLast k := wakesLast_bind (lockedStore () (vals k)) (fun _ => wakesLast_store rfl ())
  m₀ := Region.zeroed F.zero

/-- The run in which reader `i` begins with `lastSeqs i` in its variable `last_seq`. -/
abbrev blockingStates (t : ℕ) : State (Loc Empty Unit F.words) (Val F.Word)
    (Cmd Empty Unit F.words F.Word) (Segment F) ι (BlockingReader F) :=
  (blocking vals).states (fun i => ⟨lastSeqs i, false, .outside⟩) acts t

def Delivers (s : State (Loc Empty Unit F.words) (Val F.Word) (Cmd Empty Unit F.words F.Word)
    (Segment F) ι (BlockingReader F)) (a : Action ι Outside) (i : ι) (v : F.T) : Prop :=
  a = .reader i ∧ (s.reader i).pc = .rechecking (s.mem.seq ()) v

theorem blocking_mem (t : ℕ) :
    (blockingStates vals lastSeqs acts t).mem = segments vals (turns acts) nobody t :=
  (states_writer (blocking vals) _ acts t).1

theorem blocking_writer (t : ℕ) : (blockingStates vals lastSeqs acts t).writer =
    (states vals (turns acts) nobody t).writer :=
  (states_writer (blocking vals) _ acts t).2

private theorem blocking_cases (i : ι) (t : ℕ) :
    (blockingStates vals lastSeqs acts (t + 1)).reader i =
        (blockingStates vals lastSeqs acts t).reader i ∨
      ((blockingStates vals lastSeqs acts (t + 1)).reader i).lastSeq =
          ((blockingStates vals lastSeqs acts t).reader i).lastSeq ∧
        (((blockingStates vals lastSeqs acts (t + 1)).reader i).pc = .loading ∨
          ((blockingStates vals lastSeqs acts (t + 1)).reader i).pc = .outside) ∨
      acts t = .reader i ∧ (blockingStates vals lastSeqs acts (t + 1)).reader i =
        ((blockingStates vals lastSeqs acts t).reader i).turn
          (blockingStates vals lastSeqs acts t).mem := by
  rw [blockingStates, Design.states_succ]
  rcases Design.step_reader (blockingStates vals lastSeqs acts t) (acts t) i with
    heq | heq | ⟨hact, heq⟩ | ⟨e, -, heq⟩
  · exact .inl heq
  · rw [heq]
    rcases BlockingReader.woken_cases ((blockingStates vals lastSeqs acts t).reader i) with h | ⟨h, h'⟩
    · exact .inl h
    · exact .inr (.inl ⟨h, .inl h'⟩)
  · exact .inr (.inr ⟨hact, heq⟩)
  · rw [heq]
    rcases BlockingReader.event_cases e ((blockingStates vals lastSeqs acts t).reader i) with h | h
    · exact .inl h
    · exact .inr (.inl h)

variable (i : ι)

theorem knows_at (t : ℕ) : ((blockingStates vals lastSeqs acts t).reader i).Knows := by
  induction t with
  | zero => trivial
  | succ t ih =>
    rcases blocking_cases vals lastSeqs acts i t with heq | ⟨-, hpc⟩ | ⟨-, heq⟩
    · rw [heq]
      exact ih
    · rcases hpc with hpc | hpc <;> simp [BlockingReader.Knows, hpc]
    · rw [heq]
      exact ih.turn _

/-- Reader `i` has loaded `cur` at an instant of its call, and since then the first `j` words of
`result`. -/
def CopiedSince (t : ℕ) (cur : BitVec 32) (result : F.T) (j : ℕ) : Prop :=
  ∃ tb < t, (blockingStates vals lastSeqs acts tb).mem.seq () = cur ∧
    (∀ k : Fin F.words, k < j → ∃ t', tb ≤ t' ∧ t' < t ∧
      result k = (blockingStates vals lastSeqs acts t').mem.data () k) ∧
    ∀ t', tb ≤ t' → t' ≤ t → ((blockingStates vals lastSeqs acts t').reader i).pc ≠ .outside

variable {vals lastSeqs acts i}

private theorem CopiedSince.succ {t : ℕ} {cur : BitVec 32} {result : F.T} {j : ℕ}
    (h : CopiedSince vals lastSeqs acts i t cur result j)
    (hpc : ((blockingStates vals lastSeqs acts (t + 1)).reader i).pc ≠ .outside) :
    CopiedSince vals lastSeqs acts i (t + 1) cur result j := by
  obtain ⟨tb, hlt, hseq, hwords, hinside⟩ := h
  refine ⟨tb, by omega, hseq, ?_, ?_⟩
  · intro k hk
    obtain ⟨t', h₁, h₂, hv⟩ := hwords k hk
    exact ⟨t', h₁, by omega, hv⟩
  · intro t' h₁ h₂
    rcases Nat.lt_or_ge t (t') with hlater | hle
    · rw [show t' = t + 1 by omega]
      exact hpc
    · exact hinside t' h₁ hle

private theorem CopiedSince.start {t : ℕ} (result : F.T)
    (hpc : ((blockingStates vals lastSeqs acts t).reader i).pc = .loading)
    (hpc' : ((blockingStates vals lastSeqs acts (t + 1)).reader i).pc ≠ .outside) :
    CopiedSince vals lastSeqs acts i (t + 1) ((blockingStates vals lastSeqs acts t).mem.seq ()) result
      0 := by
  refine ⟨t, Nat.lt_succ_self t, rfl, fun k hk => absurd hk (Nat.not_lt_zero k), ?_⟩
  intro t' h₁ h₂
  rcases Nat.lt_or_ge t t' with hlater | hle
  · rw [show t' = t + 1 by omega]
    exact hpc'
  · rw [show t' = t by omega, hpc]
    simp

private theorem CopiedSince.push {t : ℕ} {cur : BitVec 32} {result : F.T} {j : ℕ}
    (h : CopiedSince vals lastSeqs acts i t cur result j) (hj : j < F.words)
    (hpc : ((blockingStates vals lastSeqs acts (t + 1)).reader i).pc ≠ .outside) :
    CopiedSince vals lastSeqs acts i (t + 1) cur (Function.update result ⟨j, hj⟩
      ((blockingStates vals lastSeqs acts t).mem.data () ⟨j, hj⟩)) (j + 1) := by
  obtain ⟨tb, hlt, hseq, hwords, hinside⟩ := h.succ hpc
  refine ⟨tb, hlt, hseq, ?_, hinside⟩
  intro k hk
  by_cases heq : k = ⟨j, hj⟩
  · subst heq
    exact ⟨t, by omega, by omega, by simp⟩
  · have hne : (k : ℕ) ≠ j := fun hval => heq (Fin.ext hval)
    rw [Function.update_of_ne heq]
    exact hwords k (by omega)

variable (vals lastSeqs acts i) in
/-- The copy of a reader at every instant of its call. -/
private def Copies (t : ℕ) : BlockingPc F → Prop
  | .copying cur result j => CopiedSince vals lastSeqs acts i t cur result j
  | .rechecking cur result => CopiedSince vals lastSeqs acts i t cur result F.words
  | _ => True

private theorem copies_turn {t : ℕ} (hact : (blockingStates vals lastSeqs acts (t + 1)).reader i =
      ((blockingStates vals lastSeqs acts t).reader i).turn (blockingStates vals lastSeqs acts t).mem)
    (ih : Copies vals lastSeqs acts i t ((blockingStates vals lastSeqs acts t).reader i).pc) :
    Copies vals lastSeqs acts i (t + 1) ((blockingStates vals lastSeqs acts (t + 1)).reader i).pc := by
  have hturn := hact
  rw [BlockingReader.turn] at hturn
  cases hpc : ((blockingStates vals lastSeqs acts t).reader i).pc with
  | loading =>
    simp only [hpc] at hturn
    split at hturn
    · have hinside := CopiedSince.start (fun _ => F.zero) hpc (by simp [hturn])
      rw [hturn]
      exact hinside
    · rw [hturn]
      trivial
  | copying cur result j =>
    simp only [hpc] at hturn ih
    split at hturn
    · rename_i hj
      have hnext := CopiedSince.push ih hj (by simp [hturn])
      rw [hturn]
      exact hnext
    · obtain ⟨tb, hlt, hseq, hwords, hinside⟩ := CopiedSince.succ ih (by simp [hturn])
      rw [hturn]
      exact ⟨tb, hlt, hseq, fun k hk => hwords k (by omega), hinside⟩
  | rechecking cur result =>
    simp only [hpc] at hturn
    split at hturn <;> rw [hturn] <;> trivial
  | waiting cur =>
    simp only [hpc] at hturn
    split at hturn <;> rw [hturn] <;> trivial
  | outside =>
    simp only [hpc] at hturn
    rw [hturn, hpc]
    trivial
  | asleep cur =>
    simp only [hpc] at hturn
    rw [hturn, hpc]
    trivial

variable (vals lastSeqs acts i) in
private theorem copies_at (t : ℕ) :
    Copies vals lastSeqs acts i t ((blockingStates vals lastSeqs acts t).reader i).pc := by
  induction t with
  | zero => trivial
  | succ t ih =>
    rcases blocking_cases vals lastSeqs acts i t with heq | ⟨-, hpc⟩ | ⟨-, heq⟩
    · rw [heq]
      cases hpc : ((blockingStates vals lastSeqs acts t).reader i).pc with
      | copying cur result j =>
        rw [hpc] at ih
        exact CopiedSince.succ ih (by simp [heq, hpc])
      | rechecking cur result =>
        rw [hpc] at ih
        exact CopiedSince.succ ih (by simp [heq, hpc])
      | _ => trivial
    · rcases hpc with hpc | hpc <;> rw [hpc] <;> trivial
    · exact copies_turn heq ih

/-- What a call returns is the last store finished when it compares the counter again. -/
private theorem delivered {t : ℕ} {v : F.T}
    (h : Delivers (blockingStates vals lastSeqs acts t) (acts t) i v)
    (hfew : ∀ t₀ ≤ t, (∀ t', t₀ ≤ t' → t' ≤ t →
      ((blockingStates vals lastSeqs acts t').reader i).pc ≠ .outside) →
        finished (blockingStates vals lastSeqs acts t).writer <
          finished (blockingStates vals lastSeqs acts t₀).writer + 2 ^ 31) :
    v = stored vals (finished (blockingStates vals lastSeqs acts t).writer) ∧
      (blockingStates vals lastSeqs acts t).mem.seq () =
        BitVec.ofNat 32 (2 * finished (blockingStates vals lastSeqs acts t).writer) := by
  have hknows := knows_at vals lastSeqs acts i t
  have hcopies := copies_at vals lastSeqs acts i t
  rw [BlockingReader.Knows, h.2] at hknows
  rw [h.2] at hcopies
  obtain ⟨tb, hlt, hseq, hwords, hinside⟩ := hcopies
  have hfew := hfew tb hlt.le hinside
  simp only [blocking_mem, blocking_writer] at hknows hseq hwords hfew ⊢
  have hmid := midStore_le_one (states vals (turns acts) nobody t).writer
  have hmidb := midStore_le_one (states vals (turns acts) nobody tb).writer
  obtain ⟨hver, heven, hv⟩ := (versioned vals (turns acts) nobody).copied hlt.le
    (hseq ▸ hknows.2) hseq (fun j => by
      obtain ⟨t', h₁, h₂, hv⟩ := hwords j j.isLt
      exact ⟨t', h₁, h₂.le, hv⟩)
    (by
      simp only [versioned]
      omega)
  simp only [versioned] at hver heven
  have hsame : finished (states vals (turns acts) nobody t).writer =
      finished (states vals (turns acts) nobody tb).writer := by omega
  constructor
  · rw [hv, segments_data vals (turns acts) nobody (by omega), hsame]
  · rw [segments_seq, show midStore (states vals (turns acts) nobody t).writer = 0 by omega,
      Nat.add_zero]

private theorem lastSeq_of_delivers {t : ℕ} {v : F.T}
    (h : Delivers (blockingStates vals lastSeqs acts t) (acts t) i v) :
    ((blockingStates vals lastSeqs acts (t + 1)).reader i).lastSeq =
      (blockingStates vals lastSeqs acts t).mem.seq () := by
  have hstep : (blockingStates vals lastSeqs acts (t + 1)).reader i =
      ((blockingStates vals lastSeqs acts t).reader i).turn (blockingStates vals lastSeqs acts t).mem := by
    rw [blockingStates, Design.states_succ, h.1]
    exact Function.update_self ..
  rw [hstep, BlockingReader.turn, h.2]
  simp

private theorem lastSeq_step {t : ℕ}
    (h : ∀ v, ¬ Delivers (blockingStates vals lastSeqs acts t) (acts t) i v) :
    ((blockingStates vals lastSeqs acts (t + 1)).reader i).lastSeq =
      ((blockingStates vals lastSeqs acts t).reader i).lastSeq := by
  rcases blocking_cases vals lastSeqs acts i t with heq | ⟨heq, -⟩ | ⟨hact, heq⟩
  · rw [heq]
  · exact heq
  · rw [heq, BlockingReader.turn]
    cases hpc : ((blockingStates vals lastSeqs acts t).reader i).pc with
    | rechecking cur result =>
      have hne : cur ≠ (blockingStates vals lastSeqs acts t).mem.seq () := by
        rintro rfl
        exact h result ⟨hact, hpc⟩
      simp [hne]
    | loading | copying | waiting =>
      dsimp only
      split <;> rfl
    | outside => rfl
    | asleep => rfl

theorem lastSeq_eq {t₀ t : ℕ} (hle : t₀ ≤ t)
    (h : ∀ t', t₀ ≤ t' → t' < t → ∀ v, ¬ Delivers (blockingStates vals lastSeqs acts t') (acts t') i v) :
    ((blockingStates vals lastSeqs acts t).reader i).lastSeq =
      ((blockingStates vals lastSeqs acts t₀).reader i).lastSeq := by
  induction t, hle using Nat.le_induction with
  | base => rfl
  | succ t hle ih =>
    rw [lastSeq_step (h t hle (Nat.lt_succ_self t))]
    exact ih (fun t' h₁ h₂ => h t' h₁ (by omega))

private theorem turn_asleep {r : BlockingReader F} {m : Segment F} (hawake : r.isAsleep = false)
    (h : (r.turn m).isAsleep = true) : ∃ cur, (r.turn m).pc = .asleep cur ∧ m.seq () = cur := by
  rw [BlockingReader.turn] at h ⊢
  cases hpc : r.pc with
  | waiting cur =>
    simp only [hpc] at h ⊢
    split
    · exact ⟨cur, rfl, ‹_›⟩
    · rename_i hne
      simp [hne, BlockingReader.isAsleep] at h
  | asleep cur => simp [BlockingReader.isAsleep, hpc] at hawake
  | outside => simp [hpc, BlockingReader.isAsleep] at h
  | loading | copying | rechecking =>
    simp only [hpc] at h
    split at h <;> simp [BlockingReader.isAsleep] at h

/-- A reader that sleeps while the writer is between two stores has seen the last one. -/
theorem asleep_seen {t : ℕ} {cur : BitVec 32}
    (hidle : (blockingStates vals lastSeqs acts t).writer.prog = .ret ())
    (hpc : ((blockingStates vals lastSeqs acts t).reader i).pc = .asleep cur) :
    (blockingStates vals lastSeqs acts t).mem.seq () =
      ((blockingStates vals lastSeqs acts t).reader i).lastSeq := by
  have hfound : ∃ cur, ((blockingStates vals lastSeqs acts t).reader i).pc = .asleep cur ∧
      (blockingStates vals lastSeqs acts t).mem.seq () = cur := by
    have hasleep : ((blockingStates vals lastSeqs acts t).reader i).isAsleep = true := by
      rw [BlockingReader.isAsleep, hpc]
    refine sleepers_undisturbed (D := blocking vals)
      (P := fun m r => ∃ cur, r.pc = BlockingPc.asleep cur ∧ m.seq () = cur) (fun _ => rfl) ?_ hidle
      hasleep
    intro t' _
    cases acts t' with
    | reader j => exact turn_asleep
    | _ => trivial
  obtain ⟨cur', hpc', hseq⟩ := hfound
  have hknows := knows_at vals lastSeqs acts i t
  rw [BlockingReader.Knows, hpc'] at hknows
  rcases hknows with heq | hodd
  · exact hseq.trans heq
  · rw [← hseq, blocking_mem, segments_seq, midStore_eq_zero vals (turns acts) nobody
      (by rw [← blocking_writer vals lastSeqs acts t]; exact hidle)] at hodd
    exact absurd (ofNat_two_mul_and_one _) hodd

private theorem lastSeq_since {t₀ t : ℕ} {v₀ : F.T} (hlt : t₀ < t)
    (h : Delivers (blockingStates vals lastSeqs acts t₀) (acts t₀) i v₀) :
    ∃ t₁, t₀ ≤ t₁ ∧ t₁ < t ∧ (∃ v, Delivers (blockingStates vals lastSeqs acts t₁) (acts t₁) i v) ∧
      ((blockingStates vals lastSeqs acts t).reader i).lastSeq =
        (blockingStates vals lastSeqs acts t₁).mem.seq () := by
  induction t, hlt using Nat.le_induction with
  | base => exact ⟨t₀, le_rfl, Nat.lt_succ_self t₀, ⟨v₀, h⟩, lastSeq_of_delivers h⟩
  | succ t hle ih =>
    by_cases hnow : ∃ v, Delivers (blockingStates vals lastSeqs acts t) (acts t) i v
    · obtain ⟨v, hv⟩ := hnow
      exact ⟨t, Nat.le_of_lt hle, Nat.lt_succ_self t, ⟨v, hv⟩, lastSeq_of_delivers hv⟩
    · obtain ⟨t₁, h₁, h₂, hv, hseq⟩ := ih
      refine ⟨t₁, h₁, Nat.lt_succ_of_lt h₂, hv, ?_⟩
      rw [lastSeq_step (fun v hv => hnow ⟨v, hv⟩), hseq]

private theorem blocking_finished_mono :
    Monotone (fun t => finished (blockingStates vals lastSeqs acts t).writer) := by
  simp only [blocking_writer]
  exact finished_mono vals (turns acts) nobody

/-- `load_blocking` delivers newer and newer stores, and no wake-up is missed. If fewer than
`2 ^ 31` stores are finished during a call that returns a value, then the value is that of the
last store finished at its return, `last_seq` becomes twice the number of that store modulo
`2 ^ 32`, and no earlier call of the reader has returned a store with that number. No other step
changes `last_seq`. A reader that sleeps while the writer is between two stores has the counter of
the last one in `last_seq`. -/
theorem load_blocking_newer (vals : ℕ → F.T) (lastSeqs : ι → BitVec 32)
    (acts : ℕ → Action ι Outside) (i : ι)
    (hfew : ∀ t₀ t v, t₀ ≤ t → (∀ t', t₀ ≤ t' → t' ≤ t →
      ((blockingStates vals lastSeqs acts t').reader i).pc ≠ .outside) →
        Delivers (blockingStates vals lastSeqs acts t) (acts t) i v →
          finished (blockingStates vals lastSeqs acts t).writer <
            finished (blockingStates vals lastSeqs acts t₀).writer + 2 ^ 31) :
    let s := blockingStates vals lastSeqs acts
    (∀ t v, Delivers (s t) (acts t) i v →
      v = stored vals (finished (s t).writer) ∧
        ((s (t + 1)).reader i).lastSeq = BitVec.ofNat 32 (2 * finished (s t).writer) ∧
        ∀ t' < t, ∀ v', Delivers (s t') (acts t') i v' →
          finished (s t').writer < finished (s t).writer) ∧
    (∀ t₀ t, t₀ ≤ t → (∀ t', t₀ ≤ t' → t' < t → ∀ v, ¬ Delivers (s t') (acts t') i v) →
      ((s t).reader i).lastSeq = ((s t₀).reader i).lastSeq) ∧
    ∀ t cur, (s t).writer.prog = .ret () → ((s t).reader i).pc = .asleep cur →
      (s t).mem.seq () = ((s t).reader i).lastSeq := by
  intro s
  have hdelivered : ∀ t v, Delivers (s t) (acts t) i v →
      v = stored vals (finished (s t).writer) ∧
        (s t).mem.seq () = BitVec.ofNat 32 (2 * finished (s t).writer) :=
    fun t v h => delivered h (fun t₀ hle hinside => hfew t₀ t v hle hinside h)
  refine ⟨?_, fun t₀ t hle h => lastSeq_eq hle h, fun t cur hidle hpc => asleep_seen hidle hpc⟩
  intro t v h
  obtain ⟨hv, hseq⟩ := hdelivered t v h
  refine ⟨hv, (lastSeq_of_delivers h).trans hseq, ?_⟩
  intro t' hlt v' h'
  obtain ⟨t₁, hle, hlt₁, ⟨v₁, h₁⟩, hlast⟩ := lastSeq_since hlt h'
  have hmono : Monotone (fun t => finished (s t).writer) := blocking_finished_mono
  have hle₁ : finished (s t').writer ≤ finished (s t₁).writer := hmono hle
  have hle₂ : finished (s t₁).writer ≤ finished (s t).writer := hmono hlt₁.le
  have hne : finished (s t₁).writer ≠ finished (s t).writer := by
    -- otherwise the counter would be the one in `last_seq`
    intro heq
    have hknows := knows_at vals lastSeqs acts i t
    rw [BlockingReader.Knows, h.2] at hknows
    apply hknows.1
    rw [hlast, (hdelivered t₁ v₁ h₁).2]
    exact hseq.trans (by rw [heq])
  omega

end Runs

section Sample

/-- The reader finds nothing new and falls asleep; a store wakes it up; it reads the value. -/
def asleepThenStored : ℕ → Action Unit Outside :=
  StateMachines.script (.event () .spurious)
    ([.event () (.call true), .reader (), .reader ()] ++ List.replicate 6 .writer ++
      List.replicate 4 (.reader ()))

abbrev storedOnce (t : ℕ) := blockingStates (F := oneWord) tens (fun _ => 0) asleepThenStored t

theorem load_blocking_newer_asleepThenStored :
    ∃ v, Delivers (storedOnce 12) (asleepThenStored 12) () v ∧ v = tens 0 ∧
      ((storedOnce 13).reader ()).lastSeq = 2 ∧
      (storedOnce 3).mem.seq () = ((storedOnce 3).reader ()).lastSeq := by
  have hfew : ∀ t < 13, finished (storedOnce t).writer < 2 := by decide +kernel
  obtain ⟨hdelivers, -, hasleep⟩ := load_blocking_newer (F := oneWord) tens (fun _ => 0)
    asleepThenStored () (by
      intro t₀ t v _ _ h
      have hlt : t < 13 := by
        by_contra hge
        have hact : asleepThenStored t = .event () .spurious :=
          StateMachines.script_of_le (by simpa using hge)
        simp [Delivers, hact] at h
      have hle : finished
          (blockingStates (F := oneWord) tens (fun _ => 0) asleepThenStored t).writer < 2 :=
        hfew t hlt
      omega)
  obtain ⟨v, hpc⟩ : ∃ v, ((storedOnce 12).reader ()).pc = .rechecking ((storedOnce 12).mem.seq ()) v :=
    ⟨_, rfl⟩
  have hfinished : finished (storedOnce 12).writer = 1 := by decide +kernel
  obtain ⟨hv, hlast, -⟩ := hdelivers 12 v ⟨rfl, hpc⟩
  rw [hfinished] at hv hlast
  exact ⟨v, ⟨rfl, hpc⟩, hv, hlast, hasleep 3 0 rfl rfl⟩

end Sample

end SafeShm.Seqlock
