import SafeShm.StateMachines
import Mathlib.Data.List.Nodup

/-!
# The futex lock

`ShmLock::lock` and `ShmLock::unlock` for any number of parties. A party is at one of the atomic
accesses of the two functions; between the calls it is `out` or `held`. The kernel keeps the
queue of the parties that sleep on the state word: `FUTEX_WAIT` compares the word and enters the
queue in one step, `FUTEX_WAKE` takes one party out of a queue that is not empty.
-/

namespace SafeShm.ShmLock
open StateMachines

/-- The next atomic access of a party: the first exchange of `lock()`, the exchange in its loop, or
`futex_wait(s, 1)`, in which the party sleeps as long as it is in the queue; the store of `unlock()`
or `futex_wake(s, 1)`. Between the calls it is `out` or `held`. -/
inductive Pc where
  | out
  | fast
  | slow
  | waiting
  | held
  | unlocking
  | waking
  deriving DecidableEq

structure State (ι : Type) where
  word : BitVec 32
  pc : ι → Pc
  queue : List ι

variable {ι : Type} [DecidableEq ι]

def free : State ι := ⟨0, fun _ => .out, []⟩

def State.goto (s : State ι) (i : ι) (p : Pc) : State ι :=
  { s with pc := Function.update s.pc i p }

def State.rouse (s : State ι) (j : ι) : State ι :=
  { (s.goto j .slow) with queue := s.queue.erase j }

/-- Party `i` calls `lock()` or `unlock()`, or makes its next access; a wake-up of `j` by the
`futex_wake` of `i` is an action of its own. The sleeper `j` may wake up spuriously. -/
inductive Action (ι : Type) where
  | lock (i : ι)
  | unlock (i : ι)
  | turn (i : ι)
  | wake (i j : ι)
  | spurious (j : ι)

def State.turn (s : State ι) (i : ι) : State ι :=
  match s.pc i with
  | .fast => { (s.goto i (if s.word = 0 then .held else .slow)) with word := 1 }
  | .slow => { (s.goto i (if s.word ≠ 0 then .waiting else .held)) with word := 1 }
  | .waiting =>
      if i ∈ s.queue then s
      else if s.word = 1 then { s with queue := s.queue ++ [i] }
      else s.goto i .slow
  | .unlocking => { (s.goto i .waking) with word := 0 }
  | .waking => if s.queue = [] then s.goto i .out else s
  | _ => s

def step (s : State ι) : Action ι → State ι
  | .lock i => if s.pc i = .out then s.goto i .fast else s
  | .unlock i => if s.pc i = .held then s.goto i .unlocking else s
  | .turn i => s.turn i
  | .wake i j =>
      if s.pc i = .waking ∧ j ∈ s.queue then (s.rouse j).goto i .out else s
  | .spurious j => if j ∈ s.queue then s.rouse j else s

/-- The party has the lock: from the exchange that took it to the store that gives it back. -/
def State.Holds (s : State ι) (i : ι) : Prop := s.pc i = .held ∨ s.pc i = .unlocking

instance (s : State ι) (i : ι) : Decidable (s.Holds i) :=
  inferInstanceAs (Decidable (s.pc i = .held ∨ s.pc i = .unlocking))

/-- The party is in the loop of `lock()` and does not sleep. -/
def State.Retries (s : State ι) (i : ι) : Prop :=
  s.pc i = .slow ∨ s.pc i = .waiting ∧ i ∉ s.queue

/-- What every step keeps. Nobody is forgotten in the queue of a free lock. -/
structure Correct (s : State ι) : Prop where
  word : s.word = 0 ∨ s.word = 1
  taken : s.word = 1 ↔ ∃ i, s.Holds i
  unique : ∀ i j, s.Holds i → s.Holds j → i = j
  asleep : ∀ i ∈ s.queue, s.pc i = .waiting
  nodup : s.queue.Nodup
  awake : s.word = 0 → s.queue ≠ [] → ∃ i, s.pc i = .waking ∨ s.Retries i

section Steps
variable {s : State ι} {i j : ι} {p : Pc}

@[simp] theorem goto_word : (s.goto i p).word = s.word := rfl

@[simp] theorem goto_queue : (s.goto i p).queue = s.queue := rfl

@[simp] theorem goto_pc_self : (s.goto i p).pc i = p := Function.update_self ..

theorem goto_pc_of_ne (h : j ≠ i) : (s.goto i p).pc j = s.pc j := Function.update_of_ne h ..

theorem goto_holds_of_ne (h : j ≠ i) : (s.goto i p).Holds j ↔ s.Holds j := by
  rw [State.Holds, State.Holds, goto_pc_of_ne h]

theorem goto_retries_of_ne (h : j ≠ i) : (s.goto i p).Retries j ↔ s.Retries j := by
  rw [State.Retries, State.Retries, goto_pc_of_ne h, goto_queue]

private theorem Correct.goto (h : Correct s) (hi : i ∉ s.queue)
    (hholds : (s.goto i p).Holds i ↔ s.Holds i)
    (hawake : s.word = 0 → s.queue ≠ [] → s.pc i = .waking ∨ s.Retries i →
      ∃ k, (s.goto i p).Retries k) : Correct (s.goto i p) := by
  have hsame : ∀ j, (s.goto i p).Holds j ↔ s.Holds j := by
    intro j
    by_cases hj : j = i
    · rw [hj]
      exact hholds
    · exact goto_holds_of_ne hj
  refine ⟨h.word, ?_, ?_, ?_, h.nodup, ?_⟩
  · simp only [goto_word, hsame]
    exact h.taken
  · simp only [hsame]
    exact h.unique
  · intro j hj
    have hne : j ≠ i := by
      rintro rfl
      exact hi hj
    rw [goto_pc_of_ne hne]
    exact h.asleep j hj
  · intro hword hqueue
    obtain ⟨j, hj⟩ := h.awake hword hqueue
    by_cases hji : j = i
    · subst hji
      obtain ⟨k, hk⟩ := hawake hword hqueue hj
      exact ⟨k, .inr hk⟩
    · refine ⟨j, ?_⟩
      rwa [goto_pc_of_ne hji, goto_retries_of_ne hji]

omit [DecidableEq ι] in
theorem Correct.word_eq_zero (h : Correct s) (hnone : ∀ i, ¬ s.Holds i) : s.word = 0 := by
  rcases h.word with hzero | hone
  · exact hzero
  · obtain ⟨i, hi⟩ := h.taken.mp hone
    exact absurd hi (hnone i)

private theorem Correct.take (h : Correct s) (hword : s.word = 0) (hi : s.pc i ≠ .waiting) :
    Correct { (s.goto i .held) with word := 1 } := by
  have hnone : ∀ j, ¬ s.Holds j := by
    intro j hj
    have hone := h.taken.mpr ⟨j, hj⟩
    rw [hword] at hone
    exact absurd hone (by decide)
  have honly : ∀ j, (s.goto i .held).Holds j → j = i := by
    intro j hj
    by_contra hne
    exact hnone j ((goto_holds_of_ne hne).mp hj)
  refine ⟨.inr rfl, ?_, ?_, ?_, h.nodup, ?_⟩
  · exact iff_of_true rfl ⟨i, .inl goto_pc_self⟩
  · intro j k hj hk
    rw [honly j hj, honly k hk]
  · intro j hj
    have hne : j ≠ i := fun heq => hi (heq ▸ h.asleep j hj)
    exact (goto_pc_of_ne hne).trans (h.asleep j hj)
  · intro hzero
    exact absurd (show (1 : BitVec 32) = 0 from hzero) (by decide)

omit [DecidableEq ι] in
private theorem Correct.sleep (h : Correct s) (hi : s.pc i = .waiting) (hout : i ∉ s.queue)
    (hword : s.word = 1) : Correct { s with queue := s.queue ++ [i] } := by
  refine ⟨h.word, h.taken, h.unique, ?_, ?_, ?_⟩
  · intro j hj
    rcases List.mem_append.mp hj with hj | hj
    · exact h.asleep j hj
    · rw [List.mem_singleton.mp hj]
      exact hi
  · exact h.nodup.append (List.nodup_singleton i) (List.disjoint_singleton.mpr hout)
  · intro hzero
    have hone : (1 : BitVec 32) = 0 := hword.symm.trans hzero
    exact absurd hone (by decide)

private theorem Correct.release (h : Correct s) (hi : s.pc i = .unlocking) :
    Correct { (s.goto i .waking) with word := 0 } := by
  have hnone : ∀ j, ¬ (s.goto i .waking).Holds j := by
    intro j hj
    by_cases hne : j = i
    · rw [hne, State.Holds, goto_pc_self] at hj
      simp at hj
    · exact hne (h.unique j i ((goto_holds_of_ne hne).mp hj) (.inr hi))
  refine ⟨.inl rfl, ?_, ?_, ?_, h.nodup, ?_⟩
  · refine iff_of_false (show ¬ (0 : BitVec 32) = 1 by decide) ?_
    rintro ⟨j, hj⟩
    exact hnone j hj
  · intro j k hj
    exact absurd hj (hnone j)
  · intro j hj
    have hne : j ≠ i := by
      intro heq
      have hasleep := h.asleep j hj
      rw [heq, hi] at hasleep
      simp at hasleep
    exact (goto_pc_of_ne hne).trans (h.asleep j hj)
  · intro _ _
    exact ⟨i, .inl goto_pc_self⟩

private theorem Correct.rouse (h : Correct s) (hj : j ∈ s.queue) : Correct (s.rouse j) := by
  have hpc := h.asleep j hj
  have hsame : ∀ k, (s.rouse j).Holds k ↔ s.Holds k := by
    intro k
    by_cases hk : k = j
    · rw [hk]
      refine iff_of_false ?_ ?_
      · simp [State.rouse, State.Holds]
      · simp [State.Holds, hpc]
    · exact goto_holds_of_ne hk
  refine ⟨h.word, ?_, ?_, ?_, h.nodup.erase j, ?_⟩
  · simp only [hsame]
    exact h.taken
  · simp only [hsame]
    exact h.unique
  · intro k hk
    obtain ⟨hne, hk⟩ := (List.Nodup.mem_erase_iff h.nodup).mp hk
    exact (goto_pc_of_ne hne).trans (h.asleep k hk)
  · intro _ _
    exact ⟨j, .inr (.inl goto_pc_self)⟩

end Steps

omit [DecidableEq ι] in
theorem correct_free : Correct (free : State ι) := by
  constructor <;> simp [free, State.Holds]

private theorem Correct.turn {s : State ι} (h : Correct s) (i : ι) : Correct (s.turn i) := by
  have hqueue : s.pc i ≠ .waiting → i ∉ s.queue := fun hpc hi => hpc (h.asleep i hi)
  rw [State.turn]
  split
  · rename_i hpc
    by_cases hword : s.word = 0
    · rw [if_pos hword]
      exact h.take hword (by simp [hpc])
    · rw [if_neg hword, ← h.word.resolve_left hword]
      apply h.goto (hqueue (by simp [hpc]))
      · simp [State.Holds, hpc]
      · exact fun hzero => absurd hzero hword
  · rename_i hpc
    by_cases hword : s.word = 0
    · rw [if_neg (not_not_intro hword)]
      exact h.take hword (by simp [hpc])
    · rw [if_pos hword, ← h.word.resolve_left hword]
      apply h.goto (hqueue (by simp [hpc]))
      · simp [State.Holds, hpc]
      · exact fun hzero => absurd hzero hword
  · rename_i hpc
    split
    · exact h
    · rename_i hout
      split
      · rename_i hword
        exact h.sleep hpc hout hword
      · apply h.goto hout
        · simp [State.Holds, hpc]
        · intro _ _ _
          exact ⟨i, .inl goto_pc_self⟩
  · rename_i hpc
    exact h.release hpc
  · rename_i hpc
    split
    · rename_i hempty
      apply h.goto (hqueue (by simp [hpc]))
      · simp [State.Holds, hpc]
      · exact fun _ hne => absurd hempty hne
    · exact h
  · exact h

theorem Correct.step {s : State ι} (h : Correct s) (a : Action ι) : Correct (step s a) := by
  have hqueue : ∀ i, s.pc i ≠ .waiting → i ∉ s.queue := fun i hpc hi => hpc (h.asleep i hi)
  cases a with
  | lock i =>
    rw [ShmLock.step]
    split
    · rename_i hpc
      apply h.goto (hqueue i (by simp [hpc]))
      · simp [State.Holds, hpc]
      · simp [State.Retries, hpc]
    · exact h
  | unlock i =>
    rw [ShmLock.step]
    split
    · rename_i hpc
      apply h.goto (hqueue i (by simp [hpc]))
      · simp [State.Holds, hpc]
      · simp [State.Retries, hpc]
    · exact h
  | turn i => exact h.turn i
  | wake i j =>
    rw [ShmLock.step]
    split
    · rename_i hwake
      obtain ⟨hpc, hj⟩ := hwake
      have hne : i ≠ j := by
        intro heq
        have hasleep := h.asleep j hj
        rw [← heq, hpc] at hasleep
        simp at hasleep
      have hpc' : (s.rouse j).pc i = .waking := (goto_pc_of_ne hne).trans hpc
      apply (h.rouse hj).goto
      · intro hi
        have hasleep := (h.rouse hj).asleep i hi
        rw [hpc'] at hasleep
        simp at hasleep
      · simp [State.Holds, hpc']
      · intro _ _ _
        exact ⟨j, (goto_retries_of_ne hne.symm).mpr (.inl goto_pc_self)⟩
    · exact h
  | spurious j =>
    rw [ShmLock.step]
    split
    · rename_i hj
      exact h.rouse hj
    · exact h

def Action.party {ι : Type} : Action ι → ι
  | .lock i | .unlock i | .turn i | .wake i _ | .spurious i => i

theorem turn_pc_of_ne {s : State ι} {i j : ι} (h : j ≠ i) : (s.turn i).pc j = s.pc j := by
  rw [State.turn]
  split
  · exact goto_pc_of_ne h
  · exact goto_pc_of_ne h
  · split
    · rfl
    · split
      · rfl
      · exact goto_pc_of_ne h
  · exact goto_pc_of_ne h
  · split
    · exact goto_pc_of_ne h
    · rfl
  · rfl

/-- An action moves its own party, and may wake up a sleeper. -/
theorem step_pc_of_ne {s : State ι} {a : Action ι} {j : ι} (h : j ≠ a.party) :
    (step s a).pc j = s.pc j ∨ j ∈ s.queue ∧ (step s a).pc j = .slow := by
  cases a with
  | lock i =>
    rw [step]
    split
    · exact .inl (goto_pc_of_ne h)
    · exact .inl rfl
  | unlock i =>
    rw [step]
    split
    · exact .inl (goto_pc_of_ne h)
    · exact .inl rfl
  | turn i => exact .inl (turn_pc_of_ne h)
  | wake i k =>
    rw [step]
    split
    · rename_i hwake
      have hne : j ≠ i := h
      rw [goto_pc_of_ne hne]
      by_cases hjk : j = k
      · subst hjk
        exact .inr ⟨hwake.2, goto_pc_self⟩
      · exact .inl (goto_pc_of_ne hjk)
    · exact .inl rfl
  | spurious k =>
    rw [step]
    split
    · exact .inl (goto_pc_of_ne h)
    · exact .inl rfl

theorem Correct.pc_ne_out {s : State ι} (h : Correct s) {a : Action ι} {j : ι}
    (hj : (ShmLock.step s a).pc j ≠ .out) : s.pc j ≠ .out ∨ j = a.party := by
  by_cases hparty : j = a.party
  · exact .inr hparty
  · rcases step_pc_of_ne hparty with hsame | ⟨hqueue, -⟩
    · exact .inl (hsame ▸ hj)
    · exact .inl (by simp [h.asleep j hqueue])

/-- `ShmLock` is a mutex that strands nobody: along every run the word is 1 exactly while a party
has the lock, no two have it, and if the word is 0 while a party sleeps, then a wake-up call is
still to be made or a party that is awake will try again. -/
theorem lock_exclusive (acts : ℕ → Action ι) (t : ℕ) :
    let s := after step free acts t
    (s.word = 1 ↔ ∃ i, s.Holds i) ∧ (∀ i j, s.Holds i → s.Holds j → i = j) ∧
      (s.word = 0 → ∀ i ∈ s.queue, ∃ j, s.pc j = .waking ∨ s.Retries j) := by
  intro s
  have h : Correct s := after_invariant correct_free (fun s a h => h.step a) t
  exact ⟨h.taken, h.unique, fun hword i hi => h.awake hword (List.ne_nil_of_mem hi)⟩

end SafeShm.ShmLock
