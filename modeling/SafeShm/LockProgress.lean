import SafeShm.ShmLock

/-!
# The futex lock is taken

If every party that is awake in `lock()` or `unlock()` makes an access in each of two rounds, then
the lock has been taken when a party has been waiting for it. A party that sleeps on a free lock is
not alone: somebody still has to wake it, or is about to try again.
-/

namespace SafeShm.ShmLock
open StateMachines

variable {ι : Type} [DecidableEq ι]

def State.Enters (s : State ι) (i : ι) : Prop :=
  s.pc i = .fast ∨ s.pc i = .slow ∨ s.pc i = .waiting

def State.Awake (s : State ι) (i : ι) : Prop := s.pc i ≠ .out ∧ s.pc i ≠ .held ∧ i ∉ s.queue

/-- The action is an access of party `i`; a wake-up call is one when it takes a sleeper out of a
queue that is not empty. -/
def Moves (s : State ι) (i : ι) : Action ι → Prop
  | .turn j => j = i ∧ (s.pc i = .waking → s.queue = [])
  | .wake j k => j = i ∧ s.pc i = .waking ∧ k ∈ s.queue
  | _ => False

section Steps
variable {s : State ι} {a : Action ι} {i : ι}

/-- Until its next access a party that is awake stays where it is. -/
theorem State.Awake.step (h : s.Awake i) (ha : ¬ Moves s i a) :
    (step s a).pc i = s.pc i ∧ i ∉ (step s a).queue := by
  obtain ⟨hout, hheld, hqueue⟩ := h
  cases a with
  | lock j =>
    rw [ShmLock.step]
    split
    · rename_i hj
      have hne : i ≠ j := fun heq => hout (heq ▸ hj)
      exact ⟨goto_pc_of_ne hne, hqueue⟩
    · exact ⟨rfl, hqueue⟩
  | unlock j =>
    rw [ShmLock.step]
    split
    · rename_i hj
      have hne : i ≠ j := fun heq => hheld (heq ▸ hj)
      exact ⟨goto_pc_of_ne hne, hqueue⟩
    · exact ⟨rfl, hqueue⟩
  | turn j =>
    by_cases hj : j = i
    · subst hj
      have hwaking : s.pc j = .waking ∧ s.queue ≠ [] := by simpa [Moves] using ha
      have hsame : ShmLock.step s (.turn j) = s := by
        rw [ShmLock.step, State.turn, hwaking.1]
        exact if_neg hwaking.2
      rw [hsame]
      exact ⟨rfl, hqueue⟩
    · refine ⟨turn_pc_of_ne (Ne.symm hj), ?_⟩
      rw [ShmLock.step, State.turn]
      have hnext : i ∉ s.queue ++ [j] := by simp [hqueue, Ne.symm hj]
      split
      · exact hqueue
      · exact hqueue
      · split
        · exact hqueue
        · split
          · exact hnext
          · exact hqueue
      · exact hqueue
      · split
        · exact hqueue
        · exact hqueue
      · exact hqueue
  | wake j k =>
    rw [ShmLock.step]
    split
    · rename_i hwake
      have hij : i ≠ j := by
        rintro rfl
        exact ha ⟨rfl, hwake⟩
      have hik : i ≠ k := fun heq => hqueue (heq ▸ hwake.2)
      refine ⟨(goto_pc_of_ne hij).trans (goto_pc_of_ne hik), ?_⟩
      exact fun hi => hqueue (List.mem_of_mem_erase hi)
    · exact ⟨rfl, hqueue⟩
  | spurious k =>
    rw [ShmLock.step]
    split
    · rename_i hk
      have hik : i ≠ k := fun heq => hqueue (heq ▸ hk)
      exact ⟨goto_pc_of_ne hik, fun hi => hqueue (List.mem_of_mem_erase hi)⟩
    · exact ⟨rfl, hqueue⟩

theorem holds_of_exchange (hpc : s.pc i = .fast ∨ s.pc i = .slow) (hword : s.word = 0)
    (ha : Moves s i a) : (step s a).Holds i := by
  cases a with
  | turn j =>
    obtain ⟨rfl, -⟩ := ha
    left
    rcases hpc with hpc | hpc
    · simp [step, State.turn, hpc, hword, State.goto]
    · simp [step, State.turn, hpc, hword, State.goto]
  | wake j k =>
    obtain ⟨-, hwaking, -⟩ := ha
    rcases hpc with hpc | hpc <;> simp [hpc] at hwaking
  | _ => exact ha.elim

theorem slow_of_waiting (hpc : s.pc i = .waiting) (hqueue : i ∉ s.queue) (hword : s.word = 0)
    (ha : Moves s i a) : (step s a).pc i = .slow := by
  cases a with
  | turn j =>
    obtain ⟨rfl, -⟩ := ha
    simp [step, State.turn, hpc, hqueue, hword]
  | wake j k =>
    obtain ⟨-, hwaking, -⟩ := ha
    simp [hpc] at hwaking
  | _ => exact ha.elim

theorem slow_of_waking (h : Correct s) (hpc : s.pc i = .waking) (hqueue : s.queue ≠ [])
    (ha : Moves s i a) : ∃ j, (step s a).pc j = .slow := by
  cases a with
  | turn j => exact absurd (ha.2 hpc) hqueue
  | wake j k =>
    obtain ⟨rfl, -, hk⟩ := ha
    have hne : k ≠ j := by
      rintro rfl
      have hasleep := h.asleep k hk
      simp [hpc] at hasleep
    refine ⟨k, ?_⟩
    rw [step, if_pos ⟨hpc, hk⟩, goto_pc_of_ne hne]
    exact goto_pc_self
  | _ => exact ha.elim

/-- A sleeper leaves the queue only for the exchange. -/
theorem step_queue (hi : i ∈ s.queue) (hpc : s.pc i = .waiting) :
    i ∈ (step s a).queue ∨ (step s a).pc i = .slow := by
  cases a with
  | lock j =>
    left
    rw [step]
    split
    · exact hi
    · exact hi
  | unlock j =>
    left
    rw [step]
    split
    · exact hi
    · exact hi
  | turn j =>
    left
    rw [step, State.turn]
    split
    · exact hi
    · exact hi
    · split
      · exact hi
      · split
        · exact List.mem_append_left [j] hi
        · exact hi
    · exact hi
    · split
      · exact hi
      · exact hi
    · exact hi
  | wake j k =>
    rw [step]
    split
    · rename_i hwake
      by_cases hik : i = k
      · subst hik
        have hij : i ≠ j := by
          rintro rfl
          simp [hpc] at hwake
        right
        rw [goto_pc_of_ne hij]
        exact goto_pc_self
      · left
        exact (List.mem_erase_of_ne hik).mpr hi
    · exact .inl hi
  | spurious k =>
    rw [step]
    split
    · by_cases hik : i = k
      · subst hik
        exact .inr goto_pc_self
      · left
        exact (List.mem_erase_of_ne hik).mpr hi
    · exact .inl hi

end Steps

section Runs
variable {acts : ℕ → Action ι} {a b c : ℕ} {i : ι} {p : Pc}

/-- Every party that is in `lock()` or `unlock()` at instant `a` and does not sleep then makes an
access before instant `b`. -/
structure Round (acts : ℕ → Action ι) (a b : ℕ) : Prop where
  le : a ≤ b
  moves : ∀ i, (after step free acts a).Awake i →
    ∃ t, a ≤ t ∧ t < b ∧ Moves (after step free acts t) i (acts t)

theorem correct_after (acts : ℕ → Action ι) (t : ℕ) : Correct (after step free acts t) :=
  after_invariant correct_free (fun _ a h => h.step a) t

/-- The first access of a party after instant `a` finds it where it was, and comes before the end
of the next round. -/
theorem Round.exists_first (hround : Round acts b c) (hab : a ≤ b) (hp : p ≠ .out ∧ p ≠ .held)
    (hpc : (after step free acts a).pc i = p) (hqueue : i ∉ (after step free acts a).queue) :
    ∃ t, a ≤ t ∧ t < c ∧ (after step free acts t).pc i = p ∧
      i ∉ (after step free acts t).queue ∧ Moves (after step free acts t) i (acts t) := by
  by_contra hnone
  have hstays : ∀ t, a ≤ t → t ≤ c →
      (after step free acts t).pc i = p ∧ i ∉ (after step free acts t).queue := by
    apply holds_between
    · exact ⟨hpc, hqueue⟩
    · rintro t hat htc ⟨hpc, hqueue⟩
      have hawake : (after step free acts t).Awake i := ⟨hpc ▸ hp.1, hpc ▸ hp.2, hqueue⟩
      have hstep := hawake.step (fun hmove => hnone ⟨t, hat, htc, hpc, hqueue, hmove⟩)
      rw [hpc] at hstep
      exact hstep
  obtain ⟨hpcb, hqueueb⟩ := hstays b hab hround.le
  obtain ⟨t, hbt, htc, hmove⟩ := hround.moves i ⟨hpcb ▸ hp.1, hpcb ▸ hp.2, hqueueb⟩
  obtain ⟨hpct, hqueuet⟩ := hstays t (hab.trans hbt) htc.le
  exact hnone ⟨t, hab.trans hbt, htc, hpct, hqueuet, hmove⟩

/-- Within two rounds after a party has called `lock()` the lock is taken, by this party or by
another one. -/
theorem lock_acquired (hab : Round acts a b) (hbc : Round acts b c)
    (hi : (after step free acts a).Enters i) :
    ∃ t, a ≤ t ∧ t ≤ c ∧ ∃ j, (after step free acts t).Holds j := by
  by_contra hnever
  have hcorrect := correct_after acts
  have hword : ∀ t, a ≤ t → t ≤ c → (after step free acts t).word = 0 := by
    intro t hat htc
    exact (hcorrect t).word_eq_zero (fun j hj => hnever ⟨t, hat, htc, j, hj⟩)
  -- a party at one of the two exchanges takes the lock in the second round
  have hexchange : ∀ t j, a ≤ t → t ≤ b →
      ¬ ((after step free acts t).pc j = .fast ∨ (after step free acts t).pc j = .slow) := by
    intro t j hat htb hpc
    have hqueue : j ∉ (after step free acts t).queue := by
      intro hj
      have hasleep := (hcorrect t).asleep j hj
      simp [hasleep] at hpc
    have hp : (after step free acts t).pc j ≠ .out ∧ (after step free acts t).pc j ≠ .held := by
      rcases hpc with hpc | hpc <;> simp [hpc]
    obtain ⟨t', htt', htc, hsame, -, hmove⟩ := hbc.exists_first htb hp rfl hqueue
    have hat' := hat.trans htt'
    rw [← hsame] at hpc
    have hholds := holds_of_exchange hpc (hword t' hat' htc.le) hmove
    exact hnever ⟨t' + 1, Nat.le_succ_of_le hat', htc, j, hholds⟩
  -- so nobody is in `futex_wait` but the sleepers of the queue
  have hsleeps : ∀ j, (after step free acts a).pc j = .waiting →
      j ∈ (after step free acts a).queue := by
    intro j hpc
    by_contra hqueue
    obtain ⟨t, hat, htb, hsame, hqueuet, hmove⟩ :=
      hab.exists_first le_rfl (by decide) hpc hqueue
    have hwordt := hword t hat (htb.le.trans hbc.le)
    have hslow := slow_of_waiting hsame hqueuet hwordt hmove
    exact hexchange (t + 1) j (Nat.le_succ_of_le hat) htb (.inr hslow)
  have hqueue : ∀ j ∈ (after step free acts a).queue, ∀ t, a ≤ t → t ≤ b →
      j ∈ (after step free acts t).queue := by
    intro j hj
    apply holds_between
    · exact hj
    · intro t hat htb hjt
      rcases step_queue (a := acts t) hjt ((hcorrect t).asleep j hjt) with hstays | hslow
      · exact hstays
      · exact (hexchange (t + 1) j (Nat.le_succ_of_le hat) htb (.inr hslow)).elim
  have hi : i ∈ (after step free acts a).queue := by
    rcases hi with hfast | hslow | hwaiting
    · exact (hexchange a i le_rfl hab.le (.inl hfast)).elim
    · exact (hexchange a i le_rfl hab.le (.inr hslow)).elim
    · exact hsleeps i hwaiting
  -- the queue of a free lock leaves somebody to make the wake-up call, or to try again
  have hzero := hword a le_rfl (hab.le.trans hbc.le)
  obtain ⟨j, hwaking | hslow | hretry⟩ := (hcorrect a).awake hzero (List.ne_nil_of_mem hi)
  · have hout : j ∉ (after step free acts a).queue := by
      intro hj
      have hasleep := (hcorrect a).asleep j hj
      simp [hwaking] at hasleep
    obtain ⟨t, hat, htb, hsame, -, hmove⟩ := hab.exists_first le_rfl (by decide) hwaking hout
    have hne := List.ne_nil_of_mem (hqueue i hi t hat htb.le)
    obtain ⟨k, hk⟩ := slow_of_waking (hcorrect t) hsame hne hmove
    exact hexchange (t + 1) k (Nat.le_succ_of_le hat) htb (.inr hk)
  · exact hexchange a j le_rfl hab.le (.inr hslow)
  · exact hretry.2 (hsleeps j hretry.1)

end Runs

/-- The party that has freed the lock wakes the sleeper, and the sleeper takes the lock. -/
theorem lock_acquired_sleeper :
    let acts := script (.turn true) [.lock false, .turn false, .lock true, .turn true, .turn true,
      .turn true, .unlock false, .turn false, .wake false true, .turn true]
    ∃ t, 8 ≤ t ∧ t ≤ 10 ∧ ∃ j, (after step free acts t).Holds j := by
  intro acts
  have hfirst : Round acts 8 9 := by
    refine ⟨by decide, ?_⟩
    intro i hawake
    cases i with
    | false => exact ⟨8, by decide, by decide, rfl, by decide, by decide⟩
    | true => exact absurd (show true ∈ (after step free acts 8).queue by decide) hawake.2.2
  have hsecond : Round acts 9 10 := by
    refine ⟨by decide, ?_⟩
    intro i hawake
    cases i with
    | false => exact absurd (show (after step free acts 9).pc false = .out by decide) hawake.1
    | true => exact ⟨9, by decide, by decide, rfl, by decide⟩
  have hasleep : (after step free acts 8).Enters true := .inr (.inr (by decide))
  exact lock_acquired hfirst hsecond hasleep

end SafeShm.ShmLock
