import SafeShm.SwapRunner

/-!
# Every `wait()` returns

Once no client calls `trigger()` any more, the runner comes to rest after at most two executions of
its task, and with `idle_` set. If everybody who does not sleep makes an access in each of 19 rounds
(and the task ends), then every `wait()` has returned. The only client of a runner cannot call
`trigger()` while it waits.
-/

namespace SafeShm.SwapRunner
open StateMachines

/-- The accesses of `trigger()` that the client has still to make. -/
def ClientPc.triggerSteps : ClientPc → ℕ
  | .clearing => 3
  | .setting => 2
  | .notifying => 1
  | _ => 0

variable {κ : Type}

/-- The accesses that the runner has still to make before it waits with `triggered_` at 0, if it is
not triggered again. -/
def State.work (s : State κ) : ℕ :=
  match s.runner with
  | .waiting | .asleep => if s.triggered ≠ 0 then 9 else 0
  | .testing => (if s.triggered ≠ 0 then 9 else 0) + 1
  | .notifying => (if s.triggered ≠ 0 then 9 else 0) + 2
  | .announcing => (if s.triggered ≠ 0 then 9 else 0) + 3
  | .logging => (if s.triggered ≠ 0 then 9 else 0) + 4
  | .running => (if s.triggered ≠ 0 then 9 else 0) + 5
  | .calling => (if s.triggered ≠ 0 then 9 else 0) + 6
  | .clearing => 7
  | .retesting => 8
  | .closing | .releasing | .left => 0

def Untriggered (s : State κ) : Prop := ∀ c, (s.client c).triggerSteps = 0

def InWait (s : State κ) (c : κ) : Prop := s.client c = .waiting ∨ s.client c = .asleep

def Runs (s : State κ) (a : Action κ) : Prop :=
  a = .runner ∧ s.runner ≠ .running ∨ (∃ threw, a = .finish threw) ∧ s.runner = .running

theorem work_le (s : State κ) : s.work ≤ 15 := by
  rw [State.work]
  have hnext : (if s.triggered ≠ 0 then 9 else 0) ≤ 9 := by
    split
    · exact le_rfl
    · exact Nat.zero_le 9
  split
  all_goals omega

variable [DecidableEq κ]

section Steps
variable {s : State κ} {a : Action κ} {c : κ}

private theorem roused_triggerSteps (p : ClientPc) : p.roused.triggerSteps = p.triggerSteps := by
  cases p <;> rfl

private theorem goto_of_ne {c' : κ} {p : ClientPc} (hne : c ≠ c') :
    (s.goto c' p).client c = s.client c :=
  Function.update_of_ne hne ..

private theorem goto_triggerSteps {c' : κ} {p : ClientPc}
    (h : p.triggerSteps ≤ (s.client c').triggerSteps) :
    ((s.goto c' p).client c).triggerSteps ≤ (s.client c).triggerSteps := by
  by_cases heq : c = c'
  · subst heq
    have hself : (s.goto c p).client c = p := Function.update_self ..
    rw [hself]
    exact h
  · rw [goto_of_ne heq]

/-- Only a call of `trigger()` brings a client into it. -/
theorem triggerSteps_step (ha : ∀ c, a ≠ .trigger c) :
    ((step s a).client c).triggerSteps ≤ (s.client c).triggerSteps := by
  cases a with
  | trigger c' => exact absurd rfl (ha c')
  | wait c' =>
    rw [step]
    split
    · exact goto_triggerSteps (Nat.zero_le _)
    · exact le_rfl
  | client c' =>
    rw [step, State.clientTurn]
    split
    · rename_i hpc
      exact goto_triggerSteps (by rw [hpc]; decide)
    · rename_i hpc
      exact goto_triggerSteps (by rw [hpc]; decide)
    · exact goto_triggerSteps (Nat.zero_le _)
    · split
      · exact goto_triggerSteps (Nat.zero_le _)
      · exact goto_triggerSteps (Nat.zero_le _)
    · exact le_rfl
  | runner =>
    rw [step, State.runnerTurn]
    split
    all_goals first
      | exact le_rfl
      | exact (roused_triggerSteps _).le
  | finish threw =>
    rw [step]
    split
    · exact le_rfl
    · exact le_rfl
  | spuriousClient c' => exact goto_triggerSteps (roused_triggerSteps _).le
  | spuriousRunner => exact le_rfl
  | requestStop =>
    rw [step]
    split
    · exact le_rfl
    · exact le_rfl
  | callback =>
    rw [step]
    split
    · exact le_rfl
    · exact le_rfl
    · exact le_rfl

theorem triggerSteps_client (h : 0 < (s.client c).triggerSteps) :
    ((step s (.client c)).client c).triggerSteps < (s.client c).triggerSteps := by
  rw [step, State.clientTurn]
  cases hpc : s.client c with
  | clearing | setting | notifying => simp [State.goto, ClientPc.triggerSteps]
  | outside | waiting | asleep =>
    rw [hpc] at h
    exact absurd h (by decide)

omit [DecidableEq κ] in
private theorem work_congr {s' : State κ} (hrunner : s'.runner = s.runner)
    (htriggered : s'.triggered = s.triggered) : s'.work = s.work := by
  rw [State.work, State.work, hrunner, htriggered]

omit [DecidableEq κ] in
private theorem work_roused {s' : State κ} (hrunner : s'.runner = s.runner.roused)
    (htriggered : s'.triggered = s.triggered) : s'.work = s.work := by
  rw [State.work, State.work, hrunner, htriggered]
  cases s.runner <;> rfl

omit [DecidableEq κ] in
private theorem work_runnerTurn (hloop : InLoop s) (hrunning : s.runner ≠ .running)
    (hasleep : s.runner ≠ .asleep) : s.runnerTurn.work = s.work - 1 := by
  obtain ⟨hclosing, hreleasing, hleft⟩ := hloop.runner
  rw [State.runnerTurn]
  cases hpc : s.runner with
  | testing =>
    simp [State.work, hpc, hloop.stop]
  | waiting =>
    dsimp only
    by_cases htriggered : s.triggered ≠ 0
    · have hwork : s.work = 9 := by
        rw [State.work, hpc]
        exact if_pos htriggered
      rw [if_pos htriggered, hwork]
      rfl
    · have hwork : ∀ p, p = .waiting ∨ p = .asleep →
          ({ s with runner := p } : State κ).work = 0 := by
        rintro p (rfl | rfl)
        · exact if_neg htriggered
        · exact if_neg htriggered
      have hnow := hwork s.runner (.inl hpc)
      rw [if_neg htriggered, hwork .asleep (.inr rfl), hnow]
  | retesting => simp [State.work, hpc, hloop.stop]
  | clearing => simp [State.work, hpc]
  | calling | logging | announcing | notifying => simp [State.work, hpc]
  | asleep => exact absurd hpc hasleep
  | running => exact absurd hpc hrunning
  | closing => exact absurd hpc hclosing
  | releasing => exact absurd hpc hreleasing
  | left => exact absurd hpc hleft

private theorem work_clientTurn (h : (s.client c).triggerSteps = 0) :
    (s.clientTurn c).work = s.work := by
  rw [State.clientTurn]
  cases hpc : s.client c with
  | clearing | setting | notifying =>
    rw [hpc] at h
    exact absurd h (by decide)
  | waiting =>
    dsimp only
    split
    · exact work_congr rfl rfl
    · exact work_congr rfl rfl
  | outside | asleep => rfl

private theorem work_of_not_runs (hloop : InLoop s) (huntriggered : Untriggered s)
    (hstop : a ≠ .requestStop) (ha : ¬ Runs s a) : (step s a).work = s.work := by
  cases a with
  | trigger c | wait c =>
    rw [step]
    split
    · exact work_congr rfl rfl
    · rfl
  | client c => exact work_clientTurn (huntriggered c)
  | runner =>
    have hpc : s.runner = .running := by
      by_contra hne
      exact ha (.inl ⟨rfl, hne⟩)
    rw [step, State.runnerTurn, hpc]
  | finish threw =>
    have hpc : s.runner ≠ .running := fun heq => ha (.inr ⟨⟨threw, rfl⟩, heq⟩)
    rw [step, if_neg hpc]
  | spuriousClient c => exact work_congr rfl rfl
  | spuriousRunner =>
    change ({ s with runner := s.runner.roused } : State κ).work = s.work
    exact work_roused rfl rfl
  | requestStop => exact absurd rfl hstop
  | callback => rw [step, hloop.stop]

private theorem work_of_runs (hloop : InLoop s) (hasleep : s.runner ≠ .asleep) (ha : Runs s a) :
    (step s a).work ≤ s.work - 1 := by
  rcases ha with ⟨rfl, hrunning⟩ | ⟨⟨threw, rfl⟩, hrunning⟩
  · exact (work_runnerTurn hloop hrunning hasleep).le
  · rw [step, if_pos hrunning]
    cases threw <;> simp [State.work, hrunning]

theorem work_step (hloop : InLoop s) (huntriggered : Untriggered s) (hstop : a ≠ .requestStop) :
    (step s a).work ≤ s.work := by
  by_cases ha : Runs s a
  · by_cases hasleep : s.runner = .asleep
    · rcases ha with ⟨rfl, -⟩ | ⟨-, hrunning⟩
      · rw [step, State.runnerTurn, hasleep]
      · simp [hasleep] at hrunning
    · exact (work_of_runs hloop hasleep ha).trans (Nat.sub_le _ _)
  · exact (work_of_not_runs hloop huntriggered hstop ha).le

omit [DecidableEq κ] in
private theorem not_asleep (hnotified : Notified s) (huntriggered : Untriggered s)
    (hpos : 0 < s.work) : s.runner ≠ .asleep := by
  intro hasleep
  have htriggered : s.triggered ≠ 0 := by
    intro hzero
    rw [State.work, hasleep] at hpos
    simp [hzero] at hpos
  obtain ⟨c, hc⟩ := hnotified.thread hasleep htriggered
  have hnone := huntriggered c
  rw [hc] at hnone
  exact absurd hnone (by decide)

omit [DecidableEq κ] in
private theorem rest (hsound : Sound s) (huntriggered : Untriggered s) (hzero : s.work = 0) :
    s.idle ≠ 0 ∧ ∀ c, s.client c ≠ .asleep := by
  have hclosed := hsound.runner
  have hrest : s.triggered = 0 ∧ (s.runner = .waiting ∨ s.runner = .asleep) := by
    rw [State.work] at hzero
    cases hpc : s.runner <;> simp_all
  obtain ⟨htriggered, hrunner⟩ := hrest
  have hidle : s.idle ≠ 0 := by
    intro hidle
    rcases hsound.owed hidle with ⟨c, hc⟩ | hset | hbusy
    · have hnone := huntriggered c
      rw [hc] at hnone
      exact absurd hnone (by decide)
    · exact hset htriggered
    · rcases hrunner with hpc | hpc <;> simp [RunnerPc.Busy, hpc] at hbusy
  refine ⟨hidle, ?_⟩
  intro c hc
  have hnotifying := hsound.toNotified.client c hc hidle
  rcases hrunner with hpc | hpc <;> simp [hpc] at hnotifying

private theorem clientTurn_of_ne {c' : κ} (hne : c ≠ c') :
    (s.clientTurn c').client c = s.client c := by
  rw [State.clientTurn]
  split
  · exact goto_of_ne hne
  · exact goto_of_ne hne
  · exact goto_of_ne hne
  · split
    · exact goto_of_ne hne
    · exact goto_of_ne hne
  · rfl

omit [DecidableEq κ] in
private theorem InWait.roused (h : InWait s c) : (s.client c).roused = .waiting := by
  rcases h with hpc | hpc <;> rw [hpc] <;> rfl

/-- A client stays in `wait()` until it returns. -/
theorem InWait.step (h : InWait s c) (ha : ¬ WaitReturns s a c) : InWait (step s a) c := by
  have hcalls : ∀ c' p, s.client c' = .outside → InWait (s.goto c' p) c := by
    intro c' p hout
    have hne : c ≠ c' := by
      rintro rfl
      rcases h with hpc | hpc <;> simp [hout] at hpc
    rw [InWait, goto_of_ne hne]
    exact h
  cases a with
  | trigger c' | wait c' =>
    rw [SwapRunner.step]
    split
    · exact hcalls c' _ ‹_›
    · exact h
  | client c' =>
    by_cases hne : c = c'
    · subst hne
      rcases h with hpc | hpc
      · have hidle : ¬ s.idle ≠ 0 := fun hidle => ha ⟨rfl, hpc, hidle⟩
        right
        simp only [SwapRunner.step, State.clientTurn, hpc, if_neg hidle]
        exact Function.update_self ..
      · right
        simp only [SwapRunner.step, State.clientTurn, hpc]
    · rw [InWait, SwapRunner.step, clientTurn_of_ne hne]
      exact h
  | runner =>
    rw [SwapRunner.step, State.runnerTurn]
    split
    all_goals first
      | exact h
      | exact .inl h.roused
  | finish threw =>
    rw [SwapRunner.step]
    split
    · exact h
    · exact h
  | spuriousClient c' =>
    by_cases hne : c = c'
    · subst hne
      left
      rw [← h.roused]
      exact Function.update_self ..
    · have hsame : (SwapRunner.step s (.spuriousClient c')).client c = s.client c := goto_of_ne hne
      rw [InWait, hsame]
      exact h
  | spuriousRunner => exact h
  | requestStop =>
    rw [SwapRunner.step]
    split
    · exact h
    · exact h
  | callback =>
    rw [SwapRunner.step]
    split
    · exact h
    · exact h
    · exact h

end Steps

section Runs
variable {acts : ℕ → Action κ} {b : ℕ → ℕ} {c : κ}

/-- Between the instants `a` and `b` every client that is inside a call and does not sleep makes an
access, and so does the runner, or its task ends. -/
structure Round (acts : ℕ → Action κ) (a b : ℕ) : Prop where
  clients : ∀ c, (after step (initial κ) acts a).client c ≠ .outside →
    (after step (initial κ) acts a).client c ≠ .asleep → ∃ t, a ≤ t ∧ t < b ∧ acts t = .client c
  runner : (after step (initial κ) acts a).runner ≠ .asleep →
    ∃ t, a ≤ t ∧ t < b ∧ Runs (after step (initial κ) acts t) (acts t)

private theorem untriggered_of_rounds (hb : Monotone b) {n : ℕ} (hn : 3 ≤ n)
    (hround : ∀ k < n, Round acts (b k) (b (k + 1)))
    (htrigger : ∀ t, b 0 ≤ t → t < b n → ∀ c, acts t ≠ .trigger c) {t : ℕ} (ht : b 3 ≤ t)
    (htn : t ≤ b n) : Untriggered (after step (initial κ) acts t) := by
  intro c
  have hstep : ∀ t, b 0 ≤ t → t < b n →
      ((after step (initial κ) acts (t + 1)).client c).triggerSteps ≤
        ((after step (initial κ) acts t).client c).triggerSteps :=
    fun t ht htn => triggerSteps_step (htrigger t ht htn)
  have hthree : ((after step (initial κ) acts (b 3)).client c).triggerSteps = 0 := by
    apply rank_eq_zero_of_rounds (fun t => ((after step (initial κ) acts t).client c).triggerSteps)
      hb (fun t ht ht3 => hstep t ht (ht3.trans_le (hb hn)))
    · intro k hk hpos
      have hinside : (after step (initial κ) acts (b k)).client c ≠ .outside ∧
          (after step (initial κ) acts (b k)).client c ≠ .asleep := by
        constructor
        all_goals
          intro hpc
          simp only [hpc] at hpos
          exact absurd hpos (by decide)
      obtain ⟨t, hkt, htk, hact⟩ := (hround k (by omega)).clients c hinside.1 hinside.2
      refine ⟨t, hkt, htk, ?_⟩
      intro hpos
      rw [after, hact]
      exact triggerSteps_client hpos
    · cases (after step (initial κ) acts (b 0)).client c <;> simp [ClientPc.triggerSteps]
  exact rank_eq_zero_between
    (Φ := fun t => ((after step (initial κ) acts t).client c).triggerSteps) hthree
    (fun t ht htn => hstep t ((hb (Nat.zero_le 3)).trans ht) htn) t ht htn

/-- Every `wait()` returns: a client that is inside `wait()` has returned after 19 rounds in which
no client calls `trigger()` and no stop is requested. -/
theorem wait_returns (acts : ℕ → Action κ) (hb : Monotone b)
    (hround : ∀ k < 19, Round acts (b k) (b (k + 1)))
    (htrigger : ∀ t, b 0 ≤ t → t < b 19 → ∀ c, acts t ≠ .trigger c)
    (hstop : ∀ t < b 19, acts t ≠ .requestStop)
    (hc : InWait (after step (initial κ) acts (b 0)) c) :
    ∃ t, b 0 ≤ t ∧ t < b 19 ∧ WaitReturns (after step (initial κ) acts t) (acts t) c := by
  by_contra hnever
  have hsound : ∀ t ≤ b 19, Sound (after step (initial κ) acts t) :=
    fun t ht => sound_after (fun t' ht' => hstop t' (ht'.trans_le ht))
  have hwaits : ∀ t, b 0 ≤ t → t ≤ b 19 → InWait (after step (initial κ) acts t) c := by
    apply holds_between
    · exact hc
    · intro t ht hlt hwait
      exact hwait.step (fun hret => hnever ⟨t, ht, hlt, hret⟩)
  have huntriggered : ∀ t, b 3 ≤ t → t ≤ b 19 → Untriggered (after step (initial κ) acts t) :=
    fun t => untriggered_of_rounds hb (by decide) hround htrigger
  have hstep : ∀ t, b 3 ≤ t → t < b 19 →
      (after step (initial κ) acts (t + 1)).work ≤ (after step (initial κ) acts t).work :=
    fun t ht hlt => work_step (hsound t hlt.le).toInLoop (huntriggered t ht hlt.le) (hstop t hlt)
  -- fifteen more rounds bring the runner to rest
  have hwork : (after step (initial κ) acts (b 18)).work = 0 := by
    apply rank_eq_zero_of_rounds (fun t => (after step (initial κ) acts t).work)
      (b := fun k => b (3 + k)) (n := 15) (fun k l hkl => hb (Nat.add_le_add_left hkl 3))
      (fun t ht hlt => hstep t ht (hlt.trans_le (hb (by decide))))
    · intro k hk hpos
      have hk3 : b 3 ≤ b (3 + k) := hb (Nat.le_add_right 3 k)
      have hk19 : b (3 + k + 1) ≤ b 19 := hb (by omega)
      have hkk := hb (Nat.le_succ (3 + k))
      have hawake := not_asleep (hsound _ (hkk.trans hk19)).toNotified
        (huntriggered _ hk3 (hkk.trans hk19)) hpos
      obtain ⟨t, hkt, htk, hruns⟩ := (hround (3 + k) (by omega)).runner hawake
      refine ⟨t, hkt, htk, ?_⟩
      intro hpos
      have hlt := htk.trans_le hk19
      have hawake := not_asleep (hsound t hlt.le).toNotified
        (huntriggered t (hk3.trans hkt) hlt.le) hpos
      have hless := work_of_runs (hsound t hlt.le).toInLoop hawake hruns
      exact hless.trans_lt (Nat.sub_lt hpos Nat.one_pos)
    · exact work_le _
  have hrest : ∀ t, b 18 ≤ t → t ≤ b 19 → (after step (initial κ) acts t).work = 0 :=
    rank_eq_zero_between (Φ := fun t => (after step (initial κ) acts t).work) hwork
      (fun t ht hlt => hstep t ((hb (by decide)).trans ht) hlt)
  have hawake : ∀ t, b 18 ≤ t → t ≤ b 19 → (after step (initial κ) acts t).idle ≠ 0 ∧
      (after step (initial κ) acts t).client c = .waiting := by
    intro t ht hle
    obtain ⟨hidle, hnone⟩ := rest (hsound t hle)
      (huntriggered t ((hb (by decide)).trans ht) hle) (hrest t ht hle)
    exact ⟨hidle, (hwaits t ((hb (by decide)).trans ht) hle).resolve_right (hnone c)⟩
  have hpc := (hawake (b 18) le_rfl (hb (by decide))).2
  obtain ⟨t, ht, hlt, hact⟩ := (hround 18 (by decide)).clients c (by simp [hpc]) (by simp [hpc])
  obtain ⟨hidle, hwaiting⟩ := hawake t ht hlt.le
  exact hnever ⟨t, (hb (by decide)).trans ht, hlt, hact, hwaiting, hidle⟩

end Runs

/-- The only client triggers and waits, and then everybody moves in turn. -/
def everybodyInTurn : ℕ → Action Unit :=
  script .runner ([.trigger (), .client (), .client (), .client (), .wait ()] ++
    (List.replicate 19 [.client (), .runner, .finish false]).flatten)

theorem wait_returns_everybodyInTurn : ∃ t, 5 ≤ t ∧ t < 62 ∧
    WaitReturns (after step (initial Unit) everybodyInTurn t) (everybodyInTurn t) () := by
  have hclients : ∀ k < 19, everybodyInTurn (5 + 3 * k) = .client () := by decide +kernel
  have hrunner : ∀ k < 19, everybodyInTurn (5 + 3 * k + 1) = .runner ∧
      (after step (initial Unit) everybodyInTurn (5 + 3 * k + 1)).runner ≠ .running := by
    decide +kernel
  have hround : ∀ k < 19, Round everybodyInTurn (5 + 3 * k) (5 + 3 * (k + 1)) := by
    intro k hk
    constructor
    · intro c _ _
      exact ⟨5 + 3 * k, le_rfl, by omega, hclients k hk⟩
    · intro _
      exact ⟨5 + 3 * k + 1, by omega, by omega, .inl (hrunner k hk)⟩
  have hmono : Monotone (fun k => 5 + 3 * k) := fun k l hkl => by
    dsimp only
    omega
  have hcalm : ∀ t < 62, everybodyInTurn t ≠ .requestStop ∧
      (5 ≤ t → everybodyInTurn t ≠ .trigger ()) := by decide +kernel
  exact wait_returns everybodyInTurn (b := fun k => 5 + 3 * k) hmono hround
    (fun t ht hlt _ => (hcalm t hlt).2 ht) (fun t hlt => (hcalm t hlt).1) (.inl (by decide))

end SafeShm.SwapRunner
