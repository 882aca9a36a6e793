import SafeShm.SwapRunner

/-!
# The shutdown of the background runner

The stop callback is an object `cb` of `run`. A request that comes before its construction is
found by the constructor, which executes the callback on the runner's own thread; a request that
comes later executes it on the requesting thread. The destructor of `cb` waits for a callback
that is being executed.
-/

namespace SafeShm.SwapRunner
open StateMachines

/-- Where the stop callback `cb` of `run` stands: its constructor is next for the runner, or has
found a stop request and executes the callback; it is registered; or its destructor has returned. -/
inductive CallbackPc where
  | unregistered
  | inlined
  | registered
  | removed
  deriving DecidableEq

structure Thread (κ : Type) extends State κ where
  cb : CallbackPc

def Thread.initial (κ : Type) : Thread κ := ⟨SwapRunner.initial κ, .unregistered⟩

variable {κ : Type} [DecidableEq κ]

omit [DecidableEq κ] in
/-- The access to the shared words that an action amounts to, if any. -/
def Thread.access (s : Thread κ) : Action κ → Option (Action κ)
  | .runner =>
      match s.cb with
      | .unregistered => none
      | .inlined => some .callback
      | .registered => some .runner
      | .removed => none
  | .callback => if s.cb = .registered then some .callback else none
  | a => some a

/-- The next place of `cb` when the runner moves. -/
def Thread.turn (s : Thread κ) : CallbackPc :=
  match s.cb with
  | .unregistered => if s.stop = .none then .registered else .inlined
  | .inlined => if s.stop = .requested then .inlined else .registered
  | .registered => if s.runner = .left ∧ s.stop ≠ .stored then .removed else .registered
  | .removed => .removed

def Thread.step (s : Thread κ) (a : Action κ) : Thread κ where
  toState := (s.access a).elim s.toState (SwapRunner.step s.toState)
  cb := if a = .runner then s.turn else s.cb

def ClientPc.Triggering (p : ClientPc) : Prop :=
  p = .clearing ∨ p = .setting ∨ p = .notifying

instance (p : ClientPc) : Decidable p.Triggering := inferInstanceAs (Decidable (_ ∨ _ ∨ _))

section Steps
variable {s : State κ} {a : Action κ} {c : κ}

/-- What the stop callback and the end of `run` leave behind. Nobody leaves the loop without a stop
request, and a runner that clears `triggered_` after the callback's store does not wait again. -/
structure Stopping (s : State κ) : Prop where
  requested : s.runner = .closing ∨ s.runner = .releasing ∨ s.runner = .left → s.stop ≠ .none
  stored : s.stop = .stored ∨ s.stop = .finished → s.runner = .waiting ∨ s.runner = .asleep →
    s.triggered ≠ 0
  finished : s.stop = .finished → s.runner ≠ .asleep
  idle : s.runner = .releasing ∨ s.runner = .left → s.idle = 1
  awake : s.runner = .left → ∀ c, s.client c ≠ .asleep

omit [DecidableEq κ] in
theorem stopping_initial : Stopping (initial κ) := by
  constructor <;> simp [initial]

private theorem RunnerPc.roused_ne_asleep (p : RunnerPc) : p.roused ≠ .asleep := by
  cases p <;> simp [RunnerPc.roused]

private theorem ClientPc.roused_ne_asleep (p : ClientPc) : p.roused ≠ .asleep := by
  cases p <;> simp [ClientPc.roused]

private theorem roused_waiting {p : RunnerPc} (h : p.roused = .waiting) :
    p = .waiting ∨ p = .asleep := by
  cases p <;> simp_all [RunnerPc.roused]

omit [DecidableEq κ] in
private theorem Stopping.of_eq (h : Stopping s) {s' : State κ} (hrunner : s'.runner = s.runner)
    (hstop : s'.stop = s.stop) (htriggered : s.triggered ≠ 0 → s'.triggered ≠ 0)
    (hidle : s.runner = .releasing ∨ s.runner = .left → s'.idle = s.idle)
    (hclient : s.runner = .left → ∀ c, s'.client c = .asleep → s.client c = .asleep) :
    Stopping s' := by
  constructor
  · rw [hrunner, hstop]
    exact h.requested
  · rw [hrunner, hstop]
    exact fun hp hpc => htriggered (h.stored hp hpc)
  · rw [hrunner, hstop]
    exact h.finished
  · rw [hrunner]
    exact fun hpc => (hidle hpc).trans (h.idle hpc)
  · rw [hrunner]
    exact fun hpc c hc => h.awake hpc c (hclient hpc c hc)

private theorem asleep_goto {p : ClientPc} (hp : p = .asleep → s.client c = .asleep) (c' : κ)
    (hc' : (s.goto c p).client c' = .asleep) : s.client c' = .asleep := by
  by_cases heq : c' = c
  · subst heq
    apply hp
    simpa [State.goto] using hc'
  · exact (Function.update_of_ne heq ..).symm.trans hc'

omit [DecidableEq κ] in
private theorem Stopping.rouse (h : Stopping s) :
    Stopping { s with runner := s.runner.roused } := by
  constructor
  · simpa [RunnerPc.roused_eq_iff] using h.requested
  · rintro hp (hpc | hpc)
    · exact h.stored hp (roused_waiting hpc)
    · exact absurd hpc (RunnerPc.roused_ne_asleep _)
  · exact fun _ => RunnerPc.roused_ne_asleep _
  · simpa [RunnerPc.roused_eq_iff] using h.idle
  · simpa [RunnerPc.roused_eq_iff] using h.awake

private theorem Stopping.clientTurn (h : Stopping s)
    (hquiet : s.stop ≠ .none → ∀ c, ¬ (s.client c).Triggering) : Stopping (s.clientTurn c) := by
  rw [State.clientTurn]
  cases hpc : s.client c with
  | clearing =>
    -- a client that clears `idle_` is inside `trigger()`, and there is no stop request
    refine h.of_eq rfl rfl id ?_ (fun _ => asleep_goto (by simp))
    intro hrunner
    exact absurd (.inl hpc) (hquiet (h.requested (.inr hrunner)) c)
  | setting => exact h.of_eq rfl rfl (by simp) (fun _ => rfl) (fun _ => asleep_goto (by simp))
  | notifying =>
    exact h.rouse.of_eq rfl rfl id (fun _ => rfl) (fun _ => asleep_goto (by simp))
  | waiting =>
    dsimp only
    split
    · exact h.of_eq rfl rfl id (fun _ => rfl) (fun _ => asleep_goto (by simp))
    · rename_i hidle
      constructor
      · exact h.requested
      · exact h.stored
      · exact h.finished
      · exact h.idle
      · intro hrunner
        rw [h.idle (.inr hrunner)] at hidle
        simp at hidle
  | outside => exact h
  | asleep => exact h

omit [DecidableEq κ] in
private theorem Stopping.runnerTurn (h : Stopping s) : Stopping s.runnerTurn := by
  rw [State.runnerTurn]
  cases hpc : s.runner with
  | testing | retesting =>
    dsimp only
    split
    · rename_i hstop
      exact ⟨fun _ => hstop, by simp, by simp, by simp, by simp⟩
    · rename_i hstop
      rw [not_not] at hstop
      exact ⟨by simp, by simp [hstop], by simp, by simp, by simp⟩
  | waiting =>
    dsimp only
    split
    · exact ⟨by simp, by simp, by simp, by simp, by simp⟩
    · -- who falls asleep has found `triggered_` at 0, and the callback has not stored yet
      rename_i htriggered
      have hnot : ¬ (s.stop = .stored ∨ s.stop = .finished) :=
        fun hstop => htriggered (h.stored hstop (.inl hpc))
      exact ⟨by simp, fun hstop => absurd hstop hnot, fun hstop => absurd (.inr hstop) hnot,
        by simp, by simp⟩
  | clearing | calling | logging | announcing | notifying =>
    exact ⟨by simp, by simp, by simp, by simp, by simp⟩
  | closing => exact ⟨fun _ => h.requested (.inl hpc), by simp, by simp, fun _ => rfl, by simp⟩
  | releasing =>
    have hstop := h.requested (.inr (.inl hpc))
    refine ⟨fun _ => hstop, by simp, by simp, fun _ => h.idle (.inl hpc), ?_⟩
    intro _ c
    exact ClientPc.roused_ne_asleep _
  | asleep | running | left => exact h

theorem Stopping.step (h : Stopping s)
    (hquiet : s.stop ≠ .none → ∀ c, ¬ (s.client c).Triggering) : Stopping (step s a) := by
  cases a with
  | trigger c | wait c =>
    rw [SwapRunner.step]
    split
    · exact h.of_eq rfl rfl id (fun _ => rfl) (fun _ => asleep_goto (by simp))
    · exact h
  | client c => exact h.clientTurn hquiet
  | runner => exact h.runnerTurn
  | finish threw =>
    rw [SwapRunner.step]
    split
    · constructor <;> cases threw <;> simp
    · exact h
  | spuriousClient c =>
    exact h.of_eq rfl rfl id (fun _ => rfl)
      (fun _ => asleep_goto (fun hc => absurd hc (ClientPc.roused_ne_asleep _)))
  | spuriousRunner => exact h.rouse
  | requestStop =>
    rw [SwapRunner.step]
    split
    · exact ⟨by simp, by simp, by simp, h.idle, h.awake⟩
    · exact h
  | callback =>
    rw [SwapRunner.step]
    split
    · exact ⟨by simp, by simp, by simp, h.idle, h.awake⟩
    · rename_i hstop
      exact ⟨by simp, fun _ => h.rouse.stored (.inl hstop), fun _ => RunnerPc.roused_ne_asleep _,
        h.rouse.idle, h.rouse.awake⟩
    · exact h

theorem stop_of_step (h : (step s a).stop = .none) : s.stop = .none := by
  by_cases ha : a = .requestStop
  · subst ha
    by_contra hstop
    rw [step, if_neg hstop] at h
    exact hstop h
  have heffect := step_effect s ha
  generalize step s a = s' at heffect h
  cases heffect with
  | callback | released => exact absurd h (by simp)
  | _ => exact h

private theorem clientTurn_triggered (hpc : s.client c ≠ .setting) :
    (s.clientTurn c).triggered = s.triggered := by
  rw [State.clientTurn]
  cases hc : s.client c with
  | setting => exact absurd hc hpc
  | waiting =>
    dsimp only
    split <;> rfl
  | outside | clearing | notifying | asleep => rfl

omit [DecidableEq κ] in
private theorem runnerTurn_triggered (s : State κ) :
    s.runnerTurn.triggered = s.triggered ∨ s.runnerTurn.triggered = 0 := by
  rw [State.runnerTurn]
  cases s.runner with
  | clearing => exact .inr rfl
  | _ => exact .inl rfl

theorem triggered_of_step (h : (step s a).triggered ≠ 0) (hstop : (step s a).stop = .none) :
    s.triggered ≠ 0 ∨ ∃ c, StoresTrigger s a c := by
  cases a with
  | client c =>
    by_cases hpc : s.client c = .setting
    · exact .inr ⟨c, rfl, hpc⟩
    · exact .inl (clientTurn_triggered hpc ▸ h)
  | runner =>
    left
    rcases runnerTurn_triggered s with heq | heq
    · exact heq ▸ h
    · exact absurd heq h
  | callback =>
    left
    rw [step, stop_of_step hstop] at h
    exact h
  | spuriousClient | spuriousRunner => exact .inl h
  | trigger | wait | finish | requestStop =>
    left
    rw [step] at h
    split at h <;> exact h

/-- The wait has ended, and the stop token does not keep the runner from the task. -/
def Admitted (s : State κ) : Prop :=
  s.runner = .retesting ∧ s.stop = .none ∨ s.runner = .clearing ∨ s.runner = .calling

private theorem runner_of_other (hrunner : a ≠ .runner) (hfinish : ∀ threw, a ≠ .finish threw) :
    (step s a).runner = s.runner ∨ (step s a).runner = s.runner.roused := by
  cases a with
  | runner => exact absurd rfl hrunner
  | finish threw => exact absurd rfl (hfinish threw)
  | client c =>
    rw [step, State.clientTurn]
    cases s.client c with
    | notifying => exact .inr rfl
    | waiting =>
      left
      dsimp only
      split <;> rfl
    | outside | clearing | setting | asleep => exact .inl rfl
  | callback =>
    rw [step]
    split
    · exact .inl rfl
    · exact .inr rfl
    · exact .inl rfl
  | spuriousClient => exact .inl rfl
  | spuriousRunner => exact .inr rfl
  | trigger | wait | requestStop =>
    left
    rw [step]
    split <;> rfl

omit [DecidableEq κ] in
private theorem admitted_of_runnerTurn (h : Admitted s.runnerTurn) :
    Admitted s ∨ s.runner = .waiting ∧ s.triggered ≠ 0 ∧ s.stop = .none := by
  rw [State.runnerTurn] at h
  cases hpc : s.runner with
  | waiting =>
    right
    by_cases htriggered : s.triggered = 0#32
    · simp [hpc, htriggered, Admitted] at h
    · simpa [hpc, htriggered, Admitted] using h
  | retesting =>
    left
    by_cases hstop : s.stop = .none
    · exact .inl ⟨hpc, hstop⟩
    · simp [hpc, hstop, Admitted] at h
  | clearing => exact .inl (.inr (.inl hpc))
  | calling => exact .inl (.inr (.inr hpc))
  | testing =>
    by_cases hstop : s.stop = .none <;> simp [hpc, hstop, Admitted] at h
  | asleep | running | logging | announcing | notifying | closing | releasing | left =>
    simp [hpc, Admitted] at h

/-- A runner on its way to the task has found `triggered_` set before the stop request. -/
theorem admitted_of_step (h : Admitted (step s a)) :
    Admitted s ∨ a = .runner ∧ s.runner = .waiting ∧ s.triggered ≠ 0 ∧ s.stop = .none := by
  by_cases hrunner : a = .runner
  · subst hrunner
    exact (admitted_of_runnerTurn h).imp_right (fun hwakes => ⟨rfl, hwakes⟩)
  left
  by_cases hfinish : ∃ threw, a = .finish threw
  · obtain ⟨threw, rfl⟩ := hfinish
    rw [step] at h
    split at h
    · cases threw <;> simp [Admitted] at h
    · exact h
  rw [not_exists] at hfinish
  have hmoved : (step s a).runner = .retesting ∨ (step s a).runner = .clearing ∨
      (step s a).runner = .calling → (step s a).runner = s.runner := by
    intro hpc
    rcases runner_of_other (s := s) hrunner hfinish with heq | heq
    · exact heq
    · rw [heq] at hpc ⊢
      cases hp : s.runner <;> simp_all [RunnerPc.roused]
  rcases h with ⟨hpc, hstop⟩ | hpc | hpc
  · exact .inl ⟨(hmoved (.inl hpc)).symm.trans hpc, stop_of_step hstop⟩
  · exact .inr (.inl ((hmoved (.inr (.inl hpc))).symm.trans hpc))
  · exact .inr (.inr ((hmoved (.inr (.inr hpc))).symm.trans hpc))

end Steps

section Runs
variable {s : Thread κ} {a : Action κ}

theorem Thread.toState_step (s : Thread κ) (a : Action κ) :
    (s.step a).toState = s.toState ∨
      ∃ a', s.access a = some a' ∧ (s.step a).toState = SwapRunner.step s.toState a' := by
  cases h : s.access a with
  | none => exact .inl (by rw [Thread.step, h, Option.elim_none])
  | some a' => exact .inr ⟨a', rfl, by rw [Thread.step, h, Option.elim_some]⟩

omit [DecidableEq κ] in
theorem Thread.access_eq_client {c : κ} (h : s.access a = some (.client c)) : a = .client c := by
  cases a with
  | runner =>
    cases hcb : s.cb <;> simp [Thread.access, hcb] at h
  | callback =>
    rw [Thread.access] at h
    split at h <;> simp at h
  | _ => exact Option.some.inj h

omit [DecidableEq κ] in
theorem Thread.access_eq_runner (h : s.access a = some .runner) :
    a = .runner ∧ s.cb = .registered := by
  cases a with
  | runner =>
    refine ⟨rfl, ?_⟩
    cases hcb : s.cb <;> simp [Thread.access, hcb] at h
    rfl
  | callback =>
    rw [Thread.access] at h
    split at h <;> simp at h
  | _ => exact absurd (Option.some.inj h) (by simp)

def Thread.WakesUp (s : Thread κ) (a : Action κ) : Prop :=
  a = .runner ∧ s.cb = .registered ∧ s.runner = .waiting ∧ s.triggered ≠ 0

def Thread.StartsTask (s : Thread κ) (a : Action κ) : Prop :=
  a = .runner ∧ s.cb = .registered ∧ s.runner = .calling

instance : Decidable (s.StartsTask a) := inferInstanceAs (Decidable (_ ∧ _ ∧ _))

theorem Thread.triggered_of_step
    (h : (s.step a).triggered ≠ 0 ∧ (s.step a).stop = .none) :
    (s.triggered ≠ 0 ∧ s.stop = .none) ∨ ∃ c, StoresTrigger s.toState a c := by
  rcases s.toState_step a with heq | ⟨a', haccess, heq⟩
  · rw [heq] at h
    exact .inl h
  · rw [heq] at h
    obtain ⟨htriggered, hstop⟩ := h
    rcases SwapRunner.triggered_of_step htriggered hstop with hbefore | ⟨c, rfl, hpc⟩
    · exact .inl ⟨hbefore, stop_of_step hstop⟩
    · exact .inr ⟨c, Thread.access_eq_client haccess, hpc⟩

theorem Thread.admitted_of_step (h : Admitted (s.step a).toState) :
    Admitted s.toState ∨ s.WakesUp a ∧ s.stop = .none := by
  rcases s.toState_step a with heq | ⟨a', haccess, heq⟩
  · rw [heq] at h
    exact .inl h
  · rw [heq] at h
    rcases SwapRunner.admitted_of_step h with hbefore | ⟨rfl, hpc, htriggered, hstop⟩
    · exact .inl hbefore
    · obtain ⟨hact, hcb⟩ := Thread.access_eq_runner haccess
      exact .inr ⟨⟨hact, hcb, hpc, htriggered⟩, hstop⟩

theorem stopping_after {acts : ℕ → Action κ} {t : ℕ}
    (hquiet : ∀ t' < t, (after Thread.step (.initial κ) acts t').stop ≠ .none →
      ∀ c, ¬ ((after Thread.step (.initial κ) acts t').client c).Triggering) :
    Stopping (after Thread.step (.initial κ) acts t).toState := by
  apply after_invariant_of (P := fun s : Thread κ => Stopping s.toState)
    (C := fun s _ => s.stop ≠ .none → ∀ c, ¬ (s.client c).Triggering) stopping_initial ?_ hquiet
  intro s a hquiet h
  rcases s.toState_step a with heq | ⟨a', -, heq⟩
  · rw [heq]
    exact h
  · rw [heq]
    exact h.step hquiet

/-- The wake-up of an execution goes back to a `trigger()`: the runner has found `triggered_` set
before the stop request, and it is set since the store of a client. -/
theorem woken_by_trigger {acts : ℕ → Action κ} {t : ℕ}
    (h : Admitted (after Thread.step (.initial κ) acts t).toState) :
    ∃ t₀ t₁ c, t₀ < t₁ ∧ t₁ < t ∧
      StoresTrigger (after Thread.step (.initial κ) acts t₀).toState (acts t₀) c ∧
      (after Thread.step (.initial κ) acts t₁).WakesUp (acts t₁) ∧
      (∀ t', t₀ < t' → t' ≤ t₁ → (after Thread.step (.initial κ) acts t').triggered ≠ 0 ∧
        (after Thread.step (.initial κ) acts t').stop = .none) ∧
      ∀ t', t₁ < t' → t' ≤ t → Admitted (after Thread.step (.initial κ) acts t').toState := by
  obtain ⟨t₁, hlt₁, ⟨hwakes, hstop⟩, hadmitted⟩ :=
    exists_entry (P := fun s : Thread κ => Admitted s.toState)
      (E := fun s a => s.WakesUp a ∧ s.stop = .none) (by simp [Thread.initial, initial, Admitted])
      (fun _ _ => Thread.admitted_of_step) h
  obtain ⟨t₀, hlt₀, ⟨c, hstores⟩, hset⟩ :=
    exists_entry (P := fun s : Thread κ => s.triggered ≠ 0 ∧ s.stop = .none)
      (E := fun s a => ∃ c, StoresTrigger s.toState a c) (by simp [Thread.initial, initial])
      (fun _ _ => Thread.triggered_of_step) ⟨hwakes.2.2.2, hstop⟩
  exact ⟨t₀, t₁, c, hlt₀, hlt₁, hstores, hwakes, hset, hadmitted⟩

/-- The shutdown is not missed. -/
theorem shutdown_not_missed (acts : ℕ → Action κ) (t : ℕ)
    (hquiet : ∀ t' < t, (after Thread.step (.initial κ) acts t').stop ≠ .none →
      ∀ c, ¬ ((after Thread.step (.initial κ) acts t').client c).Triggering) :
    let run := after Thread.step (.initial κ) acts
    ((run t).stop = .finished → ¬ Parked (run t).toState ∧ (run t).runner ≠ .asleep) ∧
      ((run t).StartsTask (acts t) → ∃ t₀ t₁ c, t₀ < t₁ ∧ t₁ < t ∧
        StoresTrigger (run t₀).toState (acts t₀) c ∧ (run t₁).WakesUp (acts t₁) ∧
        (∀ t', t₀ < t' → t' ≤ t₁ → (run t').triggered ≠ 0 ∧ (run t').stop = .none) ∧
        ∀ t', t₁ < t' → t' ≤ t → Admitted (run t').toState) ∧
      ((run t).runner = .left → (run t).idle = 1 ∧ ∀ c, (run t).client c ≠ .asleep) := by
  intro run
  have h : Stopping (run t).toState := stopping_after hquiet
  refine ⟨?_, ?_, ?_⟩
  · intro hstop
    refine ⟨?_, h.finished hstop⟩
    rintro ⟨hrunner, htriggered⟩
    exact h.stored (.inr hstop) hrunner htriggered
  · rintro ⟨-, -, hpc⟩
    exact woken_by_trigger (.inr (.inr hpc))
  · exact fun hrunner => ⟨h.idle (.inr hrunner), h.awake hrunner⟩

end Runs

section Samples

/-- The stop comes between the second test of the token and the clear of `triggered_`, which
erases the wake-up of the callback. -/
def stoppedWhileTaking : ℕ → Action Unit :=
  script .runner
    [.runner, .trigger (), .client (), .client (), .client (), .wait (), .client (), .runner,
      .runner, .runner, .requestStop, .callback, .callback, .runner, .runner, .finish false]

theorem shutdown_not_missed_stoppedWhileTaking :
    let run := after Thread.step (.initial Unit) stoppedWhileTaking
    ((run 14).stop = .finished ∧ (run 14).triggered = 0 ∧ ¬ Parked (run 14).toState) ∧
      ((run 14).StartsTask (stoppedWhileTaking 14) ∧ ∃ t₀ t₁, t₀ < t₁ ∧ t₁ < 14 ∧
        StoresTrigger (run t₀).toState (stoppedWhileTaking t₀) () ∧
        (run t₁).WakesUp (stoppedWhileTaking t₁)) ∧
      (run 21).runner = .left ∧ (run 21).idle = 1 ∧ (run 21).client () ≠ .asleep := by
  intro run
  have hstop : (run 14).stop = .finished := by decide
  have hstarts : (run 14).StartsTask (stoppedWhileTaking 14) := by decide
  have hleft : (run 21).runner = .left := by decide
  have hquiet : ∀ t < 21, (run t).stop ≠ .none → ¬ ((run t).client ()).Triggering := by decide
  obtain ⟨hfinished, hwoken, -⟩ := shutdown_not_missed stoppedWhileTaking 14
    (fun t ht hstop _ => hquiet t (by omega) hstop)
  obtain ⟨-, -, hreleased⟩ := shutdown_not_missed stoppedWhileTaking 21
    (fun t ht hstop _ => hquiet t ht hstop)
  obtain ⟨t₀, t₁, ⟨⟩, hlt₀, hlt₁, hstores, hwakes, -⟩ := hwoken hstarts
  refine ⟨⟨hstop, by decide, (hfinished hstop).1⟩, ⟨hstarts, ?_⟩, hleft, ?_⟩
  · exact ⟨t₀, t₁, hlt₀, hlt₁, hstores, hwakes⟩
  · exact ⟨(hreleased hleft).1, (hreleased hleft).2 ()⟩

end Samples

end SafeShm.SwapRunner
