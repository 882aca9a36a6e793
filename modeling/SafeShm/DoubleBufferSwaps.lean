import SafeShm.DoubleBuffer

/-!
# The swaps of one loader

What holds for one loader whatever the other parties do. Two questions are settled: whether
`swap()` finds something staged, and whether it copies into the buffer that readers see.

`stage_` is set by the client and cleared by the runner, which also clears `triggered_`, at
another moment. As long as the client triggers only while the stage is set and the runner is not
on its way to clear it, every run that is triggered finds the stage set (`Ready`). The published
pointer designates the segment until the first run has published the pre-allocated buffer, and
that buffer ever after (`Published`).
-/

namespace SafeShm.DoubleBuffer
open StateMachines

variable {F : FlatType}

def TaskPc.beforeUnstaged : TaskPc F → Bool
  | .publishing | .unlocking | .finished => false
  | _ => true

/-- The runner has taken a trigger and has not yet cleared `stage_`. -/
def Loader.Draining (L : Loader F) : Prop :=
  L.runner.runner = .calling ∨ L.runner.runner = .running ∧ L.task.beforeUnstaged

/-- What a statement of the task can do, case by case. -/
inductive TaskStep (L : Loader F) (pc : ShmLock.Pc) (data : F.T) : Loader F → Prop where
  | stay (h : L.task = .locking ∧ pc ≠ .held ∨ L.task = .unlocking ∧ pc ≠ .out ∨ L.task = .failed) :
      TaskStep L pc data L
  | lock (h : L.task = .locking) (hpc : pc = .held) : TaskStep L pc data { L with task := .checking }
  | check (h : L.task = .checking) (hstage : L.stage = some .shm) :
      TaskStep L pc data { L with task := .copying 0 }
  | fail (h : L.task = .checking ∧ L.stage ≠ some .shm ∨ (∃ j, L.task = .copying j) ∧ L.stage = none) :
      TaskStep L pc data { L with task := .failed }
  | read (j : Fin F.words) (b : Buffer) (h : L.task = .copying j) (hstage : L.stage = some b) :
      TaskStep L pc data { L with task := .writing j (L.read data b j) }
  | write (j : Fin F.words) (w : F.Word) (h : L.task = .writing j w) :
      TaskStep L pc data { L with pre := Function.update L.pre j w, task := .copying (j + 1) }
  | copied (j : ℕ) (h : L.task = .copying j) (hj : F.words ≤ j) :
      TaskStep L pc data { L with task := .activating }
  | activate (h : L.task = .activating) :
      TaskStep L pc data { L with active := .preAllocated, task := .unstaging }
  | unstage (h : L.task = .unstaging) :
      TaskStep L pc data { L with stage := none, task := .publishing }
  | publish (h : L.task = .publishing) :
      TaskStep L pc data { L with published := L.active, task := .unlocking }
  | unlock (h : L.task = .unlocking) (hpc : pc = .out) :
      TaskStep L pc data { L with task := .finished }
  | finish (h : L.task = .finished) :
      TaskStep L pc data { L with runner := SwapRunner.step L.runner (.finish false) }

theorem taskTurn_step (L : Loader F) (pc : ShmLock.Pc) (data : F.T) :
    TaskStep L pc data (L.taskTurn pc data) := by
  rw [Loader.taskTurn]
  split
  · rename_i htask
    split
    · exact .lock htask ‹_›
    · exact .stay (.inl ⟨htask, ‹_›⟩)
  · rename_i htask
    split
    · exact .check htask ‹_›
    · exact .fail (.inl ⟨htask, by simp [*]⟩)
    · exact .fail (.inl ⟨htask, by simp [*]⟩)
  · rename_i j htask
    split
    · rename_i hj
      split
      · exact .read ⟨j, hj⟩ _ htask ‹_›
      · exact .fail (.inr ⟨⟨j, htask⟩, ‹_›⟩)
    · exact .copied j htask (Nat.le_of_not_lt ‹_›)
  · exact .write _ _ ‹_›
  · exact .activate ‹_›
  · exact .unstage ‹_›
  · exact .publish ‹_›
  · rename_i htask
    split
    · exact .unlock htask ‹_›
    · exact .stay (.inr (.inl ⟨htask, ‹_›⟩))
  · exact .finish ‹_›
  · exact .stay (.inr (.inr ‹_›))

/-- The runner of a loader makes the steps of a `SwapRunner` whose task does not throw and that
nobody stops. -/
theorem move_runner (L : Loader F) (m : Move F) : (L.move m).runner = L.runner ∨
    ∃ a, a ≠ .requestStop ∧ (L.move m).runner = SwapRunner.step L.runner a := by
  cases m with
  | load =>
    left
    rw [Loader.move]
    split <;> rfl
  | wait =>
    rw [Loader.move]
    split
    · exact .inl rfl
    · exact .inr ⟨.wait (), by simp, rfl⟩
  | client =>
    rw [Loader.move]
    split
    · exact .inr ⟨.trigger (), by simp, rfl⟩
    · exact .inr ⟨.client (), by simp, rfl⟩
  | runner pc data =>
    rw [Loader.move]
    split
    · exact .inr ⟨.runner, by simp, rfl⟩
    · have hstep := taskTurn_step L pc data
      generalize L.taskTurn pc data = L' at hstep ⊢
      cases hstep with
      | finish => exact .inr ⟨.finish false, by simp, rfl⟩
      | _ => exact .inl rfl
    · exact .inr ⟨.runner, by simp, rfl⟩
  | spuriousClient => exact .inr ⟨.spuriousClient (), by simp, rfl⟩
  | spuriousRunner => exact .inr ⟨.spuriousRunner, by simp, rfl⟩

theorem sound_move {L : Loader F} (h : SwapRunner.Sound L.runner) (m : Move F) :
    SwapRunner.Sound (L.move m).runner := by
  rcases move_runner L m with heq | ⟨a, ha, heq⟩
  · rw [heq]
    exact h
  · rw [heq]
    exact h.step ha

private theorem runnerTurn_rest {s : SwapRunner.State Unit} (hrunning : s.runner ≠ .running)
    (hcalling : s.runner ≠ .calling) (hclearing : s.runner ≠ .clearing) :
    s.runnerTurn.runner ≠ .running ∧ s.runnerTurn.runner ≠ .calling ∧
      s.runnerTurn.triggered = s.triggered := by
  rw [SwapRunner.State.runnerTurn]
  cases hpc : s.runner with
  | testing | waiting | retesting =>
    dsimp only
    split <;> simp
  | running => exact absurd hpc hrunning
  | calling => exact absurd hpc hcalling
  | clearing => exact absurd hpc hclearing
  | _ => simp [hpc]

/-- What a step of the client, or a spurious wake-up, leaves alone. -/
structure Frame (L L' : Loader F) : Prop where
  task : L'.task = L.task
  active : L'.active = L.active
  published : L'.published = L.published
  pre : L'.pre = L.pre
  started : L'.runner.started = L.runner.started
  running : L'.runner.runner = .running ↔ L.runner.runner = .running
  calling : L'.runner.runner = .calling ↔ L.runner.runner = .calling
  stage : L'.stage = L.stage ∨ L'.stage = some .shm

private theorem frame_of_runner {L : Loader F} {s : SwapRunner.State Unit} {b : Bool}
    {x : Option Buffer} (hx : x = L.stage ∨ x = some .shm)
    (hstarted : s.started = L.runner.started)
    (hrunner : s.runner = L.runner.runner ∨ s.runner = L.runner.runner.roused) :
    Frame L { L with runner := s, loading := b, stage := x } := by
  have hroused : s.runner = L.runner.runner.roused → (s.runner = .running ↔
      L.runner.runner = .running) ∧ (s.runner = .calling ↔ L.runner.runner = .calling) := by
    intro heq
    rw [heq]
    cases L.runner.runner <;> simp [SwapRunner.RunnerPc.roused]
  rcases hrunner with heq | heq
  · exact ⟨rfl, rfl, rfl, rfl, hstarted, by simp [heq], by simp [heq], hx⟩
  · exact ⟨rfl, rfl, rfl, rfl, hstarted, (hroused heq).1, (hroused heq).2, hx⟩

theorem move_frame (L : Loader F) {m : Move F} (hm : ∀ pc data, m ≠ .runner pc data) :
    Frame L (L.move m) := by
  cases m with
  | load =>
    rw [Loader.move]
    split
    · exact frame_of_runner (.inl rfl) rfl (.inl rfl)
    · exact frame_of_runner (.inl rfl) rfl (.inl rfl)
  | wait =>
    rw [Loader.move]
    split
    · exact frame_of_runner (.inl rfl) rfl (.inl rfl)
    · rw [SwapRunner.step]
      split
      · exact frame_of_runner (.inl rfl) rfl (.inl rfl)
      · exact frame_of_runner (.inl rfl) rfl (.inl rfl)
  | client =>
    rw [Loader.move]
    split
    · rw [SwapRunner.step]
      split
      · exact frame_of_runner (.inr rfl) rfl (.inl rfl)
      · exact frame_of_runner (.inr rfl) rfl (.inl rfl)
    · rw [SwapRunner.step, SwapRunner.State.clientTurn]
      cases L.runner.client () with
      | waiting =>
        dsimp only
        split
        · exact frame_of_runner (.inl rfl) rfl (.inl rfl)
        · exact frame_of_runner (.inl rfl) rfl (.inl rfl)
      | notifying => exact frame_of_runner (.inl rfl) rfl (.inr rfl)
      | _ => exact frame_of_runner (.inl rfl) rfl (.inl rfl)
  | runner pc data => exact absurd rfl (hm pc data)
  | spuriousClient => exact frame_of_runner (.inl rfl) rfl (.inl rfl)
  | spuriousRunner => exact frame_of_runner (.inl rfl) rfl (.inr rfl)

/-- Only the store of `trigger()` sets the trigger. -/
theorem move_triggered (L : Loader F) {m : Move F} (hm : ∀ pc data, m ≠ .runner pc data)
    (hclient : m = .client → L.loading = false → L.runner.client () ≠ .setting) :
    (L.move m).runner.triggered = L.runner.triggered := by
  cases m with
  | load =>
    rw [Loader.move]
    split <;> rfl
  | wait =>
    rw [Loader.move]
    split
    · rfl
    · rw [SwapRunner.step]
      split <;> rfl
  | client =>
    rw [Loader.move]
    split
    · rw [SwapRunner.step]
      split <;> rfl
    · rename_i hloading
      have hne := hclient rfl (by simpa using hloading)
      rw [SwapRunner.step, SwapRunner.State.clientTurn]
      cases hpc : L.runner.client () with
      | waiting =>
        dsimp only
        split <;> rfl
      | setting => exact absurd hpc hne
      | _ => rfl
  | runner pc data => exact absurd rfl (hm pc data)
  | spuriousClient => rfl
  | spuriousRunner => rfl

structure Ready (L : Loader F) : Prop where
  sound : SwapRunner.Sound L.runner
  resting : L.runner.runner ≠ .running → L.task = .finished
  buffer : L.stage ≠ some .preAllocated
  staged : L.runner.triggered ≠ 0 ∨ L.Draining → L.stage ≠ none
  cleared : L.Draining → L.runner.triggered = 0
  going : L.task ≠ .failed

/-- The trigger of a `load()` comes while its stage is set, and not while the runner is on its way
to clear it. -/
def Timely (L : Loader F) : Move F → Prop
  | .client => L.runner.client () = .setting → L.stage ≠ none ∧ ¬ L.Draining
  | _ => True

section Ready
variable {L L' : Loader F}

private theorem Ready.setTask (h : Ready L) (hpc : L.runner.runner = .running)
    (hrunner : L'.runner = L.runner) (hstage : L'.stage = L.stage)
    (hunstaged : L'.task.beforeUnstaged → L.task.beforeUnstaged) (hgoing : L'.task ≠ .failed) :
    Ready L' := by
  have hdraining : L'.Draining → L.Draining := by
    simp only [Loader.Draining, hrunner, hpc]
    exact fun hd => hd.imp_right (And.imp_right hunstaged)
  refine ⟨hrunner ▸ h.sound, fun hne => absurd (hrunner ▸ hpc) hne, hstage ▸ h.buffer, ?_, ?_, hgoing⟩
  · rw [hrunner, hstage]
    exact fun hor => h.staged (hor.imp_right hdraining)
  · rw [hrunner]
    exact fun hd => h.cleared (hdraining hd)

private theorem Ready.setRunner (h : Ready L) (hsound : SwapRunner.Sound L'.runner)
    (hstage : L'.stage = L.stage ∨ L'.stage = some .shm) (htask : L'.task = L.task)
    (hrunning : L'.runner.runner = .running ↔ L.runner.runner = .running)
    (hcalling : L'.runner.runner = .calling ↔ L.runner.runner = .calling)
    (htriggered : L'.runner.triggered = L.runner.triggered) : Ready L' := by
  have hdraining : L'.Draining ↔ L.Draining := by
    rw [Loader.Draining, Loader.Draining, hrunning, hcalling, htask]
  refine ⟨hsound, ?_, ?_, ?_, ?_, htask ▸ h.going⟩
  · rw [Ne, hrunning, htask]
    exact h.resting
  · rcases hstage with heq | heq
    · exact heq ▸ h.buffer
    · simp [heq]
  · rw [htriggered, hdraining]
    intro hor
    rcases hstage with heq | heq
    · exact heq ▸ h.staged hor
    · simp [heq]
  · rw [htriggered, hdraining]
    exact h.cleared

private theorem Ready.taskTurn (h : Ready L) (hpc : L.runner.runner = .running)
    (pc : ShmLock.Pc) (data : F.T) : Ready (L.taskTurn pc data) := by
  have hstage : L.task.beforeUnstaged → L.stage = some .shm := by
    intro hk
    have hne := h.staged (.inr (.inr ⟨hpc, hk⟩))
    have hbuffer := h.buffer
    cases hs : L.stage with
    | none => exact absurd hs hne
    | some b =>
      cases b with
      | shm => rfl
      | preAllocated => exact absurd hs hbuffer
  have hstep := taskTurn_step L pc data
  generalize L.taskTurn pc data = L' at hstep ⊢
  cases hstep with
  | stay => exact h
  | fail htask =>
    rcases htask with ⟨htask, hnot⟩ | ⟨⟨j, htask⟩, hnone⟩
    · exact absurd (hstage (htask ▸ rfl)) hnot
    · exact absurd hnone (by simp [hstage (htask ▸ rfl)])
  | lock htask | check htask | read _ _ htask | write _ _ htask | copied _ htask
  | activate htask =>
    exact h.setTask hpc rfl rfl (fun _ => htask ▸ rfl) (by simp)
  | unstage htask =>
    have hcleared : L.runner.triggered = 0 := h.cleared (.inr ⟨hpc, htask ▸ rfl⟩)
    refine ⟨h.sound, fun hne => absurd hpc hne, by simp, ?_, ?_, by simp⟩
    · simp [Loader.Draining, hcleared, hpc, TaskPc.beforeUnstaged]
    · simp [Loader.Draining, hpc, TaskPc.beforeUnstaged]
  | publish htask | unlock htask =>
    exact h.setTask hpc rfl rfl (fun hk => absurd hk (by simp [TaskPc.beforeUnstaged])) (by simp)
  | finish htask =>
    have hsound := h.sound.step (a := .finish false) (by simp)
    refine ⟨hsound, fun _ => htask, h.buffer, ?_, ?_, h.going⟩
    · simpa [Loader.Draining, SwapRunner.step, hpc] using fun hne => h.staged (.inl hne)
    · simp [Loader.Draining, SwapRunner.step, hpc]

private theorem Ready.runnerMove (h : Ready L) (pc : ShmLock.Pc) (data : F.T) :
    Ready (L.move (.runner pc data)) := by
  have hsound := sound_move h.sound (.runner pc data)
  rw [Loader.move] at hsound ⊢
  cases hpc : L.runner.runner with
  | calling =>
    simp only [hpc] at hsound ⊢
    have hstaged := h.staged (.inr (.inl hpc))
    have hcleared := h.cleared (.inl hpc)
    have htriggered : (SwapRunner.step L.runner .runner).triggered = L.runner.triggered := by
      simp [SwapRunner.step, SwapRunner.State.runnerTurn, hpc]
    refine ⟨hsound, ?_, h.buffer, fun _ => hstaged, fun _ => htriggered.trans hcleared, by simp⟩
    simp [SwapRunner.step, SwapRunner.State.runnerTurn, hpc]
  | running =>
    simp only [hpc] at hsound ⊢
    exact h.taskTurn hpc pc data
  | clearing =>
    simp only [hpc] at hsound ⊢
    have hseen := h.sound.seen (.inr hpc)
    have hstaged := h.staged (.inl hseen)
    refine ⟨hsound, ?_, h.buffer, fun _ => hstaged, ?_, h.going⟩
    · exact fun _ => h.resting (by simp [hpc])
    · simp [SwapRunner.step, SwapRunner.State.runnerTurn, hpc]
  | _ =>
    simp only [hpc] at hsound ⊢
    obtain ⟨hrunning, hcalling, htriggered⟩ := runnerTurn_rest (s := L.runner)
      (by simp [hpc]) (by simp [hpc]) (by simp [hpc])
    refine h.setRunner hsound (.inl rfl) rfl ?_ ?_ htriggered
    · exact iff_of_false hrunning (by simp [hpc])
    · exact iff_of_false hcalling (by simp [hpc])

private theorem Ready.setTrigger (h : Ready L) (hsound : SwapRunner.Sound L'.runner)
    (hframe : Frame L L') (hstage : L.stage ≠ none) (hdraining : ¬ L.Draining) : Ready L' := by
  have hnot : ¬ L'.Draining := by
    rwa [Loader.Draining, hframe.running, hframe.calling, hframe.task]
  have hstage' : L'.stage ≠ none ∧ L'.stage ≠ some .preAllocated := by
    rcases hframe.stage with heq | heq
    · rw [heq]
      exact ⟨hstage, h.buffer⟩
    · simp [heq]
  refine ⟨hsound, ?_, hstage'.2, fun _ => hstage'.1, fun hd => absurd hd hnot, ?_⟩
  · rw [Ne, hframe.running, hframe.task]
    exact h.resting
  · rw [hframe.task]
    exact h.going

theorem Ready.move (h : Ready L) {m : Move F} (htimely : Timely L m) : Ready (L.move m) := by
  by_cases hm : ∃ pc data, m = .runner pc data
  · obtain ⟨pc, data, rfl⟩ := hm
    exact h.runnerMove pc data
  · have hm' : ∀ pc data, m ≠ .runner pc data := fun pc data heq => hm ⟨pc, data, heq⟩
    have hframe := move_frame L hm'
    have hsound := sound_move h.sound m
    by_cases hsetting : m = .client ∧ L.runner.client () = .setting
    · obtain ⟨rfl, hpc⟩ := hsetting
      obtain ⟨hstage, hdraining⟩ := htimely hpc
      exact h.setTrigger hsound hframe hstage hdraining
    · have htriggered := move_triggered L hm' (fun heq _ hpc => hsetting ⟨heq, hpc⟩)
      exact h.setRunner hsound hframe.stage hframe.task hframe.running hframe.calling htriggered

theorem ready_initial : Ready (Loader.initial F) := by
  refine ⟨SwapRunner.sound_initial, fun _ => rfl, ?_, ?_, ?_, ?_⟩ <;>
    simp [Loader.initial, SwapRunner.initial, Loader.Draining]

end Ready

section Published
variable {L L' : Loader F}

/-- The task is before the end of `published_ptr_.store(swapper_ptr_)`. -/
def TaskPc.beforePublished : TaskPc F → Bool
  | .unlocking | .finished => false
  | _ => true

/-- The pre-allocated buffer is published from the first execution of the task on. -/
structure Published (L : Loader F) : Prop where
  sound : SwapRunner.Sound L.runner
  resting : L.runner.runner ≠ .running → L.task = .finished
  active : L.task = .unstaging ∨ L.task = .publishing → L.active = .preAllocated
  count : L.published = .preAllocated ↔
    (if L.task.beforePublished then 2 else 1) ≤ L.runner.started

private theorem Published.setRunner (h : Published L) (hsound : SwapRunner.Sound L'.runner)
    (hkept : L'.task = L.task ∧ L'.active = L.active ∧ L'.published = L.published)
    (hresting : L'.runner.runner ≠ .running → L.runner.runner = .running → L.task = .finished)
    (hstarted : L'.runner.started = L.runner.started) : Published L' := by
  obtain ⟨htask, hactive, hpublished⟩ := hkept
  refine ⟨hsound, ?_, ?_, ?_⟩
  · intro hne
    rw [htask]
    by_cases hpc : L.runner.runner = .running
    · exact hresting hne hpc
    · exact h.resting hpc
  · rw [htask, hactive]
    exact h.active
  · rw [htask, hpublished, hstarted]
    exact h.count

private theorem Published.setTask (h : Published L) (hpc : L.runner.runner = .running)
    (hrunner : L'.runner = L.runner) (hpublished : L'.published = L.published)
    (hbefore : L'.task.beforePublished = L.task.beforePublished)
    (hactive : L'.task = .unstaging ∨ L'.task = .publishing → L'.active = .preAllocated) :
    Published L' := by
  refine ⟨hrunner ▸ h.sound, fun hne => absurd (hrunner ▸ hpc) hne, hactive, ?_⟩
  rw [hpublished, hrunner, hbefore]
  exact h.count

private theorem Published.taskTurn (h : Published L) (hpc : L.runner.runner = .running)
    (pc : ShmLock.Pc) (data : F.T) : Published (L.taskTurn pc data) := by
  have hstep := taskTurn_step L pc data
  generalize L.taskTurn pc data = L' at hstep ⊢
  cases hstep with
  | stay => exact h
  | fail htask =>
    refine h.setTask hpc rfl rfl ?_ (by simp)
    rcases htask with ⟨htask, -⟩ | ⟨⟨j, htask⟩, -⟩ <;> exact htask ▸ rfl
  | lock htask | check htask | read _ _ htask | write _ _ htask | copied _ htask | unlock htask =>
    exact h.setTask hpc rfl rfl (htask ▸ rfl) (by simp)
  | activate htask => exact h.setTask hpc rfl rfl (htask ▸ rfl) (fun _ => rfl)
  | unstage htask => exact h.setTask hpc rfl rfl (htask ▸ rfl) (fun _ => h.active (.inl htask))
  | publish htask =>
    have hstarted := h.sound.ended
    rw [hpc, if_pos rfl] at hstarted
    refine ⟨h.sound, fun hne => absurd hpc hne, by simp, ?_⟩
    refine iff_of_true (h.active (.inr htask)) ?_
    simp only [TaskPc.beforePublished, Bool.false_eq_true, if_false]
    omega
  | finish htask =>
    have hsound := h.sound.step (a := .finish false) (by simp)
    refine h.setRunner hsound ⟨rfl, rfl, rfl⟩ (fun _ _ => htask) ?_
    simp [SwapRunner.step, hpc]

private theorem Published.runnerMove (h : Published L) (pc : ShmLock.Pc) (data : F.T) :
    Published (L.move (.runner pc data)) := by
  have hsound := sound_move h.sound (.runner pc data)
  rw [Loader.move] at hsound ⊢
  cases hpc : L.runner.runner with
  | calling =>
    simp only [hpc] at hsound ⊢
    have htask := h.resting (by simp [hpc])
    have hstarted : (SwapRunner.step L.runner .runner).started = L.runner.started + 1 := by
      simp [SwapRunner.step, SwapRunner.State.runnerTurn, hpc]
    have hcount := h.count
    refine ⟨hsound, ?_, by simp, ?_⟩
    · simp [SwapRunner.step, SwapRunner.State.runnerTurn, hpc]
    · rw [htask] at hcount
      rw [hcount, hstarted]
      simp [TaskPc.beforePublished]
  | running =>
    simp only [hpc] at hsound ⊢
    exact h.taskTurn hpc pc data
  | _ =>
    simp only [hpc] at hsound ⊢
    refine h.setRunner hsound ⟨rfl, rfl, rfl⟩ (by simp [hpc]) ?_
    simp [SwapRunner.step, SwapRunner.State.runnerTurn, hpc]

theorem Published.move (h : Published L) (m : Move F) : Published (L.move m) := by
  by_cases hm : ∃ pc data, m = .runner pc data
  · obtain ⟨pc, data, rfl⟩ := hm
    exact h.runnerMove pc data
  · have hframe := move_frame L (fun pc data heq => hm ⟨pc, data, heq⟩)
    refine h.setRunner (sound_move h.sound m) ⟨hframe.task, hframe.active, hframe.published⟩ ?_
      hframe.started
    exact fun hne hpc => absurd (hframe.running.mpr hpc) hne

theorem published_initial : Published (Loader.initial F) := by
  refine ⟨SwapRunner.sound_initial, fun _ => rfl, ?_, ?_⟩ <;>
    simp [Loader.initial, SwapRunner.initial, TaskPc.beforePublished]

end Published

section Runs
variable {σ ℓ : Type} [DecidableEq σ] [DecidableEq ℓ]

def Move.action (l : ℓ) : Move F → Action F σ ℓ
  | .load => .load l
  | .wait => .wait l
  | .client => .client l
  | .runner _ _ => .runner l
  | .spuriousClient => .spuriousClient l
  | .spuriousRunner => .spuriousRunner l

def Move.Finds (s : System F σ ℓ) (l : ℓ) : Move F → Prop
  | .runner pc data => pc = s.lock.pc (.loader l) ∧ data = s.data
  | _ => True

/-- A loader of a system moves by its own moves. -/
theorem step_loader (s : System F σ ℓ) (a : Action F σ ℓ) (l : ℓ) :
    (s.step a).loader l = s.loader l ∨
      ∃ m : Move F, (s.step a).loader l = (s.loader l).move m ∧ a = m.action l ∧ m.Finds s l := by
  have hmove : ∀ (l' : ℓ) (m : Move F), a = m.action l' → m.Finds s l' →
      (s.moveLoader l' m).loader l = s.loader l ∨ ∃ m' : Move F,
        (s.moveLoader l' m).loader l = (s.loader l).move m' ∧ a = m'.action l ∧ m'.Finds s l := by
    intro l' m haction hfinds
    by_cases heq : l = l'
    · subst heq
      exact .inr ⟨m, Function.update_self .., haction, hfinds⟩
    · exact .inl (Function.update_of_ne heq ..)
  cases a with
  | store i v =>
    left
    rw [System.step]
    split <;> rfl
  | storer i =>
    left
    rw [System.step, System.storeTurn]
    split
    · rfl
    · split <;> rfl
    · split <;> rfl
    · split <;> rfl
  | load l' => exact hmove l' .load rfl trivial
  | wait l' => exact hmove l' .wait rfl trivial
  | client l' => exact hmove l' .client rfl trivial
  | runner l' => exact hmove l' (.runner _ _) rfl ⟨rfl, rfl⟩
  | spuriousClient l' => exact hmove l' .spuriousClient rfl trivial
  | spuriousRunner l' => exact hmove l' .spuriousRunner rfl trivial
  | wake p q => exact .inl rfl
  | spurious q => exact .inl rfl

def TaskPc.startsSwap : TaskPc F → Bool
  | .checking => true
  | _ => false

/-- The assignment `*pre_allocated_buffer_ = *stage_` is being executed. -/
def TaskPc.copies : TaskPc F → Bool
  | .copying _ | .writing _ _ => true
  | _ => false

/-- `swap()` always finds something staged, as long as every trigger of the loader comes while
`stage_` is set and the runner is not between taking a trigger and clearing `stage_`. -/
theorem swap_staged (data : F.T) (acts : ℕ → Action F σ ℓ) (l : ℓ) (t : ℕ)
    (htimely : ∀ t' < t, acts t' = .client l →
      Timely ((after System.step (System.initial σ ℓ data) acts t').loader l) .client) :
    let L := (after System.step (System.initial σ ℓ data) acts t).loader l
    (L.task.startsSwap ∨ L.task.copies → L.stage ≠ none) ∧ L.task ≠ .failed := by
  intro L
  have h : Ready L := by
    refine after_invariant_of (P := fun s : System F σ ℓ => Ready (s.loader l))
      (C := fun s (a : Action F σ ℓ) => a = .client l → Timely (s.loader l) .client)
      ready_initial ?_ htimely
    intro s a hC h
    rcases step_loader s a l with heq | ⟨m, heq, haction, -⟩
    · rw [heq]
      exact h
    · rw [heq]
      apply h.move
      cases m with
      | client => exact hC haction
      | _ => trivial
  refine ⟨?_, h.going⟩
  intro htask
  have hbefore : L.task.beforeUnstaged := by
    cases hpc : L.task <;> simp_all [TaskPc.startsSwap, TaskPc.copies, TaskPc.beforeUnstaged]
  by_cases hpc : L.runner.runner = .running
  · exact h.staged (.inr (.inr ⟨hpc, hbefore⟩))
  · rw [h.resting hpc] at hbefore
    exact absurd hbefore (by simp [TaskPc.beforeUnstaged])

/-- A run never writes to the published buffer exactly when all copies are made by the first
execution of the task. -/
theorem copy_isolated_iff (data : F.T) (acts : ℕ → Action F σ ℓ) (l : ℓ) :
    let L := fun t => (after System.step (System.initial σ ℓ data) acts t).loader l
    (∀ t, (L t).task.copies → (L t).published ≠ .preAllocated) ↔
      ∀ t, (L t).task.copies → (L t).runner.started = 1 := by
  intro L
  have h : ∀ t, Published (L t) := by
    intro t
    refine after_part_invariant (fun s : System F σ ℓ => s.loader l) published_initial ?_
      (fun L m (h : Published L) => h.move m) t
    intro s a
    exact (step_loader s a l).imp_right (fun ⟨m, heq, _, _⟩ => ⟨m, heq⟩)
  refine forall_congr' (fun t => ?_)
  apply imp_congr_right
  intro hcopies
  have hcount := (h t).count
  have hresting := (h t).resting
  have hended := (h t).sound.ended
  have hbefore : (L t).task.beforePublished ∧ (L t).task ≠ .finished := by
    cases htask : (L t).task <;> simp_all [TaskPc.copies, TaskPc.beforePublished]
  rw [if_pos hbefore.1] at hcount
  have hpc : (L t).runner.runner = .running := by
    by_contra hne
    exact hbefore.2 (hresting hne)
  rw [if_pos hpc] at hended
  rw [Ne, hcount]
  omega

end Runs

section Samples

instance (L : Loader F) : Decidable L.Draining := inferInstanceAs (Decidable (_ ∨ _ ∧ _))

/-- A loader alone: `load()`, `wait()` and `load()` again. -/
def secondLoad : ℕ → Action oneWord Empty Unit :=
  script (.runner ())
    ([.load ()] ++ List.replicate 4 (.client ()) ++ List.replicate 22 (.runner ()) ++
      [.wait (), .client (), .load ()] ++ List.replicate 4 (.client ()) ++
      List.replicate 10 (.runner ()))

/-- The loader when the second `swap()` starts. -/
abbrev secondSwap (t : ℕ) : Loader oneWord :=
  (after System.step (System.initial Empty Unit (tens 0)) secondLoad t).loader ()

theorem swap_staged_secondLoad :
    (secondSwap 42).task.startsSwap ∧ (secondSwap 42).stage ≠ none := by
  have hstarts : (secondSwap 42).task.startsSwap := by decide +kernel
  have htimely : ∀ t' < 42, (secondSwap t').runner.client () = .setting →
      (secondSwap t').stage ≠ none ∧ ¬ (secondSwap t').Draining := by decide +kernel
  obtain ⟨hstaged, -⟩ := swap_staged (tens 0) secondLoad () 42 (fun t' ht' _ => htimely t' ht')
  exact ⟨hstarts, hstaged (.inl hstarts)⟩

/-- The second execution of the task copies into the published buffer. -/
theorem copies_into_published :
    (secondSwap 44).task.copies ∧ (secondSwap 44).published = .preAllocated := by
  decide +kernel

/-- The second `load()` comes while the task of the first one is copying. -/
def loadWhileSwapping : ℕ → Action oneWord Empty Unit :=
  script (.runner ())
    ([.load ()] ++ List.replicate 4 (.client ()) ++ List.replicate 10 (.runner ()) ++
      [.load ()] ++ List.replicate 4 (.client ()) ++ List.replicate 20 (.runner ()))

abbrev swapping (t : ℕ) : Loader oneWord :=
  (after System.step (System.initial Empty Unit (tens 0)) loadWhileSwapping t).loader ()

/-- The first `swap()` clears what the second `load()` has staged, and the second `swap()` starts
with nothing staged. -/
theorem swap_starts_unstaged : (swapping 40).task.startsSwap ∧ (swapping 40).stage = none := by
  decide +kernel

end Samples

end SafeShm.DoubleBuffer
