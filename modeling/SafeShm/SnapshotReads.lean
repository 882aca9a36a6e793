import SafeShm.LockedTransfer

/-!
# What a snapshot shows

A client that waits after each `load()` is released only after the copy that it has asked for
(`Handshake`). With the lock around the copy, a `Snapshot` that is read after `wait()` shows a
whole value, and one that is not older than the `load()`.
-/

namespace SafeShm.DoubleBuffer
open StateMachines

variable {F : FlatType} {σ ℓ : Type} [DecidableEq σ] [DecidableEq ℓ]

section Handshakes
variable {L : Loader F}

/-- A client that calls `wait()` after each `load()`. -/
structure Handshake (L : Loader F) : Prop where
  sound : SwapRunner.Sound L.runner
  outside : L.loading → L.runner.client () = .outside
  unarmed : L.loading ∨ L.runner.client () = .clearing → L.runner.armed () = false
  idle : L.runner.armed () = false → L.runner.idle ≠ 0
  working : L.runner.triggered ≠ 0 ∨ L.runner.runner.Busy → L.runner.idle = 0
  setting : L.runner.client () = .setting →
    L.runner.idle = 0 ∧ L.runner.triggered = 0 ∧ ¬ L.runner.runner.Busy
  cleared : L.runner.runner.Busy → L.runner.triggered = 0

variable {L' : Loader F}

/-- A step that leaves the two words alone. -/
private theorem Handshake.congr (h : Handshake L) (hsound : SwapRunner.Sound L'.runner)
    (hloading : L'.loading → L.loading)
    (hclient : L'.runner.client () = L.runner.client () ∨ L.loading = false ∧
      L'.runner.client () ≠ .clearing ∧ L'.runner.client () ≠ .setting)
    (harmed : L'.runner.armed = L.runner.armed)
    (hwords : L'.runner.idle = L.runner.idle ∧ L'.runner.triggered = L.runner.triggered)
    (hbusy : L'.runner.runner.Busy ↔ L.runner.runner.Busy) : Handshake L' := by
  obtain ⟨-, houtside, hunarmed, hidle, hworking, hsetting, hcleared⟩ := h
  obtain ⟨hidle', htriggered⟩ := hwords
  refine ⟨hsound, ?_, ?_, ?_, ?_, ?_, ?_⟩
  · intro hl
    rcases hclient with heq | ⟨hl', -⟩
    · exact heq.trans (houtside (hloading hl))
    · simp [hloading hl] at hl'
  · rw [harmed]
    rintro (hl | hpc)
    · exact hunarmed (.inl (hloading hl))
    · rcases hclient with heq | ⟨-, hne, -⟩
      · exact hunarmed (.inr (heq.symm.trans hpc))
      · exact absurd hpc hne
  · rw [harmed, hidle']
    exact hidle
  · rw [htriggered, hbusy, hidle']
    exact hworking
  · rw [htriggered, hbusy, hidle']
    intro hpc
    rcases hclient with heq | ⟨-, -, hne⟩
    · exact hsetting (heq.symm.trans hpc)
    · exact absurd hpc hne
  · rw [htriggered, hbusy]
    exact hcleared

private theorem roused_busy_iff (p : SwapRunner.RunnerPc) : p.roused.Busy ↔ p.Busy := by
  cases p <;> simp [SwapRunner.RunnerPc.roused, SwapRunner.RunnerPc.Busy]

private theorem Handshake.roused_client (h : Handshake L) :
    (L.runner.client ()).roused = L.runner.client () ∨ L.loading = false ∧
      (L.runner.client ()).roused ≠ .clearing ∧ (L.runner.client ()).roused ≠ .setting := by
  cases hpc : L.runner.client () with
  | asleep =>
    refine .inr ⟨?_, by simp [SwapRunner.ClientPc.roused], by simp [SwapRunner.ClientPc.roused]⟩
    by_contra hloading
    have hout := h.outside (by simpa using hloading)
    simp [hpc] at hout
  | _ => exact .inl rfl

private theorem Handshake.load (h : Handshake L)
    (harmed : L.runner.client () = .outside → L.loading = false → L.runner.armed () = false) :
    Handshake (L.move .load) := by
  rw [Loader.move]
  split
  · rename_i hout
    exact ⟨h.sound, fun _ => hout.1, fun _ => harmed hout.1 hout.2, h.idle, h.working, h.setting,
      h.cleared⟩
  · exact h

private theorem Handshake.wait (h : Handshake L) : Handshake (L.move .wait) := by
  have hsound := sound_move h.sound .wait
  rw [Loader.move] at hsound ⊢
  by_cases hloading : L.loading
  · rw [if_pos hloading]
    exact h
  · rw [if_neg hloading] at hsound ⊢
    rw [SwapRunner.step] at hsound ⊢
    split at hsound
    · rename_i hpc
      rw [if_pos hpc]
      refine h.congr hsound id (.inr ?_) rfl ⟨rfl, rfl⟩ Iff.rfl
      simpa [SwapRunner.State.goto] using hloading
    · rename_i hpc
      rw [if_neg hpc]
      exact h

/-- The client between the calls of a loader. -/
private theorem Handshake.clientTurn (h : Handshake L) (hloading : L.loading = false)
    (hsound : SwapRunner.Sound (L.runner.clientTurn ())) :
    Handshake { L with runner := L.runner.clientTurn () } := by
  rw [SwapRunner.State.clientTurn] at hsound ⊢
  cases hpc : L.runner.client () with
  | clearing =>
    simp only [hpc] at hsound ⊢
    have hne := h.idle (h.unarmed (.inr hpc))
    have hrest : ¬ (L.runner.triggered ≠ 0 ∨ L.runner.runner.Busy) := fun hor => hne (h.working hor)
    refine ⟨hsound, ?_, ?_, ?_, fun _ => rfl, ?_, ?_⟩
    · simp [hloading]
    · simp [SwapRunner.State.goto, hloading]
    · simp
    · exact fun _ => ⟨rfl, not_not.mp (not_or.mp hrest).1, (not_or.mp hrest).2⟩
    · exact fun hbusy => absurd (.inr hbusy) hrest
  | setting =>
    simp only [hpc] at hsound ⊢
    obtain ⟨hzero, -, hbusy⟩ := h.setting hpc
    refine ⟨hsound, ?_, ?_, h.idle, fun _ => hzero, ?_, fun hb => absurd hb hbusy⟩
    · simp [hloading]
    · simp [SwapRunner.State.goto, hloading]
    · simp [SwapRunner.State.goto]
  | notifying =>
    simp only [hpc] at hsound ⊢
    refine h.congr hsound id (.inr ⟨hloading, ?_⟩) rfl ⟨rfl, rfl⟩ (roused_busy_iff _)
    simp [SwapRunner.State.goto]
  | waiting =>
    simp only [hpc] at hsound ⊢
    split at hsound
    · rename_i hne
      rw [if_pos hne]
      refine ⟨hsound, ?_, ?_, fun _ => hne, h.working, ?_, h.cleared⟩
      · simp [hloading]
      · simp [SwapRunner.State.returned]
      · simp [SwapRunner.State.returned, SwapRunner.State.goto]
    · rename_i hne
      rw [if_neg hne]
      refine h.congr hsound id (.inr ⟨hloading, ?_⟩) rfl ⟨rfl, rfl⟩ Iff.rfl
      simp [SwapRunner.State.goto]
  | outside =>
    simp only [hpc] at hsound ⊢
    exact h
  | asleep =>
    simp only [hpc] at hsound ⊢
    exact h

private theorem Handshake.client (h : Handshake L) : Handshake (L.move .client) := by
  have hsound := sound_move h.sound .client
  rw [Loader.move] at hsound ⊢
  by_cases hloading : L.loading
  · rw [if_pos hloading] at hsound ⊢
    have hpc := h.outside hloading
    have harmed := h.unarmed (.inl hloading)
    rw [SwapRunner.step, if_pos hpc] at hsound ⊢
    refine ⟨hsound, by simp, fun _ => harmed, h.idle, h.working, ?_, h.cleared⟩
    simp [SwapRunner.State.goto]
  · rw [if_neg hloading] at hsound ⊢
    exact h.clientTurn (by simpa using hloading) hsound

private theorem Handshake.runnerTurn (h : Handshake L) (hsound : SwapRunner.Sound L.runner.runnerTurn)
    {task : TaskPc F} : Handshake { L with runner := L.runner.runnerTurn, task := task } := by
  rw [SwapRunner.State.runnerTurn] at hsound ⊢
  cases hpc : L.runner.runner with
  | clearing =>
    simp only [hpc] at hsound ⊢
    have hzero := h.working (.inl (h.sound.seen (.inr hpc)))
    refine ⟨hsound, h.outside, h.unarmed, h.idle, fun _ => hzero, ?_, fun _ => rfl⟩
    intro hsetting
    exact absurd (h.setting hsetting).2.1 (h.sound.seen (.inr hpc))
  | announcing =>
    simp only [hpc] at hsound ⊢
    have hbusy : L.runner.runner.Busy := by simp [hpc, SwapRunner.RunnerPc.Busy]
    have htriggered := h.cleared hbusy
    refine ⟨hsound, h.outside, h.unarmed, by simp, ?_, ?_, ?_⟩
    · simp [htriggered, SwapRunner.RunnerPc.Busy]
    · exact fun hsetting => absurd hbusy (h.setting hsetting).2.2
    · simp [SwapRunner.RunnerPc.Busy]
  | closing => exact absurd hpc h.sound.runner.1
  | releasing => exact absurd hpc h.sound.runner.2.1
  | notifying =>
    simp only [hpc] at hsound ⊢
    refine h.congr hsound id h.roused_client rfl ⟨rfl, rfl⟩ ?_
    simp [hpc, SwapRunner.RunnerPc.Busy]
  | testing | waiting | retesting =>
    simp only [hpc] at hsound ⊢
    refine h.congr hsound id (.inl rfl) rfl ⟨rfl, rfl⟩ ?_
    split <;> simp [hpc, SwapRunner.RunnerPc.Busy]
  | calling | logging =>
    simp only [hpc] at hsound ⊢
    exact h.congr hsound id (.inl rfl) rfl ⟨rfl, rfl⟩ (by simp [hpc, SwapRunner.RunnerPc.Busy])
  | asleep | running | left =>
    simp only [hpc] at hsound ⊢
    exact h.congr hsound id (.inl rfl) rfl ⟨rfl, rfl⟩ Iff.rfl

private theorem Handshake.taskTurn (h : Handshake L) (hpc : L.runner.runner = .running)
    (pc : ShmLock.Pc) (data : F.T) (hsound : SwapRunner.Sound (L.taskTurn pc data).runner) :
    Handshake (L.taskTurn pc data) := by
  have hstep := taskTurn_step L pc data
  generalize L.taskTurn pc data = L' at hstep hsound ⊢
  cases hstep with
  | finish htask =>
    simp only [SwapRunner.step, hpc] at hsound ⊢
    exact h.congr hsound id (.inl rfl) rfl ⟨rfl, rfl⟩ (by simp [hpc, SwapRunner.RunnerPc.Busy])
  | _ => exact h.congr hsound id (.inl rfl) rfl ⟨rfl, rfl⟩ Iff.rfl

theorem Handshake.move (h : Handshake L) {m : Move F} (harmed : m = .load →
    L.runner.client () = .outside → L.loading = false → L.runner.armed () = false) :
    Handshake (L.move m) := by
  have hsound := sound_move h.sound m
  cases m with
  | load => exact h.load (harmed rfl)
  | wait => exact h.wait
  | client => exact h.client
  | runner pc data =>
    rw [Loader.move] at hsound ⊢
    cases hpc : L.runner.runner with
    | running =>
      simp only [hpc] at hsound ⊢
      exact h.taskTurn hpc pc data hsound
    | _ =>
      simp only [hpc] at hsound ⊢
      exact h.runnerTurn hsound
  | spuriousClient =>
    refine h.congr hsound id ?_ rfl ⟨rfl, rfl⟩ Iff.rfl
    simpa [Loader.move, SwapRunner.step, SwapRunner.State.goto] using h.roused_client
  | spuriousRunner => exact h.congr hsound id (.inl rfl) rfl ⟨rfl, rfl⟩ (roused_busy_iff _)

theorem handshake_initial : Handshake (Loader.initial F) := by
  refine ⟨SwapRunner.sound_initial, ?_, ?_, ?_, ?_, ?_, ?_⟩ <;>
    simp [Loader.initial, SwapRunner.initial, SwapRunner.RunnerPc.Busy]

/-- What the last `load()` has asked for is still to be published. -/
def Loader.Fetching (L : Loader F) : Prop :=
  L.loading ∨ L.runner.client () = .clearing ∨ L.runner.client () = .setting ∨
    L.runner.triggered ≠ 0 ∨ L.runner.runner = .calling ∨
      L.runner.runner = .running ∧ L.task.beforePublished

theorem Handshake.fetched (h : Handshake L) (hpc : L.runner.client () = .waiting)
    (hidle : L.runner.idle ≠ 0) : ¬ L.Fetching := by
  rintro (hloading | hclient | hclient | hor)
  · have hout := h.outside hloading
    simp [hpc] at hout
  · simp [hpc] at hclient
  · simp [hpc] at hclient
  · apply hidle
    apply h.working
    rcases hor with htriggered | hcalling | ⟨hrunning, -⟩
    · exact .inl htriggered
    · exact .inr (.inl hcalling)
    · exact .inr (.inr (.inl hrunning))

private theorem fetching_clientTurn (hloading : L.loading = false) :
    Loader.Fetching { L with runner := L.runner.clientTurn () } ↔ L.Fetching := by
  rw [SwapRunner.State.clientTurn]
  cases hpc : L.runner.client () with
  | notifying =>
    cases hrunner : L.runner.runner <;>
      simp [Loader.Fetching, SwapRunner.State.goto, SwapRunner.RunnerPc.roused, hloading, hpc, hrunner]
  | waiting =>
    dsimp only
    split <;> simp [Loader.Fetching, SwapRunner.State.goto, SwapRunner.State.returned, hloading, hpc]
  | _ => simp [Loader.Fetching, SwapRunner.State.goto, hloading, hpc]

private theorem fetching_runnerTurn (h : Handshake L) (hpc : L.runner.runner ≠ .running)
    (hcalling : L.runner.runner ≠ .calling) :
    Loader.Fetching { L with runner := L.runner.runnerTurn } ↔ L.Fetching := by
  rw [SwapRunner.State.runnerTurn]
  cases hrunner : L.runner.runner with
  | running => exact absurd hrunner hpc
  | calling => exact absurd hrunner hcalling
  | clearing =>
    have hseen := h.sound.seen (.inr hrunner)
    exact iff_of_true (by simp [Loader.Fetching]) (.inr (.inr (.inr (.inl hseen))))
  | notifying | releasing =>
    cases hclient : L.runner.client () <;>
      simp [Loader.Fetching, SwapRunner.ClientPc.roused, hclient, hrunner]
  | testing | waiting | retesting =>
    dsimp only
    split <;> simp [Loader.Fetching, hrunner]
  | _ => simp [Loader.Fetching, hrunner]

/-- The step `published_ptr_.store(swapper_ptr_)` of the task. -/
def Publishes (L : Loader F) (m : Move F) : Prop :=
  (∃ pc data, m = .runner pc data) ∧ L.runner.runner = .running ∧ L.task = .publishing

private theorem fetching_taskTurn (hpc : L.runner.runner = .running) (hnot : L.task ≠ .publishing)
    (pc : ShmLock.Pc) (data : F.T) : (L.taskTurn pc data).Fetching ↔ L.Fetching := by
  have hstep := taskTurn_step L pc data
  generalize L.taskTurn pc data = L' at hstep ⊢
  cases hstep with
  | stay => exact Iff.rfl
  | publish htask => exact absurd htask hnot
  | finish htask => simp [Loader.Fetching, SwapRunner.step, hpc, htask, TaskPc.beforePublished]
  | fail htask =>
    rcases htask with ⟨htask, -⟩ | ⟨⟨j, htask⟩, -⟩ <;>
      simp [Loader.Fetching, htask, TaskPc.beforePublished]
  | lock htask | check htask | read _ _ htask | write _ _ htask | copied _ htask | activate htask
  | unstage htask | unlock htask => simp [Loader.Fetching, htask, TaskPc.beforePublished]

/-- It begins with a call of `load()` and ends with the store to `published_ptr_`. -/
theorem Handshake.fetching_move (h : Handshake L) {m : Move F} (hm : m ≠ .load)
    (hpublishes : ¬ Publishes L m) : (L.move m).Fetching ↔ L.Fetching := by
  cases m with
  | load => exact absurd rfl hm
  | wait =>
    rw [Loader.move]
    split
    · exact Iff.rfl
    · rw [SwapRunner.step]
      split
      · rename_i hpc
        simp [Loader.Fetching, SwapRunner.State.goto, hpc]
      · exact Iff.rfl
  | client =>
    rw [Loader.move]
    split
    · rename_i hloading
      have hpc := h.outside hloading
      exact iff_of_true (by simp [Loader.Fetching, SwapRunner.step, hpc, SwapRunner.State.goto])
        (.inl hloading)
    · rename_i hloading
      exact fetching_clientTurn (by simpa using hloading)
  | runner pc data =>
    rw [Loader.move]
    split
    · rename_i hpc
      exact iff_of_true
        (by simp [Loader.Fetching, SwapRunner.step, SwapRunner.State.runnerTurn, hpc, TaskPc.beforePublished])
        (by simp [Loader.Fetching, hpc])
    · rename_i hpc
      exact fetching_taskTurn hpc (fun htask => hpublishes ⟨⟨pc, data, rfl⟩, hpc, htask⟩) pc data
    · rename_i hcalling hpc
      exact fetching_runnerTurn h hpc hcalling
  | spuriousClient =>
    cases hclient : L.runner.client () <;>
      simp [Loader.Fetching, Loader.move, SwapRunner.step, SwapRunner.State.goto, SwapRunner.ClientPc.roused, hclient]
  | spuriousRunner =>
    cases hrunner : L.runner.runner <;>
      simp [Loader.Fetching, Loader.move, SwapRunner.step, SwapRunner.RunnerPc.roused, hrunner]

/-- The buffer that readers see holds `v`, and will until the next `load()`. -/
structure Loader.Fetched (L : Loader F) (v : F.T) : Prop where
  published : L.published = .preAllocated
  pre : L.pre = v
  rest : ¬ L.Fetching

theorem Loader.Fetched.move {v : F.T} (h : L.Fetched v) (hshake : Handshake L) {m : Move F}
    (hm : m ≠ .load) : (L.move m).Fetched v := by
  have hpublishes : ¬ Publishes L m := by
    rintro ⟨-, hpc, htask⟩
    apply h.rest
    simp [Loader.Fetching, hpc, htask, TaskPc.beforePublished]
  have hrest : ¬ (L.move m).Fetching := by
    rw [hshake.fetching_move hm hpublishes]
    exact h.rest
  suffices hkept : (L.move m).published = L.published ∧ (L.move m).pre = L.pre by
    exact ⟨hkept.1.trans h.published, hkept.2.trans h.pre, hrest⟩
  by_cases hrunner : ∃ pc data, m = .runner pc data
  · obtain ⟨pc, data, rfl⟩ := hrunner
    rw [Loader.move]
    split
    · exact ⟨rfl, rfl⟩
    · rename_i hpc
      have hbefore : L.task.beforePublished ≠ true := fun hb =>
        h.rest (.inr (.inr (.inr (.inr (.inr ⟨hpc, hb⟩)))))
      have hstep := taskTurn_step L pc data
      generalize L.taskTurn pc data = L' at hstep ⊢
      cases hstep with
      | write _ _ htask | publish htask => simp [htask, TaskPc.beforePublished] at hbefore
      | _ => exact ⟨rfl, rfl⟩
    · exact ⟨rfl, rfl⟩
  · have hframe := move_frame L (fun pc data heq => hrunner ⟨pc, data, heq⟩)
    exact ⟨hframe.published, hframe.pre⟩

theorem Handshake.publish (h : Handshake L) {data : F.T} (hcopied : Copied L data) {m : Move F}
    (hpublishes : Publishes L m) : (L.move m).Fetched data := by
  obtain ⟨⟨pc, data', rfl⟩, hpc, htask⟩ := hpublishes
  have hmove : L.move (.runner pc data') = { L with published := L.active, task := .unlocking } := by
    simp [Loader.move, hpc, Loader.taskTurn, htask]
  have hbusy : L.runner.runner.Busy := .inr (.inl hpc)
  have hidle := h.working (.inr hbusy)
  rw [hmove]
  refine ⟨hcopied.active (.inr htask), hcopied.copied (.inr (.inr htask)), ?_⟩
  rintro (hloading | hclearing | hsetting | htriggered | hcalling | ⟨-, hbefore⟩)
  · exact h.idle (h.unarmed (.inl hloading)) hidle
  · exact h.idle (h.unarmed (.inr hclearing)) hidle
  · exact (h.setting hsetting).2.2 hbusy
  · exact htriggered (h.cleared hbusy)
  · exact absurd (hpc.symm.trans hcalling) (by simp)
  · simp [TaskPc.beforePublished] at hbefore

end Handshakes

section Snapshots
variable {s : System F σ ℓ} {L : Loader F} {l : ℓ}

/-- The client of `l` calls `load()`. -/
def Loads (s : System F σ ℓ) (a : Action F σ ℓ) (l : ℓ) : Prop :=
  a = .load l ∧ (s.loader l).runner.client () = .outside ∧ (s.loader l).loading = false

/-- The call of `wait()` by the client of `l` returns. -/
def Returns (s : System F σ ℓ) (a : Action F σ ℓ) (l : ℓ) : Prop :=
  a = .client l ∧ (s.loader l).loading = false ∧ (s.loader l).runner.client () = .waiting ∧
    (s.loader l).runner.idle ≠ 0

/-- The client has called `load()`, and no `wait()` has returned since. -/
def Loader.Called (L : Loader F) : Prop :=
  L.loading ∨ L.runner.client () = .clearing ∨ L.runner.armed ()

private theorem called_move {m : Move F} (h : (L.move m).Called) : L.Called ∨
    m = .load ∧ L.runner.client () = .outside ∧ L.loading = false := by
  cases m with
  | load =>
    rw [Loader.move] at h
    split at h
    · exact .inr ⟨rfl, ‹_›⟩
    · exact .inl h
  | wait =>
    left
    rw [Loader.move] at h
    split at h
    · exact h
    · rw [SwapRunner.step] at h
      split at h
      · exact h.imp_right (fun hor => .inr (hor.resolve_left (by simp [SwapRunner.State.goto])))
      · exact h
  | client =>
    left
    rw [Loader.move] at h
    split at h
    · exact .inl ‹_›
    · rw [SwapRunner.step, SwapRunner.State.clientTurn] at h
      cases hpc : L.runner.client () with
      | clearing => exact .inr (.inl hpc)
      | waiting =>
        simp only [hpc] at h
        split at h <;> simp_all [Loader.Called, SwapRunner.State.returned, SwapRunner.State.goto]
      | _ => simpa [Loader.Called, hpc, SwapRunner.State.goto] using h
  | runner pc data =>
    left
    rw [Loader.move] at h
    split at h
    · rename_i hpc
      simpa [Loader.Called, SwapRunner.step, SwapRunner.State.runnerTurn, hpc] using h
    · rename_i hpc
      have hstep := taskTurn_step L pc data
      generalize L.taskTurn pc data = L' at hstep h
      cases hstep with
      | finish => simpa [Loader.Called, SwapRunner.step, hpc] using h
      | _ => exact h
    · rw [SwapRunner.step, SwapRunner.State.runnerTurn] at h
      cases hpc : L.runner.runner with
      | notifying | releasing =>
        cases hclient : L.runner.client () <;>
          simp_all [Loader.Called, SwapRunner.ClientPc.roused]
      | _ => simpa [Loader.Called, hpc] using h
  | spuriousClient =>
    left
    cases hpc : L.runner.client () <;>
      simp_all [Loader.Called, Loader.move, SwapRunner.step, SwapRunner.State.goto,
        SwapRunner.ClientPc.roused]
  | spuriousRunner => exact .inl h

private theorem called_returns (hloading : L.loading = false) (hpc : L.runner.client () = .waiting)
    (hidle : L.runner.idle ≠ 0) : ¬ (L.move .client).Called := by
  have hturn : SwapRunner.step L.runner (.client ()) = L.runner.returned () := by
    rw [SwapRunner.step, SwapRunner.State.clientTurn, hpc]
    exact if_pos hidle
  rw [Loader.move, if_neg (by simp [hloading]), hturn]
  simp [Loader.Called, hloading, SwapRunner.State.returned, SwapRunner.State.goto]

variable (data : F.T) (acts : ℕ → Action F σ ℓ)

/-- The state after `t` steps of a run on a segment that holds `data` at first. -/
abbrev System.at (t : ℕ) : System F σ ℓ := after System.step (System.initial σ ℓ data) acts t

/-- Up to instant `t` the client of `l` calls `wait()` after every `load()` before the next. -/
def Patient (l : ℓ) (t : ℕ) : Prop :=
  ∀ t₁ t₂, t₁ < t₂ → t₂ ≤ t → Loads (System.at data acts t₁) (acts t₁) l →
    Loads (System.at data acts t₂) (acts t₂) l →
      ∃ t', t₁ < t' ∧ t' < t₂ ∧ Returns (System.at data acts t') (acts t') l

variable {data acts}

private theorem called_of_step {s : System F σ ℓ} {a : Action F σ ℓ}
    (h : ((System.step s a).loader l).Called) : (s.loader l).Called ∨ Loads s a l := by
  rcases step_loader s a l with heq | ⟨m, heq, haction, -⟩
  · rw [heq] at h
    exact .inl h
  · rw [heq] at h
    rcases called_move h with hbefore | ⟨rfl, hpc, hloading⟩
    · exact .inl hbefore
    · exact .inr ⟨haction, hpc, hloading⟩

private theorem not_called_of_returns {s : System F σ ℓ} {a : Action F σ ℓ} (h : Returns s a l) :
    ¬ ((System.step s a).loader l).Called := by
  obtain ⟨rfl, hloading, hpc, hidle⟩ := h
  have hstep : (System.step s (.client l)).loader l = (s.loader l).move .client :=
    Function.update_self ..
  rw [hstep]
  exact called_returns hloading hpc hidle

private theorem called_since {t : ℕ} (h : ((System.at data acts t).loader l).Called) :
    ∃ t₁ < t, Loads (System.at data acts t₁) (acts t₁) l ∧
      ∀ t', t₁ < t' → t' < t → ¬ Returns (System.at data acts t') (acts t') l := by
  obtain ⟨t₁, hlt, hloads, hcalled⟩ :=
    exists_entry (P := fun s : System F σ ℓ => (s.loader l).Called) (E := fun s a => Loads s a l)
      (by simp [System.initial, Loader.initial, Loader.Called, SwapRunner.initial])
      (fun _ _ => called_of_step) h
  refine ⟨t₁, hlt, hloads, ?_⟩
  intro t' hlt' hlt'' hreturns
  exact not_called_of_returns hreturns (hcalled (t' + 1) (Nat.lt_succ_of_lt hlt') hlt'')

private theorem handshake_at {t₁ t : ℕ} (hpatient : Patient data acts l t₁)
    (hnext : ∀ t', t₁ < t' → t' < t → ¬ Loads (System.at data acts t') (acts t') l) :
    Handshake ((System.at data acts t).loader l) := by
  refine after_invariant_of (P := fun s : System F σ ℓ => Handshake (s.loader l))
    (C := fun s a => Loads s a l → (s.loader l).runner.armed () = false) handshake_initial ?_ ?_
  · intro s a hC h
    rcases step_loader s a l with heq | ⟨m, heq, haction, -⟩
    · rw [heq]
      exact h
    · rw [heq]
      apply h.move
      rintro rfl hpc hloading
      exact hC ⟨haction, hpc, hloading⟩
  · intro t' hlt hloads
    by_contra harmed
    obtain ⟨t₀, hlt₀, hloads₀, hnone⟩ := called_since (t := t') (.inr (.inr (by simpa using harmed)))
    by_cases hle : t' ≤ t₁
    · obtain ⟨t'', h₀, h₁, hreturns⟩ := hpatient t₀ t' hlt₀ hle hloads₀ hloads
      exact hnone t'' h₀ h₁ hreturns
    · exact hnext t' (by omega) hlt hloads

theorem transfers_at (t : ℕ) : Transfers data (System.at data acts t) :=
  after_invariant (transfers_initial data) (fun _ a h => h.step a) t

private theorem stored_suffix {t₁ t : ℕ} (hle : t₁ ≤ t) :
    (System.at data acts t₁).stored <:+ (System.at data acts t).stored := by
  refine after_invariant_from (P := fun s : System F σ ℓ => (System.at data acts t₁).stored <:+ s.stored)
    hle List.suffix_rfl ?_
  intro s a h
  refine h.trans ?_
  cases a with
  | store i v =>
    rw [System.step]
    split <;> exact List.suffix_rfl
  | storer i =>
    rw [System.step, System.storeTurn]
    split
    · exact List.suffix_rfl
    · split <;> exact List.suffix_rfl
    · split
      · exact List.suffix_rfl
      · exact List.suffix_cons ..
    · split <;> exact List.suffix_rfl
  | _ => exact List.suffix_rfl

/-- The segment as it is while the task of `l` has the lock. -/
structure Quiet (data : F.T) (s : System F σ ℓ) : Prop where
  free : ∀ i, ¬ s.lock.Holds (.storer i)
  newest : s.data = s.stored.headD data

omit [DecidableEq σ] [DecidableEq ℓ] in
theorem Transfers.quiet_of_inside (h : Transfers data s) (hzone : s.zone (.loader l) = .inside) :
    Quiet data s := by
  have hheld := h.zone (.loader l)
  rw [hzone] at hheld
  refine ⟨?_, h.newest ?_⟩
  · intro i hholds
    simpa using h.correct.unique _ _ hholds (.inl hheld)
  · intro i v j hpc
    exact h.toGlued.copying_alone hpc l hzone

omit [DecidableEq σ] [DecidableEq ℓ] in
private theorem Transfers.quiet (h : Transfers data s) (htask : (s.loader l).task = .publishing) :
    Quiet data s :=
  h.quiet_of_inside (l := l) (by simp [System.zone, htask, TaskPc.zone])

private theorem step_loader_of_not_loads {a : Action F σ ℓ} (h : ¬ Loads s a l) :
    (s.step a).loader l = s.loader l ∨
      ∃ m : Move F, (s.step a).loader l = (s.loader l).move m ∧ m ≠ .load := by
  rcases step_loader s a l with heq | ⟨m, heq, haction, -⟩
  · exact .inl heq
  · by_cases hm : m = .load
    · subst hm
      have hstay : (s.loader l).move .load = s.loader l := by
        rw [Loader.move, if_neg]
        exact fun hout => h ⟨haction, hout⟩
      exact .inl (heq.trans hstay)
    · exact .inr ⟨m, heq, hm⟩

/-- After a `load()`, what it asks for is on its way, or it has been copied since. -/
private theorem fetched_since {t₁ t : ℕ} (hlt : t₁ < t) (hpatient : Patient data acts l t₁)
    (hload : Loads (System.at data acts t₁) (acts t₁) l)
    (hnext : ∀ t', t₁ < t' → t' < t → ¬ Loads (System.at data acts t') (acts t') l) :
    ((System.at data acts t).loader l).Fetching ∨ ∃ τ, t₁ < τ ∧ τ < t ∧
      Quiet data (System.at data acts τ) ∧
        ((System.at data acts t).loader l).Fetched (System.at data acts τ).data := by
  induction t, hlt using Nat.le_induction with
  | base =>
    obtain ⟨hact, hpc, hloading⟩ := hload
    have hstep : (System.at data acts (t₁ + 1)).loader l =
        ((System.at data acts t₁).loader l).move .load := by
      rw [System.at, after, hact]
      exact Function.update_self ..
    refine .inl (.inl ?_)
    rw [hstep, Loader.move, if_pos ⟨hpc, hloading⟩]
  | succ t hle ih =>
    have hnext' : ∀ t', t₁ < t' → t' < t → ¬ Loads (System.at data acts t') (acts t') l :=
      fun t' h₁ h₂ => hnext t' h₁ (by omega)
    have hshake : Handshake ((System.at data acts t).loader l) := handshake_at hpatient hnext'
    rcases step_loader_of_not_loads (hnext t hle (Nat.lt_succ_self t)) with hsame | ⟨m, hmove, hm⟩
    · rw [← hsame] at ih
      rcases ih hnext' with hfetching | ⟨τ, h₁, h₂, h⟩
      · exact .inl hfetching
      · exact .inr ⟨τ, h₁, by omega, h⟩
    · rw [show System.at data acts (t + 1) = (System.at data acts t).step (acts t) from rfl, hmove]
      rcases ih hnext' with hfetching | ⟨τ, h₁, h₂, hquiet, hfetched⟩
      · by_cases hpublishes : Publishes ((System.at data acts t).loader l) m
        · have h : Transfers data (System.at data acts t) := transfers_at t
          exact .inr ⟨t, by omega, by omega, h.quiet hpublishes.2.2,
            hshake.publish (h.copied l) hpublishes⟩
        · exact .inl ((hshake.fetching_move hm hpublishes).mpr hfetching)
      · exact .inr ⟨τ, h₁, by omega, hquiet, hfetched.move hshake hm⟩

private theorem fetched_until {t₂ t : ℕ} {v : F.T} (hle : t₂ ≤ t)
    (hshake : ∀ t', t' < t → Handshake ((System.at data acts t').loader l))
    (hnext : ∀ t', t₂ ≤ t' → t' < t → ¬ Loads (System.at data acts t') (acts t') l)
    (h : ((System.at data acts t₂).loader l).Fetched v) :
    ((System.at data acts t).loader l).Fetched v := by
  induction t, hle using Nat.le_induction with
  | base => exact h
  | succ t hle ih =>
    have ih := ih (fun t' ht' => hshake t' (by omega)) (fun t' h₁ h₂ => hnext t' h₁ (by omega))
    rcases step_loader_of_not_loads (hnext t hle (Nat.lt_succ_self t)) with hsame | ⟨m, hmove, hm⟩
    · rw [← hsame] at ih
      exact ih
    · rw [show System.at data acts (t + 1) = (System.at data acts t).step (acts t) from rfl, hmove]
      exact ih.move (hshake t (Nat.lt_succ_self t)) hm

/-- A client that calls `wait()` after every `load()` sees whole and fresh values: from the return
of `wait()` to the next `load()` a reference that it takes at `r` from a `Snapshot` designates, at
every later instant `t`, what the segment held at one instant `τ` of the call, while no `store` had
the lock. That value is the newest stored at `τ`, and all that was stored before the `load()` was
stored before `τ`. -/
theorem snapshot_fresh (data : F.T) (acts : ℕ → Action F σ ℓ) (l : ℓ) {t₁ t₂ : ℕ} (hlt : t₁ < t₂)
    (hpatient : Patient data acts l t₁) (hload : Loads (System.at data acts t₁) (acts t₁) l)
    (hnext : ∀ t, t₁ < t → t < t₂ → ¬ Loads (System.at data acts t) (acts t) l)
    (hreturn : Returns (System.at data acts t₂) (acts t₂) l) :
    ∃ τ, t₁ < τ ∧ τ < t₂ ∧ (∀ i, ¬ (System.at data acts τ).lock.Holds (.storer i)) ∧
      (System.at data acts τ).data = (System.at data acts τ).stored.headD data ∧
      (System.at data acts t₁).stored <:+ (System.at data acts τ).stored ∧
      ∀ r t, t₂ < r → r ≤ t →
        (∀ t', t₂ < t' → t' < t → ¬ Loads (System.at data acts t') (acts t') l) →
          ((System.at data acts t).loader l).read (System.at data acts t).data
            ((System.at data acts r).loader l).deref = (System.at data acts τ).data := by
  have hshake : Handshake ((System.at data acts t₂).loader l) := handshake_at hpatient hnext
  obtain ⟨hact, -, hpc, hidle⟩ := hreturn
  rcases fetched_since hlt hpatient hload hnext with hfetching | ⟨τ, h₁, h₂, hquiet, hfetched⟩
  · exact absurd hfetching (hshake.fetched hpc hidle)
  · refine ⟨τ, h₁, h₂, hquiet.free, hquiet.newest, stored_suffix h₁.le, ?_⟩
    intro r t hr hrt hnext'
    have hnone : ∀ t', t₁ < t' → t' < t → ¬ Loads (System.at data acts t') (acts t') l := by
      intro t' hlt' hlt'' hloads
      rcases lt_trichotomy t' t₂ with h | rfl | h
      · exact hnext t' hlt' h hloads
      · exact absurd (hact.symm.trans hloads.1) (by simp)
      · exact hnext' t' h hlt'' hloads
    have hlater : ∀ t', t₂ < t' → t' ≤ t →
        ((System.at data acts t').loader l).Fetched (System.at data acts τ).data := by
      intro t' hlt' hle
      refine fetched_until hlt'.le ?_ (fun t'' h h' => hnone t'' (by omega) (by omega)) hfetched
      exact fun t'' ht'' => handshake_at hpatient (fun t₃ h h' => hnone t₃ h (by omega))
    rw [Loader.deref, (hlater r hr hrt).published, Loader.read, (hlater t (by omega) le_rfl).pre]

end Snapshots

section Samples

/-- A type of two words, both of them `m`. -/
abbrev twoWords : FlatType := ⟨2, BitVec 64, 0, fun _ => 0⟩

abbrev both (m : ℕ) : twoWords.T := fun _ => BitVec.ofNat 64 m

/-- Two stores, each followed by `load()` and `wait()`, and a third one. The second `load()` is
called between the two words of its store. -/
def loadsAndStores : ℕ → Action twoWords Unit Unit :=
  script (.runner ()) (List.flatten
    [[.store () (both 3)], List.replicate 10 (.storer ()), [.load ()],
      List.replicate 4 (.client ()), List.replicate 24 (.runner ()), [.wait (), .client ()],
      [.store () (both 5)], List.replicate 4 (.storer ()), [.load ()],
      List.replicate 4 (.client ()), List.replicate 6 (.storer ()),
      List.replicate 24 (.runner ()), [.wait (), .client ()],
      [.store () (both 7)], List.replicate 10 (.storer ())])

abbrev loaded (t : ℕ) : System twoWords Unit Unit := System.at (both 0) loadsAndStores t

instance (s : System F σ ℓ) (a : Action F σ ℓ) (l : ℓ) : Decidable (Loads s a l) :=
  match a with
  | .load l' => decidable_of_iff (l' = l ∧ (s.loader l).runner.client () = .outside ∧
      (s.loader l).loading = false) (by simp [Loads])
  | .store _ _ | .storer _ | .wait _ | .client _ | .runner _ | .spuriousClient _
  | .spuriousRunner _ | .wake _ _ | .spurious _ => .isFalse (by simp [Loads])

instance (s : System F σ ℓ) (a : Action F σ ℓ) (l : ℓ) : Decidable (Returns s a l) :=
  match a with
  | .client l' => decidable_of_iff (l' = l ∧ (s.loader l).loading = false ∧
      (s.loader l).runner.client () = .waiting ∧ (s.loader l).runner.idle ≠ 0) (by simp [Returns])
  | .store _ _ | .storer _ | .load _ | .wait _ | .runner _ | .spuriousClient _
  | .spuriousRunner _ | .wake _ _ | .spurious _ => .isFalse (by simp [Returns])

/-- The second snapshot keeps its value while the segment takes on another. -/
theorem snapshot_fresh_secondLoad :
    (∀ m < 9, (loaded 47).data ≠ both m) ∧ (loaded 95).data = both 7 ∧ ∃ τ, 47 < τ ∧ τ < 83 ∧
      (loaded τ).data = (loaded τ).stored.headD (both 0) ∧
      (loaded 47).stored <:+ (loaded τ).stored ∧
      ∀ t, 84 ≤ t → t ≤ 95 →
        ((loaded t).loader ()).read (loaded t).data ((loaded 84).loader ()).deref =
          (loaded τ).data := by
  have hloads : ∀ t < 95, Loads (loaded t) (loadsAndStores t) () → t = 11 ∨ t = 47 := by
    decide +kernel
  have hfirst : Returns (loaded 41) (loadsAndStores 41) () := by decide +kernel
  refine ⟨by decide +kernel, by decide +kernel, ?_⟩
  have hreturn : Returns (loaded 83) (loadsAndStores 83) () := by decide +kernel
  have hnext : ∀ t, 47 < t → t < 95 → ¬ Loads (loaded t) (loadsAndStores t) () := by
    intro t hlt hlt' h
    have := hloads t hlt' h
    omega
  have hpatient : Patient (both 0) loadsAndStores () 47 := by
    intro t₁ t₂ hlt hle h h'
    have h₁ := hloads t₁ (by omega) h
    have h₂ := hloads t₂ (by omega) h'
    exact ⟨41, by omega, by omega, hfirst⟩
  obtain ⟨τ, h₁, h₂, -, hnewest, hstored, hderef⟩ := snapshot_fresh (both 0) loadsAndStores ()
    (show 47 < 83 by decide) hpatient (by decide +kernel) (fun t h h' => hnext t h (by omega))
    hreturn
  refine ⟨τ, h₁, h₂, hnewest, hstored, ?_⟩
  intro t hlt hle
  exact hderef 84 t (by decide) hlt (fun t' h h' => hnext t' (by omega) (by omega))

end Samples

end SafeShm.DoubleBuffer
