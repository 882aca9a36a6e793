import SafeShm.DoubleBufferSwaps

/-!
# Assignments under the lock

The lock keeps the word-by-word assignments of the callers of `store` and of the loaders apart
(`Glued`), so that the segment holds the newest complete value whenever no `store` is at its
assignment (`Settled`), and a loader copies just that (`Copied`).
-/

namespace SafeShm.DoubleBuffer
open StateMachines

variable {F : FlatType} {σ ℓ : Type} [DecidableEq σ] [DecidableEq ℓ]

section Zones

/-- Where the code of a party stands with respect to the lock: outside, at the call of `lock()`,
after its return, or at the call of `unlock()`. -/
inductive Zone where
  | outside
  | entering
  | inside
  | leaving
  deriving DecidableEq

def Zone.At : Zone → ShmLock.Pc → Prop
  | .outside, pc => pc = .out
  | .entering, pc => pc ≠ .unlocking ∧ pc ≠ .waking
  | .inside, pc => pc = .held
  | .leaving, pc => pc ≠ .fast ∧ pc ≠ .slow ∧ pc ≠ .waiting

def StorePc.zone : StorePc F → Zone
  | .outside => .outside
  | .locking _ => .entering
  | .copying _ _ => .inside
  | .unlocking => .leaving

def TaskPc.zone : TaskPc F → Zone
  | .locking => .entering
  | .unlocking => .leaving
  | .finished => .outside
  | _ => .inside

def System.zone (s : System F σ ℓ) : Party σ ℓ → Zone
  | .storer i => (s.storer i).zone
  | .loader l => (s.loader l).task.zone

variable {ι : Type} [DecidableEq ι] {s : ShmLock.State ι} {p : ι} {z : Zone}

private theorem at_step (hs : ShmLock.Correct s) {a : ShmLock.Action ι} (hz : z.At (s.pc p))
    (hp : p ≠ a.party) : z.At ((ShmLock.step s a).pc p) := by
  rcases ShmLock.step_pc_of_ne hp with heq | ⟨hqueue, heq⟩
  · rw [heq]
    exact hz
  · -- a sleeper that is woken up is still inside `lock()`
    rw [hs.asleep p hqueue] at hz
    rw [heq]
    cases z <;> simp_all [Zone.At]

private theorem at_spurious (hs : ShmLock.Correct s) {q : ι} (hz : z.At (s.pc p)) :
    z.At ((ShmLock.step s (.spurious q)).pc p) := by
  by_cases hp : p = q
  · subst hp
    rw [ShmLock.step]
    split
    · rename_i hqueue
      rw [hs.asleep p hqueue] at hz
      rw [ShmLock.State.rouse, ShmLock.goto_pc_self]
      cases z <;> simp_all [Zone.At]
    · exact hz
  · exact at_step hs hz hp

private theorem at_wake (hs : ShmLock.Correct s) {q r : ι} (hz : z.At (s.pc p)) :
    z.At ((ShmLock.step s (.wake q r)).pc p) := by
  by_cases hp : p = q
  · subst hp
    rw [ShmLock.step]
    split
    · rename_i hwake
      rw [hwake.1] at hz
      rw [ShmLock.goto_pc_self]
      cases z <;> simp_all [Zone.At]
    · exact hz
  · exact at_step hs hz hp

/-- What a call of `lock()` or `unlock()` by party `p` keeps. -/
structure Used (s s' : ShmLock.State ι) (p : ι) (z : Zone) : Prop where
  correct : ShmLock.Correct s'
  own : z.At (s'.pc p)
  others : ∀ q ≠ p, ∀ z : Zone, z.At (s.pc q) → z.At (s'.pc q)

private theorem used_step (hs : ShmLock.Correct s) {a : ShmLock.Action ι} (ha : a.party = p)
    (hz : z.At ((ShmLock.step s a).pc p)) : Used s (ShmLock.step s a) p z :=
  ⟨hs.step a, hz, fun _ hq _ hz => at_step hs hz (ha ▸ hq)⟩

/-- Inside `lock()` a party stays there, or gets the lock. -/
theorem acquire_used (hs : ShmLock.Correct s) (hp : Zone.entering.At (s.pc p)) :
    Used s (acquire s p) p .entering := by
  rw [acquire]
  cases hpc : s.pc p with
  | out =>
    refine used_step (p := p) hs rfl ?_
    simp [ShmLock.step, hpc, Zone.At]
  | held => exact ⟨hs, hp, fun _ _ _ hz => hz⟩
  | fast | slow =>
    refine used_step (p := p) hs rfl ?_
    rw [ShmLock.step, ShmLock.State.turn, hpc]
    simp only [ShmLock.State.goto, Function.update_self]
    split <;> simp [Zone.At]
  | waiting =>
    refine used_step (p := p) hs rfl ?_
    rw [ShmLock.step, ShmLock.State.turn, hpc]
    dsimp only
    split
    · exact hp
    · split
      · exact hp
      · simp [Zone.At]
  | unlocking => exact absurd hpc hp.1
  | waking => exact absurd hpc hp.2

theorem release_used (hs : ShmLock.Correct s) (hp : Zone.leaving.At (s.pc p)) :
    Used s (release s p) p .leaving := by
  rw [release]
  cases hpc : s.pc p with
  | out => exact ⟨hs, hp, fun _ _ _ hz => hz⟩
  | held =>
    refine used_step (p := p) hs rfl ?_
    simp [ShmLock.step, hpc, Zone.At]
  | unlocking =>
    refine used_step (p := p) hs rfl ?_
    simp [ShmLock.step, ShmLock.State.turn, hpc, Zone.At, ShmLock.State.goto]
  | waking =>
    refine used_step (p := p) hs rfl ?_
    rw [ShmLock.step, ShmLock.State.turn, hpc]
    dsimp only
    split
    · simp [Zone.At]
    · exact hp
  | fast => exact absurd hpc hp.1
  | slow => exact absurd hpc hp.2.1
  | waiting => exact absurd hpc hp.2.2

end Zones

section Glued

/-- Every party is at the lock where its code says. -/
structure Glued (s : System F σ ℓ) : Prop where
  correct : ShmLock.Correct s.lock
  zone : ∀ p, (s.zone p).At (s.lock.pc p)
  resting : ∀ l, (s.loader l).runner.runner ≠ .running → (s.loader l).task = .finished

variable {s s' : System F σ ℓ}

omit [DecidableEq σ] [DecidableEq ℓ] in
theorem Glued.exclusive (h : Glued s) {p q : Party σ ℓ} (hp : s.zone p = .inside)
    (hq : s.zone q = .inside) : p = q := by
  have hpc := h.zone p
  have hqc := h.zone q
  rw [hp] at hpc
  rw [hq] at hqc
  exact h.correct.unique p q (.inl hpc) (.inl hqc)

omit [DecidableEq σ] [DecidableEq ℓ] in
private theorem Glued.use (h : Glued s) {p : Party σ ℓ} (hused : Used s.lock s'.lock p (s'.zone p))
    (hothers : ∀ q ≠ p, s'.zone q = s.zone q)
    (hresting : ∀ l, (s'.loader l).runner.runner ≠ .running → (s'.loader l).task = .finished) :
    Glued s' := by
  refine ⟨hused.correct, ?_, hresting⟩
  intro q
  by_cases hq : q = p
  · rw [hq]
    exact hused.own
  · rw [hothers q hq]
    exact hused.others q hq _ (h.zone q)

omit [DecidableEq ℓ] in
private theorem zone_of_ne_storer {i : σ} {x : StorePc F} {data : F.T} {stored : List F.T}
    {lock : ShmLock.State (Party σ ℓ)} {q : Party σ ℓ} (hq : q ≠ .storer i) :
    System.zone ⟨lock, data, Function.update s.storer i x, s.loader, stored⟩ q = s.zone q := by
  cases q with
  | storer j =>
    have hne : j ≠ i := fun heq => hq (heq ▸ rfl)
    simp [System.zone, hne]
  | loader l => rfl

omit [DecidableEq ℓ] in
private theorem Glued.setStorer (h : Glued s) {i : σ} {x : StorePc F}
    (hz : x.zone.At (s.lock.pc (.storer i))) (data : F.T) (stored : List F.T) :
    Glued ⟨s.lock, data, Function.update s.storer i x, s.loader, stored⟩ := by
  refine h.use (p := .storer i) ⟨h.correct, ?_, fun _ _ _ hz => hz⟩
    (fun _ hq => zone_of_ne_storer hq) h.resting
  have hx : (Function.update s.storer i x i).zone.At (s.lock.pc (.storer i)) := by
    rw [Function.update_self]
    exact hz
  exact hx

private theorem Glued.storeTurn (h : Glued s) (i : σ) : Glued (s.storeTurn i) := by
  have hzone := h.zone (.storer i)
  rw [System.zone] at hzone
  rw [System.storeTurn]
  cases hpc : s.storer i with
  | outside => exact h
  | locking v =>
    rw [hpc] at hzone
    dsimp only
    split
    · rename_i hheld
      exact h.setStorer (x := .copying v _) hheld ..
    · refine h.use (p := .storer i) ?_ (fun _ _ => rfl) h.resting
      rw [System.zone, hpc]
      exact acquire_used h.correct hzone
  | copying v j =>
    rw [hpc] at hzone
    have hheld : s.lock.pc (.storer i) = .held := hzone
    dsimp only
    split
    · exact h.setStorer (x := .copying v _) hheld ..
    · exact h.setStorer (by simp [hheld, StorePc.zone, Zone.At]) ..
  | unlocking =>
    rw [hpc] at hzone
    dsimp only
    split
    · rename_i hout
      exact h.setStorer (x := .outside) hout ..
    · refine h.use (p := .storer i) ?_ (fun _ _ => rfl) h.resting
      rw [System.zone, hpc]
      exact release_used h.correct hzone

omit [DecidableEq σ] in
private theorem zone_of_ne_loader {l : ℓ} {m : Move F} {lock : ShmLock.State (Party σ ℓ)}
    {q : Party σ ℓ} (hq : q ≠ .loader l) :
    System.zone { (s.moveLoader l m) with lock := lock } q = s.zone q := by
  cases q with
  | storer j => rfl
  | loader l' =>
    have hne : l' ≠ l := fun heq => hq (heq ▸ rfl)
    simp [System.zone, System.moveLoader, hne]

omit [DecidableEq σ] in
private theorem resting_moveLoader (h : Glued s) {l : ℓ} {m : Move F}
    (hresting : ((s.loader l).move m).runner.runner ≠ .running →
      ((s.loader l).move m).task = .finished) (l' : ℓ) :
    ((s.moveLoader l m).loader l').runner.runner ≠ .running →
      ((s.moveLoader l m).loader l').task = .finished := by
  by_cases heq : l' = l
  · subst heq
    simpa [System.moveLoader] using hresting
  · simpa [System.moveLoader, heq] using h.resting l'

omit [DecidableEq σ] in
private theorem Glued.moveLoader (h : Glued s) (l : ℓ) {m : Move F}
    (hm : ∀ pc data, m ≠ .runner pc data) : Glued (s.moveLoader l m) := by
  have hframe := move_frame (s.loader l) hm
  refine h.use (p := .loader l) ⟨h.correct, ?_, fun _ _ _ hz => hz⟩
    (fun _ hq => zone_of_ne_loader hq) (resting_moveLoader h ?_)
  · have hzone := h.zone (.loader l)
    simpa [System.zone, System.moveLoader, hframe.task] using hzone
  · rw [Ne, hframe.running, hframe.task]
    exact h.resting l

private theorem taskTurn_zone {L : Loader F} {pc : ShmLock.Pc} (hz : L.task.zone.At pc)
    (data : F.T) : (L.taskTurn pc data).task.zone.At pc := by
  have hstep := taskTurn_step L pc data
  generalize L.taskTurn pc data = L' at hstep ⊢
  cases hstep with
  | stay => exact hz
  | lock _ hpc => exact hpc
  | unlock _ hpc => exact hpc
  | finish => exact hz
  | fail htask =>
    rcases htask with ⟨htask, -⟩ | ⟨⟨j, htask⟩, -⟩
    · rw [htask] at hz
      exact hz
    · rw [htask] at hz
      exact hz
  | publish htask =>
    rw [htask] at hz
    have hheld : pc = .held := hz
    simp [hheld, TaskPc.zone, Zone.At]
  | check htask | read _ _ htask | write _ _ htask | copied _ htask | activate htask
  | unstage htask =>
    rw [htask] at hz
    exact hz

private theorem taskTurn_resting {L : Loader F} (hpc : L.runner.runner = .running)
    (pc : ShmLock.Pc) (data : F.T) : (L.taskTurn pc data).runner.runner ≠ .running →
      (L.taskTurn pc data).task = .finished := by
  have hstep := taskTurn_step L pc data
  generalize L.taskTurn pc data = L' at hstep ⊢
  cases hstep with
  | finish htask => exact fun _ => htask
  | _ => exact fun hne => absurd hpc hne

private theorem move_runner_rest {L : Loader F} (hpc : L.runner.runner ≠ .running)
    (htask : L.task = .finished) (pc : ShmLock.Pc) (data : F.T) :
    (L.move (.runner pc data)).runner.runner = .running ∧
        (L.move (.runner pc data)).task = .locking ∨
      (L.move (.runner pc data)).runner.runner ≠ .running ∧
        (L.move (.runner pc data)).task = .finished := by
  rw [Loader.move]
  split
  · rename_i hcalling
    exact .inl ⟨by simp [SwapRunner.step, SwapRunner.State.runnerTurn, hcalling], rfl⟩
  · exact absurd ‹_› hpc
  · rename_i hcalling _
    refine .inr ⟨?_, htask⟩
    rw [SwapRunner.step, SwapRunner.State.runnerTurn]
    cases hrunner : L.runner.runner with
    | calling => exact absurd hrunner hcalling
    | running => exact absurd hrunner hpc
    | testing | waiting | retesting =>
      dsimp only
      split <;> simp
    | _ => simp [hrunner]

/-- The runner of a loader uses the lock as its task says. -/
private theorem runner_used {L : Loader F} {ι : Type} [DecidableEq ι] {s : ShmLock.State ι} {p : ι}
    (hs : ShmLock.Correct s) (hz : L.task.zone.At (s.pc p))
    (hresting : L.runner.runner ≠ .running → L.task = .finished) (data : F.T) :
    Used s (L.lockTurn s p) p (L.move (.runner (s.pc p) data)).task.zone := by
  have hsame : ∀ z : Zone, z.At (s.pc p) → Used s s p z :=
    fun z hz => ⟨hs, hz, fun _ _ _ hz => hz⟩
  rw [Loader.lockTurn]
  split
  · rename_i hpc
    have hmove : L.move (.runner (s.pc p) data) = L.taskTurn (s.pc p) data := by
      rw [Loader.move, hpc]
    have hturn := taskTurn_zone hz data
    rw [hmove]
    split
    · rename_i htask
      by_cases hheld : s.pc p = .held
      · have hlock : acquire s p = s := by rw [acquire, hheld]
        rw [hlock]
        exact hsame _ hturn
      · have hstay : L.taskTurn (s.pc p) data = L := by
          rw [Loader.taskTurn, htask]
          exact if_neg hheld
        rw [hstay]
        rw [htask] at hz ⊢
        exact acquire_used hs hz
    · rename_i htask
      by_cases hout : s.pc p = .out
      · have hlock : release s p = s := by rw [release, hout]
        rw [hlock]
        exact hsame _ hturn
      · have hstay : L.taskTurn (s.pc p) data = L := by
          rw [Loader.taskTurn, htask]
          exact if_neg hout
        rw [hstay]
        rw [htask] at hz ⊢
        exact release_used hs hz
    · exact hsame _ hturn
  · rename_i hpc
    have htask := hresting hpc
    rw [htask] at hz
    have hout : s.pc p = .out := hz
    apply hsame
    rcases move_runner_rest hpc htask (s.pc p) data with ⟨-, hlocking⟩ | ⟨-, hfinished⟩
    · rw [hlocking, hout]
      simp [TaskPc.zone, Zone.At]
    · rw [hfinished]
      exact hout

private theorem Glued.runnerMove (h : Glued s) (l : ℓ) : Glued (s.step (.runner l)) := by
  refine h.use (p := .loader l) ?_ (fun _ hq => zone_of_ne_loader hq) (resting_moveLoader h ?_)
  · have hused := runner_used h.correct (h.zone (.loader l)) (h.resting l) s.data
    simpa [System.zone, System.step, System.moveLoader] using hused
  · by_cases hpc : (s.loader l).runner.runner = .running
    · have hmove : (s.loader l).move (.runner (s.lock.pc (.loader l)) s.data) =
          (s.loader l).taskTurn (s.lock.pc (.loader l)) s.data := by
        rw [Loader.move, hpc]
      rw [hmove]
      exact taskTurn_resting hpc _ _
    · rcases move_runner_rest hpc (h.resting l hpc) (s.lock.pc (.loader l)) s.data with hcall | hrest
      · exact fun hne => absurd hcall.1 hne
      · exact fun _ => hrest.2

theorem Glued.step (h : Glued s) (a : Action F σ ℓ) : Glued (s.step a) := by
  cases a with
  | store i v =>
    rw [System.step]
    split
    · rename_i hpc
      have hzone := h.zone (.storer i)
      rw [System.zone, hpc] at hzone
      have hout : s.lock.pc (.storer i) = .out := hzone
      exact h.setStorer (x := .locking v) (by simp [hout, StorePc.zone, Zone.At]) ..
    · exact h
  | storer i => exact h.storeTurn i
  | load l => exact h.moveLoader l (by simp)
  | wait l => exact h.moveLoader l (by simp)
  | client l => exact h.moveLoader l (by simp)
  | runner l => exact h.runnerMove l
  | spuriousClient l => exact h.moveLoader l (by simp)
  | spuriousRunner l => exact h.moveLoader l (by simp)
  | wake p q => exact ⟨h.correct.step (.wake p q), fun r => at_wake h.correct (h.zone r), h.resting⟩
  | spurious q => exact ⟨h.correct.step (.spurious q), fun r => at_spurious h.correct (h.zone r), h.resting⟩

omit [DecidableEq σ] [DecidableEq ℓ] in
theorem glued_initial (data : F.T) : Glued (System.initial σ ℓ data) := by
  refine ⟨ShmLock.correct_free, ?_, fun _ _ => rfl⟩
  intro p
  cases p <;> rfl

end Glued

section Transfers

/-- The segment holds the newest complete value, or a caller of `store` has written a part of it.
`data` is what it held at first. -/
structure Settled (data : F.T) (s : System F σ ℓ) : Prop where
  copying : ∀ i v j, s.storer i = .copying v j → ∀ k : Fin F.words, k < j → s.data k = v k
  newest : (∀ i v j, s.storer i ≠ .copying v j) → s.data = s.stored.headD data

/-- The task of a loader has copied a part of the segment, or all of it. -/
structure Copied (L : Loader F) (data : F.T) : Prop where
  buffer : L.stage ≠ some .preAllocated
  active : L.task = .unstaging ∨ L.task = .publishing → L.active = .preAllocated
  copying : ∀ j, L.task = .copying j → ∀ k : Fin F.words, k < j → L.pre k = data k
  writing : ∀ j w, L.task = .writing j w → w = data j ∧ ∀ k < j, L.pre k = data k
  copied : L.task = .activating ∨ L.task = .unstaging ∨ L.task = .publishing → L.pre = data

variable {s s' : System F σ ℓ} {L L' : Loader F} {data : F.T}

private theorem update_below {x v : F.T} {j : Fin F.words} (h : ∀ k < j, x k = v k)
    (k : Fin F.words) (hk : (k : ℕ) < j + 1) : Function.update x j (v j) k = v k := by
  by_cases heq : k = j
  · rw [heq, Function.update_self]
  · have hne : (k : ℕ) ≠ j := fun hval => heq (Fin.ext hval)
    rw [Function.update_of_ne heq]
    exact h k (Fin.lt_def.mpr (by omega))

private theorem copied_of_zone (hbuffer : L.stage ≠ some .preAllocated)
    (hzone : L.task.zone ≠ .inside) : Copied L data := by
  refine ⟨hbuffer, ?_, ?_, ?_, ?_⟩
  · rintro (htask | htask) <;> simp [htask, TaskPc.zone] at hzone
  · intro j htask
    simp [htask, TaskPc.zone] at hzone
  · intro j w htask
    simp [htask, TaskPc.zone] at hzone
  · rintro (htask | htask | htask) <;> simp [htask, TaskPc.zone] at hzone

private theorem Copied.congr (h : Copied L data) (htask : L'.task = L.task)
    (hactive : L'.active = L.active) (hpre : L'.pre = L.pre)
    (hstage : L'.stage = L.stage ∨ L'.stage = some .shm) : Copied L' data := by
  refine ⟨?_, htask ▸ hactive ▸ h.active, htask ▸ hpre ▸ h.copying, htask ▸ hpre ▸ h.writing,
    htask ▸ hpre ▸ h.copied⟩
  rcases hstage with heq | heq
  · exact heq ▸ h.buffer
  · simp [heq]

private theorem Copied.taskTurn (h : Copied L data) (pc : ShmLock.Pc) :
    Copied (L.taskTurn pc data) data := by
  have hstep := taskTurn_step L pc data
  generalize L.taskTurn pc data = L' at hstep ⊢
  cases hstep with
  | stay => exact h
  | lock | fail => exact ⟨h.buffer, by simp, by simp, by simp, by simp⟩
  | check => exact ⟨h.buffer, by simp, by simp, by simp, by simp⟩
  | read j b htask hstage =>
    refine ⟨h.buffer, by simp, by simp, ?_, by simp⟩
    intro j' w hwriting
    obtain ⟨rfl, rfl⟩ := TaskPc.writing.inj hwriting
    refine ⟨?_, h.copying _ htask⟩
    cases b with
    | shm => rfl
    | preAllocated => exact absurd hstage h.buffer
  | write j w htask =>
    obtain ⟨hw, hpre⟩ := h.writing j w htask
    refine ⟨h.buffer, by simp, ?_, by simp, by simp⟩
    intro j' hcopying k hk
    obtain rfl := TaskPc.copying.inj hcopying
    rw [hw]
    exact update_below hpre k hk
  | copied j htask hj =>
    refine ⟨h.buffer, by simp, by simp, by simp, fun _ => ?_⟩
    funext k
    exact h.copying j htask k (k.isLt.trans_le hj)
  | activate htask =>
    exact ⟨h.buffer, fun _ => rfl, by simp, by simp, fun _ => h.copied (.inl htask)⟩
  | unstage htask =>
    exact ⟨by simp, fun _ => h.active (.inl htask), by simp, by simp,
      fun _ => h.copied (.inr (.inl htask))⟩
  | publish | unlock => exact ⟨h.buffer, by simp, by simp, by simp, by simp⟩
  | finish => exact h.congr rfl rfl rfl (.inl rfl)

theorem Copied.move (h : Copied L data) {m : Move F}
    (hm : ∀ pc data', m = .runner pc data' → data' = data) : Copied (L.move m) data := by
  by_cases hrunner : ∃ pc data', m = .runner pc data'
  · obtain ⟨pc, data', rfl⟩ := hrunner
    obtain rfl := hm pc data' rfl
    rw [Loader.move]
    split
    · exact copied_of_zone h.buffer (by simp [TaskPc.zone])
    · exact h.taskTurn pc
    · exact h.congr rfl rfl rfl (.inl rfl)
  · have hframe := move_frame L (fun pc data' heq => hrunner ⟨pc, data', heq⟩)
    exact h.congr hframe.task hframe.active hframe.pre hframe.stage

omit [DecidableEq σ] [DecidableEq ℓ] in
private theorem Settled.congr (h : Settled data s) (hdata : s'.data = s.data)
    (hstored : s'.stored = s.stored)
    (hcopying : ∀ i v j, s'.storer i = .copying v j ↔ s.storer i = .copying v j) :
    Settled data s' := by
  constructor
  · intro i v j hpc
    rw [hdata]
    exact h.copying i v j ((hcopying i v j).mp hpc)
  · intro hnone
    rw [hdata, hstored]
    exact h.newest (fun i v j hpc => hnone i v j ((hcopying i v j).mpr hpc))

omit [DecidableEq ℓ] in
private theorem Settled.setStorer (h : Settled data s) {i : σ} {x : StorePc F}
    (hold : ∀ v j, s.storer i ≠ .copying v j) (hnew : ∀ v j, x ≠ .copying v j) :
    Settled data { s with storer := Function.update s.storer i x } := by
  refine h.congr rfl rfl ?_
  intro i' v j
  by_cases heq : i' = i
  · subst heq
    refine iff_of_false ?_ (hold v j)
    simpa using hnew v j
  · simp [heq]

omit [DecidableEq σ] [DecidableEq ℓ] in
private theorem Glued.copying_unique (hglued : Glued s) {i i' : σ} {v v' : F.T} {j j' : ℕ}
    (hpc : s.storer i = .copying v j) (hpc' : s.storer i' = .copying v' j') : i' = i := by
  have hzone : s.zone (.storer i) = .inside := by simp [System.zone, hpc, StorePc.zone]
  have hzone' : s.zone (.storer i') = .inside := by simp [System.zone, hpc', StorePc.zone]
  simpa using hglued.exclusive hzone' hzone

omit [DecidableEq ℓ] in
private theorem Settled.startCopy (h : Settled data s) {i : σ} (v : F.T) :
    Settled data { s with storer := Function.update s.storer i (.copying v 0) } := by
  constructor
  · intro i' v' j' hpc
    by_cases heq : i' = i
    · subst heq
      have hcopying : StorePc.copying v 0 = .copying v' j' := by simpa using hpc
      obtain ⟨-, rfl⟩ := StorePc.copying.inj hcopying
      exact fun k hk => absurd hk (Nat.not_lt_zero k)
    · exact h.copying i' v' j' (by simpa [heq] using hpc)
  · intro hnone
    exact absurd (Function.update_self ..) (hnone i v 0)

omit [DecidableEq ℓ] in
private theorem Settled.copyWord (h : Settled data s) (hglued : Glued s) {i : σ} {v : F.T}
    {j : Fin F.words} (hpc : s.storer i = .copying v j) :
    Settled data { s with
      data := Function.update s.data j (v j)
      storer := Function.update s.storer i (.copying v (j + 1)) } := by
  constructor
  · intro i' v' j' hpc'
    by_cases heq : i' = i
    · subst heq
      have hcopying : StorePc.copying v (j + 1) = .copying v' j' := by simpa using hpc'
      obtain ⟨rfl, rfl⟩ := StorePc.copying.inj hcopying
      exact update_below (h.copying i' v j hpc)
    · have hother : s.storer i' = .copying v' j' := by simpa [heq] using hpc'
      exact absurd (hglued.copying_unique hpc hother) heq
  · intro hnone
    exact absurd (Function.update_self ..) (hnone i v (j + 1))

omit [DecidableEq ℓ] in
private theorem Settled.endCopy (h : Settled data s) (hglued : Glued s) {i : σ} {v : F.T} {j : ℕ}
    (hpc : s.storer i = .copying v j) (hj : F.words ≤ j) :
    Settled data { s with
      storer := Function.update s.storer i .unlocking
      stored := v :: s.stored } := by
  constructor
  · intro i' v' j' hpc'
    by_cases heq : i' = i
    · subst heq
      simp at hpc'
    · have hother : s.storer i' = .copying v' j' := by simpa [heq] using hpc'
      exact absurd (hglued.copying_unique hpc hother) heq
  · intro _
    funext k
    exact h.copying i v j hpc k (k.isLt.trans_le hj)

theorem Settled.step (h : Settled data s) (hglued : Glued s) (a : Action F σ ℓ) :
    Settled data (s.step a) := by
  cases a with
  | store i v =>
    rw [System.step]
    split
    · rename_i hpc
      exact h.setStorer (by simp [hpc]) (by simp)
    · exact h
  | storer i =>
    rw [System.step, System.storeTurn]
    split
    · exact h
    · rename_i v hpc
      split
      · exact h.startCopy v
      · exact h.congr rfl rfl (fun _ _ _ => Iff.rfl)
    · rename_i v j hpc
      split
      · rename_i hj
        exact h.copyWord hglued (j := ⟨j, hj⟩) hpc
      · rename_i hj
        exact h.endCopy hglued hpc (Nat.le_of_not_lt hj)
    · rename_i hpc
      split
      · exact h.setStorer (by simp [hpc]) (by simp)
      · exact h.congr rfl rfl (fun _ _ _ => Iff.rfl)
  | _ => exact h.congr rfl rfl (fun _ _ _ => Iff.rfl)

/-- What the lock gives to the callers of `store` and to the loaders. -/
structure Transfers (data : F.T) (s : System F σ ℓ) : Prop extends Glued s, Settled data s where
  copied : ∀ l, Copied (s.loader l) s.data

omit [DecidableEq σ] [DecidableEq ℓ] in
theorem Glued.copying_alone (hglued : Glued s) {i : σ} {v : F.T} {j : ℕ}
    (hpc : s.storer i = .copying v j) (l : ℓ) : (s.loader l).task.zone ≠ .inside := by
  intro hzone
  have hstorer : s.zone (.storer i) = .inside := by simp [System.zone, hpc, StorePc.zone]
  have hloader : s.zone (.loader l) = .inside := hzone
  simpa using hglued.exclusive hstorer hloader

theorem step_data (s : System F σ ℓ) (a : Action F σ ℓ) :
    (s.step a).data = s.data ∨ (∃ i v j, s.storer i = .copying v j) ∧
      ∀ l, (s.step a).loader l = s.loader l := by
  cases a with
  | store i v =>
    left
    rw [System.step]
    split <;> rfl
  | storer i =>
    rw [System.step, System.storeTurn]
    split
    · exact .inl rfl
    · split <;> exact .inl rfl
    · rename_i v j hpc
      split
      · exact .inr ⟨⟨i, v, j, hpc⟩, fun _ => rfl⟩
      · exact .inl rfl
    · split <;> exact .inl rfl
  | _ => exact .inl rfl

theorem Transfers.step (h : Transfers data s) (a : Action F σ ℓ) : Transfers data (s.step a) := by
  refine ⟨h.toGlued.step a, h.toSettled.step h.toGlued a, ?_⟩
  intro l
  rcases step_data s a with hdata | ⟨⟨i, v, j, hpc⟩, hloader⟩
  · rw [hdata]
    rcases step_loader s a l with heq | ⟨m, heq, -, hfinds⟩
    · rw [heq]
      exact h.copied l
    · rw [heq]
      apply (h.copied l).move
      rintro pc data' rfl
      exact hfinds.2
  · rw [hloader l]
    exact copied_of_zone (h.copied l).buffer (h.toGlued.copying_alone hpc l)

omit [DecidableEq σ] [DecidableEq ℓ] in
theorem transfers_initial (data : F.T) : Transfers data (System.initial σ ℓ data) := by
  refine ⟨glued_initial data, ⟨by simp [System.initial], fun _ => rfl⟩, ?_⟩
  intro l
  exact copied_of_zone (by simp [System.initial, Loader.initial]) (by simp [System.initial, Loader.initial, TaskPc.zone])

end Transfers

end SafeShm.DoubleBuffer
