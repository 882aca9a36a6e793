import SafeShm.StateMachines
import Mathlib.Order.Nat

/-!
# The background runner

`SwapRunner`: clients call `trigger()` and `wait()`, one thread executes the task. The two sides
share the words `triggered_` and `idle_`. A wait on a word compares it and goes to sleep in one
step; it ends when the word is notified, or spuriously, and then compares again.

The counters `stores`, `started`, `ended`, `armed` and `pairs` record the history of the run; no
step depends on them.
-/

namespace SafeShm.SwapRunner
open StateMachines

/-- The next access of a client: in `trigger()` the stores to `idle_` and to `triggered_` and its
`notify_one`; in `wait()` the comparison of `idle_.wait(0)`, where it may be asleep. -/
inductive ClientPc where
  | outside
  | clearing
  | setting
  | notifying
  | waiting
  | asleep
  deriving DecidableEq

/-- The next access of the thread that executes `run`: the condition of the loop;
`triggered_.wait(0)`, where it compares or is asleep; the test for a stop request;
`triggered_.store(0)`; the call of `task_()`, the task itself, and `log_` after an exception of it;
`idle_.store(1)` and its `notify_all`, in the loop and once more after it (`closing`, `releasing`).
-/
inductive RunnerPc where
  | testing
  | waiting
  | asleep
  | retesting
  | clearing
  | calling
  | running
  | logging
  | announcing
  | notifying
  | closing
  | releasing
  | left
  deriving DecidableEq

/-- How far a request to stop has come. Its callback runs on the thread that makes it: after the
request it stores 1 to `triggered_`, and then it notifies. -/
inductive StopPc where
  | none
  | requested
  | stored
  | finished
  deriving DecidableEq

/-- The shared words and the places of the threads. Of a run, `stores` counts the stores of
`trigger()` to `triggered_`, `started` and `ended` count the executions of the task, and `pairs`
those calls of `wait()` that came directly after a `trigger()` and have returned; a client is
`armed` if its last call is a `trigger()` that has stored to `idle_`. -/
structure State (κ : Type) where
  triggered : BitVec 32
  idle : BitVec 32
  client : κ → ClientPc
  runner : RunnerPc
  stop : StopPc
  stores : ℕ
  started : ℕ
  ended : ℕ
  armed : κ → Bool
  pairs : κ → ℕ

def initial (κ : Type) : State κ :=
  ⟨0, 1, fun _ => .outside, .testing, .none, 0, 0, 0, fun _ => false, fun _ => 0⟩

variable {κ : Type} [DecidableEq κ]

def State.goto (s : State κ) (c : κ) (p : ClientPc) : State κ :=
  { s with client := Function.update s.client c p }

/-- A sleeper that is notified, or wakes up spuriously, compares again. -/
def ClientPc.roused : ClientPc → ClientPc
  | .asleep => .waiting
  | p => p

def RunnerPc.roused : RunnerPc → RunnerPc
  | .asleep => .waiting
  | p => p

def State.returned (s : State κ) (c : κ) : State κ :=
  { (s.goto c .outside) with
    armed := Function.update s.armed c false
    pairs := Function.update s.pairs c (s.pairs c + (s.armed c).toNat) }

def State.clientTurn (s : State κ) (c : κ) : State κ :=
  match s.client c with
  | .clearing => { (s.goto c .setting) with idle := 0, armed := Function.update s.armed c true }
  | .setting => { (s.goto c .notifying) with triggered := 1, stores := s.stores + 1 }
  | .notifying => { (s.goto c .outside) with runner := s.runner.roused }
  | .waiting => if s.idle ≠ 0 then s.returned c else s.goto c .asleep
  | _ => s

/-- The next access of the runner, outside the task. -/
def State.runnerTurn (s : State κ) : State κ :=
  match s.runner with
  | .testing => { s with runner := if s.stop ≠ .none then .closing else .waiting }
  | .waiting => { s with runner := if s.triggered ≠ 0 then .retesting else .asleep }
  | .retesting => { s with runner := if s.stop ≠ .none then .closing else .clearing }
  | .clearing => { s with triggered := 0, runner := .calling }
  | .calling => { s with runner := .running, started := s.started + 1 }
  | .logging => { s with runner := .announcing }
  | .announcing => { s with idle := 1, runner := .notifying }
  | .notifying => { s with client := fun c => (s.client c).roused, runner := .testing }
  | .closing => { s with idle := 1, runner := .releasing }
  | .releasing => { s with client := fun c => (s.client c).roused, runner := .left }
  | _ => s

/-- The calls and the next access of a client, the next access of the runner, the end of the task,
the spurious wake-ups, and the destruction of the runner, which requests a stop, with the next
access of the stop callback. -/
inductive Action (κ : Type) where
  | trigger (c : κ)
  | wait (c : κ)
  | client (c : κ)
  | runner
  | finish (threw : Bool)
  | spuriousClient (c : κ)
  | spuriousRunner
  | requestStop
  | callback
  deriving DecidableEq

def step (s : State κ) : Action κ → State κ
  | .trigger c => if s.client c = .outside then s.goto c .clearing else s
  | .wait c => if s.client c = .outside then s.goto c .waiting else s
  | .client c => s.clientTurn c
  | .runner => s.runnerTurn
  | .finish threw =>
      if s.runner = .running then
        { s with runner := if threw then .logging else .announcing, ended := s.ended + 1 }
      else s
  | .spuriousClient c => s.goto c (s.client c).roused
  | .spuriousRunner => { s with runner := s.runner.roused }
  | .requestStop => if s.stop = .none then { s with stop := .requested } else s
  | .callback =>
      match s.stop with
      | .requested => { s with triggered := 1, stop := .stored }
      | .stored => { s with runner := s.runner.roused, stop := .finished }
      | _ => s

/-- The runner has taken a trigger and has not yet announced the end of its run. -/
def RunnerPc.Busy (p : RunnerPc) : Prop :=
  p = .calling ∨ p = .running ∨ p = .logging ∨ p = .announcing

section Steps
variable {s : State κ} {a : Action κ} {c : κ} {p : ClientPc}

private theorem roused_busy_iff (p : RunnerPc) : p.roused.Busy ↔ p.Busy := by
  cases p <;> simp [RunnerPc.roused, RunnerPc.Busy]

private theorem roused_setting_iff (p : ClientPc) : p.roused = .setting ↔ p = .setting := by
  cases p <;> simp [ClientPc.roused]

private theorem exists_goto {q : ClientPc} (hc : s.client c ≠ q) (h : ∃ c', s.client c' = q) :
    ∃ c', (s.goto c p).client c' = q := by
  obtain ⟨c', hc'⟩ := h
  have hne : c' ≠ c := by
    rintro rfl
    exact hc hc'
  exact ⟨c', (Function.update_of_ne hne ..).trans hc'⟩

/-- What a step can do to the words, the runner and the counters. The places of the clients and
what is recorded about them are left open. -/
inductive Effect (s : State κ) : State κ → Prop where
  | client (f : κ → ClientPc) (g : κ → Bool) (h : κ → ℕ) :
      Effect s { s with client := f, armed := g, pairs := h }
  | rouse (f : κ → ClientPc) : Effect s { s with client := f, runner := s.runner.roused }
  | lower (f : κ → ClientPc) (g : κ → Bool) : Effect s { s with client := f, armed := g, idle := 0 }
  | raise (f : κ → ClientPc) :
      Effect s { s with client := f, triggered := 1, stores := s.stores + 1 }
  | test (hpc : s.runner = .testing) (hstop : s.stop = .none) : Effect s { s with runner := .waiting }
  | see (hpc : s.runner = .waiting) (htriggered : s.triggered ≠ 0) :
      Effect s { s with runner := .retesting }
  | sleep (hpc : s.runner = .waiting) : Effect s { s with runner := .asleep }
  | retest (hpc : s.runner = .retesting) (hstop : s.stop = .none) :
      Effect s { s with runner := .clearing }
  | take (hpc : s.runner = .clearing) : Effect s { s with triggered := 0, runner := .calling }
  | call (hpc : s.runner = .calling) :
      Effect s { s with runner := .running, started := s.started + 1 }
  | finish (p : RunnerPc) (hpc : s.runner = .running) (hp : p = .logging ∨ p = .announcing) :
      Effect s { s with runner := p, ended := s.ended + 1 }
  | log (hpc : s.runner = .logging) : Effect s { s with runner := .announcing }
  | announce (hpc : s.runner = .announcing) : Effect s { s with idle := 1, runner := .notifying }
  | notify (f : κ → ClientPc) (hpc : s.runner = .notifying) :
      Effect s { s with client := f, runner := .testing }
  | close (hpc : s.runner = .testing ∨ s.runner = .retesting) (hstop : s.stop ≠ .none) :
      Effect s { s with runner := .closing }
  | leave (hpc : s.runner = .closing) : Effect s { s with idle := 1, runner := .releasing }
  | left (f : κ → ClientPc) (hpc : s.runner = .releasing) :
      Effect s { s with client := f, runner := .left }
  | callback (hstop : s.stop = .requested) : Effect s { s with triggered := 1, stop := .stored }
  | released (hstop : s.stop = .stored) :
      Effect s { s with runner := s.runner.roused, stop := .finished }

private theorem clientTurn_effect (s : State κ) (c : κ) : Effect s (s.clientTurn c) := by
  rw [State.clientTurn]
  split
  · exact .lower _ _
  · exact .raise _
  · exact .rouse _
  · split
    · exact .client _ _ _
    · exact .client _ _ _
  · exact .client _ _ _

omit [DecidableEq κ] in
private theorem runnerTurn_effect (s : State κ) : Effect s s.runnerTurn := by
  rw [State.runnerTurn]
  split
  · rename_i hpc
    split
    · exact .close (.inl hpc) ‹_›
    · exact .test hpc (not_not.mp ‹_›)
  · rename_i hpc
    split
    · exact .see hpc ‹_›
    · exact .sleep hpc
  · rename_i hpc
    split
    · exact .close (.inr hpc) ‹_›
    · exact .retest hpc (not_not.mp ‹_›)
  · exact .take ‹_›
  · exact .call ‹_›
  · exact .log ‹_›
  · exact .announce ‹_›
  · exact .notify _ ‹_›
  · exact .leave ‹_›
  · exact .left _ ‹_›
  · exact .client _ _ _

theorem step_effect (s : State κ) {a : Action κ} (ha : a ≠ .requestStop) : Effect s (step s a) := by
  cases a with
  | trigger c | wait c =>
    rw [step]
    split <;> exact .client _ _ _
  | client c => exact clientTurn_effect s c
  | runner => exact runnerTurn_effect s
  | finish threw =>
    rw [step]
    split
    · rename_i hpc
      exact .finish _ hpc (by cases threw <;> simp)
    · exact .client _ _ _
  | spuriousClient c => exact .client _ _ _
  | spuriousRunner => exact .rouse _
  | requestStop => exact absurd rfl ha
  | callback =>
    rw [step]
    split
    · exact .callback ‹_›
    · exact .released ‹_›
    · exact .client _ _ _

theorem RunnerPc.roused_eq_iff {p q : RunnerPc} (hasleep : q ≠ .asleep) (hwaiting : q ≠ .waiting) :
    p.roused = q ↔ p = q := by
  cases p <;> simp_all [RunnerPc.roused, eq_comm]

/-- The control of a run without a stop request. Only the runner clears `triggered_`. -/
structure InLoop (s : State κ) : Prop where
  stop : s.stop = .none
  runner : s.runner ≠ .closing ∧ s.runner ≠ .releasing ∧ s.runner ≠ .left
  seen : s.runner = .retesting ∨ s.runner = .clearing → s.triggered ≠ 0

theorem InLoop.step (h : InLoop s) (ha : a ≠ .requestStop) : InLoop (step s a) := by
  obtain ⟨hstop, hrunner, hseen⟩ := h
  have heffect := step_effect s ha
  generalize SwapRunner.step s a = s' at heffect ⊢
  cases heffect with
  | client | lower => exact ⟨hstop, hrunner, hseen⟩
  | rouse =>
    refine ⟨hstop, ?_, ?_⟩
    · simpa [RunnerPc.roused_eq_iff] using hrunner
    · simpa [RunnerPc.roused_eq_iff] using hseen
  | raise => exact ⟨hstop, hrunner, fun _ => by simp⟩
  | see _ htriggered => exact ⟨hstop, by simp, fun _ => htriggered⟩
  | retest hpc => exact ⟨hstop, by simp, fun _ => hseen (.inl hpc)⟩
  | finish p _ hp => exact ⟨hstop, by rcases hp with rfl | rfl <;> simp, by rcases hp with rfl | rfl <;> simp⟩
  | test | sleep | take | call | log | announce | notify => exact ⟨hstop, by simp, by simp⟩
  | close _ hne => exact absurd hstop hne
  | leave hpc => exact absurd hpc hrunner.1
  | left _ hpc => exact absurd hpc hrunner.2.1
  | callback hrequested => exact absurd (hstop.symm.trans hrequested) (by simp)
  | released hstored => exact absurd (hstop.symm.trans hstored) (by simp)

/-- Every execution has taken a store of its own, and executions follow one another. -/
structure Counted (s : State κ) : Prop where
  taken : s.started + (if s.runner = .calling then 1 else 0) +
    (if s.triggered ≠ 0 then 1 else 0) ≤ s.stores
  ended : s.started = s.ended + if s.runner = .running then 1 else 0

theorem Counted.step (h : Counted s) (hloop : InLoop s) (ha : a ≠ .requestStop) :
    Counted (step s a) := by
  obtain ⟨htaken, hended⟩ := h
  have heffect := step_effect s ha
  generalize SwapRunner.step s a = s' at heffect ⊢
  cases heffect with
  | client | lower => exact ⟨htaken, hended⟩
  | rouse =>
    constructor
    · simpa [RunnerPc.roused_eq_iff] using htaken
    · simpa [RunnerPc.roused_eq_iff] using hended
  | raise =>
    refine ⟨?_, hended⟩
    simp only [ne_eq, show ¬ (1 : BitVec 32) = 0 by decide, not_false_iff, if_true]
    omega
  | take hpc =>
    have hseen := hloop.seen (.inr hpc)
    simp only [hpc, if_pos hseen] at htaken hended
    exact ⟨by simpa using htaken, by simpa using hended⟩
  | call hpc =>
    simp only [hpc] at htaken hended
    exact ⟨by simpa using htaken, by simpa using hended⟩
  | finish p hpc hp =>
    simp only [hpc] at htaken hended
    rcases hp with rfl | rfl
    · exact ⟨by simpa using htaken, by simpa using hended⟩
    · exact ⟨by simpa using htaken, by simpa using hended⟩
  | test hpc | see hpc | sleep hpc | retest hpc | log hpc | announce hpc | notify _ hpc =>
    simp only [hpc] at htaken hended
    exact ⟨by simpa using htaken, by simpa using hended⟩
  | close _ hne => exact absurd hloop.stop hne
  | leave hpc => exact absurd hpc hloop.runner.1
  | left _ hpc => exact absurd hpc hloop.runner.2.1
  | callback hrequested => exact absurd (hloop.stop.symm.trans hrequested) (by simp)
  | released hstored => exact absurd (hloop.stop.symm.trans hstored) (by simp)

/-- While `idle_` is 0, its next store of 1 is on its way. -/
structure Owed (s : State κ) : Prop where
  idle : s.idle = 0 ∨ s.idle = 1
  owed : s.idle = 0 → (∃ c, s.client c = .setting) ∨ s.triggered ≠ 0 ∨ s.runner.Busy

private theorem Owed.clientTurn (h : Owed s) : Owed (s.clientTurn c) := by
  rw [State.clientTurn]
  cases hpc : s.client c with
  | clearing => exact ⟨.inl rfl, fun _ => .inl ⟨c, Function.update_self ..⟩⟩
  | setting => exact ⟨h.idle, fun _ => .inr (.inl (by simp))⟩
  | notifying =>
    refine ⟨h.idle, fun hidle => ?_⟩
    rw [roused_busy_iff]
    exact (h.owed hidle).imp_left (exists_goto (by simp [hpc]))
  | waiting =>
    dsimp only
    split
    · exact ⟨h.idle, fun hidle => (h.owed hidle).imp_left (exists_goto (by simp [hpc]))⟩
    · exact ⟨h.idle, fun hidle => (h.owed hidle).imp_left (exists_goto (by simp [hpc]))⟩
  | outside => exact h
  | asleep => exact h

omit [DecidableEq κ] in
private theorem Owed.runnerTurn (h : Owed s) (hloop : InLoop s) : Owed (s.runnerTurn) := by
  rw [State.runnerTurn]
  cases hpc : s.runner with
  | notifying =>
    refine ⟨h.idle, fun hidle => ?_⟩
    simpa [hpc, RunnerPc.Busy, roused_setting_iff] using h.owed hidle
  | announcing => exact ⟨.inr rfl, fun hidle => absurd (show (1 : BitVec 32) = 0 from hidle) (by decide)⟩
  | closing => exact ⟨.inr rfl, fun hidle => absurd (show (1 : BitVec 32) = 0 from hidle) (by decide)⟩
  | releasing => exact absurd hpc hloop.runner.2.1
  | clearing => exact ⟨h.idle, fun _ => .inr (.inr (by simp [RunnerPc.Busy]))⟩
  | calling => exact ⟨h.idle, fun _ => .inr (.inr (by simp [RunnerPc.Busy]))⟩
  | logging => exact ⟨h.idle, fun _ => .inr (.inr (by simp [RunnerPc.Busy]))⟩
  | testing | waiting | retesting =>
    refine ⟨h.idle, fun hidle => (h.owed hidle).imp_right (fun hor => .inl ?_)⟩
    simpa [hpc, RunnerPc.Busy] using hor
  | asleep => exact h
  | running => exact h
  | left => exact h

theorem Owed.step (h : Owed s) (hloop : InLoop s) (ha : a ≠ .requestStop) :
    Owed (step s a) := by
  cases a with
  | trigger c =>
    rw [SwapRunner.step]
    split
    · rename_i hpc
      exact ⟨h.idle, fun hidle => (h.owed hidle).imp_left (exists_goto (by simp [hpc]))⟩
    · exact h
  | wait c =>
    rw [SwapRunner.step]
    split
    · rename_i hpc
      exact ⟨h.idle, fun hidle => (h.owed hidle).imp_left (exists_goto (by simp [hpc]))⟩
    · exact h
  | client c => exact h.clientTurn
  | runner => exact h.runnerTurn hloop
  | finish threw =>
    rw [SwapRunner.step]
    split
    · exact ⟨h.idle, fun _ => .inr (.inr (by cases threw <;> simp [RunnerPc.Busy]))⟩
    · exact h
  | spuriousClient c =>
    refine ⟨h.idle, fun hidle => (h.owed hidle).imp_left ?_⟩
    rintro ⟨c', hc'⟩
    refine ⟨c', ?_⟩
    by_cases heq : c' = c
    · subst heq
      simp [SwapRunner.step, State.goto, hc', ClientPc.roused]
    · exact (Function.update_of_ne heq ..).trans hc'
  | spuriousRunner =>
    refine ⟨h.idle, fun hidle => ?_⟩
    rw [show (SwapRunner.step s .spuriousRunner).runner = s.runner.roused from rfl, roused_busy_iff]
    exact h.owed hidle
  | requestStop => exact absurd rfl ha
  | callback =>
    rw [SwapRunner.step, hloop.stop]
    exact h

def RunnerPc.unannounced : RunnerPc → ℕ
  | .logging | .announcing => 1
  | _ => 0

private theorem roused_unannounced (p : RunnerPc) : p.roused.unannounced = p.unannounced := by
  cases p <;> rfl

/-- The announcement that the next return of `wait()` will use up. -/
def credit (armed : Bool) (idle : BitVec 32) : ℕ := if idle = 0 then 0 else armed.toNat

private theorem credit_le_one (armed : Bool) (idle : BitVec 32) : credit armed idle ≤ 1 := by
  rw [credit]
  split
  · exact Nat.zero_le 1
  · exact Bool.toNat_le armed

/-- A client has made no more pairs than executions have been announced. -/
def Paired (c : κ) (s : State κ) : Prop :=
  s.pairs c + credit (s.armed c) s.idle + s.runner.unannounced ≤ s.ended

private theorem Paired.clientTurn (h : Paired c s) {c' : κ} : Paired c (s.clientTurn c') := by
  rw [Paired] at h ⊢
  rw [State.clientTurn]
  cases s.client c' with
  | clearing =>
    have hzero : credit (Function.update s.armed c' true c) 0 = 0 := rfl
    simp only [State.goto, hzero]
    omega
  | notifying =>
    simp only [State.goto, roused_unannounced]
    exact h
  | waiting =>
    dsimp only
    split
    · rename_i hidle
      by_cases hc : c = c'
      · subst hc
        have hcredit : credit (s.armed c) s.idle = (s.armed c).toNat := if_neg hidle
        have hfalse : credit false s.idle = 0 := if_neg hidle
        simp only [State.returned, State.goto, Function.update_self, hfalse]
        omega
      · simpa [State.returned, State.goto, hc] using h
    · exact h
  | outside | setting | asleep => exact h

omit [DecidableEq κ] in
private theorem Paired.runnerTurn (h : Paired c s) (hloop : InLoop s) : Paired c s.runnerTurn := by
  rw [Paired] at h ⊢
  rw [State.runnerTurn]
  cases hpc : s.runner with
  | announcing =>
    have hle := credit_le_one (s.armed c) 1
    simp only [hpc, RunnerPc.unannounced] at h ⊢
    omega
  | closing => exact absurd hpc hloop.runner.1
  | releasing => exact absurd hpc hloop.runner.2.1
  | testing | waiting | retesting =>
    simp only [hpc] at h ⊢
    split <;> exact h
  | _ => simpa [hpc, RunnerPc.unannounced] using h

theorem Paired.step (h : Paired c s) (hloop : InLoop s) (ha : a ≠ .requestStop) : Paired c (step s a) := by
  cases a with
  | client c' => exact h.clientTurn
  | runner => exact h.runnerTurn hloop
  | finish threw =>
    rw [SwapRunner.step]
    split
    · rename_i hpc
      rw [Paired, hpc] at h
      cases threw <;> simpa [Paired, RunnerPc.unannounced] using h
    · exact h
  | spuriousRunner =>
    rw [Paired] at h ⊢
    simp only [SwapRunner.step, roused_unannounced]
    exact h
  | requestStop => exact absurd rfl ha
  | callback =>
    rw [SwapRunner.step, hloop.stop]
    exact h
  | trigger c' | wait c' =>
    rw [SwapRunner.step]
    split <;> exact h
  | spuriousClient c' => exact h

/-- Since a store to `triggered_`, made after `n` executions had started, another one has
started, or will. -/
def Followed (n : ℕ) (s : State κ) : Prop :=
  n ≤ s.started ∧ (n < s.started ∨ s.triggered ≠ 0 ∨ s.runner = .calling)

theorem Followed.step {n : ℕ} (h : Followed n s) : Followed n (step s a) := by
  by_cases ha : a = .requestStop
  · rw [ha, SwapRunner.step]
    split <;> exact h
  obtain ⟨hle, hor⟩ := h
  have heffect := step_effect s ha
  generalize SwapRunner.step s a = s' at heffect ⊢
  cases heffect with
  | client | lower => exact ⟨hle, hor⟩
  | rouse | released => exact ⟨hle, by simpa [RunnerPc.roused_eq_iff] using hor⟩
  | raise | callback => exact ⟨hle, .inr (.inl (by simp))⟩
  | take => exact ⟨hle, .inr (.inr rfl)⟩
  | call => exact ⟨Nat.le_succ_of_le hle, .inl (Nat.lt_succ_of_le hle)⟩
  | finish _ hpc | test hpc | see hpc | sleep hpc | retest hpc | log hpc | announce hpc
  | notify _ hpc | leave hpc | left _ hpc =>
    exact ⟨hle, hor.imp_right (.imp_right (fun hcalling => absurd (hpc.symm.trans hcalling) (by simp)))⟩
  | close hpc =>
    refine ⟨hle, hor.imp_right (.imp_right (fun hcalling => ?_))⟩
    rcases hpc with hpc | hpc <;> exact absurd (hpc.symm.trans hcalling) (by simp)

def RunnerPc.Executing (p : RunnerPc) : Prop :=
  p = .running ∨ p = .logging ∨ p = .announcing

instance (p : RunnerPc) : Decidable p.Executing := inferInstanceAs (Decidable (_ ∨ _ ∨ _))

/-- An execution after the first `n` has ended, or `idle_` stays 0 until it has. -/
def Served (n : ℕ) (s : State κ) : Prop :=
  n < s.ended ∨ s.idle = 0 ∧ n ≤ s.started ∧ (n < s.started ∨ ¬ s.runner.Executing)

theorem Served.step {n : ℕ} (h : Served n s) (hcount : Counted s) (hloop : InLoop s)
    (ha : a ≠ .requestStop) : Served n (step s a) := by
  have heffect := step_effect s ha
  generalize SwapRunner.step s a = s' at heffect ⊢
  rcases h with hdone | ⟨hidle, hle, hor⟩
  · left
    cases heffect with
    | finish => exact Nat.lt_succ_of_lt hdone
    | _ => exact hdone
  have hended := hcount.ended
  cases heffect with
  | client | raise => exact .inr ⟨hidle, hle, hor⟩
  | lower => exact .inr ⟨rfl, hle, hor⟩
  | rouse =>
    refine .inr ⟨hidle, hle, ?_⟩
    simpa [RunnerPc.Executing, RunnerPc.roused_eq_iff] using hor
  | call => exact .inr ⟨hidle, Nat.le_succ_of_le hle, .inl (Nat.lt_succ_of_le hle)⟩
  | finish p hpc =>
    left
    rw [hpc, if_pos rfl] at hended
    have hlt := hor.resolve_right (not_not_intro (.inl hpc))
    exact hended ▸ hlt
  | log hpc =>
    exact .inr ⟨hidle, hle, .inl (hor.resolve_right (not_not_intro (.inr (.inl hpc))))⟩
  | announce hpc =>
    -- an execution that is announced has ended, and started after the first `n`
    left
    rw [hpc, if_neg (by simp)] at hended
    have hstarted := hor.resolve_right (not_not_intro (.inr (.inr hpc)))
    have hlt : n < s.ended := by omega
    exact hlt
  | test | see | sleep | retest | take | notify =>
    exact .inr ⟨hidle, hle, .inr (by simp [RunnerPc.Executing])⟩
  | close _ hne => exact absurd hloop.stop hne
  | leave hpc => exact absurd hpc hloop.runner.1
  | left _ hpc => exact absurd hpc hloop.runner.2.1
  | callback hrequested => exact absurd (hloop.stop.symm.trans hrequested) (by simp)
  | released hstored => exact absurd (hloop.stop.symm.trans hstored) (by simp)

/-- Nobody sleeps through a notification that has been made. -/
structure Notified (s : State κ) : Prop where
  client : ∀ c, s.client c = .asleep → s.idle ≠ 0 → s.runner = .notifying
  thread : s.runner = .asleep → s.triggered ≠ 0 → ∃ c, s.client c = .notifying

private theorem Notified.goto (h : Notified s) (hc : s.client c ≠ .notifying)
    (hp : p = .asleep → s.idle ≠ 0 → s.runner = .notifying) : Notified (s.goto c p) := by
  refine ⟨?_, fun hrunner htriggered => exists_goto hc (h.thread hrunner htriggered)⟩
  intro c' hc' hidle
  by_cases heq : c' = c
  · subst heq
    apply hp _ hidle
    simpa [State.goto] using hc'
  · exact h.client c' ((Function.update_of_ne heq ..).symm.trans hc') hidle

private theorem Notified.clientTurn (h : Notified s) : Notified (s.clientTurn c) := by
  rw [State.clientTurn]
  cases hpc : s.client c with
  | clearing =>
    have hgoto := h.goto (c := c) (p := .setting) (by simp [hpc]) (by simp)
    exact ⟨fun _ _ hidle => absurd rfl hidle, hgoto.thread⟩
  | setting =>
    have hgoto := h.goto (c := c) (p := .notifying) (by simp [hpc]) (by simp)
    exact ⟨hgoto.client, fun _ _ => ⟨c, Function.update_self ..⟩⟩
  | notifying =>
    constructor
    · intro c' hc' hidle
      have hne : c' ≠ c := by
        rintro rfl
        simp [State.goto] at hc'
      have hrunner := h.client c' ((Function.update_of_ne hne ..).symm.trans hc') hidle
      simp [hrunner, RunnerPc.roused]
    · intro hrunner
      cases hr : s.runner <;> simp [hr, RunnerPc.roused] at hrunner
  | waiting =>
    dsimp only
    split
    · have hgoto := h.goto (c := c) (p := .outside) (by simp [hpc]) (by simp)
      exact ⟨hgoto.client, hgoto.thread⟩
    · rename_i hidle
      exact h.goto (by simp [hpc]) (fun _ hne => absurd hne hidle)
  | outside => exact h
  | asleep => exact h

omit [DecidableEq κ] in
private theorem Notified.runnerTurn (h : Notified s) (hloop : InLoop s) :
    Notified s.runnerTurn := by
  have hnone : s.runner ≠ .notifying → ∀ c, s.client c = .asleep → ¬ s.idle ≠ 0 :=
    fun hpc c hc hidle => hpc (h.client c hc hidle)
  rw [State.runnerTurn]
  cases hpc : s.runner with
  | waiting =>
    refine ⟨fun c hc hidle => absurd hidle (hnone (by simp [hpc]) c hc), ?_⟩
    intro hrunner htriggered
    have hne : s.triggered ≠ 0 := htriggered
    have hasleep : (if s.triggered ≠ 0 then RunnerPc.retesting else .asleep) = .asleep := hrunner
    rw [if_pos hne] at hasleep
    exact absurd hasleep (by simp)
  | announcing => exact ⟨fun _ _ _ => rfl, by simp⟩
  | notifying =>
    refine ⟨?_, by simp⟩
    intro c hc
    cases hc' : s.client c <;> simp [hc', ClientPc.roused] at hc
  | closing => exact absurd hpc hloop.runner.1
  | releasing => exact absurd hpc hloop.runner.2.1
  | testing | retesting =>
    refine ⟨fun c hc hidle => absurd hidle (hnone (by simp [hpc]) c hc), ?_⟩
    intro hrunner
    simp [hloop.stop] at hrunner
  | clearing | calling | logging =>
    exact ⟨fun c hc hidle => absurd hidle (hnone (by simp [hpc]) c hc), by simp⟩
  | asleep => exact h
  | running => exact h
  | left => exact h

theorem Notified.step (h : Notified s) (hloop : InLoop s) (ha : a ≠ .requestStop) :
    Notified (step s a) := by
  cases a with
  | trigger c | wait c =>
    rw [SwapRunner.step]
    split
    · rename_i hpc
      exact h.goto (by simp [hpc]) (by simp)
    · exact h
  | client c => exact h.clientTurn
  | runner => exact h.runnerTurn hloop
  | finish threw =>
    rw [SwapRunner.step]
    split
    · rename_i hpc
      refine ⟨?_, by cases threw <;> simp⟩
      intro c hc hidle
      have hrunner := h.client c hc hidle
      rw [hpc] at hrunner
      simp at hrunner
    · exact h
  | spuriousClient c =>
    rw [SwapRunner.step]
    by_cases hpc : s.client c = .asleep
    · exact h.goto (by simp [hpc]) (by simp [hpc, ClientPc.roused])
    · have hsame : (s.client c).roused = s.client c := by
        cases hc : s.client c <;> simp_all [ClientPc.roused]
      rw [hsame, State.goto, Function.update_eq_self]
      exact h
  | spuriousRunner =>
    constructor
    · intro c hc hidle
      simp [SwapRunner.step, h.client c hc hidle, RunnerPc.roused]
    · intro hrunner
      cases hr : s.runner <;> simp [SwapRunner.step, hr, RunnerPc.roused] at hrunner
  | requestStop => exact absurd rfl ha
  | callback =>
    rw [SwapRunner.step, hloop.stop]
    exact h

/-- What holds in every state of a run without a stop request. -/
structure Sound (s : State κ) : Prop extends InLoop s, Counted s, Owed s, Notified s where
  paired : ∀ c, Paired c s

theorem Sound.step (h : Sound s) (ha : a ≠ .requestStop) : Sound (step s a) where
  toInLoop := h.toInLoop.step ha
  toCounted := h.toCounted.step h.toInLoop ha
  toOwed := h.toOwed.step h.toInLoop ha
  toNotified := h.toNotified.step h.toInLoop ha
  paired c := (h.paired c).step h.toInLoop ha

omit [DecidableEq κ] in
theorem sound_initial : Sound (initial κ) := by
  refine ⟨⟨rfl, by simp [initial], by simp [initial]⟩, ⟨by simp [initial], rfl⟩, ⟨.inr rfl, ?_⟩, ?_, ?_⟩
  · simp [initial]
  · constructor <;> simp [initial]
  · simp [Paired, initial, credit, RunnerPc.unannounced]

end Steps

section Runs
variable {acts : ℕ → Action κ} {c : κ} {t : ℕ}

def StoresTrigger (s : State κ) (a : Action κ) (c : κ) : Prop :=
  a = .client c ∧ s.client c = .setting

/-- The call of `wait()` by client `c` returns. -/
def WaitReturns (s : State κ) (a : Action κ) (c : κ) : Prop :=
  a = .client c ∧ s.client c = .waiting ∧ s.idle ≠ 0

def Parked (s : State κ) : Prop :=
  (s.runner = .waiting ∨ s.runner = .asleep) ∧ s.triggered = 0

instance (s : State κ) (a : Action κ) : Decidable (StoresTrigger s a c) :=
  inferInstanceAs (Decidable (_ ∧ _))

instance (s : State κ) (a : Action κ) : Decidable (WaitReturns s a c) :=
  inferInstanceAs (Decidable (_ ∧ _ ∧ _))

instance (s : State κ) : Decidable (Parked s) := inferInstanceAs (Decidable (_ ∧ _))

theorem sound_after (hstop : ∀ t' < t, acts t' ≠ .requestStop) :
    Sound (after step (initial κ) acts t) :=
  after_invariant_of (C := fun _ a => a ≠ .requestStop) sound_initial (fun _ _ ha h => h.step ha)
    hstop

/-- No trigger is lost and no waiter is stranded. -/
theorem triggers_counted (acts : ℕ → Action κ) (t : ℕ)
    (hstop : ∀ t' < t, acts t' ≠ .requestStop) :
    let s := after step (initial κ) acts t
    s.started ≤ s.stores ∧ (∀ c, s.pairs c ≤ s.started) ∧
      (Parked s → (∀ c, s.client c ≠ .setting) → s.idle = 1 ∧
        ∀ t' < t, ∀ c, StoresTrigger (after step (initial κ) acts t') (acts t') c →
          (after step (initial κ) acts t').started < s.started) := by
  intro s
  have h : Sound s := sound_after hstop
  have htaken := h.taken
  have hended := h.ended
  refine ⟨by omega, ?_, ?_⟩
  · intro c
    have hpaired := h.paired c
    rw [Paired] at hpaired
    omega
  · rintro ⟨hrunner, htriggered⟩ hsetting
    constructor
    · rcases h.idle with hzero | hone
      · rcases h.owed hzero with ⟨c, hc⟩ | hor
        · exact absurd hc (hsetting c)
        · rcases hrunner with hpc | hpc <;> simp [htriggered, hpc, RunnerPc.Busy] at hor
      · exact hone
    · rintro t' ht' c ⟨hact, hpc⟩
      have hnow : Followed (after step (initial κ) acts t').started
          (after step (initial κ) acts (t' + 1)) := by
        rw [after, hact]
        simp [Followed, step, State.clientTurn, hpc, State.goto]
      have hlater : Followed (after step (initial κ) acts t').started s :=
        after_invariant_from ht' hnow (fun _ _ h => h.step)
      obtain ⟨-, hlt | hor⟩ := hlater
      · exact hlt
      · rcases hrunner with hpc | hpc <;> simp [htriggered, hpc] at hor

/-- Nobody sleeps through a notification: a client sleeps while `idle_` is set only before the
call of `notify_all`, the runner sleeps on a trigger only before a call of `notify_one`. -/
theorem sleepers_notified (acts : ℕ → Action κ) (t : ℕ)
    (hstop : ∀ t' < t, acts t' ≠ .requestStop) : Notified (after step (initial κ) acts t) :=
  (sound_after hstop).toNotified

private theorem served_after {t₁ t₂ : ℕ} (hlt : t₁ < t₂)
    (hstop : ∀ t < t₂, acts t ≠ .requestStop)
    (htrigger : StoresTrigger (after step (initial κ) acts t₁) (acts t₁) c)
    (hidle : (after step (initial κ) acts t₁).idle = 0)
    (hrunner : ¬ (after step (initial κ) acts t₁).runner.Executing) :
    Served (after step (initial κ) acts t₁).started (after step (initial κ) acts t₂) := by
  induction t₂, hlt using Nat.le_induction with
  | base =>
    obtain ⟨hact, hpc⟩ := htrigger
    rw [after, hact]
    simp [Served, step, State.clientTurn, hpc, State.goto, hidle, hrunner]
  | succ t hle ih =>
    have hstop' : ∀ t' < t, acts t' ≠ .requestStop := fun t' ht' => hstop t' (by omega)
    have hsound := sound_after hstop'
    exact (ih hstop').step hsound.toCounted hsound.toInLoop (hstop t (by omega))

/-- A `wait()` that returns after a `trigger()` of the same client has waited for an execution
that started after the trigger, if the trigger found `idle_` at 0 and the runner outside the
task when it stored to `triggered_`. -/
theorem wait_served (acts : ℕ → Action κ) {c : κ} {t₁ t₂ : ℕ} (hlt : t₁ < t₂)
    (hstop : ∀ t < t₂, acts t ≠ .requestStop)
    (htrigger : StoresTrigger (after step (initial κ) acts t₁) (acts t₁) c)
    (hidle : (after step (initial κ) acts t₁).idle = 0)
    (hrunner : ¬ (after step (initial κ) acts t₁).runner.Executing)
    (hreturn : WaitReturns (after step (initial κ) acts t₂) (acts t₂) c) :
    (after step (initial κ) acts t₁).started < (after step (initial κ) acts t₂).ended := by
  have hserved := served_after hlt hstop htrigger hidle hrunner
  exact hserved.resolve_right (fun h => hreturn.2.2 h.1)

end Runs

section Samples

/-- One client triggers and waits, and its request is served. -/
def oneRequest : ℕ → Action Unit :=
  script .runner
    [.trigger (), .client (), .client (), .client (), .runner, .runner, .runner, .runner, .runner,
      .finish true, .runner, .runner, .wait (), .client (), .runner, .runner]

theorem triggers_counted_oneRequest :
    let s := after step (initial Unit) oneRequest 16
    (s.started ≤ s.stores ∧ s.pairs () ≤ s.started) ∧ Parked s ∧ s.pairs () = 1 ∧ s.idle = 1 ∧
      (after step (initial Unit) oneRequest 2).started < s.started := by
  intro s
  have hparked : Parked s := by decide
  obtain ⟨hstarted, hpairs, hrest⟩ := triggers_counted oneRequest 16 (by decide)
  obtain ⟨hidle, hfollowed⟩ := hrest hparked (fun () => by decide)
  exact ⟨⟨hstarted, hpairs ()⟩, hparked, by decide, hidle, hfollowed 2 (by decide) () (by decide)⟩

theorem wait_served_oneRequest :
    (after step (initial Unit) oneRequest 2).started <
      (after step (initial Unit) oneRequest 13).ended :=
  wait_served oneRequest (c := ()) (by decide) (by decide) (by decide) (by decide) (by decide)
    (by decide)

/-- The second trigger comes while the task is running. -/
def triggeredWhileRunning : ℕ → Action Unit :=
  script .runner
    [.trigger (), .client (), .client (), .client (), .runner, .runner, .runner, .runner, .runner,
      .trigger (), .client (), .client (), .client (), .finish false, .runner, .wait (), .client ()]

/-- The end of the first execution sets `idle_` after the second trigger has cleared it, and
`wait()` returns before the second execution has started. -/
theorem wait_returns_early :
    StoresTrigger (after step (initial Unit) triggeredWhileRunning 11) (triggeredWhileRunning 11) () ∧
      WaitReturns (after step (initial Unit) triggeredWhileRunning 16) (triggeredWhileRunning 16) () ∧
      (∀ t < 16, triggeredWhileRunning t ≠ .requestStop) ∧
      ¬ (after step (initial Unit) triggeredWhileRunning 11).started <
        (after step (initial Unit) triggeredWhileRunning 16).ended := by
  decide

end Samples

end SafeShm.SwapRunner
