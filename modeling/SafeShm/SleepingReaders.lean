import SafeShm.SingleWriterRuns
import SafeShm.StateMachines

/-!
# Readers that sleep on a word

One writer, as in `SingleWriterRuns`, and readers that may go to sleep on a word of the memory.
The kernel compares the word and lets the reader sleep in one step, so a reader is a machine that
does both in one turn. A wake-up call of the writer reaches every sleeper.

Every call of the writer ends with a wake-up call (`WakesLast`). Whatever a reader has found when
it went to sleep is therefore still true when it sleeps while the writer is between two calls
(`sleepers_undisturbed`): no wake-up is missed.
-/

namespace SafeShm.SleepingReaders
open AtomicPrograms SingleWriterRuns StateMachines

variable {L : Type} {V : L → Type} {C M ι R E A : Type}

/-- What can happen to a reader in the state `R`: it makes its next access, something happens to
it from outside (it is called, or its sleep ends by itself), or it is woken up. -/
structure Machine (M R E : Type) where
  turn : M → R → R
  event : E → R → R
  woken : R → R
  asleep : R → Bool
  asleep_woken : ∀ r, asleep (woken r) = false
  turn_asleep : ∀ m r, asleep r → turn m r = r
  event_asleep : ∀ e r, asleep (event e r) → event e r = r

def WakesLast (wake : C → Bool) : Prog L V C A → Prop
  | .ret _ => False
  | .load _ next => ∀ v, WakesLast wake (next v)
  | .store c next => next.result?.isSome ∧ wake c ∨ WakesLast wake next
  | .spin => True

theorem wakesLast_store {wake : C → Bool} {c : C} (hc : wake c) (a : A) :
    WakesLast wake (Prog.store c (Prog.ret a) : Prog L V C A) := .inl ⟨rfl, hc⟩

theorem wakesLast_bind {wake : C → Bool} {B : Type} (p : Prog L V C A) {f : A → Prog L V C B}
    (h : ∀ a, WakesLast wake (f a)) : WakesLast wake (p >>= f) := by
  induction p with
  | ret a => exact h a
  | load l next ih => exact ih
  | store c next ih => exact .inr ih
  | spin => trivial

/-- The parties of a run: the calls of the writer on the memory `m₀`, and the readers. -/
structure Design (L : Type) (V : L → Type) (C M R E : Type) extends Memory L V C M,
    Machine M R E where
  wake : C → Bool
  script : ℕ → Prog L V C Unit
  wakesLast : ∀ k, WakesLast wake (script k)
  m₀ : M

inductive Action (ι E : Type) where
  | writer
  | reader (i : ι)
  | event (i : ι) (e : E)

structure State (L : Type) (V : L → Type) (C M ι R : Type) where
  mem : M
  writer : Client L V C
  reader : ι → R

def wakesNext (wake : C → Bool) : Prog L V C A → Bool
  | .store c _ => wake c
  | _ => false

namespace Design
variable [DecidableEq ι] (D : Design L V C M R E)

def step (s : State L V C M ι R) : Action ι E → State L V C M ι R
  | .writer =>
      { mem := (s.writer.step D.toMemory D.script s.mem).1
        writer := (s.writer.step D.toMemory D.script s.mem).2
        reader := fun i =>
          if wakesNext D.wake s.writer.prog then D.woken (s.reader i) else s.reader i }
  | .reader i => { s with reader := Function.update s.reader i (D.turn s.mem (s.reader i)) }
  | .event i e => { s with reader := Function.update s.reader i (D.event e (s.reader i)) }

variable (readers : ι → R) (acts : ℕ → Action ι E)

/-- The state after the first `t` actions. At first the writer has made no call. -/
def states (t : ℕ) : State L V C M ι R := after D.step ⟨D.m₀, ⟨0, 0, .ret ()⟩, readers⟩ acts t

theorem states_succ (t : ℕ) :
    D.states readers acts (t + 1) = D.step (D.states readers acts t) (acts t) := rfl

variable {D} in
theorem step_reader (s : State L V C M ι R) (a : Action ι E) (i : ι) :
    (D.step s a).reader i = s.reader i ∨ (D.step s a).reader i = D.woken (s.reader i) ∨
      a = .reader i ∧ (D.step s a).reader i = D.turn s.mem (s.reader i) ∨
      ∃ e, a = .event i e ∧ (D.step s a).reader i = D.event e (s.reader i) := by
  cases a with
  | writer =>
    rw [step]
    dsimp only
    split
    · exact .inr (.inl rfl)
    · exact .inl rfl
  | reader j =>
    by_cases hij : i = j
    · subst hij
      exact .inr (.inr (.inl ⟨rfl, Function.update_self ..⟩))
    · exact .inl (Function.update_of_ne hij ..)
  | event j e =>
    by_cases hij : i = j
    · subst hij
      exact .inr (.inr (.inr ⟨e, rfl, Function.update_self ..⟩))
    · exact .inl (Function.update_of_ne hij ..)

end Design

section Projection

def turns (acts : ℕ → Action ι E) (t : ℕ) : Party Unit :=
  match acts t with
  | .writer => .writer
  | _ => .reader ()

def nobody : (i : Unit) → Prog L V Empty Unit := fun _ => .ret ()

variable [DecidableEq ι] (D : Design L V C M R E) (readers : ι → R) (acts : ℕ → Action ι E)

/-- The memory and the writer move as they do without any readers. -/
theorem states_writer (t : ℕ) :
    (D.states readers acts t).mem =
        ((System.start D.m₀ nobody).after D.toMemory D.script (turns acts) t).mem ∧
      (D.states readers acts t).writer =
        ((System.start D.m₀ nobody).after D.toMemory D.script (turns acts) t).writer := by
  induction t with
  | zero => exact ⟨rfl, rfl⟩
  | succ t ih =>
    obtain ⟨hmem, hwriter⟩ := ih
    rw [Design.states_succ, System.after]
    cases hact : acts t with
    | writer =>
      have hturn : turns acts t = .writer := by rw [turns, hact]
      rw [hturn, Design.step, System.step, hmem, hwriter]
      exact ⟨rfl, rfl⟩
    | reader i =>
      have hturn : turns acts t = .reader () := by rw [turns, hact]
      rw [hturn]
      exact ⟨hmem, hwriter⟩
    | event i e =>
      have hturn : turns acts t = .reader () := by rw [turns, hact]
      rw [hturn]
      exact ⟨hmem, hwriter⟩

end Projection

section Wakes
variable [DecidableEq ι] {D : Design L V C M R E} {s : State L V C M ι R}

/-- The writer is between two calls, or it still has a wake-up call to make. The readers that
sleep while it is between two calls have found what `P` says. -/
structure Undisturbed (D : Design L V C M R E) (P : M → R → Prop) (s : State L V C M ι R) : Prop where
  pending : s.writer.prog = .ret () ∨ WakesLast D.wake s.writer.prog
  found : ∀ i, s.writer.prog = .ret () → D.asleep (s.reader i) → P s.mem (s.reader i)

private theorem writer_pending (h : s.writer.prog = .ret () ∨ WakesLast D.wake s.writer.prog) :
    (D.step s .writer).writer.prog = .ret () ∧ wakesNext D.wake s.writer.prog ∨
      WakesLast D.wake (D.step s .writer).writer.prog := by
  rw [Design.step, Client.step]
  cases hprog : s.writer.prog with
  | ret u => exact .inr (D.wakesLast s.writer.begun)
  | load l next =>
    rw [hprog] at h
    exact .inr (h.resolve_left (by simp) (D.read s.mem l))
  | store c next =>
    rw [hprog] at h
    rcases h.resolve_left (by simp) with ⟨hret, hc⟩ | hnext
    · obtain ⟨u, hu⟩ := Option.isSome_iff_exists.mp hret
      exact .inl ⟨Prog.eq_ret_of_result? hu, hc⟩
    · exact .inr hnext
  | spin =>
    right
    dsimp only
    rw [hprog]
    trivial

private theorem Undisturbed.writer {P : M → R → Prop} (h : Undisturbed D P s) :
    Undisturbed D P (D.step s .writer) := by
  rcases writer_pending h.pending with ⟨hret, hwakes⟩ | hnext
  · refine ⟨.inl hret, fun i _ hasleep => ?_⟩
    have hawake : D.asleep ((D.step s .writer).reader i) = false := by
      rw [Design.step, hwakes]
      exact D.asleep_woken (s.reader i)
    exact absurd (hasleep.symm.trans hawake) (by simp)
  · refine ⟨.inr hnext, fun i hret _ => ?_⟩
    rw [hret] at hnext
    exact absurd hnext id

private theorem Undisturbed.setReader {P : M → R → Prop} (h : Undisturbed D P s) {i : ι} {r : R}
    (hr : s.writer.prog = .ret () → D.asleep r → P s.mem r) :
    Undisturbed D P { s with reader := Function.update s.reader i r } := by
  refine ⟨h.pending, fun j hret => ?_⟩
  by_cases hij : j = i
  · subst hij
    simpa using hr hret
  · simpa [hij] using h.found j hret

/-- A turn in which a reader falls asleep finds what `P` says. -/
def Finds (D : Design L V C M R E) (P : M → R → Prop) (s : State L V C M ι R) : Action ι E → Prop
  | .reader i => D.asleep (s.reader i) = false → D.asleep (D.turn s.mem (s.reader i)) →
      P s.mem (D.turn s.mem (s.reader i))
  | _ => True

private theorem Undisturbed.step {P : M → R → Prop} (h : Undisturbed D P s) {a : Action ι E}
    (ha : Finds D P s a) : Undisturbed D P (D.step s a) := by
  cases a with
  | writer => exact h.writer
  | reader i =>
    apply h.setReader
    intro hret hasleep
    by_cases hbefore : D.asleep (s.reader i)
    · rw [D.turn_asleep _ _ hbefore]
      exact h.found i hret hbefore
    · exact ha (by simpa using hbefore) hasleep
  | event i e =>
    apply h.setReader
    intro hret hasleep
    have hsame := D.event_asleep e _ hasleep
    rw [hsame] at hasleep ⊢
    exact h.found i hret hasleep

/-- What a reader finds when it falls asleep holds whenever it sleeps and the writer is between
two calls. -/
theorem sleepers_undisturbed {P : M → R → Prop} {readers : ι → R} {acts : ℕ → Action ι E} {t : ℕ}
    (hawake : ∀ i, D.asleep (readers i) = false)
    (hfinds : ∀ t' < t, Finds D P (D.states readers acts t') (acts t'))
    (hidle : (D.states readers acts t).writer.prog = .ret ()) {i : ι}
    (hasleep : D.asleep ((D.states readers acts t).reader i)) :
    P (D.states readers acts t).mem ((D.states readers acts t).reader i) := by
  have hstart : Undisturbed D P (D.states readers acts 0) := by
    refine ⟨.inl rfl, fun i _ hasleep => ?_⟩
    exact absurd (hasleep.symm.trans (hawake i)) (by simp)
  have h : Undisturbed D P (D.states readers acts t) :=
    after_invariant_of hstart (fun _ _ ha h => h.step ha) hfinds
  exact h.found i hidle hasleep

end Wakes

end SafeShm.SleepingReaders
