import SafeShm.SingleWriterRuns
import SafeShm.StateMachines
import Mathlib.Data.List.Infix

/-!
# Writers that take turns

Any number of writers and readers on one memory. A writer may begin a call at any time, with any
argument. As long as no call begins while another one is going on, the memory and the readers move
as in a run with a single writer that makes the same calls in the same order (`exists_single`), so
that what is known of one writer is known of many.
-/

namespace SafeShm.SerializedWriters
open AtomicPrograms SingleWriterRuns StateMachines

variable {L : Type} {V : L → Type} {C M X κ ι : Type} {A : ι → Type}

/-- The calls of the writers: the program of a call with an argument, which does not return before
its first step. -/
structure Design (L : Type) (V : L → Type) (C M X : Type) extends Memory L V C M where
  body : X → Prog L V C Unit
  running : ∀ x, (body x).result? = none
  m₀ : M

/-- `κ` names the writers and `ι` the readers. -/
inductive Action (κ ι X : Type) where
  | call (k : κ) (x : X)
  | writer (k : κ)
  | reader (i : ι)

def Action.isCall : Action κ ι X → Bool
  | .call _ _ => true
  | _ => false

/-- `begun` are the arguments of the calls begun so far, in order, and `returned` counts the calls
that have returned. -/
structure State (L : Type) (V : L → Type) (C M X κ : Type) {ι : Type} (A : ι → Type) where
  mem : M
  writer : κ → Prog L V C Unit
  reader : (i : ι) → Prog L V Empty (A i)
  begun : List X
  returned : ℕ

namespace Design
variable [DecidableEq κ] [DecidableEq ι] (D : Design L V C M X)

def start (readers : (i : ι) → Prog L V Empty (A i)) : State L V C M X κ A :=
  ⟨D.m₀, fun _ => .ret (), readers, [], 0⟩

/-- A call of a writer that is in a call, and a turn of one that is not, change nothing. -/
def step (s : State L V C M X κ A) : Action κ ι X → State L V C M X κ A
  | .call k x =>
      if (s.writer k).result?.isSome then
        { s with writer := Function.update s.writer k (D.body x), begun := s.begun ++ [x] }
      else s
  | .writer k =>
      if (s.writer k).result?.isSome then s
      else
        let y := soloStep D.toMemory (s.mem, s.writer k)
        { s with
          mem := y.1
          writer := Function.update s.writer k y.2
          returned := if y.2.result?.isSome then s.returned + 1 else s.returned }
  | .reader i => { s with
      reader := Function.update s.reader i (readerStep D.toMemory s.mem (s.reader i)) }

/-- The state after the first `t` actions. At first no writer is in a call. -/
def states (readers : (i : ι) → Prog L V Empty (A i)) (acts : ℕ → Action κ ι X) (t : ℕ) :
    State L V C M X κ A :=
  after D.step (D.start readers) acts t

variable (readers : (i : ι) → Prog L V Empty (A i)) (acts : ℕ → Action κ ι X)

/-- No call begins while another one is going on. -/
def Serialized : Prop :=
  ∀ t, (acts t).isCall → ∀ k, ((D.states readers acts t).writer k).result?.isSome

theorem serialized_script {rest : Action κ ι X} (hrest : rest.isCall = false)
    {list : List (Action κ ι X)} (h : ∀ t < list.length, (script rest list t).isCall →
      ∀ k, ((D.states readers (script rest list) t).writer k).result?.isSome) :
    D.Serialized readers (script rest list) := by
  intro t hcall
  rcases Nat.lt_or_ge t list.length with hlt | hge
  · exact h t hlt hcall
  · rw [script_of_le hge, hrest] at hcall
    cases hcall

theorem states_succ (t : ℕ) :
    D.states readers acts (t + 1) = D.step (D.states readers acts t) (acts t) := rfl

end Design

def withIdle (readers : (i : ι) → Prog L V Empty (A i)) :
    (i : Option ι) → Prog L V Empty (i.elim Unit A)
  | none => .ret ()
  | some i => readers i

/-- The party that moves in the run of the single writer: when nothing happens, the reader that
never does anything. -/
def party (s : State L V C M X κ A) : Action κ ι X → Party (Option ι)
  | .call _ _ => .writer
  | .writer k => if (s.writer k).result?.isSome then .reader none else .writer
  | .reader i => .reader (some i)

/-- The single writer is in the call that is going on, if there is one. -/
inductive Place (s : State L V C M X κ A) (p : Prog L V C Unit) : Prop where
  | between (single : p = .ret ()) (all : ∀ k, s.writer k = .ret ())
      (count : s.returned = s.begun.length)
  | within (k : κ) (single : s.writer k = p) (running : p.result? = none)
      (others : ∀ j ≠ k, s.writer j = .ret ()) (count : s.returned + 1 = s.begun.length)

/-- The run of the single writer is where the run of the writers is. -/
structure Follows (s : State L V C M X κ A)
    (s' : System L V C M (Option ι) (fun i => i.elim Unit A)) : Prop where
  mem : s'.mem = s.mem
  reader : ∀ i, s'.reader (some i) = s.reader i
  begun : s'.writer.begun = s.begun.length
  place : Place s s'.writer.prog

section Streams
variable {α : Type}

/-- Lists that only grow are the beginnings of one sequence. -/
theorem exists_stream [Nonempty α] {l : ℕ → List α} (h : ∀ t, l t <+: l (t + 1)) :
    ∃ f : ℕ → α, ∀ (t n : ℕ) (x : α), (l t)[n]? = some x → f n = x := by
  have hmono : ∀ t t', t ≤ t' → l t <+: l t' := by
    intro t t' hle
    induction t', hle using Nat.le_induction with
    | base => exact List.prefix_rfl
    | succ t' _ ih => exact ih.trans (h t')
  have hsame : ∀ n : ℕ, ∃ y, ∀ (t : ℕ) (x : α), (l t)[n]? = some x → y = x := by
    intro n
    by_cases hn : ∃ (t : ℕ) (x : α), (l t)[n]? = some x
    · obtain ⟨t, y, hy⟩ := hn
      refine ⟨y, fun t' x hx => ?_⟩
      rcases Nat.le_total t t' with hle | hle
      · obtain ⟨rest, hrest⟩ := hmono t t' hle
        obtain ⟨hlt, -⟩ := List.getElem?_eq_some_iff.mp hy
        rw [← hrest, List.getElem?_append_left hlt, hy] at hx
        exact Option.some.inj hx
      · obtain ⟨rest, hrest⟩ := hmono t' t hle
        obtain ⟨hlt, -⟩ := List.getElem?_eq_some_iff.mp hx
        rw [← hrest, List.getElem?_append_left hlt, hx] at hy
        exact (Option.some.inj hy).symm
    · obtain ⟨y⟩ := ‹Nonempty α›
      exact ⟨y, fun t x hx => absurd ⟨t, x, hx⟩ hn⟩
  exact ⟨fun n => (hsame n).choose, fun t n => (hsame n).choose_spec t⟩

end Streams

section Simulation
variable [DecidableEq κ] [DecidableEq ι] {D : Design L V C M X}
variable {s : State L V C M X κ A} {s' : System L V C M (Option ι) (fun i => i.elim Unit A)}

private theorem client_step (mem : Memory L V C M) (script : ℕ → Prog L V C Unit) (m : M)
    {w : Client L V C} (h : w.prog.result? = none) :
    (w.step mem script m).1 = (soloStep mem (m, w.prog)).1 ∧
      (w.step mem script m).2.prog = (soloStep mem (m, w.prog)).2 ∧
      (w.step mem script m).2.begun = w.begun := by
  obtain ⟨begun, pc, prog⟩ := w
  cases prog with
  | ret u => simp [Prog.result?] at h
  | load l next => exact ⟨rfl, rfl, rfl⟩
  | store c next => exact ⟨rfl, rfl, rfl⟩
  | spin => exact ⟨rfl, rfl, rfl⟩

private theorem eq_ret {p : Prog L V C Unit} (h : p.result?.isSome) : p = .ret () := by
  obtain ⟨u, hu⟩ := Option.isSome_iff_exists.mp h
  exact Prog.eq_ret_of_result? hu

theorem Follows.call {script : ℕ → Prog L V C Unit} (h : Follows s s') {k : κ} {x : X}
    (hidle : ∀ j, (s.writer j).result?.isSome) (hscript : script s.begun.length = D.body x) :
    Follows (D.step s (.call k x)) (s'.step D.toMemory script .writer) := by
  have hall : ∀ j, s.writer j = .ret () := fun j => eq_ret (hidle j)
  have hplace : s'.writer.prog = .ret () ∧ s.returned = s.begun.length := by
    rcases h.place with ⟨single, -, count⟩ | ⟨k', single, running, -, -⟩
    · exact ⟨single, count⟩
    · rw [← single, hall k'] at running
      cases running
  obtain ⟨hprog, hcount⟩ := hplace
  have hclient : s'.writer.step D.toMemory script s'.mem =
      (s'.mem, ⟨s'.writer.begun + 1, 0, script s'.writer.begun⟩) := by
    rw [Client.step, hprog]
  rw [Design.step, if_pos (hidle k), System.step, hclient]
  refine ⟨h.mem, h.reader, ?_, ?_⟩
  · simp [h.begun]
  · refine .within k ?_ ?_ ?_ ?_
    · simp [h.begun, hscript]
    · simp only [h.begun, hscript]
      exact D.running x
    · intro j hj
      exact (Function.update_of_ne hj ..).trans (hall j)
    · simp [hcount]

theorem Follows.writer {script : ℕ → Prog L V C Unit} (h : Follows s s') {k : κ}
    (hk : (s.writer k).result? = none) :
    Follows (D.step s (.writer k)) (s'.step D.toMemory script .writer) := by
  have hplace : s.writer k = s'.writer.prog ∧ (∀ j ≠ k, s.writer j = .ret ()) ∧
      s.returned + 1 = s.begun.length := by
    rcases h.place with ⟨-, all, -⟩ | ⟨k', single, -, others, count⟩
    · rw [all k] at hk
      cases hk
    · by_cases heq : k = k'
      · subst heq
        exact ⟨single, others, count⟩
      · rw [others k heq] at hk
        cases hk
  obtain ⟨hprog, hothers, hcount⟩ := hplace
  have hclient := client_step D.toMemory script s'.mem (hprog ▸ hk)
  rw [h.mem, ← hprog] at hclient
  obtain ⟨hmem, hnext, hbegun⟩ := hclient
  rw [Design.step, if_neg (by simp [hk]), System.step, h.mem]
  refine ⟨hmem, h.reader, hbegun.trans h.begun, ?_⟩
  dsimp only
  rw [hnext]
  cases hresult : (soloStep D.toMemory (s.mem, s.writer k)).2.result? with
  | none =>
    refine .within k (Function.update_self ..) hresult ?_ ?_
    · intro j hj
      exact (Function.update_of_ne hj ..).trans (hothers j hj)
    · simpa [hresult] using hcount
  | some u =>
    refine .between (Prog.eq_ret_of_result? hresult) ?_ ?_
    · intro j
      by_cases hj : j = k
      · subst hj
        exact (Function.update_self ..).trans (Prog.eq_ret_of_result? hresult)
      · exact (Function.update_of_ne hj ..).trans (hothers j hj)
    · simpa [hresult] using hcount

theorem Follows.reader_step {script : ℕ → Prog L V C Unit} (h : Follows s s') (i : ι) :
    Follows (D.step s (.reader i)) (s'.step D.toMemory script (.reader (some i))) := by
  refine ⟨h.mem, ?_, h.begun, ?_⟩
  · intro j
    simp only [Design.step, System.step, h.mem, h.reader i]
    by_cases hj : j = i
    · subst hj
      rw [Function.update_self, Function.update_self]
      rfl
    · have hne : (some j : Option ι) ≠ some i := fun heq => hj (Option.some.inj heq)
      rw [Function.update_of_ne hne, Function.update_of_ne hj, h.reader j]
  · rcases h.place with ⟨single, all, count⟩ | ⟨k, single, running, others, count⟩
    · exact .between single all count
    · exact .within k single running others count

omit [DecidableEq κ] in
theorem Follows.idle {script : ℕ → Prog L V C Unit} (h : Follows s s') :
    Follows s (s'.step D.toMemory script (.reader none)) := by
  refine ⟨h.mem, ?_, h.begun, h.place⟩
  intro i
  rw [← h.reader i, System.step]
  exact Function.update_of_ne (Option.some_ne_none i)
    (readerStep D.toMemory s'.mem (s'.reader none)) s'.reader

end Simulation

section Runs
variable [DecidableEq κ] [DecidableEq ι] (D : Design L V C M X)
variable (readers : (i : ι) → Prog L V Empty (A i)) (acts : ℕ → Action κ ι X)

theorem step_begun (s : State L V C M X κ A) (a : Action κ ι X) :
    (D.step s a).begun = s.begun ∨ ∃ k x, a = .call k x ∧ (D.step s a).begun = s.begun ++ [x] := by
  cases a with
  | call k x =>
    rw [Design.step]
    split
    · exact .inr ⟨k, x, rfl, rfl⟩
    · exact .inl rfl
  | writer k =>
    rw [Design.step]
    split <;> exact .inl rfl
  | reader i => exact .inl rfl

theorem begun_extends (t : ℕ) :
    (D.states readers acts t).begun <+: (D.states readers acts (t + 1)).begun := by
  rcases step_begun D (D.states readers acts t) (acts t) with heq | ⟨k, x, -, heq⟩
  · exact ⟨[], by rw [List.append_nil, D.states_succ, heq]⟩
  · exact ⟨[x], by rw [D.states_succ, heq]⟩

variable {D readers acts}

/-- Writers that take turns move the memory and the readers as a single writer does that makes
their calls in the order in which they were begun. -/
theorem exists_single [Nonempty X] (hser : D.Serialized readers acts) :
    ∃ args : ℕ → X,
      (∀ (t n : ℕ) (x : X), (D.states readers acts t).begun[n]? = some x → args n = x) ∧
      ∃ sched : ℕ → Party (Option ι), ∀ t, Follows (D.states readers acts t)
        ((System.start D.m₀ (withIdle readers)).after D.toMemory (fun n => D.body (args n))
          sched t) := by
  obtain ⟨args, hargs⟩ := exists_stream (begun_extends D readers acts)
  refine ⟨args, hargs, fun t => party (D.states readers acts t) (acts t), fun t => ?_⟩
  induction t with
  | zero => exact ⟨rfl, fun i => rfl, rfl, .between rfl (fun k => rfl) rfl⟩
  | succ t ih =>
    rw [D.states_succ, System.after]
    cases hact : acts t with
    | call k x =>
      have hidle := hser t (by rw [hact]; rfl)
      have hbegun : (D.states readers acts (t + 1)).begun =
          (D.states readers acts t).begun ++ [x] := by
        rw [D.states_succ, hact, Design.step, if_pos (hidle k)]
      have hx := hargs (t + 1) (D.states readers acts t).begun.length x (by simp [hbegun])
      exact ih.call hidle (by rw [hx])
    | writer k =>
      cases hresult : ((D.states readers acts t).writer k).result? with
      | none =>
        simp only [party, hresult, Option.isSome_none, Bool.false_eq_true, if_false]
        exact ih.writer hresult
      | some u =>
        simp only [party, Design.step, hresult, Option.isSome_some, if_true]
        exact ih.idle
    | reader i => exact ih.reader_step i

theorem exec_of_states [Nonempty X] (hser : D.Serialized readers acts) (i : ι) {v : A i} {b : ℕ}
    (h : ((D.states readers acts b).reader i).result? = some v) :
    ∃ log, Exec D.read (fun t => (D.states readers acts t).mem) 0 (readers i) log b v := by
  obtain ⟨args, -, sched, hfollows⟩ := exists_single hser
  have hmem : (fun t => (D.states readers acts t).mem) = fun t =>
      ((System.start D.m₀ (withIdle readers)).after D.toMemory (fun n => D.body (args n))
        sched t).mem :=
    funext fun t => (hfollows t).mem.symm
  rw [hmem]
  rw [← (hfollows b).reader i] at h
  exact exec_of_after D.toMemory _ sched _ (some i) (Nat.zero_le b) h

end Runs

section Turns
variable [DecidableEq κ] [DecidableEq ι] {D : Design L V C M X}

/-- Turns of one writer in a row are steps of its program. -/
theorem foldl_turns (k : κ) (n : ℕ) (s : State L V C M X κ A) :
    let s' := (List.replicate n (.writer k)).foldl D.step s
    (s'.mem, s'.writer k) = (soloStep D.toMemory)^[n] (s.mem, s.writer k) ∧
      (∀ j ≠ k, s'.writer j = s.writer j) ∧ s'.begun = s.begun := by
  induction n generalizing s with
  | zero => exact ⟨rfl, fun _ _ => rfl, rfl⟩
  | succ n ih =>
    obtain ⟨hk, hothers, hbegun⟩ := ih (D.step s (.writer k))
    rw [List.replicate_succ, List.foldl_cons, Function.iterate_succ_apply]
    by_cases hret : (s.writer k).result?.isSome
    · have hstep : D.step s (.writer k) = s := by rw [Design.step, if_pos hret]
      have hsolo : soloStep D.toMemory (s.mem, s.writer k) = (s.mem, s.writer k) := by
        rw [eq_ret hret]
        rfl
      rw [hstep] at hk hothers hbegun ⊢
      rw [hsolo]
      exact ⟨hk, hothers, hbegun⟩
    · have hmem : ((D.step s (.writer k)).mem, (D.step s (.writer k)).writer k) =
          soloStep D.toMemory (s.mem, s.writer k) := by
        rw [Design.step, if_neg hret]
        exact congrArg (Prod.mk _) (Function.update_self ..)
      rw [hmem] at hk
      refine ⟨hk, ?_, ?_⟩
      · intro j hj
        rw [hothers j hj, Design.step, if_neg hret]
        exact Function.update_of_ne hj ..
      · rw [hbegun, Design.step, if_neg hret]

end Turns

end SafeShm.SerializedWriters
