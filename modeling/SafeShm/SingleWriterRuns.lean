import SafeShm.AtomicPrograms
import Mathlib.Logic.Function.Iterate
import Mathlib.Order.Monotone.Basic

/-!
# Runs of one writer and any number of readers

One client, the writer, makes a sequence of calls `script 0, script 1, …` on a shared
memory. Any number of readers run programs without stores. A schedule names the
party that takes each atomic step, so a statement for every schedule is a statement
for every interleaving; a party that cannot move lets its turn pass.

Readers change nothing, so the memory is a function of the writer's position: how
many calls it has begun and how many steps it has made in the last of them
(`mem_after`).
-/

namespace SafeShm.SingleWriterRuns
open AtomicPrograms

/-- How the locations and store commands of a program act on a memory. -/
structure Memory (L : Type) (V : L → Type) (C M : Type) where
  read : M → (l : L) → V l
  write : M → C → M

variable {L : Type} {V : L → Type} {C M A B : Type}

def soloStep (mem : Memory L V C M) (x : M × Prog L V C A) : M × Prog L V C A :=
  match x.2 with
  | .ret _ => x
  | .load l next => (x.1, next (mem.read x.1 l))
  | .store c next => (mem.write x.1 c, next)
  | .spin => x

def finish (mem : Memory L V C M) : Prog L V C A → M → M
  | .ret _, m => m
  | .load l next, m => finish mem (next (mem.read m l)) m
  | .store c next, m => finish mem next (mem.write m c)
  | .spin, m => m

def steps (mem : Memory L V C M) : Prog L V C A → M → ℕ
  | .ret _, _ => 0
  | .load l next, m => steps mem (next (mem.read m l)) m + 1
  | .store c next, m => steps mem next (mem.write m c) + 1
  | .spin, _ => 0

variable (mem : Memory L V C M)

theorem finish_soloStep (x : M × Prog L V C A) :
    finish mem (soloStep mem x).2 (soloStep mem x).1 = finish mem x.2 x.1 := by
  obtain ⟨m, p⟩ := x
  cases p <;> rfl

theorem finish_iterate (n : ℕ) (x : M × Prog L V C A) :
    finish mem ((soloStep mem)^[n] x).2 ((soloStep mem)^[n] x).1 = finish mem x.2 x.1 := by
  induction n with
  | zero => rfl
  | succ n ih => rw [Function.iterate_succ_apply', finish_soloStep, ih]

theorem steps_iterate (n : ℕ) (x : M × Prog L V C A) :
    steps mem ((soloStep mem)^[n] x).2 ((soloStep mem)^[n] x).1 = steps mem x.2 x.1 - n := by
  induction n generalizing x with
  | zero => rfl
  | succ n ih =>
    have hstep : steps mem (soloStep mem x).2 (soloStep mem x).1 = steps mem x.2 x.1 - 1 := by
      obtain ⟨m, p⟩ := x
      cases p <;> rfl
    rw [Function.iterate_succ_apply, ih, hstep]
    omega

variable {mem}

theorem steps_le_of_iterate_ret {n : ℕ} {x : M × Prog L V C A} {a : A}
    (h : ((soloStep mem)^[n] x).2 = .ret a) : steps mem x.2 x.1 ≤ n := by
  have hsteps := steps_iterate mem n x
  rw [h, steps] at hsteps
  omega

theorem eq_finish_of_iterate_ret {n : ℕ} {x : M × Prog L V C A} {m : M} {a : A}
    (h : (m, Prog.ret a) = (soloStep mem)^[n] x) : m = finish mem x.2 x.1 := by
  have hfinish := finish_iterate mem n x
  rw [← h] at hfinish
  exact hfinish

section Within
variable {S : L → Prop} {K : C → Prop}

/-- Whatever the loads return, `p` loads only locations in `S` and stores only commands in `K`. -/
def Within (S : L → Prop) (K : C → Prop) : Prog L V C A → Prop
  | .ret _ => True
  | .load l next => S l ∧ ∀ v, Within S K (next v)
  | .store c next => K c ∧ Within S K next
  | .spin => True

theorem Within.bind {p : Prog L V C A} {f : A → Prog L V C B} (hp : Within S K p)
    (hf : ∀ a, Within S K (f a)) : Within S K (p >>= f) := by
  induction p with
  | ret a => exact hf a
  | load l next ih => exact ⟨hp.1, fun v => ih v (hp.2 v)⟩
  | store c next ih => exact ⟨hp.1, ih hp.2⟩
  | spin => trivial

theorem Within.mono {K' : C → Prop} (hK : ∀ c, K c → K' c) {p : Prog L V C A}
    (hp : Within S K p) : Within S K' p := by
  induction p with
  | ret a => trivial
  | load l next ih => exact ⟨hp.1, fun v => ih v (hp.2 v)⟩
  | store c next ih => exact ⟨hK c hp.1, ih hp.2⟩
  | spin => trivial

theorem finish_invariant {Q : M → Prop} (hwrite : ∀ m c, K c → Q m → Q (mem.write m c))
    {p : Prog L V C A} (hp : Within S K p) {m : M} (hm : Q m) : Q (finish mem p m) := by
  induction p generalizing m with
  | ret a => exact hm
  | load l next ih => exact ih _ (hp.2 _) hm
  | store c next ih => exact ih hp.2 (hwrite m c hp.1 hm)
  | spin => exact hm

/-- Two memories that answer the loads in `S` alike, and still do so after the same store in `K`,
are left alike by a program. -/
theorem finish_simulates {M' : Type} {mem' : Memory L V C M'} {R : M → M' → Prop}
    (hread : ∀ m m' l, R m m' → S l → mem.read m l = mem'.read m' l)
    (hwrite : ∀ m m' c, R m m' → K c → R (mem.write m c) (mem'.write m' c))
    {p : Prog L V C A} (hp : Within S K p) {m : M} {m' : M'} (h : R m m') :
    R (finish mem p m) (finish mem' p m') := by
  induction p generalizing m m' with
  | ret a => exact h
  | load l next ih =>
    rw [finish, finish, hread m m' l h hp.1]
    exact ih _ (hp.2 _) h
  | store c next ih => exact ih hp.2 (hwrite m m' c h hp.1)
  | spin => exact h

end Within

/-- The writer: calls begun so far, steps made in the last one, and what is left of it. -/
structure Client (L : Type) (V : L → Type) (C : Type) where
  begun : ℕ
  pc : ℕ
  prog : Prog L V C Unit

/-- A turn of the writer: an atomic step of its call, or the beginning of the next call. -/
def Client.step (mem : Memory L V C M) (script : ℕ → Prog L V C Unit) (m : M)
    (w : Client L V C) : M × Client L V C :=
  match w.prog with
  | .ret _ => (m, ⟨w.begun + 1, 0, script w.begun⟩)
  | .load l next => (m, ⟨w.begun, w.pc + 1, next (mem.read m l)⟩)
  | .store c next => (mem.write m c, ⟨w.begun, w.pc + 1, next⟩)
  | .spin => (m, w)

def readerStep (mem : Memory L V C M) (m : M) : Prog L V Empty A → Prog L V Empty A
  | .load l next => next (mem.read m l)
  | p => p

/-- The parties of a run; `ι` names the readers. -/
inductive Party (ι : Type) where
  | writer
  | reader (i : ι)
  deriving DecidableEq

/-- The schedule that gives each party of the list its number of turns, and then lets
the writer run. -/
def blocks {ι : Type} : List (Party ι × ℕ) → ℕ → Party ι
  | [], _ => .writer
  | (p, n) :: rest, t => if t < n then p else blocks rest (t - n)

structure System (L : Type) (V : L → Type) (C M : Type) (ι : Type) (A : ι → Type) where
  mem : M
  writer : Client L V C
  reader : (i : ι) → Prog L V Empty (A i)

namespace System
variable {ι : Type} [DecidableEq ι] {A : ι → Type}

def start (m₀ : M) (readers : (i : ι) → Prog L V Empty (A i)) : System L V C M ι A :=
  ⟨m₀, ⟨0, 0, .ret ()⟩, readers⟩

def step (mem : Memory L V C M) (script : ℕ → Prog L V C Unit) (s : System L V C M ι A) :
    Party ι → System L V C M ι A
  | .writer => { s with
      mem := (s.writer.step mem script s.mem).1
      writer := (s.writer.step mem script s.mem).2 }
  | .reader i => { s with
      reader := Function.update s.reader i (readerStep mem s.mem (s.reader i)) }

def after (mem : Memory L V C M) (script : ℕ → Prog L V C Unit) (sched : ℕ → Party ι)
    (s : System L V C M ι A) : ℕ → System L V C M ι A
  | 0 => s
  | t + 1 => (after mem script sched s t).step mem script (sched t)

end System

section Position
variable {ι : Type} [DecidableEq ι] {A : ι → Type}
variable (mem) (script : ℕ → Prog L V C Unit) (m₀ : M)

def callMem : ℕ → M
  | 0 => m₀
  | k + 1 => finish mem (script k) (callMem k)

def memAt (k pc : ℕ) : M := ((soloStep mem)^[pc] (callMem mem script m₀ k, script k)).1

variable (sched : ℕ → Party ι) (readers : (i : ι) → Prog L V Empty (A i))

/-- What a run keeps: the memory and the writer's program are those of its current
call run alone. -/
def Placed (s : System L V C M ι A) : Prop :=
  match s.writer.begun with
  | 0 => s.mem = m₀ ∧ s.writer.pc = 0 ∧ s.writer.prog = .ret ()
  | k + 1 => (s.mem, s.writer.prog) =
      (soloStep mem)^[s.writer.pc] (callMem mem script m₀ k, script k)

variable {mem script m₀ sched readers}

theorem Placed.step {s : System L V C M ι A} (h : Placed mem script m₀ s) (p : Party ι) :
    Placed mem script m₀ (s.step mem script p) := by
  cases p with
  | reader i => exact h
  | writer =>
    obtain ⟨m, ⟨k, pc, prog⟩, readers⟩ := s
    cases k with
    | zero =>
      obtain ⟨rfl, rfl, rfl⟩ := h
      rfl
    | succ k =>
      have h : (m, prog) = (soloStep mem)^[pc] (callMem mem script m₀ k, script k) := h
      cases prog with
      | ret u =>
        have hm : m = callMem mem script m₀ (k + 1) := eq_finish_of_iterate_ret h
        simp [Placed, System.step, Client.step, hm]
      | load l next =>
        simp [Placed, System.step, Client.step, Function.iterate_succ_apply', ← h, soloStep]
      | store c next =>
        simp [Placed, System.step, Client.step, Function.iterate_succ_apply', ← h, soloStep]
      | spin => exact h

variable (mem script m₀ sched readers)

theorem placed_after (t : ℕ) :
    Placed mem script m₀ ((System.start m₀ readers).after mem script sched t) := by
  induction t with
  | zero => exact ⟨rfl, rfl, rfl⟩
  | succ t ih => exact ih.step (sched t)

theorem pc_eq_zero {t : ℕ}
    (h : ((System.start m₀ readers).after mem script sched t).writer.begun = 0) :
    ((System.start m₀ readers).after mem script sched t).writer.pc = 0 := by
  have hp := placed_after mem script m₀ sched readers t
  rw [Placed, h] at hp
  exact hp.2.1

theorem mem_after (t : ℕ) :
    ((System.start m₀ readers).after mem script sched t).mem =
      memAt mem script m₀
        (((System.start m₀ readers).after mem script sched t).writer.begun - 1)
        ((System.start m₀ readers).after mem script sched t).writer.pc := by
  have h := placed_after mem script m₀ sched readers t
  generalize (System.start m₀ readers).after mem script sched t = s at h
  obtain ⟨m, ⟨k, pc, prog⟩, _⟩ := s
  cases k with
  | zero =>
    obtain ⟨rfl, rfl, -⟩ := h
    rfl
  | succ k => exact congrArg Prod.fst h

/-- One step moves the writer's position by one step of its call, or past a finished
call to the next one, or not at all. -/
theorem position_step (t : ℕ) :
    let s := (System.start m₀ readers).after mem script sched t
    let s' := (System.start m₀ readers).after mem script sched (t + 1)
    (s'.writer.begun = s.writer.begun ∧ s'.writer.pc = s.writer.pc) ∨
    (s'.writer.begun = s.writer.begun ∧ s'.writer.pc = s.writer.pc + 1 ∧
      s.writer.begun ≠ 0) ∨
    (s'.writer.begun = s.writer.begun + 1 ∧ s'.writer.pc = 0 ∧
      (s.writer.begun ≠ 0 → steps mem (script (s.writer.begun - 1))
        (callMem mem script m₀ (s.writer.begun - 1)) ≤ s.writer.pc)) := by
  intro s s'
  have h := placed_after mem script m₀ sched readers t
  change Placed mem script m₀ s at h
  have hs' : s' = s.step mem script (sched t) := rfl
  clear_value s'
  subst hs'
  clear_value s
  cases hp : sched t with
  | reader i => exact .inl ⟨rfl, rfl⟩
  | writer =>
    obtain ⟨m, ⟨k, pc, prog⟩, _⟩ := s
    cases k with
    | zero =>
      obtain ⟨rfl, rfl, rfl⟩ := h
      exact .inr (.inr ⟨rfl, rfl, fun h => absurd rfl h⟩)
    | succ k =>
      have h : (m, prog) = (soloStep mem)^[pc] (callMem mem script m₀ k, script k) := h
      cases prog with
      | ret u =>
        refine .inr (.inr ⟨rfl, rfl, fun _ => ?_⟩)
        exact steps_le_of_iterate_ret (congrArg Prod.snd h).symm
      | load l next => exact .inr (.inl ⟨rfl, rfl, by simp⟩)
      | store c next => exact .inr (.inl ⟨rfl, rfl, by simp⟩)
      | spin => exact .inl ⟨rfl, rfl⟩

theorem steps_le_pc {t : ℕ}
    (hidle : ((System.start m₀ readers).after mem script sched t).writer.prog = .ret ())
    (hbegun : ((System.start m₀ readers).after mem script sched t).writer.begun ≠ 0) :
    steps mem (script (((System.start m₀ readers).after mem script sched t).writer.begun - 1))
        (callMem mem script m₀ (((System.start m₀ readers).after mem script sched t).writer.begun - 1)) ≤
      ((System.start m₀ readers).after mem script sched t).writer.pc := by
  have h := placed_after mem script m₀ sched readers t
  generalize (System.start m₀ readers).after mem script sched t = s at h hidle hbegun
  obtain ⟨k, hk⟩ := Nat.exists_eq_succ_of_ne_zero hbegun
  rw [Placed, hk] at h
  rw [hk, Nat.succ_sub_one]
  exact steps_le_of_iterate_ret ((congrArg Prod.snd h).symm.trans hidle)

theorem mem_eq_callMem {t : ℕ}
    (hidle : ((System.start m₀ readers).after mem script sched t).writer.prog = .ret ()) :
    ((System.start m₀ readers).after mem script sched t).mem =
      callMem mem script m₀ ((System.start m₀ readers).after mem script sched t).writer.begun := by
  have h := placed_after mem script m₀ sched readers t
  generalize (System.start m₀ readers).after mem script sched t = s at h hidle
  obtain ⟨m, ⟨k, pc, prog⟩, _⟩ := s
  cases k with
  | zero => exact h.1
  | succ k =>
    have h : (m, prog) = (soloStep mem)^[pc] (callMem mem script m₀ k, script k) := h
    obtain rfl : prog = .ret () := hidle
    exact eq_finish_of_iterate_ret h

/-- Whatever grows with every step of a call and from its end to the next call grows
along the run. -/
theorem monotone_calls {α : Type} [Preorder α] (f : ℕ → ℕ → α)
    (hpc : ∀ k pc, f (k + 1) pc ≤ f (k + 1) (pc + 1)) (hfirst : f 0 0 ≤ f 1 0)
    (hcall : ∀ k pc, steps mem (script k) (callMem mem script m₀ k) ≤ pc →
      f (k + 1) pc ≤ f (k + 2) 0) :
    Monotone (fun t =>
      f ((System.start m₀ readers).after mem script sched t).writer.begun
        ((System.start m₀ readers).after mem script sched t).writer.pc) := by
  apply monotone_nat_of_le_succ
  intro t
  have h := placed_after mem script m₀ sched readers t
  have hstep := position_step mem script m₀ sched readers t
  dsimp only at hstep
  generalize (System.start m₀ readers).after mem script sched (t + 1) = s' at hstep
  generalize (System.start m₀ readers).after mem script sched t = s at h hstep
  obtain ⟨m, ⟨k, pc, prog⟩, _⟩ := s
  obtain ⟨m', ⟨k', pc', prog'⟩, _⟩ := s'
  dsimp only at hstep ⊢
  rcases hstep with ⟨rfl, rfl⟩ | ⟨rfl, rfl, hk⟩ | ⟨rfl, rfl, hk⟩
  · exact le_rfl
  · obtain ⟨k, rfl⟩ := Nat.exists_eq_succ_of_ne_zero hk
    exact hpc k pc
  · cases k with
    | zero =>
      obtain ⟨-, rfl, -⟩ := h
      exact hfirst
    | succ k => exact hcall k pc (hk (by simp))

theorem monotone_position {α : Type} [Preorder α] (f : ℕ → ℕ → α) (n : ℕ)
    (hn : ∀ k, n ≤ steps mem (script k) (callMem mem script m₀ k))
    (hpc : ∀ k pc, f (k + 1) pc ≤ f (k + 1) (pc + 1)) (hfirst : f 0 0 ≤ f 1 0)
    (hcall : ∀ k pc, n ≤ pc → f (k + 1) pc ≤ f (k + 2) 0) :
    Monotone (fun t =>
      f ((System.start m₀ readers).after mem script sched t).writer.begun
        ((System.start m₀ readers).after mem script sched t).writer.pc) := by
  apply monotone_calls mem script m₀ sched readers f hpc hfirst
  intro k pc hsteps
  exact hcall k pc ((hn k).trans hsteps)

theorem begun_mono :
    Monotone (fun t => ((System.start m₀ readers).after mem script sched t).writer.begun) :=
  monotone_position mem script m₀ sched readers (fun k _ => k) 0 (fun _ => Nat.zero_le _)
    (fun _ _ => le_rfl) (Nat.zero_le _) (fun k _ _ => Nat.le_succ (k + 1))

end Position

section Readers
variable {ι : Type} [DecidableEq ι] {A : ι → Type}
variable {script : ℕ → Prog L V C Unit} {sched : ℕ → Party ι} {s : System L V C M ι A}

theorem reader_step (t : ℕ) (i : ι) :
    (s.after mem script sched (t + 1)).reader i =
      if sched t = .reader i then
        readerStep mem (s.after mem script sched t).mem ((s.after mem script sched t).reader i)
      else (s.after mem script sched t).reader i := by
  cases h : sched t with
  | writer => simp [System.after, System.step, h]
  | reader j =>
    by_cases hj : j = i
    · subst hj
      simp [System.after, System.step, h]
    · simp [System.after, System.step, h, hj, Function.update_of_ne (Ne.symm hj)]

theorem reader_eq_of_idle {i : ι} {a : ℕ} (h : ∀ t < a, sched t ≠ .reader i) :
    (s.after mem script sched a).reader i = s.reader i := by
  induction a with
  | zero => rfl
  | succ a ih =>
    rw [reader_step, if_neg (h a (Nat.lt_succ_self a)), ih (fun t ht => h t (by omega))]

variable (mem script sched s)

/-- A reader that runs `p` from instant `a` and has returned at instant `b` has
executed `p` along the memories of the run. -/
theorem exec_of_after (i : ι) {v : A i} {a b : ℕ} (hab : a ≤ b)
    (hb : ((s.after mem script sched b).reader i).result? = some v) :
    ∃ log, Exec mem.read (fun t => (s.after mem script sched t).mem) a
      ((s.after mem script sched a).reader i) log b v := by
  induction hn : b - a generalizing a with
  | zero =>
    obtain rfl : a = b := by omega
    rw [Prog.eq_ret_of_result? hb]
    exact ⟨[], .ret v le_rfl⟩
  | succ n ih =>
    obtain ⟨log, hlog⟩ := ih (a := a + 1) (by omega) (by omega)
    rw [reader_step] at hlog
    cases hp : (s.after mem script sched a).reader i with
    | ret w =>
      have hw : (if sched a = .reader i then readerStep mem (s.after mem script sched a).mem
          (Prog.ret w) else Prog.ret w) = (Prog.ret w : Prog L V Empty (A i)) := by
        split <;> rfl
      rw [hp, hw] at hlog
      obtain ⟨rfl, hle, rfl⟩ := exec_ret.mp hlog
      exact ⟨[], .ret w hab⟩
    | load l next =>
      rw [hp] at hlog
      split at hlog
      · exact ⟨⟨a, l⟩ :: log, .load le_rfl hlog⟩
      · obtain ⟨t, tail, rfl, ht, htail⟩ := exec_load.mp hlog
        exact ⟨⟨t, l⟩ :: tail, .load (by omega) htail⟩
    | store c => exact nomatch c
    | spin =>
      have hw : (if sched a = .reader i then readerStep mem (s.after mem script sched a).mem
          Prog.spin else Prog.spin) = (Prog.spin : Prog L V Empty (A i)) := by
        split <;> rfl
      rw [hp, hw] at hlog
      exact absurd hlog not_exec_spin

end Readers

end SafeShm.SingleWriterRuns
