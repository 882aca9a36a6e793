import Mathlib.Data.List.Forall2
import Mathlib.Order.Monotone.Defs
import Mathlib.Order.Nat

/-!
# Programs of atomic accesses

A program is a tree of atomic loads and stores on a shared memory. Loads branch on
the value they return. A loop that has used up its fuel is the leaf `spin`: it
never returns, so a statement about returned values says nothing about it, and a
statement that a program returns has to exclude it.

Nothing here fixes the memory. Programs without stores are run in three ways:
against one fixed answer to every load (`run`), against any list of answers
(`Answers`), and along a history of memories in which other parties act between
two of its loads (`Exec`).
-/

namespace SafeShm.AtomicPrograms

/-- Programs over the locations `L` holding values `V`, with store commands `C`. -/
inductive Prog (L : Type) (V : L → Type) (C A : Type) : Type where
  | ret (a : A)
  | load (l : L) (next : V l → Prog L V C A)
  | store (c : C) (next : Prog L V C A)
  | spin

namespace Prog
variable {L : Type} {V : L → Type} {C A B : Type}

/-- Sequential composition: run the first program, then `f` on its result. -/
protected def bind : Prog L V C A → (A → Prog L V C B) → Prog L V C B
  | .ret a, f => f a
  | .load l next, f => .load l (fun v => (next v).bind f)
  | .store c next, f => .store c (next.bind f)
  | .spin, _ => .spin

instance : Monad (Prog L V C) where
  pure := .ret
  bind := Prog.bind

@[simp] theorem pure_eq (a : A) : (pure a : Prog L V C A) = .ret a := rfl

@[simp] theorem ret_bind (a : A) (f : A → Prog L V C B) :
    (Prog.ret a >>= f) = f a := rfl

@[simp] theorem load_bind (l : L) (next : V l → Prog L V C A) (f : A → Prog L V C B) :
    (Prog.load l next >>= f) = .load l (fun v => next v >>= f) := rfl

@[simp] theorem store_bind (c : C) (next : Prog L V C A) (f : A → Prog L V C B) :
    (Prog.store c next >>= f) = .store c (next >>= f) := rfl

@[simp] theorem spin_bind (f : A → Prog L V C B) :
    ((Prog.spin : Prog L V C A) >>= f) = .spin := rfl

private theorem bind_ret_right (p : Prog L V C A) : p.bind .ret = p := by
  induction p with
  | ret a => rfl
  | load l next ih => exact congrArg (Prog.load l) (funext ih)
  | store c next ih => exact congrArg (Prog.store c) ih
  | spin => rfl

private theorem bind_bind {D : Type} (p : Prog L V C A) (f : A → Prog L V C B)
    (g : B → Prog L V C D) : (p.bind f).bind g = p.bind (fun a => (f a).bind g) := by
  induction p with
  | ret a => rfl
  | load l next ih => exact congrArg (Prog.load l) (funext ih)
  | store c next ih => exact congrArg (Prog.store c) ih
  | spin => rfl

instance : LawfulMonad (Prog L V C) :=
  LawfulMonad.mk' _ bind_ret_right (fun _ _ => rfl) bind_bind

/-- The result of a program that has returned. -/
def result? : Prog L V C A → Option A
  | .ret a => some a
  | _ => none

theorem eq_ret_of_result? {p : Prog L V C A} {a : A} (h : p.result? = some a) :
    p = .ret a := by
  cases p <;> simp_all [result?]

/-- Run a program without stores, every load of `l` being answered by `g l`. -/
def run (g : (l : L) → V l) : Prog L V Empty A → Option A
  | .ret a => some a
  | .load l next => (next (g l)).run g
  | .store c _ => nomatch c
  | .spin => none

@[simp] theorem run_ret (g : (l : L) → V l) (a : A) :
    (Prog.ret a : Prog L V Empty A).run g = some a := rfl

@[simp] theorem run_load (g : (l : L) → V l) (l : L) (next : V l → Prog L V Empty A) :
    (Prog.load l next).run g = (next (g l)).run g := rfl

@[simp] theorem run_bind (g : (l : L) → V l) (p : Prog L V Empty A)
    (f : A → Prog L V Empty B) : (p >>= f).run g = (p.run g).bind (fun a => (f a).run g) := by
  induction p with
  | ret a => rfl
  | load l next ih => exact ih (g l)
  | store c => exact nomatch c
  | spin => rfl

def interp {L' : Type} {V' : L' → Type} (h : (l : L) → Prog L' V' C (V l)) :
    Prog L V Empty A → Prog L' V' C A
  | .ret a => .ret a
  | .load l next => h l >>= fun v => (next v).interp h
  | .store c _ => nomatch c
  | .spin => .spin

/-- Whatever the loads return, `p` only loads locations in `S`. -/
def LoadsIn (S : L → Prop) : Prog L V Empty A → Prop
  | .ret _ => True
  | .load l next => S l ∧ ∀ v, (next v).LoadsIn S
  | .store c _ => nomatch c
  | .spin => True

theorem LoadsIn.bind {S : L → Prop} {p : Prog L V Empty A} {f : A → Prog L V Empty B}
    (hp : p.LoadsIn S) (hf : ∀ a, (f a).LoadsIn S) : (p >>= f).LoadsIn S := by
  induction p with
  | ret a => exact hf a
  | load l next ih => exact ⟨hp.1, fun v => ih v (hp.2 v)⟩
  | store c => exact nomatch c
  | spin => trivial

theorem LoadsIn.mono {S S' : L → Prop} (hS : ∀ l, S l → S' l) {p : Prog L V Empty A}
    (hp : p.LoadsIn S) : p.LoadsIn S' := by
  induction p with
  | ret a => trivial
  | load l next ih => exact ⟨hS l hp.1, fun v => ih v (hp.2 v)⟩
  | store c => exact nomatch c
  | spin => trivial

/-- If the programs for the single loads return the answers `g'` on the memory `g`,
the composed program runs as the original one on `g'`. -/
theorem run_interp {L' : Type} {V' : L' → Type} {h : (l : L) → Prog L' V' Empty (V l)}
    {g : (l : L') → V' l} {g' : (l : L) → V l} (hg : ∀ l, (h l).run g = some (g' l))
    (p : Prog L V Empty A) : (p.interp h).run g = p.run g' := by
  induction p with
  | ret a => rfl
  | load l next ih => simp [interp, hg, ih]
  | store c => exact nomatch c
  | spin => rfl

end Prog

section Answers
variable {L : Type} {V : L → Type} {A B : Type}

/-- `p` returns `a` when its loads are answered, in order, by `tr`. -/
inductive Answers : Prog L V Empty A → List ((l : L) × V l) → A → Prop where
  | ret (a : A) : Answers (.ret a) [] a
  | load {l : L} {next : V l → Prog L V Empty A} {tr : List ((l : L) × V l)} {a : A}
      (v : V l) (tail : Answers (next v) tr a) : Answers (.load l next) (⟨l, v⟩ :: tr) a

theorem answers_ret {a a' : A} {tr : List ((l : L) × V l)} :
    Answers (.ret a) tr a' ↔ tr = [] ∧ a = a' := by
  constructor
  · intro h
    cases h
    exact ⟨rfl, rfl⟩
  · rintro ⟨rfl, rfl⟩
    exact .ret a

theorem answers_load {l : L} {next : V l → Prog L V Empty A} {tr : List ((l : L) × V l)}
    {a : A} : Answers (.load l next) tr a ↔
      ∃ v tail, tr = ⟨l, v⟩ :: tail ∧ Answers (next v) tail a := by
  constructor
  · intro h
    cases h with
    | load v tail => exact ⟨v, _, rfl, tail⟩
  · rintro ⟨v, tail, rfl, h⟩
    exact .load v h

theorem not_answers_spin {tr : List ((l : L) × V l)} {a : A} :
    ¬ Answers (.spin : Prog L V Empty A) tr a := nofun

theorem not_answers_ret_none {tr : List ((l : L) × V l)} {a : A} :
    ¬ Answers (.ret none : Prog L V Empty (Option A)) tr (some a) := nofun

theorem answers_bind {p : Prog L V Empty A} {f : A → Prog L V Empty B}
    {tr : List ((l : L) × V l)} {b : B} : Answers (p >>= f) tr b ↔
      ∃ a tr₁ tr₂, tr = tr₁ ++ tr₂ ∧ Answers p tr₁ a ∧ Answers (f a) tr₂ b := by
  induction p generalizing tr with
  | ret a => simp [answers_ret]
  | load l next ih =>
    simp only [Prog.load_bind, answers_load, ih]
    constructor
    · rintro ⟨v, tail, rfl, a, tr₁, tr₂, rfl, h₁, h₂⟩
      exact ⟨a, ⟨l, v⟩ :: tr₁, tr₂, rfl, ⟨v, tr₁, rfl, h₁⟩, h₂⟩
    · rintro ⟨a, _, tr₂, rfl, ⟨v, tr₁, rfl, h₁⟩, h₂⟩
      exact ⟨v, tr₁ ++ tr₂, rfl, a, tr₁, tr₂, rfl, h₁, h₂⟩
  | store c => exact nomatch c
  | spin => simp [not_answers_spin]

theorem Answers.eq_of_append {p : Prog L V Empty A} {tr tr' rest rest' : List ((l : L) × V l)}
    {a a' : A} (h : Answers p tr a) (h' : Answers p tr' a') (heq : tr ++ rest = tr' ++ rest') :
    a = a' ∧ rest = rest' := by
  induction h generalizing tr' with
  | ret a =>
    obtain ⟨rfl, rfl⟩ := answers_ret.mp h'
    exact ⟨rfl, heq⟩
  | load v tail ih =>
    obtain ⟨v', tail', rfl, htail'⟩ := answers_load.mp h'
    simp only [List.cons_append, List.cons.injEq, Sigma.mk.injEq, heq_eq_eq, true_and] at heq
    obtain ⟨rfl, heq⟩ := heq
    exact ih htail' heq

/-- Run `p` on a list of answers. -/
def follow [DecidableEq L] : Prog L V Empty A → List ((l : L) × V l) → Option A
  | .ret a, [] => some a
  | .load l next, ⟨l', v⟩ :: tr => if h : l' = l then follow (next (h ▸ v)) tr else none
  | _, _ => none

theorem answers_of_follow [DecidableEq L] {p : Prog L V Empty A} {tr : List ((l : L) × V l)}
    {a : A} (h : follow p tr = some a) : Answers p tr a := by
  induction tr generalizing p with
  | nil =>
    cases p with
    | ret a' =>
      cases h
      exact .ret a
    | load l next => simp [follow] at h
    | store c => exact nomatch c
    | spin => simp [follow] at h
  | cons x tr ih =>
    obtain ⟨l', v⟩ := x
    cases p with
    | ret a' => simp [follow] at h
    | load l next =>
      rw [follow] at h
      split at h
      · rename_i hl
        subst hl
        exact .load v (ih h)
      · simp at h
    | store c => exact nomatch c
    | spin => simp [follow] at h

theorem Answers.run {p : Prog L V Empty A} {tr : List ((l : L) × V l)} {a : A}
    (h : Answers p tr a) {g : (l : L) → V l} (hg : ∀ x ∈ tr, x.2 = g x.1) :
    p.run g = some a := by
  induction h with
  | ret a => rfl
  | load v tail ih =>
    obtain ⟨hv, htail⟩ := List.forall_mem_cons.mp hg
    dsimp only at hv
    subst hv
    exact ih htail

end Answers

section Served
variable {L : Type} {V : L → Type} {A B : Type}

/-- Whatever the loads return, the program returns. -/
def Prog.SpinFree : Prog L V Empty A → Prop
  | .ret _ => True
  | .load _ next => ∀ v, (next v).SpinFree
  | .store c _ => nomatch c
  | .spin => False

theorem Prog.SpinFree.bind {p : Prog L V Empty A} {f : A → Prog L V Empty B} (hp : p.SpinFree)
    (hf : ∀ a, (f a).SpinFree) : (p >>= f).SpinFree := by
  induction p with
  | ret a => exact hf a
  | load l next ih => exact fun v => ih v (hp v)
  | store c => exact nomatch c
  | spin => exact hp.elim

/-- The answers `tr` are those that an environment gives which answers load number `n` and the
later ones by `g n`, `g (n + 1)`, … -/
def Serves (g : ℕ → (l : L) → V l) : ℕ → List ((l : L) × V l) → Prop
  | _, [] => True
  | n, x :: tr => x.2 = g n x.1 ∧ Serves g (n + 1) tr

theorem serves_append {g : ℕ → (l : L) → V l} {n : ℕ} {tr tr' : List ((l : L) × V l)} :
    Serves g n (tr ++ tr') ↔ Serves g n tr ∧ Serves g (n + tr.length) tr' := by
  induction tr generalizing n with
  | nil => simp [Serves]
  | cons x tr ih =>
    rw [List.cons_append, Serves, Serves, ih, List.length_cons, and_assoc, Nat.add_right_comm,
      Nat.add_assoc]

theorem Prog.SpinFree.answers {p : Prog L V Empty A} (h : p.SpinFree) (g : ℕ → (l : L) → V l)
    (n : ℕ) : ∃ tr a, Answers p tr a ∧ Serves g n tr := by
  induction p generalizing n with
  | ret a => exact ⟨[], a, .ret a, trivial⟩
  | load l next ih =>
    obtain ⟨tr, a, htr, hserves⟩ := ih (g n l) (h _) (n + 1)
    exact ⟨⟨l, g n l⟩ :: tr, a, .load _ htr, rfl, hserves⟩
  | store c => exact nomatch c
  | spin => exact h.elim

/-- Whatever the loads return, the program returns a value in `Q`, and it loads only locations
in `S`. -/
def Prog.Total (S : L → Prop) (Q : A → Prop) : Prog L V Empty A → Prop
  | .ret a => Q a
  | .load l next => S l ∧ ∀ v, (next v).Total S Q
  | .store c _ => nomatch c
  | .spin => False

variable {S : L → Prop} {Q : A → Prop} {R : B → Prop}

theorem Prog.Total.bind {p : Prog L V Empty A} {f : A → Prog L V Empty B} (hp : p.Total S Q)
    (hf : ∀ a, Q a → (f a).Total S R) : (p >>= f).Total S R := by
  induction p with
  | ret a => exact hf a hp
  | load l next ih => exact ⟨hp.1, fun v => ih v (hp.2 v)⟩
  | store c => exact nomatch c
  | spin => exact hp.elim

theorem Prog.Total.bind_congr {p : Prog L V Empty A} {f g : A → Prog L V Empty B}
    (hp : p.Total S Q) (hfg : ∀ a, Q a → f a = g a) : (p >>= f) = (p >>= g) := by
  induction p with
  | ret a => exact hfg a hp
  | load l next ih => exact congrArg (Prog.load l) (funext fun v => ih v (hp.2 v))
  | store c => exact nomatch c
  | spin => rfl

theorem Prog.Total.loadsIn {p : Prog L V Empty A} (hp : p.Total S Q) : p.LoadsIn S := by
  induction p with
  | ret a => trivial
  | load l next ih => exact ⟨hp.1, fun v => ih v (hp.2 v)⟩
  | store c => exact nomatch c
  | spin => trivial

theorem Prog.Total.spinFree {p : Prog L V Empty A} (hp : p.Total S Q) : p.SpinFree := by
  induction p with
  | ret a => trivial
  | load l next ih => exact fun v => ih v (hp.2 v)
  | store c => exact nomatch c
  | spin => exact hp.elim

/-- A program whose loads are answered as `P` says returns a value in `Q`, if it returns. -/
def Prog.Ensures (P : (l : L) → V l → Prop) (Q : A → Prop) : Prog L V Empty A → Prop
  | .ret a => Q a
  | .load l next => ∀ v, P l v → (next v).Ensures P Q
  | .store c _ => nomatch c
  | .spin => True

variable {P : (l : L) → V l → Prop}

theorem Prog.ensures_true (p : Prog L V Empty A) : p.Ensures P (fun _ => True) := by
  induction p with
  | ret a => trivial
  | load l next ih => exact fun v _ => ih v
  | store c => exact nomatch c
  | spin => trivial

theorem Prog.Ensures.bind {p : Prog L V Empty A} {f : A → Prog L V Empty B} (hp : p.Ensures P Q)
    (hf : ∀ a, Q a → (f a).Ensures P R) : (p >>= f).Ensures P R := by
  induction p with
  | ret a => exact hf a hp
  | load l next ih => exact fun v hv => ih v (hp v hv)
  | store c => exact nomatch c
  | spin => trivial

theorem Answers.ensures {p : Prog L V Empty A} {tr : List ((l : L) × V l)} {a : A}
    (h : Answers p tr a) (hp : p.Ensures P Q) (htr : ∀ x ∈ tr, P x.1 x.2) : Q a := by
  induction h with
  | ret a => exact hp
  | load v tail ih =>
    obtain ⟨hv, hrest⟩ := List.forall_mem_cons.mp htr
    exact ih (hp v hv) hrest

theorem Answers.loc_mem {p : Prog L V Empty A} {tr : List ((l : L) × V l)} {a : A}
    (h : Answers p tr a) (hp : p.LoadsIn S) : ∀ x ∈ tr, S x.1 := by
  induction h with
  | ret a => simp
  | load v tail ih => exact List.forall_mem_cons.mpr ⟨hp.1, ih (hp.2 v)⟩

end Served

/-- One recorded load: its instant and its location. -/
structure Event (L : Type) where
  time : ℕ
  loc : L
  deriving DecidableEq

section Exec
variable {L : Type} {V : L → Type} {M A B : Type}
variable {read : M → (l : L) → V l} {σ : ℕ → M}

/-- `Exec read σ s p log b a`: along the memories `σ 0, σ 1, …` the program `p`,
called at instant `s`, makes the loads in `log`, each on the memory of its own
instant, and returns `a` at instant `b`. Other parties act in between. -/
inductive Exec (read : M → (l : L) → V l) (σ : ℕ → M) :
    ℕ → Prog L V Empty A → List (Event L) → ℕ → A → Prop where
  | ret {s b : ℕ} (a : A) (h : s ≤ b) : Exec read σ s (.ret a) [] b a
  | load {s b t : ℕ} {l : L} {next : V l → Prog L V Empty A} {log : List (Event L)} {a : A}
      (h : s ≤ t) (tail : Exec read σ (t + 1) (next (read (σ t) l)) log b a) :
      Exec read σ s (.load l next) (⟨t, l⟩ :: log) b a

theorem exec_ret {s b : ℕ} {a a' : A} {log : List (Event L)} :
    Exec read σ s (.ret a) log b a' ↔ log = [] ∧ s ≤ b ∧ a = a' := by
  constructor
  · intro h
    cases h with
    | ret _ h => exact ⟨rfl, h, rfl⟩
  · rintro ⟨rfl, h, rfl⟩
    exact .ret a h

theorem exec_load {s b : ℕ} {l : L} {next : V l → Prog L V Empty A} {log : List (Event L)}
    {a : A} : Exec read σ s (.load l next) log b a ↔
      ∃ t tail, log = ⟨t, l⟩ :: tail ∧ s ≤ t ∧
        Exec read σ (t + 1) (next (read (σ t) l)) tail b a := by
  constructor
  · intro h
    cases h with
    | load h tail => exact ⟨_, _, rfl, h, tail⟩
  · rintro ⟨t, tail, rfl, h, htail⟩
    exact .load h htail

theorem not_exec_spin {s b : ℕ} {log : List (Event L)} {a : A} :
    ¬ Exec read σ s (.spin : Prog L V Empty A) log b a := nofun

theorem not_exec_ret_none {s b : ℕ} {log : List (Event L)} {a : A} :
    ¬ Exec read σ s (.ret none : Prog L V Empty (Option A)) log b (some a) := nofun

theorem Exec.le {s b : ℕ} {p : Prog L V Empty A} {log : List (Event L)} {a : A}
    (h : Exec read σ s p log b a) : s ≤ b := by
  induction h with
  | ret a h => exact h
  | load h tail ih => omega

theorem Exec.mem_log {s b : ℕ} {p : Prog L V Empty A} {log : List (Event L)} {a : A}
    (h : Exec read σ s p log b a) : ∀ e ∈ log, s ≤ e.time ∧ e.time < b := by
  induction h with
  | ret a h => simp
  | load h tail ih =>
    intro e he
    rcases List.mem_cons.mp he with rfl | he
    · exact ⟨h, tail.le⟩
    · have := ih e he
      omega

theorem Exec.pairwise_time {s b : ℕ} {p : Prog L V Empty A} {log : List (Event L)} {a : A}
    (h : Exec read σ s p log b a) : log.Pairwise (fun e e' => e.time < e'.time) := by
  induction h with
  | ret a h => exact .nil
  | load h tail ih => exact .cons (fun e he => (tail.mem_log e he).1) ih

theorem Exec.loc_mem {s b : ℕ} {p : Prog L V Empty A} {log : List (Event L)} {a : A}
    {S : L → Prop} (h : Exec read σ s p log b a) (hp : p.LoadsIn S) : ∀ e ∈ log, S e.loc := by
  induction h with
  | ret a h => simp
  | load h tail ih =>
    intro e he
    rcases List.mem_cons.mp he with rfl | he
    · exact hp.1
    · exact ih (hp.2 _) e he

theorem Exec.run {s b : ℕ} {p : Prog L V Empty A} {log : List (Event L)} {a : A}
    (h : Exec read σ s p log b a) {g : (l : L) → V l}
    (hg : ∀ e ∈ log, read (σ e.time) e.loc = g e.loc) : p.run g = some a := by
  induction h with
  | ret a h => rfl
  | load h tail ih =>
    obtain ⟨hv, htail⟩ := List.forall_mem_cons.mp hg
    rw [Prog.run_load, ← hv]
    exact ih htail

theorem exec_bind {s b : ℕ} {p : Prog L V Empty A} {f : A → Prog L V Empty B}
    {log : List (Event L)} {v : B} : Exec read σ s (p >>= f) log b v ↔
      ∃ a m log₁ log₂, log = log₁ ++ log₂ ∧ Exec read σ s p log₁ m a ∧
        Exec read σ m (f a) log₂ b v := by
  constructor
  · intro h
    induction p generalizing s log with
    | ret a => exact ⟨a, s, [], log, rfl, .ret a le_rfl, h⟩
    | load l next ih =>
      obtain ⟨t, tail, rfl, hs, htail⟩ := exec_load.mp h
      obtain ⟨a, m, log₁, log₂, rfl, h₁, h₂⟩ := ih _ htail
      exact ⟨a, m, ⟨t, l⟩ :: log₁, log₂, rfl, .load hs h₁, h₂⟩
    | store c => exact nomatch c
    | spin => exact absurd h not_exec_spin
  · rintro ⟨a, m, log₁, log₂, rfl, h₁, h₂⟩
    induction h₁ with
    | ret a h =>
      -- the continuation may be called earlier than it was: its first load waits
      cases hf : f a with
      | ret w =>
        rw [hf] at h₂
        obtain ⟨rfl, hb, rfl⟩ := exec_ret.mp h₂
        simpa [hf] using Exec.ret w (h.trans hb)
      | load l next =>
        rw [hf] at h₂
        obtain ⟨t, tail, rfl, ht, htail⟩ := exec_load.mp h₂
        simpa [hf] using Exec.load (h.trans ht) htail
      | store c => exact nomatch c
      | spin => exact absurd (hf ▸ h₂) not_exec_spin
    | load h tail ih => exact .load h (ih h₂)

/-- Execute `p` from instant `s`, its loads at the given instants, and return by `b`. -/
def replay (read : M → (l : L) → V l) (σ : ℕ → M) (b : ℕ) :
    ℕ → Prog L V Empty A → List ℕ → Option (List (Event L) × A)
  | s, .ret a, [] => if s ≤ b then some ([], a) else none
  | s, .load l next, t :: ts =>
      if s ≤ t then (replay read σ b (t + 1) (next (read (σ t) l)) ts).map
        (fun x => (⟨t, l⟩ :: x.1, x.2))
      else none
  | _, _, _ => none

theorem exec_of_replay {s b : ℕ} {p : Prog L V Empty A} {ts : List ℕ} {log : List (Event L)}
    {a : A} (h : replay read σ b s p ts = some (log, a)) : Exec read σ s p log b a := by
  induction ts generalizing s p log with
  | nil =>
    cases p with
    | ret a' =>
      obtain ⟨hs, heq⟩ := (Option.ite_none_right_eq_some).mp h
      cases heq
      exact .ret _ hs
    | load l next => simp [replay] at h
    | store c => exact nomatch c
    | spin => simp [replay] at h
  | cons t ts ih =>
    cases p with
    | ret a' => simp [replay] at h
    | load l next =>
      obtain ⟨hs, heq⟩ := (Option.ite_none_right_eq_some).mp h
      obtain ⟨⟨log', a'⟩, h', heq⟩ := Option.map_eq_some_iff.mp heq
      cases heq
      exact .load hs (ih h')
    | store c => exact nomatch c
    | spin => simp [replay] at h

/-- A program made of sub-programs, one for each load of `p`, makes the loads of the
sub-programs, one after the other, and returns what `p` returns on their results. -/
theorem Exec.calls_of_interp {L' : Type} {V' : L' → Type}
    {h : (l : L') → Prog L V Empty (V' l)} {p : Prog L' V' Empty A} {s b : ℕ}
    {log : List (Event L)} {a : A} (he : Exec read σ s (p.interp h) log b a) :
    ∃ tr logs, Answers p tr a ∧ log = logs.flatten ∧
      List.Forall₂ (fun (x : (l : L') × V' l) log' => ∃ s' b',
        s ≤ s' ∧ b' ≤ b ∧ Exec read σ s' (h x.1) log' b' x.2) tr logs := by
  induction p generalizing s log with
  | ret a' =>
    obtain ⟨rfl, -, rfl⟩ := exec_ret.mp he
    exact ⟨[], [], .ret a', rfl, .nil⟩
  | load l next ih =>
    obtain ⟨v, m, log₁, log₂, rfl, h₁, h₂⟩ := exec_bind.mp he
    obtain ⟨tr, logs, htr, rfl, hall⟩ := ih v h₂
    refine ⟨⟨l, v⟩ :: tr, log₁ :: logs, .load v htr, rfl, .cons ⟨s, m, le_rfl, h₂.le, h₁⟩ ?_⟩
    apply hall.imp
    intro x log' hx
    obtain ⟨s', b', hs, hb, hx⟩ := hx
    exact ⟨s', b', h₁.le.trans hs, hb, hx⟩
  | store c => exact nomatch c
  | spin => exact absurd he not_exec_spin

/-- A program made of sub-programs, one for each load of `p`, runs as `p` on the
values they returned, and each of them ran inside the whole execution. -/
theorem Exec.answers_of_interp {L' : Type} {V' : L' → Type}
    {h : (l : L') → Prog L V Empty (V' l)} {p : Prog L' V' Empty A} {s b : ℕ}
    {log : List (Event L)} {a : A} (he : Exec read σ s (p.interp h) log b a) :
    ∃ tr, Answers p tr a ∧ ∀ x ∈ tr, ∃ s' b' log',
      s ≤ s' ∧ b' ≤ b ∧ log' <:+: log ∧ Exec read σ s' (h x.1) log' b' x.2 := by
  obtain ⟨tr, logs, htr, rfl, hall⟩ := he.calls_of_interp
  refine ⟨tr, htr, ?_⟩
  intro x hx
  obtain ⟨i, hi, rfl⟩ := List.getElem_of_mem hx
  have hi' : i < logs.length := hall.length_eq ▸ hi
  obtain ⟨s', b', hs, hb, hcall⟩ := hall.get hi hi'
  exact ⟨s', b', logs[i], hs, hb, List.infix_of_mem_flatten (List.getElem_mem hi'), hcall⟩

end Exec

/-- A call that has returned: what was called, when, the loads it made, its result. -/
structure Call (L : Type) (V : L → Type) (A : Type) where
  prog : Prog L V Empty A
  start : ℕ
  log : List (Event L)
  stop : ℕ
  value : A

section Successive
variable {L : Type} {V : L → Type} {M A : Type}
variable {read : M → (l : L) → V l} {σ : ℕ → M}

/-- The calls of one party, in order: each begins after the one before it returned. -/
structure Successive (read : M → (l : L) → V l) (σ : ℕ → M) (calls : List (Call L V A)) :
    Prop where
  exec : ∀ c ∈ calls, Exec read σ c.start c.prog c.log c.stop c.value
  ordered : calls.Pairwise (fun c c' => c.stop ≤ c'.start)

theorem Successive.sublist {calls calls' : List (Call L V A)} (h : Successive read σ calls)
    (hsub : calls'.Sublist calls) : Successive read σ calls' :=
  ⟨fun c hc => h.exec c (hsub.mem hc), h.ordered.sublist hsub⟩

/-- If each call has a number between the values of a growing counter at its start and
at its end, the numbers of successive calls do not decrease. -/
theorem Successive.exists_ordered {calls : List (Call L V A)} (h : Successive read σ calls)
    {f : ℕ → ℕ} (hf : Monotone f) {P : Call L V A → ℕ → Prop}
    (hP : ∀ c ∈ calls, ∃ k, P c k ∧ f c.start ≤ k ∧ k ≤ f c.stop) :
    ∃ ks, List.Forall₂ P calls ks ∧ ks.Pairwise (· ≤ ·) := by
  suffices hk : ∃ ks, List.Forall₂ (fun c k => P c k ∧ f c.start ≤ k) calls ks ∧
      ks.Pairwise (· ≤ ·) by
    obtain ⟨ks, hall, hks⟩ := hk
    exact ⟨ks, hall.imp (fun _ _ hk => hk.1), hks⟩
  have hordered := h.ordered
  clear h
  induction calls with
  | nil => exact ⟨[], .nil, .nil⟩
  | cons c calls ih =>
    obtain ⟨hc, htail⟩ := List.pairwise_cons.mp hordered
    obtain ⟨ks, hall, hks⟩ := ih (fun c' h' => hP c' (List.mem_cons_of_mem c h')) htail
    obtain ⟨k, hk, hstart, hstop⟩ := hP c List.mem_cons_self
    refine ⟨k :: ks, .cons ⟨hk, hstart⟩ hall, List.pairwise_cons.mpr ⟨fun k' hk' => ?_, hks⟩⟩
    obtain ⟨c', hc', hck⟩ : ∃ c' ∈ calls, f c'.start ≤ k' := by
      obtain ⟨i, hi, rfl⟩ := List.getElem_of_mem hk'
      have hi' : i < calls.length := hall.length_eq ▸ hi
      exact ⟨calls[i], List.getElem_mem hi', (hall.get hi' hi).2⟩
    exact (hstop.trans (hf (hc c' hc'))).trans hck

end Successive

end SafeShm.AtomicPrograms
