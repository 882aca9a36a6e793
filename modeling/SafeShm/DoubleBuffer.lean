import SafeShm.Parameters
import SafeShm.ShmLock
import SafeShm.SwapRunner

/-!
# Locked stores and double-buffered loads

Any number of callers of `store` (`Storage` and `DoubleBufferShm` have the same one) and any
number of loaders (`DblBufLoader` and `DoubleBufferShm` have the same `load`, `wait` and
background task) on one data segment and one lock. A loader is its `SwapRunner` with one client
thread, the `DoubleBufferSwapper`, and the two buffers that a pointer may designate: the segment
and the pre-allocated buffer. An assignment of `T` goes word by word.

The first part follows one loader, whatever the others do to the lock and to the segment.
-/

namespace SafeShm.DoubleBuffer
open StateMachines

/-- What a pointer that is not null designates. -/
inductive Buffer where
  | shm
  | preAllocated
  deriving DecidableEq

/-- The next statement of the task of a loader: `lock_.lock()`; in `swap()` the assertions, the load
and the store of word `j` in `*pre_allocated_buffer_ = *stage_`, the store to `*active_buffer_` and
`stage_ = nullptr`; the store to `published_ptr_`; `lock_.unlock()`. A task fails if an assertion
does, or if it dereferences a null pointer. -/
inductive TaskPc (F : FlatType) where
  | locking
  | checking
  | copying (j : ℕ)
  | writing (j : Fin F.words) (w : F.Word)
  | activating
  | unstaging
  | publishing
  | unlocking
  | finished
  | failed

/-- A loader: it is `loading` from the call of `load()` to the store to `stage_`, and `active` is
`swapper_ptr_`, through which the swapper sets the active buffer. -/
structure Loader (F : FlatType) where
  runner : SwapRunner.State Unit
  loading : Bool
  stage : Option Buffer
  active : Buffer
  published : Buffer
  pre : F.T
  task : TaskPc F

variable {F : FlatType}

variable (F) in
def Loader.initial : Loader F where
  runner := SwapRunner.initial Unit
  loading := false
  stage := none
  active := .shm
  published := .shm
  pre := F.valueInit
  task := .finished

/-- What a pointer reads while the segment holds `data`. -/
def Loader.read (L : Loader F) (data : F.T) : Buffer → F.T
  | .shm => data
  | .preAllocated => L.pre

/-- `operator*` of a `Snapshot`: what the reference designates that it returns. The client reads
through the reference, with `Loader.read`, and not all at once. -/
def Loader.deref (L : Loader F) : Buffer := L.published

/-- The next statement of the task, with the place `pc` of the runner at the lock. -/
def Loader.taskTurn (L : Loader F) (pc : ShmLock.Pc) (data : F.T) : Loader F :=
  match L.task with
  | .locking => if pc = .held then { L with task := .checking } else L
  | .checking =>
      match L.stage with
      | some .shm => { L with task := .copying 0 }
      | some .preAllocated => { L with task := .failed }
      | none => { L with task := .failed }
  | .copying j =>
      if h : j < F.words then
        match L.stage with
        | some b => { L with task := .writing ⟨j, h⟩ (L.read data b ⟨j, h⟩) }
        | none => { L with task := .failed }
      else { L with task := .activating }
  | .writing j w => { L with pre := Function.update L.pre j w, task := .copying (j + 1) }
  | .activating => { L with active := .preAllocated, task := .unstaging }
  | .unstaging => { L with stage := none, task := .publishing }
  | .publishing => { L with published := L.active, task := .unlocking }
  | .unlocking => if pc = .out then { L with task := .finished } else L
  | .finished => { L with runner := SwapRunner.step L.runner (.finish false) }
  | .failed => L

/-- The calls and the next access of the client of a loader, and the next step of its runner, with
its place at the lock and the segment as it is. -/
inductive Move (F : FlatType) where
  | load
  | wait
  | client
  | runner (pc : ShmLock.Pc) (data : F.T)
  | spuriousClient
  | spuriousRunner

def Loader.move (L : Loader F) : Move F → Loader F
  | .load =>
      if L.runner.client () = .outside ∧ L.loading = false then { L with loading := true } else L
  | .wait =>
      if L.loading then L else { L with runner := SwapRunner.step L.runner (.wait ()) }
  | .client =>
      if L.loading then
        { L with
          loading := false
          stage := some .shm
          runner := SwapRunner.step L.runner (.trigger ()) }
      else { L with runner := SwapRunner.step L.runner (.client ()) }
  | .runner pc data =>
      match L.runner.runner with
      | .calling => { L with runner := SwapRunner.step L.runner .runner, task := .locking }
      | .running => L.taskTurn pc data
      | _ => { L with runner := SwapRunner.step L.runner .runner }
  | .spuriousClient => { L with runner := SwapRunner.step L.runner (.spuriousClient ()) }
  | .spuriousRunner => { L with runner := SwapRunner.step L.runner .spuriousRunner }

/-- Those who use the lock: the callers of `store`, and the background threads of the loaders. -/
inductive Party (σ ℓ : Type) where
  | storer (i : σ)
  | loader (l : ℓ)
  deriving DecidableEq

/-- The next statement of `store(v)`: `lock_.lock()`, the store of word `j` in the assignment of `v`
to the segment, or `lock_.unlock()`. -/
inductive StorePc (F : FlatType) where
  | outside
  | locking (v : F.T)
  | copying (v : F.T) (j : ℕ)
  | unlocking

/-- `stored` records the values whose assignment is complete, the newest first. -/
structure System (F : FlatType) (σ ℓ : Type) where
  lock : ShmLock.State (Party σ ℓ)
  data : F.T
  storer : σ → StorePc F
  loader : ℓ → Loader F
  stored : List F.T

section System
variable {σ ℓ : Type} [DecidableEq σ] [DecidableEq ℓ]

variable (σ ℓ) in
/-- All objects are constructed, the segment holds `data` and the lock is free. -/
def System.initial (data : F.T) : System F σ ℓ :=
  ⟨ShmLock.free, data, fun _ => .outside, fun _ => Loader.initial F, []⟩

def acquire {ι : Type} [DecidableEq ι] (s : ShmLock.State ι) (p : ι) : ShmLock.State ι :=
  match s.pc p with
  | .out => ShmLock.step s (.lock p)
  | .held => s
  | _ => ShmLock.step s (.turn p)

def release {ι : Type} [DecidableEq ι] (s : ShmLock.State ι) (p : ι) : ShmLock.State ι :=
  match s.pc p with
  | .out => s
  | .held => ShmLock.step s (.unlock p)
  | _ => ShmLock.step s (.turn p)

/-- What the next step of a loader's runner does to the lock. -/
def Loader.lockTurn {ι : Type} [DecidableEq ι] (L : Loader F) (s : ShmLock.State ι) (p : ι) :
    ShmLock.State ι :=
  if L.runner.runner = .running then
    match L.task with
    | .locking => acquire s p
    | .unlocking => release s p
    | _ => s
  else s

/-- The next step of `Storage::store`. -/
def System.storeTurn (s : System F σ ℓ) (i : σ) : System F σ ℓ :=
  match s.storer i with
  | .outside => s
  | .locking v =>
      if s.lock.pc (.storer i) = .held then
        { s with storer := Function.update s.storer i (.copying v 0) }
      else { s with lock := acquire s.lock (.storer i) }
  | .copying v j =>
      if h : j < F.words then
        { s with
          data := Function.update s.data ⟨j, h⟩ (v ⟨j, h⟩)
          storer := Function.update s.storer i (.copying v (j + 1)) }
      else
        { s with
          storer := Function.update s.storer i .unlocking
          stored := v :: s.stored }
  | .unlocking =>
      if s.lock.pc (.storer i) = .out then
        { s with storer := Function.update s.storer i .outside }
      else { s with lock := release s.lock (.storer i) }

/-- A call of `store(v)` or the next step of its caller; what the client and the runner of a loader
do; `FUTEX_WAKE` of `p`, which wakes up `q`; and a spurious wake-up in `FUTEX_WAIT`. -/
inductive Action (F : FlatType) (σ ℓ : Type) where
  | store (i : σ) (v : F.T)
  | storer (i : σ)
  | load (l : ℓ)
  | wait (l : ℓ)
  | client (l : ℓ)
  | runner (l : ℓ)
  | spuriousClient (l : ℓ)
  | spuriousRunner (l : ℓ)
  | wake (p q : Party σ ℓ)
  | spurious (q : Party σ ℓ)

def System.moveLoader (s : System F σ ℓ) (l : ℓ) (m : Move F) : System F σ ℓ :=
  { s with loader := Function.update s.loader l ((s.loader l).move m) }

def System.step (s : System F σ ℓ) : Action F σ ℓ → System F σ ℓ
  | .store i v =>
      match s.storer i with
      | .outside => { s with storer := Function.update s.storer i (.locking v) }
      | _ => s
  | .storer i => s.storeTurn i
  | .load l => s.moveLoader l .load
  | .wait l => s.moveLoader l .wait
  | .client l => s.moveLoader l .client
  | .runner l =>
      { (s.moveLoader l (.runner (s.lock.pc (.loader l)) s.data)) with
        lock := (s.loader l).lockTurn s.lock (.loader l) }
  | .spuriousClient l => s.moveLoader l .spuriousClient
  | .spuriousRunner l => s.moveLoader l .spuriousRunner
  | .wake p q => { s with lock := ShmLock.step s.lock (.wake p q) }
  | .spurious q => { s with lock := ShmLock.step s.lock (.spurious q) }

end System

end SafeShm.DoubleBuffer
