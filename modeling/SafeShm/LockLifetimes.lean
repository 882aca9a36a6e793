import SafeShm.ShmLock
import Mathlib.Data.Fintype.Prod

/-!
# The lock over the lifetimes of its objects

Objects of `Storage`, `DblBufLoader` and `DoubleBufferShm` on one name. A constructor attaches to
the data segment of that name and then to the segment of the lock, which has the name with the
suffix `_lock`; a segment that is not there is created with zeros. The destructors of the two
loaders call `ShmLock::destroy`, which stores 0 in the word and removes the name of the lock; the
segment lives on in the objects that are attached to it. At the end a destructor runs `~shm::Shm`
for the lock and then for the data. Its code is not in the repository, and so each run of it may
remove the name or leave it.
-/

namespace SafeShm.LockLifetimes
open StateMachines

inductive Kind where
  | storage
  | dblBufLoader
  | doubleBufferShm
  deriving DecidableEq

instance : Fintype Kind :=
  ⟨{.storage, .dblBufLoader, .doubleBufferShm}, fun k => by cases k <;> decide⟩

/-- The destructor calls `lock_.destroy()`. -/
def Kind.destroysLock : Kind → Bool
  | .storage => false
  | .dblBufLoader => true
  | .doubleBufferShm => true

/-- What a name stands for. Segments from `created` on do not exist yet. -/
structure Name where
  current : Option ℕ
  created : ℕ

/-- The segment that the constructor of `shm::Shm` opens or creates. -/
def Name.segment (n : Name) : ℕ := n.current.getD n.created

def Name.attach (n : Name) : Name :=
  match n.current with
  | some _ => n
  | none => ⟨some n.created, n.created + 1⟩

def Name.unlink (n : Name) : Name := { n with current := none }

theorem Name.attach_current (n : Name) : n.attach.current = some n.segment := by
  rw [Name.attach, Name.segment]
  cases h : n.current <;> simp [h]

theorem Name.attach_current_of_some {n : Name} {g : ℕ} (h : n.current = some g) :
    n.attach.current = some g := by
  rw [n.attach_current, Name.segment, h, Option.getD_some]

/-- Where an object is in its life: not constructed or gone; between the two segments of its
constructor; in use, with the data segment `d` and the segment `g` of the lock; in `destroy()`,
between the store and the removal of the name; before `~Shm` of the lock; and before that of the
data. -/
inductive Status where
  | absent
  | opening (d : ℕ)
  | attached (d g : ℕ)
  | destroying
  | closing
  | leaving
  deriving DecidableEq

/-- The segment of the lock of an object that is in use. -/
def Status.lock? : Status → Option ℕ
  | .attached _ g => some g
  | _ => none

/-- Each object has threads `τ` that may use its lock: those that call `store`, and the background
thread of a loader. -/
structure State (Obj τ : Type) where
  status : Obj → Status
  dataName : Name
  lockName : Name
  lock : ℕ → ShmLock.State (Obj × τ)

variable {Obj τ : Type} [DecidableEq Obj] [DecidableEq τ] [Fintype τ]

def initial : State Obj τ := ⟨fun _ => .absent, ⟨none, 0⟩, ⟨none, 0⟩, fun _ => ShmLock.free⟩

/-- The two halves of the constructor of `o`; a step or a call of one of its threads in `lock()` or
`unlock()`; its destructor up to the store of `destroy()`; the removal of the name at the end of
`destroy()`; and `~Shm` of the lock and of the data, which `unlinks` the name or not. -/
inductive Action (Obj τ : Type) where
  | construct (o : Obj)
  | attach (o : Obj)
  | use (o : Obj) (a : ShmLock.Action (Obj × τ))
  | destruct (o : Obj)
  | unlink (o : Obj)
  | closeLock (o : Obj) (unlinks : Bool)
  | closeData (o : Obj) (unlinks : Bool)

def State.setStatus (s : State Obj τ) (o : Obj) (x : Status) : State Obj τ :=
  { s with status := Function.update s.status o x }

def State.setLock (s : State Obj τ) (g : ℕ) (x : ShmLock.State (Obj × τ)) : State Obj τ :=
  { s with lock := Function.update s.lock g x }

/-- The body of the destructor. The loaders have joined their thread before `destroy()`. -/
def State.destruct (kind : Obj → Kind) (s : State Obj τ) (o : Obj) : State Obj τ :=
  match s.status o with
  | .attached _ g =>
      if ∀ th, (s.lock g).pc (o, th) = .out then
        if (kind o).destroysLock then
          (s.setStatus o .destroying).setLock g { s.lock g with word := 0 }
        else s.setStatus o .closing
      else s
  | _ => s

def step (kind : Obj → Kind) (s : State Obj τ) : Action Obj τ → State Obj τ
  | .construct o =>
      if s.status o = .absent then
        { (s.setStatus o (.opening s.dataName.segment)) with dataName := s.dataName.attach }
      else s
  | .attach o =>
      match s.status o with
      | .opening d =>
          { (s.setStatus o (.attached d s.lockName.segment)) with lockName := s.lockName.attach }
      | _ => s
  | .use o a =>
      match s.status o with
      | .attached _ g =>
          if a.party.1 = o then s.setLock g (ShmLock.step (s.lock g) a) else s
      | _ => s
  | .destruct o => s.destruct kind o
  | .unlink o =>
      if s.status o = .destroying then
        { (s.setStatus o .closing) with lockName := s.lockName.unlink }
      else s
  | .closeLock o unlinks =>
      if s.status o = .closing then
        { (s.setStatus o .leaving) with
          lockName := if unlinks then s.lockName.unlink else s.lockName }
      else s
  | .closeData o unlinks =>
      if s.status o = .leaving then
        { (s.setStatus o .absent) with
          dataName := if unlinks then s.dataName.unlink else s.dataName }
      else s

/-- The party is between `lock_.lock()` and `lock_.unlock()` for the data segment `d`. -/
def State.Inside (s : State Obj τ) (d : ℕ) (p : Obj × τ) : Prop :=
  ∃ g, s.status p.1 = .attached d g ∧ (s.lock g).Holds p

/-- For each data segment at most one party is inside, whatever segment its lock is in. -/
def Exclusive (s : State Obj τ) : Prop := ∀ d p q, s.Inside d p → s.Inside d q → p = q

/-- No destructor stores 0 in the word of a lock that is taken, and neither `destroy()` nor `~Shm`
removes the name of the lock while an object is attached to it. -/
def Careful (kind : Obj → Kind) (s : State Obj τ) : Action Obj τ → Prop
  | .destruct o => (kind o).destroysLock → ∀ g ∈ (s.status o).lock?,
      (∀ th, (s.lock g).pc (o, th) = .out) → ∀ p, ¬ (s.lock g).Holds p
  | .unlink o => s.status o = .destroying → ∀ o', (s.status o').lock? = none
  | .closeLock o unlinks => s.status o = .closing → unlinks → ∀ o', (s.status o').lock? = none
  | _ => True

instance [Fintype Obj] (kind : Obj → Kind) (s : State Obj τ) :
    (a : Action Obj τ) → Decidable (Careful kind s a)
  | .construct _ | .attach _ | .use _ _ | .closeData _ _ => inferInstanceAs (Decidable True)
  | .destruct o => inferInstanceAs (Decidable ((kind o).destroysLock → ∀ g ∈ (s.status o).lock?,
      (∀ th, (s.lock g).pc (o, th) = .out) → ∀ p, ¬ (s.lock g).Holds p))
  | .unlink o => inferInstanceAs
      (Decidable (s.status o = .destroying → ∀ o', (s.status o').lock? = none))
  | .closeLock o unlinks => inferInstanceAs
      (Decidable (s.status o = .closing → unlinks → ∀ o', (s.status o').lock? = none))

/-- What careful steps keep: all objects in use are attached to the segment that the name of the
lock stands for, and nobody else is at a lock. -/
structure Sound (s : State Obj τ) : Prop where
  correct : ∀ g, ShmLock.Correct (s.lock g)
  named : ∀ o, ∀ g ∈ (s.status o).lock?, s.lockName.current = some g
  inside : ∀ g p, (s.lock g).pc p ≠ .out → (s.status p.1).lock? = some g

omit [DecidableEq Obj] [DecidableEq τ] [Fintype τ] in
theorem sound_initial : Sound (initial : State Obj τ) := by
  constructor
  · intro g
    exact ShmLock.correct_free
  · simp [initial, Status.lock?]
  · simp [initial, ShmLock.free]

omit [DecidableEq Obj] [DecidableEq τ] [Fintype τ] in
theorem Sound.exclusive {s : State Obj τ} (h : Sound s) : Exclusive s := by
  rintro d p q ⟨g, hp, hholds⟩ ⟨g', hq, hholds'⟩
  have hg : s.lockName.current = some g := h.named p.1 g (by rw [hp]; rfl)
  have hg' : s.lockName.current = some g' := h.named q.1 g' (by rw [hq]; rfl)
  obtain rfl := Option.some.inj (hg.symm.trans hg')
  exact (h.correct g).unique p q hholds hholds'

section Steps
variable {kind : Obj → Kind} {s : State Obj τ} {o : Obj}

omit [DecidableEq Obj] [DecidableEq τ] [Fintype τ] in
private theorem Sound.out (h : Sound s) (hstatus : (s.status o).lock? = none) :
    ∀ g p, p.1 = o → (s.lock g).pc p = .out := by
  intro g p hp
  by_contra hne
  have hinside := h.inside g p hne
  rw [hp, hstatus] at hinside
  cases hinside

omit [DecidableEq τ] [Fintype τ] in
private theorem Sound.setStatus (h : Sound s) {x : Status} {dataName lockName : Name}
    (hout : ∀ g p, p.1 = o → (s.lock g).pc p = .out)
    (hown : ∀ g ∈ x.lock?, lockName.current = some g)
    (hothers : ∀ o', ∀ g ∈ (s.status o').lock?, lockName.current = some g) :
    Sound { (s.setStatus o x) with dataName := dataName, lockName := lockName } := by
  refine ⟨h.correct, ?_, ?_⟩
  · intro o' g hg
    by_cases heq : o' = o
    · subst heq
      apply hown g
      simpa [State.setStatus] using hg
    · apply hothers o' g
      simpa [State.setStatus, heq] using hg
  · intro g p hp
    have hne : p.1 ≠ o := fun heq => hp (hout g p heq)
    simpa [State.setStatus, hne] using h.inside g p hp

private theorem Sound.construct (h : Sound s) : Sound (step kind s (.construct o)) := by
  rw [step]
  split
  · rename_i habsent
    exact h.setStatus (h.out (by rw [habsent]; rfl)) (by simp [Status.lock?]) h.named
  · exact h

private theorem Sound.attach (h : Sound s) : Sound (step kind s (.attach o)) := by
  rw [step]
  split
  · rename_i d hopening
    refine h.setStatus (h.out (by rw [hopening]; rfl)) ?_ ?_
    · intro g hg
      obtain rfl : s.lockName.segment = g := by simpa [Status.lock?] using hg
      exact s.lockName.attach_current
    · intro o' g hg
      exact Name.attach_current_of_some (h.named o' g hg)
  · exact h

private theorem Sound.use (h : Sound s) (a : ShmLock.Action (Obj × τ)) :
    Sound (step kind s (.use o a)) := by
  rw [step]
  split
  · rename_i d g hg
    split
    · rename_i hparty
      refine ⟨?_, h.named, ?_⟩
      · intro g'
        by_cases heq : g' = g
        · subst heq
          simpa [State.setLock] using (h.correct g').step a
        · simpa [State.setLock, heq] using h.correct g'
      · intro g' p hp
        by_cases heq : g' = g
        · subst heq
          have hp' : (ShmLock.step (s.lock g') a).pc p ≠ .out := by
            simpa [State.setLock] using hp
          rcases (h.correct g').pc_ne_out hp' with hin | rfl
          · exact h.inside g' p hin
          · change (s.status a.party.1).lock? = some g'
            rw [hparty, hg]
            rfl
        · apply h.inside g' p
          simpa [State.setLock, heq] using hp
    · exact h
  · exact h

private theorem Sound.destruct (h : Sound s) (hcareful : Careful kind s (.destruct o)) :
    Sound (step kind s (.destruct o)) := by
  rw [step, State.destruct]
  split
  · rename_i d g hg
    split
    · rename_i hthreads
      have hout : ∀ g' p, p.1 = o → (s.lock g').pc p = .out := by
        rintro g' ⟨o', th⟩ rfl
        by_contra hne
        have hinside := h.inside g' (o', th) hne
        rw [show s.status (o', th).1 = .attached d g from hg] at hinside
        obtain rfl : g = g' := Option.some.inj hinside
        exact hne (hthreads th)
      split
      · rename_i hdestroys
        -- the store of 0 changes nothing, since nobody has the lock
        have hfree := hcareful hdestroys g (by rw [hg]; rfl) hthreads
        have hsame : ({ s.lock g with word := 0 } : ShmLock.State (Obj × τ)) = s.lock g := by
          rw [← (h.correct g).word_eq_zero hfree]
        have hlock : (s.setStatus o .destroying).setLock g (s.lock g) =
            s.setStatus o .destroying := by
          simp [State.setLock, State.setStatus]
        rw [hsame, hlock]
        exact h.setStatus hout (by simp [Status.lock?]) h.named
      · exact h.setStatus hout (by simp [Status.lock?]) h.named
    · exact h
  · exact h

private theorem Sound.unlink (h : Sound s) (hcareful : Careful kind s (.unlink o)) :
    Sound (step kind s (.unlink o)) := by
  rw [step]
  split
  · rename_i hdestroying
    have hnone := hcareful hdestroying
    refine h.setStatus (h.out (hnone o)) (by simp [Status.lock?]) ?_
    intro o' g hg
    rw [hnone o'] at hg
    cases hg
  · exact h

private theorem Sound.closeLock (h : Sound s) {unlinks : Bool}
    (hcareful : Careful kind s (.closeLock o unlinks)) :
    Sound (step kind s (.closeLock o unlinks)) := by
  rw [step]
  split
  · rename_i hclosing
    refine h.setStatus (h.out (by rw [hclosing]; rfl)) (by simp [Status.lock?]) ?_
    intro o' g hg
    cases unlinks with
    | false => exact h.named o' g hg
    | true =>
      rw [hcareful hclosing rfl o'] at hg
      cases hg
  · exact h

private theorem Sound.closeData (h : Sound s) (unlinks : Bool) :
    Sound (step kind s (.closeData o unlinks)) := by
  rw [step]
  split
  · rename_i hleaving
    exact h.setStatus (h.out (by rw [hleaving]; rfl)) (by simp [Status.lock?]) h.named
  · exact h

theorem Sound.step (h : Sound s) {a : Action Obj τ} (hcareful : Careful kind s a) :
    Sound (step kind s a) := by
  cases a with
  | construct o => exact h.construct
  | attach o => exact h.attach
  | use o a => exact h.use a
  | destruct o => exact h.destruct hcareful
  | unlink o => exact h.unlink hcareful
  | closeLock o unlinks => exact h.closeLock hcareful
  | closeData o unlinks => exact h.closeData unlinks

end Steps

/-- The lock stays exclusive over whole lifetimes, whatever names `~Shm` removes, as long as no
destructor stores 0 in the word of a lock that is taken and the name of the lock is not removed
while an object is attached to it. -/
theorem exclusive_of_careful (kind : Obj → Kind) (acts : ℕ → Action Obj τ) (t : ℕ)
    (hcareful : ∀ t' < t, Careful kind (after (step kind) initial acts t') (acts t')) :
    Exclusive (after (step kind) initial acts t) := by
  have h : Sound (after (step kind) initial acts t) :=
    after_invariant_of sound_initial (fun s a hC h => h.step hC) hcareful
  exact h.exclusive

section Samples

/-- One object of each kind. -/
abbrev oneOfEach : Kind → Kind := id

abbrev thread (k : Kind) : Kind × Unit := (k, ())

/-- A `Storage` and a `DoubleBufferShm` contend for the lock. When both are outside they are
destroyed, and `~Shm` leaves the names. Then a loader creates the segment of the lock anew. -/
def contendAndGo : ℕ → Action Kind Unit :=
  script (.use .dblBufLoader (.turn (thread .dblBufLoader)))
    [.construct .storage, .construct .doubleBufferShm, .attach .doubleBufferShm, .attach .storage,
      .use .doubleBufferShm (.lock (thread .doubleBufferShm)),
      .use .doubleBufferShm (.turn (thread .doubleBufferShm)),
      .use .storage (.lock (thread .storage)), .use .storage (.turn (thread .storage)),
      .use .storage (.turn (thread .storage)), .use .storage (.turn (thread .storage)),
      .use .doubleBufferShm (.unlock (thread .doubleBufferShm)),
      .use .doubleBufferShm (.turn (thread .doubleBufferShm)),
      .use .doubleBufferShm (.wake (thread .doubleBufferShm) (thread .storage)),
      .use .storage (.turn (thread .storage)), .use .storage (.unlock (thread .storage)),
      .use .storage (.turn (thread .storage)), .use .storage (.turn (thread .storage)),
      .destruct .storage, .closeLock .storage false, .closeData .storage false,
      .destruct .doubleBufferShm, .unlink .doubleBufferShm, .closeLock .doubleBufferShm false,
      .closeData .doubleBufferShm false, .construct .dblBufLoader, .attach .dblBufLoader,
      .use .dblBufLoader (.lock (thread .dblBufLoader))]

theorem exclusive_contendAndGo :
    ((after (step oneOfEach) initial contendAndGo 9).lock 0).Holds (thread .doubleBufferShm) ∧
      ((after (step oneOfEach) initial contendAndGo 9).lock 0).pc (thread .storage) = .waiting ∧
      ((after (step oneOfEach) initial contendAndGo 14).lock 0).Holds (thread .storage) ∧
      ((after (step oneOfEach) initial contendAndGo 28).lock 1).Holds (thread .dblBufLoader) ∧
      ∀ t ≤ 28, Exclusive (after (step oneOfEach) initial contendAndGo t) := by
  have hcareful : ∀ t < 28, Careful oneOfEach (after (step oneOfEach) initial contendAndGo t)
      (contendAndGo t) := by decide +kernel
  refine ⟨by decide, by decide, by decide, by decide, ?_⟩
  intro t ht
  exact exclusive_of_careful oneOfEach contendAndGo t (fun t' ht' => hcareful t' (by omega))

/-- The loader is destroyed while the `DoubleBufferShm` is inside `store`; then the `Storage`
calls `store`. -/
def destroyedWhileHeld : ℕ → Action Kind Unit :=
  script (.construct .storage)
    [.construct .doubleBufferShm, .attach .doubleBufferShm, .construct .dblBufLoader,
      .attach .dblBufLoader, .construct .storage, .attach .storage,
      .use .doubleBufferShm (.lock (thread .doubleBufferShm)),
      .use .doubleBufferShm (.turn (thread .doubleBufferShm)), .destruct .dblBufLoader,
      .use .storage (.lock (thread .storage)), .use .storage (.turn (thread .storage))]

/-- The store of 0 in `destroy()` lets the `Storage` into the critical section next to the
`DoubleBufferShm`. No name is removed before. -/
theorem not_exclusive_destroyedWhileHeld :
    (after (step oneOfEach) initial destroyedWhileHeld 11).Inside 0 (thread .doubleBufferShm) ∧
      (after (step oneOfEach) initial destroyedWhileHeld 11).Inside 0 (thread .storage) ∧
      ¬ Exclusive (after (step oneOfEach) initial destroyedWhileHeld 11) := by
  have hfirst : (after (step oneOfEach) initial destroyedWhileHeld 11).Inside 0
      (thread .doubleBufferShm) := ⟨0, by decide, by decide⟩
  have hsecond : (after (step oneOfEach) initial destroyedWhileHeld 11).Inside 0
      (thread .storage) := ⟨0, by decide, by decide⟩
  refine ⟨hfirst, hsecond, ?_⟩
  intro h
  have heq := h 0 _ _ hfirst hsecond
  simp at heq

end Samples

end SafeShm.LockLifetimes
