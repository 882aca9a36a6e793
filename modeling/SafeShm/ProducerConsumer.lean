import SafeShm.StateMachines
import SafeShm.Parameters
import Mathlib.Data.Set.Card
import Mathlib.Data.List.Infix

/-!
# The one-place channel of two semaphores

`ProducerConsumer` for any number of parties on one name. A party is at one of the semaphore
operations or word writes of the constructor, of `produce` and of `consume`; the consumer callback
runs for as long as it likes, and then it returns or throws. A semaphore is `none` until the first
`sem_open`, which alone uses its initial value.
-/

namespace SafeShm.ProducerConsumer
open StateMachines

/-- The next step of a party: the constructor at `sem_read_` and at `sem_write_`; in `produce` the
wait, word `k` of `get() = data`, and the post; in `consume` the wait, the call of
`consumer(get())`, the callback, which was handed the value `seen`, and the post. -/
inductive Pc (F : FlatType) where
  | absent
  | opening
  | outside
  | awaitingWrite (data : F.T)
  | writing (data : F.T) (k : ℕ)
  | postingRead
  | awaitingRead
  | calling
  | running (seen : F.T)
  | postingWrite

variable {F : FlatType} {ι : Type}

def Pc.Inside : Pc F → Prop
  | .writing _ _ | .postingRead | .calling | .running _ | .postingWrite => True
  | _ => False

def Pc.Waits : Pc F → Prop
  | .awaitingWrite _ | .awaitingRead => True
  | _ => False

/-- The segment, the two semaphores and the places of the parties. `written` and `delivered` are
the values that `produce` has written and that the callbacks were handed, in order; `thrown`
counts the calls of `consume` that an exception has left. -/
structure State (F : FlatType) (ι : Type) where
  slot : F.T
  semRead : Option ℕ
  semWrite : Option ℕ
  pc : ι → Pc F
  written : List F.T
  delivered : List F.T
  thrown : ℕ

def initial : State F ι := ⟨fun _ => F.zero, none, none, fun _ => .absent, [], [], 0⟩

/-- The value of `sem_read_`, or the one it will be created with. -/
def State.readValue (s : State F ι) : ℕ := s.semRead.getD 0

/-- The value of `sem_write_`, or the one it will be created with. -/
def State.writeValue (s : State F ι) : ℕ := s.semWrite.getD 1

def State.Inside (s : State F ι) (i : ι) : Prop := (s.pc i).Inside

/-- The two semaphore values and the number of parties inside. -/
noncomputable def State.tokens (s : State F ι) : ℕ :=
  s.readValue + s.writeValue + Set.ncard {i | s.Inside i}

/-- The calls of a party, its next step (in the callback: it returns), or its callback throws. -/
inductive Action (F : FlatType) (ι : Type) where
  | produce (i : ι) (data : F.T)
  | consume (i : ι)
  | turn (i : ι)
  | throwing (i : ι)

variable [DecidableEq ι]

def State.goto (s : State F ι) (i : ι) (p : Pc F) : State F ι :=
  { s with pc := Function.update s.pc i p }

/-- The next step of party `i`. A wait on the value 0 blocks, and so changes nothing. -/
def State.turn (s : State F ι) (i : ι) : State F ι :=
  match s.pc i with
  | .absent => { (s.goto i .opening) with semRead := some s.readValue }
  | .opening => { (s.goto i .outside) with semWrite := some s.writeValue }
  | .outside => s
  | .awaitingWrite data =>
      match s.semWrite with
      | some (n + 1) => { (s.goto i (.writing data 0)) with semWrite := some n }
      | _ => s
  | .writing data k =>
      if h : k < F.words then
        { (s.goto i (.writing data (k + 1))) with
          slot := Function.update s.slot ⟨k, h⟩ (data ⟨k, h⟩) }
      else { (s.goto i .postingRead) with written := s.written ++ [data] }
  | .postingRead => { (s.goto i .outside) with semRead := s.semRead.map (· + 1) }
  | .awaitingRead =>
      match s.semRead with
      | some (n + 1) => { (s.goto i .calling) with semRead := some n }
      | _ => s
  | .calling => { (s.goto i (.running s.slot)) with delivered := s.delivered ++ [s.slot] }
  | .running _ => s.goto i .postingWrite
  | .postingWrite => { (s.goto i .outside) with semWrite := s.semWrite.map (· + 1) }

def step (s : State F ι) : Action F ι → State F ι
  | .produce i data =>
      match s.pc i with
      | .outside => s.goto i (.awaitingWrite data)
      | _ => s
  | .consume i =>
      match s.pc i with
      | .outside => s.goto i .awaitingRead
      | _ => s
  | .turn i => s.turn i
  | .throwing i =>
      -- nothing in `consume` catches, so `sem_write_.post()` is skipped
      match s.pc i with
      | .running _ => { (s.goto i .outside) with thrown := s.thrown + 1 }
      | _ => s

/-- A callback throws in this step. -/
def Throws (s : State F ι) (a : Action F ι) : Prop :=
  ∃ i seen, a = .throwing i ∧ s.pc i = .running seen

/-- Some party gets past its wait in this step. -/
def PassesWait (s : State F ι) (a : Action F ι) : Prop :=
  ∃ i, (s.pc i).Waits ∧ ((step s a).pc i).Inside

section Invariant

/-- What is known when the party with the token is at a place. -/
def State.At (s : State F ι) : Pc F → Prop
  | .writing data k =>
      s.written = s.delivered ∧ ∀ (j : ℕ) (h : j < F.words), j < k → s.slot ⟨j, h⟩ = data ⟨j, h⟩
  | .postingRead | .calling => s.written = s.delivered ++ [s.slot]
  | .running seen =>
      s.written = s.delivered ∧ s.slot = seen ∧ s.delivered.getLast? = some seen
  | .postingWrite => s.written = s.delivered
  | _ => False

/-- Where the one token is: in a semaphore, with a party, or lost. -/
inductive Token (s : State F ι) : Prop where
  | empty (read : s.readValue = 0) (write : s.writeValue = 1) (nobody : ∀ i, ¬ s.Inside i)
      (same : s.written = s.delivered) (thrown : s.thrown = 0)
  | full (read : s.readValue = 1) (write : s.writeValue = 0) (nobody : ∀ i, ¬ s.Inside i)
      (pending : s.written = s.delivered ++ [s.slot]) (thrown : s.thrown = 0)
  | held (i : ι) (read : s.readValue = 0) (write : s.writeValue = 0)
      (only : ∀ j, s.Inside j → j = i) (here : s.At (s.pc i)) (thrown : s.thrown = 0)
  | lost (read : s.readValue = 0) (write : s.writeValue = 0) (nobody : ∀ i, ¬ s.Inside i)
      (same : s.written = s.delivered) (thrown : s.thrown = 1)

/-- What every step keeps. -/
structure Correct (s : State F ι) : Prop where
  openRead : ∀ i, s.pc i ≠ .absent → s.semRead.isSome
  openWrite : ∀ i, s.pc i ≠ .absent → s.pc i ≠ .opening → s.semWrite.isSome
  token : Token s

end Invariant

section Steps
variable {s s' : State F ι} {i j : ι} {p : Pc F}

@[simp] theorem goto_pc_self : (s.goto i p).pc i = p := Function.update_self ..

theorem goto_pc_of_ne (h : j ≠ i) : (s.goto i p).pc j = s.pc j := Function.update_of_ne h ..

theorem goto_inside_of_ne (h : j ≠ i) (hj : (s.goto i p).Inside j) : s.Inside j := by
  rw [State.Inside, goto_pc_of_ne h] at hj
  exact hj

omit [DecidableEq ι] in
theorem Token.of_inside (h : Token s) (hi : s.Inside i) :
    s.readValue = 0 ∧ s.writeValue = 0 ∧ (∀ j, s.Inside j → j = i) ∧ s.At (s.pc i) ∧
      s.thrown = 0 := by
  cases h with
  | empty _ _ nobody => exact absurd hi (nobody i)
  | full _ _ nobody => exact absurd hi (nobody i)
  | lost _ _ nobody => exact absurd hi (nobody i)
  | held k read write only here thrown =>
    obtain rfl := only i hi
    exact ⟨read, write, only, here, thrown⟩

omit [DecidableEq ι] in
private theorem Token.of_pc (h : Token s) (hpc : s.pc i = p) (hp : p.Inside) :
    s.readValue = 0 ∧ s.writeValue = 0 ∧ (∀ j, s.Inside j → j = i) ∧ s.At p ∧ s.thrown = 0 := by
  have hi : s.Inside i := by
    rw [State.Inside, hpc]
    exact hp
  have hheld := h.of_inside hi
  rwa [hpc] at hheld

private theorem Token.move (h : Token s) (hi : ¬ s.Inside i) (hp : ¬ p.Inside) :
    Token (s.goto i p) := by
  have hout : ¬ (s.goto i p).Inside i := by
    rw [State.Inside, goto_pc_self]
    exact hp
  have hinside : ∀ j, (s.goto i p).Inside j → s.Inside j := by
    intro j hj
    by_cases hji : j = i
    · exact absurd (hji ▸ hj) hout
    · exact goto_inside_of_ne hji hj
  cases h with
  | empty read write nobody same thrown =>
    exact .empty read write (fun j hj => nobody j (hinside j hj)) same thrown
  | full read write nobody pending thrown =>
    exact .full read write (fun j hj => nobody j (hinside j hj)) pending thrown
  | lost read write nobody same thrown =>
    exact .lost read write (fun j hj => nobody j (hinside j hj)) same thrown
  | held k read write only here thrown =>
    have hki : k ≠ i := by
      rintro rfl
      rw [State.Inside] at hi
      cases hpc : s.pc k <;> simp_all [State.At, Pc.Inside]
    refine .held k read write (fun j hj => only j (hinside j hj)) ?_ thrown
    rw [goto_pc_of_ne hki]
    exact here

omit [DecidableEq ι] in
private theorem Token.create (h : Token s) {read write : Option ℕ}
    (hread : read.getD 0 = s.readValue) (hwrite : write.getD 1 = s.writeValue) :
    Token { s with semRead := read, semWrite := write } := by
  cases h with
  | empty read write nobody same thrown =>
    exact .empty (hread.trans read) (hwrite.trans write) nobody same thrown
  | full read write nobody pending thrown =>
    exact .full (hread.trans read) (hwrite.trans write) nobody pending thrown
  | held k read' write' only here thrown =>
    -- `At` does not look at the semaphores
    have hat : ∀ p, s.At p → State.At { s with semRead := read, semWrite := write } p := by
      intro p hp
      cases p <;> exact hp
    exact .held k (hread.trans read') (hwrite.trans write') only (hat _ here) thrown
  | lost read write nobody same thrown =>
    exact .lost (hread.trans read) (hwrite.trans write) nobody same thrown

private theorem Token.keep (hpc : s'.pc = Function.update s.pc i p) (read : s'.readValue = 0)
    (write : s'.writeValue = 0) (only : ∀ j, s.Inside j → j = i) (here : s'.At p)
    (thrown : s'.thrown = 0) : Token s' := by
  refine .held i read write ?_ ?_ thrown
  · intro j hj
    by_contra hji
    rw [State.Inside, hpc, Function.update_of_ne hji] at hj
    exact hji (only j hj)
  · rw [hpc, Function.update_self]
    exact here

private theorem nobody_of_only (only : ∀ j, s.Inside j → j = i) (hp : ¬ p.Inside) :
    ∀ j, ¬ (s.goto i p).Inside j := by
  intro j hj
  by_cases hji : j = i
  · rw [hji, State.Inside, goto_pc_self] at hj
    exact hp hj
  · exact hji (only j (goto_inside_of_ne hji hj))

omit [DecidableEq ι] in
private theorem Token.of_write_pos (h : Token s) (hw : 0 < s.writeValue) :
    s.readValue = 0 ∧ s.writeValue = 1 ∧ (∀ i, ¬ s.Inside i) ∧ s.written = s.delivered ∧
      s.thrown = 0 := by
  cases h with
  | empty read write nobody same thrown => exact ⟨read, write, nobody, same, thrown⟩
  | full _ write => omega
  | held _ _ write => omega
  | lost _ write => omega

omit [DecidableEq ι] in
private theorem Token.of_read_pos (h : Token s) (hr : 0 < s.readValue) :
    s.readValue = 1 ∧ s.writeValue = 0 ∧ (∀ i, ¬ s.Inside i) ∧
      s.written = s.delivered ++ [s.slot] ∧ s.thrown = 0 := by
  cases h with
  | full read write nobody pending thrown => exact ⟨read, write, nobody, pending, thrown⟩
  | empty read => omega
  | held _ read => omega
  | lost read => omega

omit [DecidableEq ι] in
private theorem slot_eq_of_words {data : F.T} {k : ℕ} (hk : ¬ k < F.words)
    (h : ∀ (j : ℕ) (hj : j < F.words), j < k → s.slot ⟨j, hj⟩ = data ⟨j, hj⟩) :
    s.slot = data := by
  funext w
  exact h w.val w.isLt (by omega)

omit [DecidableEq ι] in
private theorem update_words {data : F.T} {k : ℕ} (hk : k < F.words)
    (h : ∀ (j : ℕ) (hj : j < F.words), j < k → s.slot ⟨j, hj⟩ = data ⟨j, hj⟩) (j : ℕ)
    (hj : j < F.words) (hjk : j < k + 1) :
    Function.update s.slot ⟨k, hk⟩ (data ⟨k, hk⟩) ⟨j, hj⟩ = data ⟨j, hj⟩ := by
  by_cases heq : j = k
  · subst heq
    exact Function.update_self ..
  · rw [Function.update_of_ne (by simpa using heq)]
    exact h j hj (by omega)

private theorem Token.turn (h : Token s) (hread : ∀ i, s.pc i ≠ .absent → s.semRead.isSome)
    (hwrite : ∀ i, s.pc i ≠ .absent → s.pc i ≠ .opening → s.semWrite.isSome) (i : ι) :
    Token (s.turn i) := by
  rw [State.turn]
  split
  · rename_i hpc
    exact (h.move (by simp [State.Inside, hpc, Pc.Inside]) (p := .opening) id).create rfl rfl
  · rename_i hpc
    exact (h.move (by simp [State.Inside, hpc, Pc.Inside]) (p := .outside) id).create rfl rfl
  · exact h
  · split
    · rename_i data hpc _ n hsem
      have hvalue : s.writeValue = n + 1 := by simp [State.writeValue, hsem]
      obtain ⟨read, write, nobody, same, thrown⟩ := h.of_write_pos (by omega)
      refine Token.keep (s := s) rfl read ?_ (fun j hj => absurd hj (nobody j)) ?_ thrown
      · change n = 0
        omega
      · exact ⟨same, fun _ _ hj => absurd hj (Nat.not_lt_zero _)⟩
    · exact h
  · rename_i data k hpc
    obtain ⟨read, write, only, here, thrown⟩ := h.of_pc hpc trivial
    split
    · rename_i hk
      exact Token.keep (s := s) rfl read write only ⟨here.1, update_words hk here.2⟩ thrown
    · rename_i hk
      refine Token.keep (s := s) rfl read write only ?_ thrown
      change s.written ++ [data] = s.delivered ++ [s.slot]
      rw [here.1, slot_eq_of_words hk here.2]
  · rename_i hpc
    obtain ⟨read, write, only, here, thrown⟩ := h.of_pc hpc trivial
    obtain ⟨n, hsem⟩ := Option.isSome_iff_exists.mp (hread i (by simp [hpc]))
    have hn : n = 0 := by simpa [State.readValue, hsem] using read
    refine .full ?_ write (nobody_of_only only id) here thrown
    simp [State.readValue, hsem, hn]
  · split
    · rename_i hpc _ n hsem
      have hvalue : s.readValue = n + 1 := by simp [State.readValue, hsem]
      obtain ⟨read, write, nobody, pending, thrown⟩ := h.of_read_pos (by omega)
      refine Token.keep (s := s) rfl ?_ write (fun j hj => absurd hj (nobody j)) pending thrown
      change n = 0
      omega
    · exact h
  · rename_i hpc
    obtain ⟨read, write, only, here, thrown⟩ := h.of_pc hpc trivial
    refine Token.keep (s := s) rfl read write only ?_ thrown
    exact ⟨here, rfl, List.getLast?_concat ..⟩
  · rename_i seen hpc
    obtain ⟨read, write, only, here, thrown⟩ := h.of_pc hpc trivial
    exact Token.keep (s := s) rfl read write only here.1 thrown
  · rename_i hpc
    obtain ⟨read, write, only, here, thrown⟩ := h.of_pc hpc trivial
    obtain ⟨n, hsem⟩ := Option.isSome_iff_exists.mp (hwrite i (by simp [hpc]) (by simp [hpc]))
    have hn : n = 0 := by simpa [State.writeValue, hsem] using write
    refine .empty read ?_ (nobody_of_only only id) here thrown
    simp [State.writeValue, hsem, hn]

private theorem turn_semRead_isSome (h : s.semRead.isSome) (i : ι) :
    (s.turn i).semRead.isSome := by
  rw [State.turn]
  split
  · rfl
  · exact h
  · exact h
  · split <;> exact h
  · split <;> exact h
  · rw [Option.isSome_map]
    exact h
  · split
    · rfl
    · exact h
  · exact h
  · exact h
  · exact h

private theorem turn_semWrite_isSome (h : s.semWrite.isSome) (i : ι) :
    (s.turn i).semWrite.isSome := by
  rw [State.turn]
  split
  · exact h
  · rfl
  · exact h
  · split
    · rfl
    · exact h
  · split <;> exact h
  · exact h
  · split <;> exact h
  · exact h
  · exact h
  · rw [Option.isSome_map]
    exact h

private theorem Correct.turn (h : Correct s) (i : ι) : Correct (s.turn i) := by
  have htoken := h.token.turn h.openRead h.openWrite i
  by_cases habsent : s.pc i = .absent
  · rw [State.turn, habsent] at htoken ⊢
    refine ⟨fun _ _ => rfl, ?_, htoken⟩
    intro j hj hopening
    by_cases hji : j = i
    · subst hji
      exact absurd goto_pc_self hopening
    · have hpc : (s.goto i .opening).pc j = s.pc j := goto_pc_of_ne hji
      exact h.openWrite j (hpc ▸ hj) (hpc ▸ hopening)
  · have hread := turn_semRead_isSome (h.openRead i habsent) i
    refine ⟨fun _ _ => hread, ?_, htoken⟩
    by_cases hopening : s.pc i = .opening
    · rw [State.turn, hopening]
      exact fun _ _ _ => rfl
    · exact fun _ _ _ => turn_semWrite_isSome (h.openWrite i habsent hopening) i

private theorem Correct.call (h : Correct s) (hpc : s.pc i = .outside) (hp : ¬ p.Inside) :
    Correct (s.goto i p) := by
  have hread := h.openRead i (by simp [hpc])
  have hwrite := h.openWrite i (by simp [hpc]) (by simp [hpc])
  have htoken : Token (s.goto i p) := h.token.move (by simp [State.Inside, hpc, Pc.Inside]) hp
  exact ⟨fun _ _ => hread, fun _ _ _ => hwrite, htoken⟩

theorem Correct.step (h : Correct s) (a : Action F ι) : Correct (step s a) := by
  cases a with
  | produce i data =>
    rw [ProducerConsumer.step]
    split
    · rename_i hpc
      exact h.call hpc id
    · exact h
  | consume i =>
    rw [ProducerConsumer.step]
    split
    · rename_i hpc
      exact h.call hpc id
    · exact h
  | turn i => exact h.turn i
  | throwing i =>
    rw [ProducerConsumer.step]
    split
    · rename_i seen hpc
      obtain ⟨read, write, only, here, thrown⟩ := h.token.of_inside (i := i)
        (by simp [State.Inside, hpc, Pc.Inside])
      rw [hpc] at here
      have hopenRead := h.openRead i (by simp [hpc])
      have hopenWrite := h.openWrite i (by simp [hpc]) (by simp [hpc])
      refine ⟨fun _ _ => hopenRead, fun _ _ _ => hopenWrite, ?_⟩
      exact .lost read write (nobody_of_only only id) here.1 (by simp [thrown])
    · exact h

end Steps

omit [DecidableEq ι] in
theorem correct_initial : Correct (initial : State F ι) := by
  refine ⟨fun _ h => absurd rfl h, fun _ h => absurd rfl h, ?_⟩
  exact .empty rfl rfl (fun _ => id) rfl rfl

theorem correct_after (acts : ℕ → Action F ι) (t : ℕ) : Correct (after step initial acts t) :=
  after_invariant correct_initial (fun _ a h => h.step a) t

omit [DecidableEq ι] in
theorem inside_of_at {s : State F ι} {i : ι} (h : s.At (s.pc i)) : s.Inside i := by
  rw [State.Inside]
  cases hpc : s.pc i <;> rw [hpc] at h <;> first | exact trivial | exact h.elim

omit [DecidableEq ι] in
private theorem ncard_inside_eq_zero {s : State F ι} (h : ∀ i, ¬ s.Inside i) :
    Set.ncard {i | s.Inside i} = 0 := by
  have hempty : {i | s.Inside i} = ∅ := Set.eq_empty_of_forall_notMem h
  rw [hempty, Set.ncard_empty]

omit [DecidableEq ι] in
theorem Token.tokens_add_thrown {s : State F ι} (h : Token s) : s.tokens + s.thrown = 1 := by
  rw [State.tokens]
  cases h with
  | empty read write nobody same thrown =>
    rw [read, write, ncard_inside_eq_zero nobody, thrown]
  | full read write nobody pending thrown =>
    rw [read, write, ncard_inside_eq_zero nobody, thrown]
  | lost read write nobody same thrown =>
    rw [read, write, ncard_inside_eq_zero nobody, thrown]
  | held i read write only here thrown =>
    have hsingle : {j | s.Inside j} = {i} := by
      ext j
      constructor
      · exact only j
      · rintro rfl
        exact inside_of_at here
    rw [read, write, hsingle, Set.ncard_singleton, thrown]

section Runs
variable {acts : ℕ → Action F ι} {t : ℕ}

private theorem step_thrown (s : State F ι) (a : Action F ι) :
    (Throws s a ∧ (step s a).thrown = s.thrown + 1) ∨
      (¬ Throws s a ∧ (step s a).thrown = s.thrown) := by
  cases a with
  | produce i data =>
    refine .inr ⟨by simp [Throws], ?_⟩
    rw [step]
    split <;> rfl
  | consume i =>
    refine .inr ⟨by simp [Throws], ?_⟩
    rw [step]
    split <;> rfl
  | turn i =>
    refine .inr ⟨by simp [Throws], ?_⟩
    rw [step, State.turn]
    split
    all_goals first | rfl | (split <;> rfl)
  | throwing i =>
    cases hpc : s.pc i with
    | running seen =>
      refine .inl ⟨⟨i, seen, rfl, hpc⟩, ?_⟩
      simp [step, hpc]
    | _ =>
      refine .inr ⟨by simp [Throws, hpc], ?_⟩
      simp [step, hpc]

theorem thrown_eq_zero_iff (t : ℕ) : (after step initial acts t).thrown = 0 ↔
    ∀ t' < t, ¬ Throws (after step initial acts t') (acts t') := by
  induction t with
  | zero =>
    refine iff_of_true rfl ?_
    intro t' ht'
    exact absurd ht' (Nat.not_lt_zero _)
  | succ t ih =>
    rw [Nat.forall_lt_succ_right, ← ih, after]
    rcases step_thrown (after step initial acts t) (acts t) with ⟨hthrow, heq⟩ | ⟨hthrow, heq⟩
    · rw [heq]
      refine iff_of_false (Nat.succ_ne_zero _) ?_
      exact fun h => h.2 hthrow
    · rw [heq]
      exact ⟨fun h => ⟨h, hthrow⟩, And.left⟩

/-- `ProducerConsumer` is a one-place channel: along every run in which no callback throws, at
most one party is between its wait and its post, there is one token, and the callbacks were handed
the written values in the order of the writes, each of them once. A value that was not handed out
yet is alone, and is in the slot; nobody writes meanwhile, and nobody changes the slot under a
callback. -/
theorem produce_consume_exactlyOnce
    (hthrow : ∀ t' < t, ¬ Throws (after step initial acts t') (acts t')) :
    let s := after step initial acts t
    (∀ i j, s.Inside i → s.Inside j → i = j) ∧
      s.readValue + s.writeValue + Set.ncard {i | s.Inside i} = 1 ∧
      s.delivered <+: s.written ∧
      (s.written = s.delivered ∨ s.written = s.delivered ++ [s.slot]) ∧
      (∀ i data k, s.pc i = .writing data k → s.written = s.delivered) ∧
      ∀ i seen, s.pc i = .running seen → s.slot = seen ∧ s.delivered.getLast? = some seen := by
  intro s
  have htoken : Token s := (correct_after acts t).token
  have hat : ∀ {i p}, s.pc i = p → p.Inside → s.At p := by
    intro i p hpc hp
    have hi : s.Inside i := by
      rw [State.Inside, hpc]
      exact hp
    have here := (htoken.of_inside hi).2.2.2.1
    rw [hpc] at here
    exact here
  have hlogs : s.written = s.delivered ∨ s.written = s.delivered ++ [s.slot] := by
    cases htoken with
    | empty _ _ _ same => exact .inl same
    | full _ _ _ pending => exact .inr pending
    | lost _ _ _ same => exact .inl same
    | held i read write only here =>
      cases hpc : s.pc i with
      | writing data k => exact .inl (hat hpc trivial).1
      | postingRead => exact .inr (hat hpc trivial)
      | calling => exact .inr (hat hpc trivial)
      | running seen => exact .inl (hat hpc trivial).1
      | postingWrite => exact .inl (hat hpc trivial)
      | _ =>
        rw [hpc] at here
        exact here.elim
  refine ⟨?_, ?_, ?_, hlogs, ?_, ?_⟩
  · intro i j hi hj
    exact (htoken.of_inside hj).2.2.1 i hi
  · have hsum := htoken.tokens_add_thrown
    rw [(thrown_eq_zero_iff t).mpr hthrow] at hsum
    exact hsum
  · rcases hlogs with same | pending
    · rw [same]
    · exact ⟨[s.slot], pending.symm⟩
  · intro i data k hpc
    exact (hat hpc trivial).1
  · intro i seen hpc
    exact (hat hpc trivial).2

/-- The parties of the samples. -/
inductive Role where
  | producer
  | consumer
  deriving DecidableEq

open Role in
/-- Two calls of `produce` and one of `consume`, up to the second wait. -/
def handover : ℕ → Action oneWord Role :=
  script (.turn producer)
    [.turn producer, .turn producer, .produce producer (tens 0), .turn producer, .turn producer,
      .turn producer, .turn producer, .turn consumer, .turn consumer, .consume consumer,
      .turn consumer, .turn consumer, .turn consumer, .produce producer (tens 1), .turn consumer,
      .turn producer]

theorem handover_exactlyOnce :
    (∀ t' < 18, ¬ Throws (after step initial handover t') (handover t')) ∧
      (after step initial handover 18).written = [tens 0, tens 1] ∧
      (after step initial handover 18).delivered.map (fun v => v 0) = [10] ∧
      (after step initial handover 18).delivered <+: (after step initial handover 18).written := by
  have hthrow : ∀ t' < 18, ¬ Throws (after step initial handover t') (handover t') :=
    (thrown_eq_zero_iff 18).mp rfl
  exact ⟨hthrow, rfl, rfl, (produce_consume_exactlyOnce hthrow).2.2.1⟩

omit [DecidableEq ι] in
private theorem Token.of_thrown {s : State F ι} (h : Token s) (hthrown : s.thrown ≠ 0) :
    s.readValue = 0 ∧ s.writeValue = 0 ∧ ∀ i, ¬ s.Inside i := by
  cases h with
  | empty _ _ _ _ thrown => exact absurd thrown hthrown
  | full _ _ _ _ thrown => exact absurd thrown hthrown
  | held _ _ _ _ _ thrown => exact absurd thrown hthrown
  | lost read write nobody => exact ⟨read, write, nobody⟩

private theorem passesWait_iff {s : State F ι} {i : ι} {n : ℕ} (hwaits : (s.pc i).Waits)
    (hblocked : n = 0 → s.turn i = s) (hpasses : 0 < n → ((s.turn i).pc i).Inside) :
    PassesWait s (.turn i) ↔ 0 < n := by
  rcases Nat.eq_zero_or_pos n with hzero | hpos
  · refine iff_of_false ?_ (Nat.not_lt_of_le hzero.le)
    rintro ⟨j, hwaits', hinside⟩
    rw [step, hblocked hzero] at hinside
    cases hpc : s.pc j <;> simp_all [Pc.Waits, Pc.Inside]
  · exact iff_of_true ⟨i, hwaits, hpasses hpos⟩ hpos

theorem passesWait_write_iff {s : State F ι} (h : Correct s) {i : ι} {data : F.T}
    (hpc : s.pc i = .awaitingWrite data) : PassesWait s (.turn i) ↔ 0 < s.writeValue := by
  obtain ⟨n, hsem⟩ := Option.isSome_iff_exists.mp
    (h.openWrite i (by simp [hpc]) (by simp [hpc]))
  have hvalue : s.writeValue = n := by simp [State.writeValue, hsem]
  rw [hvalue]
  apply passesWait_iff
  · rw [hpc]
    exact trivial
  · rintro rfl
    simp [State.turn, hpc, hsem]
  · intro hpos
    obtain ⟨k, rfl⟩ := Nat.exists_eq_add_one.mpr hpos
    simp [State.turn, hpc, hsem, State.goto, Pc.Inside]

theorem passesWait_read_iff {s : State F ι} (h : Correct s) {i : ι}
    (hpc : s.pc i = .awaitingRead) : PassesWait s (.turn i) ↔ 0 < s.readValue := by
  obtain ⟨n, hsem⟩ := Option.isSome_iff_exists.mp (h.openRead i (by simp [hpc]))
  have hvalue : s.readValue = n := by simp [State.readValue, hsem]
  rw [hvalue]
  apply passesWait_iff
  · rw [hpc]
    exact trivial
  · rintro rfl
    simp [State.turn, hpc, hsem]
  · intro hpos
    obtain ⟨k, rfl⟩ := Nat.exists_eq_add_one.mpr hpos
    simp [State.turn, hpc, hsem, State.goto, Pc.Inside]

/-- Along every run, the semaphore values and the parties inside sum to 1, and somebody is inside
or some wait can be passed, exactly as long as no callback has thrown. After that nobody is
inside, and nobody gets past a wait ever again. -/
theorem tokens_eq_one_iff_not_throws (acts : ℕ → Action F ι) (t : ℕ) :
    let s := after step initial acts t
    ((s.readValue + s.writeValue + Set.ncard {i | s.Inside i} = 1 ∧
        ((∃ i, s.Inside i) ∨ 0 < s.readValue ∨ 0 < s.writeValue)) ↔
      ∀ t' < t, ¬ Throws (after step initial acts t') (acts t')) ∧
    (∀ i data, s.pc i = .awaitingWrite data → (PassesWait s (.turn i) ↔ 0 < s.writeValue)) ∧
    (∀ i, s.pc i = .awaitingRead → (PassesWait s (.turn i) ↔ 0 < s.readValue)) ∧
    ∀ t' < t, Throws (after step initial acts t') (acts t') →
      (∀ i, ¬ s.Inside i) ∧ ¬ PassesWait s (acts t) := by
  intro s
  have hs : Correct s := correct_after acts t
  refine ⟨?_, fun _ _ => passesWait_write_iff hs, fun _ => passesWait_read_iff hs, ?_⟩
  · rw [← thrown_eq_zero_iff t]
    have hsum : s.tokens + s.thrown = 1 := hs.token.tokens_add_thrown
    rw [State.tokens] at hsum
    constructor
    · rintro ⟨htokens, -⟩
      change s.thrown = 0
      omega
    · intro hzero
      change s.thrown = 0 at hzero
      refine ⟨by omega, ?_⟩
      by_cases hinside : ∃ i, s.Inside i
      · exact .inl hinside
      · have hcard := ncard_inside_eq_zero (not_exists.mp hinside)
        exact .inr (by omega)
  · intro t' ht' hthrow
    have hthrown : ∀ u, t < u + 1 → (after step initial acts u).thrown ≠ 0 := by
      intro u hu hzero
      exact (thrown_eq_zero_iff u).mp hzero t' (by omega) hthrow
    refine ⟨(hs.token.of_thrown (hthrown t (by omega))).2.2, ?_⟩
    rintro ⟨i, -, hinside⟩
    have hnext := (correct_after acts (t + 1)).token.of_thrown (hthrown (t + 1) (by omega))
    exact hnext.2.2 i hinside

open Role in
/-- A value is produced, the callback of its consumer throws, and `produce` is called again. -/
def wedgingRun : ℕ → Action oneWord Role :=
  script (.turn producer)
    [.turn producer, .turn producer, .produce producer (tens 0), .turn producer, .turn producer,
      .turn producer, .turn producer, .turn consumer, .turn consumer, .consume consumer,
      .turn consumer, .turn consumer, .throwing consumer, .produce producer (tens 1)]

theorem throwing_consumer_wedges :
    Throws (after step initial wedgingRun 12) (wedgingRun 12) ∧
      (after step initial wedgingRun 13).tokens = 0 ∧
      (after step initial wedgingRun 14).pc .producer = .awaitingWrite (tens 1) ∧
      ∀ t > 13, ¬ PassesWait (after step initial wedgingRun t) (wedgingRun t) := by
  have hthrow : Throws (after step initial wedgingRun 12) (wedgingRun 12) :=
    ⟨.consumer, _, rfl, rfl⟩
  have hthrown : (after step initial wedgingRun 13).thrown = 1 := rfl
  have hsum := (correct_after wedgingRun 13).token.tokens_add_thrown
  refine ⟨hthrow, by omega, rfl, ?_⟩
  rintro t ht ⟨i, -, hinside⟩
  refine ((correct_after wedgingRun (t + 1)).token.of_thrown ?_).2.2 i hinside
  intro hzero
  exact (thrown_eq_zero_iff (t + 1)).mp hzero 12 (by omega) hthrow

end Runs

end SafeShm.ProducerConsumer
