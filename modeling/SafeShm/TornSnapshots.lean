import SafeShm.SnapshotReads

/-!
# What a client reads through a snapshot without `wait()`

`operator*` of a `Snapshot` returns a reference, through which a client loads word after word, also
while the task copies into the buffer that is published. Each word is then one of two whole values:
of the one that was published last, or of the one that is being copied. What is copied already is
in front, so that at one instant the buffer has one seam.
-/

namespace SafeShm.DoubleBuffer
open StateMachines

variable {F : FlatType} {σ ℓ : Type} [DecidableEq σ] [DecidableEq ℓ]

/-- How many words of the buffer the task has overwritten since it has the lock. -/
def TaskPc.progress : TaskPc F → ℕ
  | .copying j => j
  | .writing j _ => j
  | .activating | .unstaging | .publishing => F.words
  | _ => 0

/-- The words that the task has not overwritten are those of `v`. -/
structure Loader.Rests (L : Loader F) (v : F.T) : Prop where
  words : ∀ k : Fin F.words, L.task.progress ≤ k → L.pre k = v k

def Loader.Staged (L : Loader F) : Prop := L.task.copies → L.stage ≠ none

section Loaders
variable {L : Loader F}

private theorem Loader.Staged.taskTurn (h : L.Staged) (pc : ShmLock.Pc) (data : F.T) :
    (L.taskTurn pc data).Staged := by
  have hstep := taskTurn_step L pc data
  generalize L.taskTurn pc data = L' at hstep ⊢
  cases hstep with
  | stay | finish => exact h
  | check _ hstage => exact fun _ => by simp [hstage]
  | read j b _ hstage => exact fun _ => by simp [hstage]
  | write j w htask => exact fun _ => h (by simp [htask, TaskPc.copies])
  | lock | fail | copied | activate | unstage | publish | unlock =>
    exact fun hcopies => absurd hcopies (by simp [TaskPc.copies])

theorem Loader.Staged.move (h : L.Staged) (m : Move F) : (L.move m).Staged := by
  by_cases hrunner : ∃ pc data, m = .runner pc data
  · obtain ⟨pc, data, rfl⟩ := hrunner
    rw [Loader.move]
    split
    · exact fun hcopies => absurd hcopies (by simp [TaskPc.copies])
    · exact h.taskTurn pc data
    · exact h
  · have hframe := move_frame L (fun pc data heq => hrunner ⟨pc, data, heq⟩)
    intro hcopies
    rw [hframe.task] at hcopies
    rcases hframe.stage with hsame | hsome
    · rw [hsame]
      exact h hcopies
    · simp [hsome]

private theorem Loader.Rests.taskTurn {v : F.T} (h : L.Rests v) (hstaged : L.Staged)
    (hnot : L.task ≠ .publishing) (pc : ShmLock.Pc) (data : F.T) :
    (L.taskTurn pc data).Rests v ∧ (L.taskTurn pc data).published = L.published := by
  have hwords := h.words
  have hstep := taskTurn_step L pc data
  generalize L.taskTurn pc data = L' at hstep ⊢
  cases hstep with
  | stay | finish => exact ⟨⟨hwords⟩, rfl⟩
  | lock htask | check htask | unlock htask | activate htask | unstage htask =>
    rw [htask] at hwords
    exact ⟨⟨hwords⟩, rfl⟩
  | read j b htask =>
    rw [htask] at hwords
    exact ⟨⟨hwords⟩, rfl⟩
  | fail htask =>
    rcases htask with ⟨htask, -⟩ | ⟨⟨j, htask⟩, hnone⟩
    · rw [htask] at hwords
      exact ⟨⟨hwords⟩, rfl⟩
    · exact absurd hnone (hstaged (by simp [htask, TaskPc.copies]))
  | write j w htask =>
    rw [htask] at hwords
    refine ⟨⟨?_⟩, rfl⟩
    intro k hk
    have hlt : (j : ℕ) < k := hk
    have hne : k ≠ j := fun heq => by simp [heq] at hlt
    have hother : Function.update L.pre j w k = L.pre k := Function.update_of_ne hne ..
    exact hother.trans (hwords k hlt.le)
  | copied j htask hj =>
    exact ⟨⟨fun k hk => absurd k.isLt (Nat.not_lt_of_le hk)⟩, rfl⟩
  | publish htask => exact absurd htask hnot

private theorem Loader.Staged.overwritten_taskTurn (hstaged : L.Staged)
    (hnot : L.task ≠ .publishing) (pc : ShmLock.Pc) (data : F.T) {k : ℕ} (hk : k < F.words)
    (h : k < L.task.progress) : k < (L.taskTurn pc data).task.progress := by
  have hstep := taskTurn_step L pc data
  generalize L.taskTurn pc data = L' at hstep ⊢
  cases hstep with
  | stay | finish => exact h
  | lock htask | check htask | unlock htask =>
    rw [htask] at h
    exact absurd h (Nat.not_lt_zero k)
  | read j b htask =>
    rw [htask] at h
    exact h
  | write j w htask =>
    rw [htask] at h
    exact Nat.lt_succ_of_lt h
  | fail htask =>
    rcases htask with ⟨htask, -⟩ | ⟨⟨j, htask⟩, hnone⟩
    · rw [htask] at h
      exact absurd h (Nat.not_lt_zero k)
    · exact absurd hnone (hstaged (by simp [htask, TaskPc.copies]))
  | copied | activate | unstage => exact hk
  | publish htask => exact absurd htask hnot

theorem Loader.Staged.overwritten_move (hstaged : L.Staged)
    (hresting : L.runner.runner ≠ .running → L.task = .finished) {m : Move F}
    (hnot : ¬ Publishes L m) {k : ℕ} (hk : k < F.words) (h : k < L.task.progress) :
    k < (L.move m).task.progress := by
  by_cases hrunner : ∃ pc data, m = .runner pc data
  · obtain ⟨pc, data, rfl⟩ := hrunner
    rw [Loader.move]
    split
    · rename_i hpc
      rw [hresting (by simp [hpc])] at h
      exact absurd h (Nat.not_lt_zero k)
    · rename_i hpc
      exact hstaged.overwritten_taskTurn (fun htask => hnot ⟨⟨pc, data, rfl⟩, hpc, htask⟩) pc data
        hk h
    · exact h
  · have hframe := move_frame L (fun pc data heq => hrunner ⟨pc, data, heq⟩)
    rw [hframe.task]
    exact h

theorem Loader.Rests.move {v : F.T} (h : L.Rests v) (hstaged : L.Staged)
    (hresting : L.runner.runner ≠ .running → L.task = .finished) {m : Move F}
    (hnot : ¬ Publishes L m) : (L.move m).Rests v ∧ (L.move m).published = L.published := by
  by_cases hrunner : ∃ pc data, m = .runner pc data
  · obtain ⟨pc, data, rfl⟩ := hrunner
    rw [Loader.move]
    split
    · rename_i hpc
      have htask := hresting (by simp [hpc])
      have hwords := h.words
      rw [htask] at hwords
      exact ⟨⟨hwords⟩, rfl⟩
    · rename_i hpc
      exact h.taskTurn hstaged (fun htask => hnot ⟨⟨pc, data, rfl⟩, hpc, htask⟩) pc data
    · exact ⟨⟨h.words⟩, rfl⟩
  · have hframe := move_frame L (fun pc data heq => hrunner ⟨pc, data, heq⟩)
    refine ⟨⟨?_⟩, hframe.published⟩
    rw [hframe.task, hframe.pre]
    exact h.words

theorem Copied.publish {data : F.T} (h : Copied L data) {m : Move F} (hpublishes : Publishes L m) :
    (L.move m).Rests data ∧ (L.move m).published = .preAllocated := by
  obtain ⟨⟨pc, data', rfl⟩, hpc, htask⟩ := hpublishes
  have hmove : L.move (.runner pc data') =
      { L with published := L.active, task := .unlocking } := by
    simp [Loader.move, hpc, Loader.taskTurn, htask]
  rw [hmove]
  exact ⟨⟨fun k _ => congrFun (h.copied (.inr (.inr htask))) k⟩, h.active (.inr htask)⟩

theorem TaskPc.inside_of_progress {p : TaskPc F} (h : 0 < p.progress) : p.zone = .inside := by
  cases p with
  | locking | unlocking | finished => exact absurd h (Nat.not_lt_zero 0)
  | _ => rfl

theorem Copied.begins {data : F.T} (h : Copied L data) {k : Fin F.words}
    (hk : (k : ℕ) < L.task.progress) : L.pre k = data k := by
  cases htask : L.task with
  | copying j =>
    rw [htask] at hk
    exact h.copying j htask k hk
  | writing j w =>
    rw [htask] at hk
    exact (h.writing j w htask).2 k hk
  | activating => exact congrFun (h.copied (.inl htask)) k
  | unstaging => exact congrFun (h.copied (.inr (.inl htask))) k
  | publishing => exact congrFun (h.copied (.inr (.inr htask))) k
  | locking | checking | unlocking | finished | failed =>
    rw [htask] at hk
    exact absurd hk (Nat.not_lt_zero k)

end Loaders

section Runs
variable {data : F.T} {acts : ℕ → Action F σ ℓ} {l : ℓ}

/-- The task of `l` makes the store `published_ptr_.store(swapper_ptr_)`. -/
def PublishesAt (s : System F σ ℓ) (a : Action F σ ℓ) (l : ℓ) : Prop :=
  a = .runner l ∧ (s.loader l).runner.runner = .running ∧ (s.loader l).task = .publishing

/-- The loader `l` shows the segment itself, or a buffer whose words go back to the last store to
`published_ptr_`, as far as they are not overwritten. -/
def Shown (data : F.T) (acts : ℕ → Action F σ ℓ) (l : ℓ) (t : ℕ) : Prop :=
  (((System.at data acts t).loader l).published = .shm ∧
      ∀ τ < t, ¬ PublishesAt (System.at data acts τ) (acts τ) l) ∨
    ∃ τ < t, PublishesAt (System.at data acts τ) (acts τ) l ∧
      (∀ τ', τ < τ' → τ' < t → ¬ PublishesAt (System.at data acts τ') (acts τ') l) ∧
      ((System.at data acts t).loader l).published = .preAllocated ∧
      ((System.at data acts t).loader l).Rests (System.at data acts τ).data

private theorem shown_step {t : ℕ} (hstaged : ((System.at data acts t).loader l).Staged)
    (h : Shown data acts l t) : Shown data acts l (t + 1) := by
  have htransfers : Transfers data (System.at data acts t) := transfers_at t
  have hnext : System.at data acts (t + 1) = (System.at data acts t).step (acts t) := rfl
  by_cases hpublishes : PublishesAt (System.at data acts t) (acts t) l
  · obtain ⟨hact, hpc, htask⟩ := hpublishes
    have hmove : (System.at data acts (t + 1)).loader l =
        ((System.at data acts t).loader l).move
          (.runner ((System.at data acts t).lock.pc (.loader l)) (System.at data acts t).data) := by
      rw [hnext, hact]
      exact Function.update_self ..
    obtain ⟨hrests, hpublished⟩ := (htransfers.copied l).publish ⟨⟨_, _, rfl⟩, hpc, htask⟩
    rw [← hmove] at hrests hpublished
    refine .inr ⟨t, Nat.lt_succ_self t, ⟨hact, hpc, htask⟩, ?_, hpublished, hrests⟩
    intro τ' hlt hlt'
    omega
  · have hkept : ∀ v, ((System.at data acts t).loader l).Rests v →
        ((System.at data acts (t + 1)).loader l).Rests v ∧
          ((System.at data acts (t + 1)).loader l).published =
            ((System.at data acts t).loader l).published := by
      intro v hrests
      rcases step_loader (System.at data acts t) (acts t) l with hsame | ⟨m, hmove, haction, -⟩
      · rw [hnext, hsame]
        exact ⟨hrests, rfl⟩
      · rw [hnext, hmove]
        apply hrests.move hstaged (htransfers.resting l)
        rintro ⟨⟨pc, data', rfl⟩, hpc, htask⟩
        exact hpublishes ⟨haction, hpc, htask⟩
    rcases h with ⟨hpublished, hnone⟩ | ⟨τ, hlt, hat, hnone, hpublished, hrests⟩
    · refine .inl ⟨((hkept _ ⟨fun _ _ => rfl⟩).2).trans hpublished, ?_⟩
      intro τ hlt
      rcases Nat.lt_succ_iff_lt_or_eq.mp hlt with hlt | rfl
      · exact hnone τ hlt
      · exact hpublishes
    · obtain ⟨hrests', hsame⟩ := hkept _ hrests
      refine .inr ⟨τ, Nat.lt_succ_of_lt hlt, hat, ?_, hsame.trans hpublished, hrests'⟩
      intro τ' hlt' hle
      rcases Nat.lt_succ_iff_lt_or_eq.mp hle with hle | rfl
      · exact hnone τ' hlt' hle
      · exact hpublishes

private theorem staged_at (t : ℕ) : ((System.at data acts t).loader l).Staged := by
  refine after_part_invariant (P := Loader.Staged) (fun s : System F σ ℓ => s.loader l)
    (fun hcopies => absurd hcopies (by simp [System.initial, Loader.initial, TaskPc.copies])) ?_
    (fun _ m h => h.move m) t
  intro s a
  rcases step_loader s a l with heq | ⟨m, heq, -⟩
  · exact .inl heq
  · exact .inr ⟨m, heq⟩

private theorem shown_at (t : ℕ) : Shown data acts l t := by
  induction t with
  | zero => exact .inl ⟨rfl, fun τ hlt => absurd hlt (Nat.not_lt_zero τ)⟩
  | succ t ih => exact shown_step (staged_at t) ih

private theorem overwritten_between {a b k : ℕ} (hk : k < F.words)
    (hnone : ∀ t, a ≤ t → t < b → ¬ PublishesAt (System.at data acts t) (acts t) l)
    (h : k < ((System.at data acts a).loader l).task.progress) : ∀ t, a ≤ t → t ≤ b →
      k < ((System.at data acts t).loader l).task.progress ∧
        (System.at data acts t).data = (System.at data acts a).data := by
  apply holds_between
  · exact ⟨h, rfl⟩
  · rintro t hat htb ⟨hprogress, hdata⟩
    have htransfers : Transfers data (System.at data acts t) := transfers_at t
    have hnext : System.at data acts (t + 1) = (System.at data acts t).step (acts t) := rfl
    have hzone : ((System.at data acts t).loader l).task.zone = .inside :=
      TaskPc.inside_of_progress (Nat.zero_lt_of_lt hprogress)
    constructor
    · rcases step_loader (System.at data acts t) (acts t) l with hsame | ⟨m, hmove, haction, -⟩
      · rw [hnext, hsame]
        exact hprogress
      · rw [hnext, hmove]
        refine (staged_at t).overwritten_move (htransfers.resting l) ?_ hk hprogress
        rintro ⟨⟨pc, data', rfl⟩, hpc, htask⟩
        exact hnone t hat htb ⟨haction, hpc, htask⟩
    · rcases step_data (System.at data acts t) (acts t) with hsame | ⟨⟨i, v, j, hpc⟩, -⟩
      · rw [hnext, hsame, hdata]
      · exact absurd hzone (htransfers.toGlued.copying_alone hpc l)

variable (data acts l) in
/-- What a client gets that loads word `j` at instant `t`, through a reference that it has taken at
instant `r` from a `Snapshot` of `l`. -/
def wordAt (r t : ℕ) (j : Fin F.words) : F.Word :=
  ((System.at data acts t).loader l).read (System.at data acts t).data
    ((System.at data acts r).loader l).deref j

instance (p : TaskPc F) : Decidable (p = .publishing) :=
  match p with
  | .publishing => .isTrue rfl
  | .locking | .checking | .copying _ | .writing _ _ | .activating | .unstaging | .unlocking
  | .finished | .failed => .isFalse (by simp)

instance (s : System F σ ℓ) (a : Action F σ ℓ) (l : ℓ) : Decidable (PublishesAt s a l) :=
  match a with
  | .runner l' => decidable_of_iff (l' = l ∧ (s.loader l).runner.runner = .running ∧
      (s.loader l).task = .publishing) (by simp [PublishesAt])
  | .store _ _ | .storer _ | .load _ | .wait _ | .client _ | .spuriousClient _
  | .spuriousRunner _ | .wake _ _ | .spurious _ => .isFalse (by simp [PublishesAt])

end Runs

end SafeShm.DoubleBuffer
