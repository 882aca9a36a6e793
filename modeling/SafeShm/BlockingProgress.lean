import SafeShm.BlockingLoads
import SafeShm.ReadProgress
import SafeShm.WaitForWrite

/-!
# Waits end

No wake-up is missed, and so a call that waits returns when there is something to return. A call of
`load_blocking` needs the turns of one attempt for every store that begins during it, and those of
one more; it may lose the turns at which a store is in progress or the counter is still the one in
`last_seq`. A call of `wait_for_write` needs two turns.
-/

namespace SafeShm.Seqlock
open AtomicPrograms SingleWriterRuns SequenceLocks SleepingReaders StateMachines

variable {F : FlatType}

section Rank
variable {r : BlockingReader F} {m : Segment F}

/-- 1 if a load of the counter finds nothing to copy. -/
def BlockingReader.barred (seq : BitVec 32) (r : BlockingReader F) : ℕ :=
  if seq ≠ r.lastSeq ∧ seq &&& 1 = 0 then 0 else 1

variable (F) in
/-- The turns of another attempt if the counter is not the one that was loaded. -/
def again (seq cur : BitVec 32) : ℕ := if cur = seq then 0 else F.words + 3

/-- The turns that a call still needs if it is not disturbed. -/
def BlockingReader.turnsLeft (seq : BitVec 32) (r : BlockingReader F) : ℕ :=
  match r.pc with
  | .outside => 0
  | .loading => F.words + 3 + r.barred seq
  | .copying cur _ j => F.words - j + 2 + r.barred seq + again F seq cur
  | .rechecking cur _ => 1 + r.barred seq + again F seq cur
  | .waiting _ => F.words + 4
  | .asleep _ => F.words + 4

theorem BlockingReader.barred_le (seq : BitVec 32) (r : BlockingReader F) : r.barred seq ≤ 1 := by
  rw [barred]
  split <;> omega

theorem again_le (seq cur : BitVec 32) : again F seq cur ≤ F.words + 3 := by
  rw [again]
  split <;> omega

/-- A turn that does not return makes the rest of the call no longer. -/
theorem BlockingReader.turnsLeft_turn_le (hinside : (r.turn m).pc ≠ .outside) :
    (r.turn m).turnsLeft (m.seq ()) ≤ r.turnsLeft (m.seq ()) := by
  obtain ⟨last, timed, pc⟩ := r
  cases pc with
  | outside => exact absurd rfl hinside
  | loading =>
    simp only [turn]
    by_cases hnew : m.seq () ≠ last ∧ m.seq () &&& 1 = 0
    · rw [if_pos hnew]
      simp only [turnsLeft, barred, again, if_pos hnew, if_true]
      omega
    · rw [if_neg hnew]
      simp only [turnsLeft, barred, if_neg hnew]
      exact le_rfl
  | copying cur result j =>
    simp only [turn]
    split
    · simp only [turnsLeft, barred, again]
      omega
    · simp only [turnsLeft, barred, again]
      omega
  | rechecking cur result =>
    simp only [turn] at hinside ⊢
    by_cases hsame : cur = m.seq ()
    · rw [if_pos hsame] at hinside
      exact absurd rfl hinside
    · rw [if_neg hsame]
      simp only [turnsLeft, barred, again, if_neg hsame]
      omega
  | waiting cur =>
    have hle := barred_le (m.seq ()) (⟨last, timed, .loading⟩ : BlockingReader F)
    simp only [turn]
    split
    · exact le_rfl
    · simp only [turnsLeft]
      omega
  | asleep cur => exact le_rfl

/-- A turn at a new value while no store is in progress brings the call nearer to its return. -/
theorem BlockingReader.turnsLeft_turn_lt (hknows : r.Knows) (hnew : m.seq () ≠ r.lastSeq)
    (heven : m.seq () &&& 1 = 0) (hawake : ∀ cur, r.pc ≠ .asleep cur)
    (hinside : (r.turn m).pc ≠ .outside) :
    (r.turn m).turnsLeft (m.seq ()) < r.turnsLeft (m.seq ()) := by
  obtain ⟨last, timed, pc⟩ := r
  have hnew : m.seq () ≠ last := hnew
  cases pc with
  | outside => exact absurd rfl hinside
  | loading =>
    have hboth : m.seq () ≠ last ∧ m.seq () &&& 1 = 0 := ⟨hnew, heven⟩
    simp only [turn]
    rw [if_pos hboth]
    simp only [turnsLeft, barred, again, if_pos hboth, if_true]
    omega
  | copying cur result j =>
    simp only [turn]
    split
    · simp only [turnsLeft, barred, again]
      omega
    · simp only [turnsLeft, barred, again]
      omega
  | rechecking cur result =>
    simp only [turn] at hinside ⊢
    by_cases hsame : cur = m.seq ()
    · rw [if_pos hsame] at hinside
      exact absurd rfl hinside
    · rw [if_neg hsame]
      simp only [turnsLeft, barred, again, if_neg hsame]
      omega
  | waiting cur =>
    have hne : m.seq () ≠ cur := by
      intro hsame
      rcases hknows with heq | hodd
      · exact hnew (hsame.trans heq)
      · exact hodd (hsame ▸ heven)
    have hboth : m.seq () ≠ last ∧ m.seq () &&& 1 = 0 := ⟨hnew, heven⟩
    simp only [turn]
    rw [if_neg hne]
    simp only [turnsLeft, barred, if_pos hboth]
    omega
  | asleep cur => exact absurd rfl (hawake cur)

theorem BlockingReader.turnsLeft_woken_le (seq : BitVec 32) (r : BlockingReader F) :
    r.woken.turnsLeft seq ≤ r.turnsLeft seq := by
  obtain ⟨last, timed, pc⟩ := r
  cases pc with
  | asleep cur =>
    have hle := barred_le seq (⟨last, timed, .loading⟩ : BlockingReader F)
    simp only [woken, turnsLeft]
    omega
  | _ => exact le_rfl

theorem BlockingReader.turnsLeft_event_le (seq : BitVec 32) {e : Outside} (hpc : r.pc ≠ .outside)
    (hinside : (r.event e).pc ≠ .outside) : (r.event e).turnsLeft seq ≤ r.turnsLeft seq := by
  obtain ⟨last, timed, pc⟩ := r
  cases pc with
  | outside => exact absurd rfl hpc
  | asleep cur =>
    have hle := barred_le seq (⟨last, timed, .loading⟩ : BlockingReader F)
    cases e with
    | call => exact le_rfl
    | spurious =>
      simp only [event, turnsLeft]
      omega
    | timeout =>
      cases timed with
      | false => exact le_rfl
      | true => exact absurd rfl hinside
  | _ => cases e <;> exact le_rfl

theorem BlockingReader.rechecking_of_turn (hpc : r.pc ≠ .outside)
    (hend : (r.turn m).pc = .outside) : ∃ v, r.pc = .rechecking (m.seq ()) v := by
  obtain ⟨last, timed, pc⟩ := r
  cases pc with
  | outside => exact absurd rfl hpc
  | rechecking cur result =>
    simp only [turn] at hend
    split at hend
    · rename_i hsame
      exact ⟨result, by rw [hsame]⟩
    · exact absurd hend (by simp)
  | asleep cur => exact absurd hend (by simp [turn])
  | _ =>
    simp only [turn] at hend
    split at hend <;> exact absurd hend (by simp)

theorem BlockingReader.asleep_of_event {e : Outside} (hpc : r.pc ≠ .outside)
    (hend : (r.event e).pc = .outside) :
    e = .timeout ∧ r.timed = true ∧ ∃ cur, r.pc = .asleep cur := by
  obtain ⟨last, timed, pc⟩ := r
  cases pc with
  | outside => exact absurd rfl hpc
  | asleep cur =>
    cases e with
    | call => exact absurd hend (by simp [event])
    | spurious => exact absurd hend (by simp [event])
    | timeout =>
      cases timed with
      | false => exact absurd hend (by simp [event])
      | true => exact ⟨rfl, rfl, cur, rfl⟩
  | _ => cases e <;> exact absurd hend hpc

theorem BlockingReader.turnsLeft_le (seq seq' : BitVec 32) (r : BlockingReader F) :
    r.turnsLeft seq' ≤ r.turnsLeft seq + (F.words + 4) := by
  have hbarred := barred_le seq' r
  have hagain := fun cur => again_le (F := F) seq' cur
  rw [turnsLeft, turnsLeft]
  cases r.pc with
  | copying cur result j =>
    have := hagain cur
    dsimp only
    omega
  | rechecking cur result =>
    have := hagain cur
    dsimp only
    omega
  | _ =>
    dsimp only
    omega

/-- A reader loses nothing more when an odd counter changes. -/
theorem BlockingReader.turnsLeft_of_odd (hknows : r.Knows) {seq : BitVec 32}
    (hodd : seq &&& 1 ≠ 0) (seq' : BitVec 32) : r.turnsLeft seq' ≤ r.turnsLeft seq := by
  have hbarred := barred_le seq' r
  have hone : r.barred seq = 1 := if_neg fun h => hodd h.2
  have hredo : ∀ cur, cur &&& 1 = 0 → again F seq' cur ≤ again F seq cur := by
    intro cur heven
    have hne : cur ≠ seq := by
      intro hsame
      exact hodd (hsame ▸ heven)
    rw [show again F seq cur = F.words + 3 from if_neg hne]
    exact again_le seq' cur
  rw [Knows] at hknows
  rw [turnsLeft, turnsLeft]
  cases hpc : r.pc with
  | copying cur result j =>
    rw [hpc] at hknows
    have := hredo cur hknows.2
    dsimp only
    omega
  | rechecking cur result =>
    rw [hpc] at hknows
    have := hredo cur hknows.2
    dsimp only
    omega
  | loading =>
    dsimp only
    omega
  | _ => exact le_rfl

end Rank

section Runs
variable {ι : Type} [DecidableEq ι]
variable (vals : ℕ → F.T) (lastSeqs : ι → BitVec 32) (acts : ℕ → Action ι Outside) (i : ι)

theorem ver_succ_le {A : ι → Type} (sched : ℕ → Party ι)
    (readers : (i : ι) → ReadProgram F (A i)) (t : ℕ) :
    (versioned vals sched readers).ver (t + 1) ≤ (versioned vals sched readers).ver t + 1 := by
  have hstep : let w := (states vals sched readers t).writer
      let w' := (states vals sched readers (t + 1)).writer
      (w'.begun = w.begun ∧ w'.pc = w.pc) ∨
      (w'.begun = w.begun ∧ w'.pc = w.pc + 1 ∧ w.begun ≠ 0) ∨
      (w'.begun = w.begun + 1 ∧ w'.pc = 0 ∧ (w.begun ≠ 0 → F.words + 4 ≤ w.pc)) := by
    simpa only [steps_store, states] using
      position_step memory (fun k => store (vals k)) (Region.zeroed F.zero) sched readers t
  have hpc : (states vals sched readers t).writer.begun = 0 →
      (states vals sched readers t).writer.pc = 0 := pc_eq_zero _ _ _ _ _
  simp only [versioned, finished, midStore]
  dsimp only at hstep
  rcases hstep with ⟨hk, hp⟩ | ⟨hk, hp, hpos⟩ | ⟨hk, hp, hdone⟩
  · rw [hk, hp]
    omega
  · rw [hk, hp]
    split <;> split <;> split <;> split <;> omega
  · rw [hk, hp]
    split <;> split <;> split <;> split <;> omega

/-- The counter changes the rest of a call by no more than an attempt for every store that is
opened. -/
theorem turnsLeft_ver_step {A : ι → Type} (sched : ℕ → Party ι)
    (readers : (i : ι) → ReadProgram F (A i)) {r : BlockingReader F} (hknows : r.Knows) (t : ℕ) :
    r.turnsLeft ((segments vals sched readers (t + 1)).seq ()) +
        (F.words + 4) * (versioned vals sched readers).opened t ≤
      r.turnsLeft ((segments vals sched readers t).seq ()) +
        (F.words + 4) * (versioned vals sched readers).opened (t + 1) := by
  have hmono := (versioned vals sched readers).mono (Nat.le_succ t)
  have hstep := ver_succ_le vals sched readers t
  have hseq := (versioned vals sched readers).seq_eq
  rw [hseq, hseq, Versioned.opened, Versioned.opened]
  generalize (versioned vals sched readers).ver t = v at hmono hstep
  generalize (versioned vals sched readers).ver (t + 1) = v' at hmono hstep
  obtain rfl | rfl : v' = v ∨ v' = v + 1 := by omega
  · exact le_rfl
  obtain ⟨k, rfl | rfl⟩ : ∃ k, v = 2 * k ∨ v = 2 * k + 1 := ⟨v / 2, by omega⟩
  · -- the counter becomes odd
    have hcost := r.turnsLeft_le (BitVec.ofNat 32 (2 * k)) (BitVec.ofNat 32 (2 * k + 1))
    rw [show (2 * k + 1) / 2 = k by omega, show (2 * k + 1 + 1) / 2 = k + 1 by omega, Nat.mul_succ]
    omega
  · have hodd : BitVec.ofNat 32 (2 * k + 1) &&& 1 ≠ 0 := by
      intro heven
      have hval := congrArg BitVec.toNat heven
      simp at hval
    have hcost := BlockingReader.turnsLeft_of_odd hknows hodd (BitVec.ofNat 32 (2 * k + 1 + 1))
    rw [show (2 * k + 1 + 1 + 1) / 2 = (2 * k + 1 + 1) / 2 by omega]
    omega

/-- A turn of reader `i` while no store is in progress and the counter is not `last`. -/
def fruitful (last : BitVec 32)
    (s : State (Loc Empty Unit F.words) (Val F.Word) (Cmd Empty Unit F.words F.Word) (Segment F) ι
      (BlockingReader F)) (a : Action ι Outside) (i : ι) : Bool :=
  match a with
  | .reader j => j = i && s.writer.prog.result?.isSome && s.mem.seq () != last
  | _ => false

def TimesOut (s : State (Loc Empty Unit F.words) (Val F.Word) (Cmd Empty Unit F.words F.Word)
    (Segment F) ι (BlockingReader F)) (a : Action ι Outside) (i : ι) : Prop :=
  a = .event i .timeout ∧ (s.reader i).timed = true ∧ ∃ cur, (s.reader i).pc = .asleep cur

def openedStores (s : State (Loc Empty Unit F.words) (Val F.Word) (Cmd Empty Unit F.words F.Word)
    (Segment F) ι (BlockingReader F)) : ℕ := finished s.writer + midStore s.writer

theorem openedStores_eq (t : ℕ) : openedStores (blockingStates vals lastSeqs acts t) =
    (versioned vals (turns acts) nobody).opened t := by
  have hle := midStore_le_one (states vals (turns acts) nobody t).writer
  rw [openedStores, blocking_writer, Versioned.opened, versioned]
  dsimp only
  omega

variable {vals lastSeqs acts i} {last : BitVec 32}

theorem of_fruitful {t : ℕ}
    (hlast : ((blockingStates vals lastSeqs acts t).reader i).lastSeq = last)
    (h : fruitful last (blockingStates vals lastSeqs acts t) (acts t) i = true) :
    (blockingStates vals lastSeqs acts t).mem.seq () ≠
        ((blockingStates vals lastSeqs acts t).reader i).lastSeq ∧
      (blockingStates vals lastSeqs acts t).mem.seq () &&& 1 = 0 ∧
      ∀ cur, ((blockingStates vals lastSeqs acts t).reader i).pc ≠ .asleep cur := by
  generalize acts t = a at h
  cases a with
  | reader j =>
    simp only [fruitful, Bool.and_eq_true, decide_eq_true_eq, bne_iff_ne] at h
    obtain ⟨⟨-, hidle⟩, hnew⟩ := h
    obtain ⟨u, hu⟩ := Option.isSome_iff_exists.mp hidle
    have hidle : (blockingStates vals lastSeqs acts t).writer.prog = .ret () :=
      Prog.eq_ret_of_result? hu
    rw [← hlast] at hnew
    refine ⟨hnew, ?_, fun cur hasleep => hnew (asleep_seen hidle hasleep)⟩
    rw [blocking_writer] at hidle
    rw [blocking_mem, segments_seq, midStore_eq_zero vals (turns acts) nobody hidle]
    exact ofNat_two_mul_and_one _
  | _ => cases h

theorem call_ends {t : ℕ} (hpc : ((blockingStates vals lastSeqs acts t).reader i).pc ≠ .outside)
    (hend : ((blockingStates vals lastSeqs acts (t + 1)).reader i).pc = .outside) :
    (∃ v, Delivers (blockingStates vals lastSeqs acts t) (acts t) i v) ∨
      TimesOut (blockingStates vals lastSeqs acts t) (acts t) i := by
  rw [blockingStates, Design.states_succ] at hend
  rcases Design.step_reader (blockingStates vals lastSeqs acts t) (acts t) i with
    heq | heq | ⟨hact, heq⟩ | ⟨e, hact, heq⟩
  · rw [heq] at hend
    exact absurd hend hpc
  · rw [heq] at hend
    rcases BlockingReader.woken_cases ((blockingStates vals lastSeqs acts t).reader i) with
      hsame | ⟨-, hloading⟩
    · exact absurd ((congrArg BlockingReader.pc hsame).symm.trans hend) hpc
    · exact absurd (hloading.symm.trans hend) (by simp)
  · rw [heq] at hend
    obtain ⟨v, hv⟩ := BlockingReader.rechecking_of_turn hpc hend
    exact .inl ⟨v, hact, hv⟩
  · rw [heq] at hend
    obtain ⟨rfl, htimed, hasleep⟩ := BlockingReader.asleep_of_event hpc hend
    exact .inr ⟨hact, htimed, hasleep⟩

theorem turnsLeft_step {t : ℕ}
    (hlast : ((blockingStates vals lastSeqs acts t).reader i).lastSeq = last)
    (hpc : ((blockingStates vals lastSeqs acts t).reader i).pc ≠ .outside)
    (hinside : ((blockingStates vals lastSeqs acts (t + 1)).reader i).pc ≠ .outside) :
    ((blockingStates vals lastSeqs acts (t + 1)).reader i).turnsLeft
          ((blockingStates vals lastSeqs acts (t + 1)).mem.seq ()) +
        (fruitful last (blockingStates vals lastSeqs acts t) (acts t) i).toNat +
        (F.words + 4) * openedStores (blockingStates vals lastSeqs acts t) ≤
      ((blockingStates vals lastSeqs acts t).reader i).turnsLeft
          ((blockingStates vals lastSeqs acts t).mem.seq ()) +
        (F.words + 4) * openedStores (blockingStates vals lastSeqs acts (t + 1)) := by
  have hknows := knows_at vals lastSeqs acts i t
  have hver := turnsLeft_ver_step vals (turns acts) nobody hknows t
  rw [← blocking_mem vals lastSeqs, ← blocking_mem vals lastSeqs, ← openedStores_eq vals lastSeqs,
    ← openedStores_eq vals lastSeqs] at hver
  have hfruit := @of_fruitful F ι _ vals lastSeqs acts i last t hlast
  have hnext : blockingStates vals lastSeqs acts (t + 1) =
    (blocking vals).step (blockingStates vals lastSeqs acts t) (acts t) := rfl
  rw [hnext] at hver hinside ⊢
  generalize blockingStates vals lastSeqs acts t = s at hpc hinside hknows hver hfruit ⊢
  generalize acts t = a at hinside hver hfruit ⊢
  cases a with
  | writer =>
    have hreader : ((blocking vals).step s .writer).reader i = (s.reader i).woken ∨
        ((blocking vals).step s .writer).reader i = s.reader i := by
      rw [Design.step]
      dsimp only
      split
      · exact .inl rfl
      · exact .inr rfl
    have hidle : fruitful last s .writer i = false := rfl
    rw [hidle, Bool.toNat_false, Nat.add_zero]
    rcases hreader with heq | heq
    · rw [heq]
      have hwoken := BlockingReader.turnsLeft_woken_le
        (((blocking vals).step s .writer).mem.seq ()) (s.reader i)
      omega
    · rw [heq]
      exact hver
  | reader j =>
    by_cases hij : i = j
    · subst hij
      have hreader : ((blocking vals).step s (.reader i)).reader i = (s.reader i).turn s.mem :=
        Function.update_self ..
      rw [hreader] at hinside ⊢
      cases hturn : fruitful last s (.reader i) i
      · have hle := BlockingReader.turnsLeft_turn_le hinside
        exact Nat.add_le_add_right hle _
      · obtain ⟨hnew, heven, hawake⟩ := hfruit hturn
        have hlt := BlockingReader.turnsLeft_turn_lt hknows hnew heven hawake hinside
        exact Nat.add_le_add_right hlt _
    · have hreader : ((blocking vals).step s (.reader j)).reader i = s.reader i :=
        Function.update_of_ne hij ..
      have hother : fruitful last s (.reader j) i = false := by simp [fruitful, Ne.symm hij]
      rw [hreader, hother]
      exact le_rfl
  | event j e =>
    by_cases hij : i = j
    · subst hij
      have hreader : ((blocking vals).step s (.event i e)).reader i = (s.reader i).event e :=
        Function.update_self ..
      rw [hreader] at hinside ⊢
      have hle := BlockingReader.turnsLeft_event_le (s.mem.seq ()) hpc hinside
      exact Nat.add_le_add_right hle _
    · have hreader : ((blocking vals).step s (.event j e)).reader i = s.reader i :=
        Function.update_of_ne hij ..
      rw [hreader]
      exact le_rfl

/-- `load_blocking(last)` returns once its reader has had more turns at which no store was in
progress and the counter was not `last` than `words + 4` for every store that was opened meanwhile,
and for one more attempt. It returns a value then, or `nullopt` because of its time-out. -/
theorem load_blocking_returns {a b : ℕ} (hab : a ≤ b)
    (hcall : ((blockingStates vals lastSeqs acts a).reader i).pc = .loading)
    (hlast : ((blockingStates vals lastSeqs acts a).reader i).lastSeq = last)
    (hturns : (F.words + 4) * (openedStores (blockingStates vals lastSeqs acts b) -
          openedStores (blockingStates vals lastSeqs acts a)) + (F.words + 4) <
        (List.range' a (b - a)).countP fun t =>
          fruitful last (blockingStates vals lastSeqs acts t) (acts t) i) :
    ∃ t, a ≤ t ∧ t < b ∧ ((∃ v, Delivers (blockingStates vals lastSeqs acts t) (acts t) i v) ∨
      TimesOut (blockingStates vals lastSeqs acts t) (acts t) i) := by
  by_contra hnever
  have hinside : ∀ t, a ≤ t → t ≤ b →
      ((blockingStates vals lastSeqs acts t).reader i).pc ≠ .outside := by
    apply holds_between
    · simp [hcall]
    · intro t hat htb hpc hend
      exact hnever ⟨t, hat, htb, call_ends hpc hend⟩
  have hsame : ∀ t, a ≤ t → t ≤ b →
      ((blockingStates vals lastSeqs acts t).reader i).lastSeq = last := by
    intro t hat htb
    rw [lastSeq_eq hat, hlast]
    intro t' hat' htt' v hv
    exact hnever ⟨t', hat', htt'.trans_le htb, .inl ⟨v, hv⟩⟩
  have hle := countP_le_of_potential
    (fun t => ((blockingStates vals lastSeqs acts t).reader i).turnsLeft
      ((blockingStates vals lastSeqs acts t).mem.seq ()))
    (fun t => (F.words + 4) * openedStores (blockingStates vals lastSeqs acts t))
    (fun t => fruitful last (blockingStates vals lastSeqs acts t) (acts t) i) hab
    (fun t hat htb => turnsLeft_step (hsame t hat htb.le) (hinside t hat htb.le)
      (hinside (t + 1) (by omega) htb))
  have hstart : ((blockingStates vals lastSeqs acts a).reader i).turnsLeft
      ((blockingStates vals lastSeqs acts a).mem.seq ()) ≤ F.words + 4 := by
    have hbarred := BlockingReader.barred_le ((blockingStates vals lastSeqs acts a).mem.seq ())
      ((blockingStates vals lastSeqs acts a).reader i)
    rw [BlockingReader.turnsLeft, hcall]
    dsimp only
    omega
  rw [Nat.mul_sub] at hturns
  omega

/-- The reader calls before the store, and gets its turns after it. -/
def calledThenStored : ℕ → Action Unit Outside :=
  script (.event () .spurious)
    (repeated [(.event () (.call true), 1), (.writer, 6), (.reader (), 11)])

theorem load_blocking_returns_calledThenStored : ∃ t, 1 ≤ t ∧ t < 18 ∧
    ((∃ v, Delivers (blockingStates (F := oneWord) tens (fun _ => 0) calledThenStored t)
      (calledThenStored t) () v) ∨
    TimesOut (blockingStates (F := oneWord) tens (fun _ => 0) calledThenStored t)
      (calledThenStored t) ()) :=
  load_blocking_returns (by decide) rfl rfl (by decide +kernel)

end Runs

end SafeShm.Seqlock

namespace SafeShm.CyclicBuffer
open AtomicPrograms SingleWriterRuns SequenceLocks SleepingReaders StateMachines

variable {F : FlatType} {ι : Type} [DecidableEq ι] {cap : Capacity} {vals : ℕ → F.T}
variable {acts : ℕ → Action ι WaitEvent} {i : ι}

theorem asleep_lastSeen (hsleep : SleepsInTime acts (waitingStates cap vals acts)) {t : ℕ}
    (hidle : (waitingStates cap vals acts t).writer.prog = .ret ())
    (hasleep : ((waitingStates cap vals acts t).reader i).pc = .asleep) :
    (waitingStates cap vals acts t).mem.header () =
      ((waitingStates cap vals acts t).reader i).lastSeen :=
  sleepers_undisturbed (D := waiting cap vals) (P := fun m r => m.header () = r.lastSeen)
    (fun _ => rfl) (fun t' _ => finds_lastSeen hsleep t') hidle (decide_eq_true hasleep)

theorem loading_succ {t : ℕ} (hturn : acts t ≠ .reader i)
    (hpc : ((waitingStates cap vals acts t).reader i).pc = .loading) :
    (waitingStates cap vals acts (t + 1)).reader i = (waitingStates cap vals acts t).reader i := by
  rw [waitingStates, Design.states_succ]
  rcases Design.step_reader (waitingStates cap vals acts t) (acts t) i with
    heq | heq | ⟨hact, -⟩ | ⟨e, -, heq⟩
  · exact heq
  · rcases WaitingReader.woken_pc ((waitingStates cap vals acts t).reader i) with
      hwoken | ⟨hsame, -⟩
    · refine heq.trans ?_
      show WaitingReader.woken _ = _
      rw [WaitingReader.woken, hpc]
    · exact heq.trans hsame
  · exact absurd hact hturn
  · refine heq.trans ?_
    generalize (waitingStates cap vals acts t).reader i = r at hpc
    obtain ⟨last, timed, pc⟩ := r
    obtain rfl : pc = .loading := hpc
    cases e <;> rfl

/-- A reader about to sleep, when insertions have been published since its load of `total_writes`,
returns to the head of the loop, and its next turn finds a counter that is not `last_seen`. -/
private theorem leaves_waiting (hsleep : SleepsInTime acts (waitingStates cap vals acts)) {t : ℕ}
    (hturn : acts t = .reader i) (hpc : ((waitingStates cap vals acts t).reader i).pc = .waiting)
    (hnew : (waitingStates cap vals acts t).mem.header () ≠
      ((waitingStates cap vals acts t).reader i).lastSeen) :
    ((waitingStates cap vals acts (t + 1)).reader i).pc = .loading ∧
      ∀ t' > t, published (waitingStates cap vals acts t').writer < 2 ^ 64 →
        (waitingStates cap vals acts t').mem.header () ≠
          ((waitingStates cap vals acts (t + 1)).reader i).lastSeen := by
  obtain ⟨t₀, hsince⟩ := exists_waitsSince cap vals acts hpc
  have hfew := hsleep i t₀ t hsince.lt hsince.turn hsince.loading hsince.waiting hturn
  have hfound := hsince.found
  have hstep : (waitingStates cap vals acts (t + 1)).reader i =
      ((waitingStates cap vals acts t).reader i).turn (waitingStates cap vals acts t).mem := by
    rw [waitingStates, Design.states_succ, hturn]
    exact Function.update_self ..
  have hmono : ∀ {u u'}, u ≤ u' → published (waitingStates cap vals acts u).writer ≤
      published (waitingStates cap vals acts u').writer := by
    intro u u' hle
    rw [waiting_writer, waiting_writer]
    exact published_mono cap vals (turns acts) nobody hle
  have hheader : ∀ u, (waitingStates cap vals acts u).mem.header () =
      BitVec.ofNat 64 (published (waitingStates cap vals acts u).writer) := by
    intro u
    rw [waiting_mem, waiting_writer, segments_header]
  have hlow : low ((waitingStates cap vals acts t).mem.header ()) ≠
      low ((waitingStates cap vals acts t).reader i).lastSeen := by
    intro hsame
    rw [← hfound, hheader, hheader] at hsame
    apply hnew
    rw [← hfound, hheader, hheader, eq_of_low_eq hsame (hmono hsince.lt.le) hfew]
  rw [hstep, WaitingReader.turn, hpc]
  dsimp only
  rw [if_neg hlow]
  refine ⟨rfl, ?_⟩
  intro t' htt' h64 hsame
  have hle := hmono hsince.lt.le
  have hle' := hmono (Nat.le_of_lt htt')
  have hval := congrArg BitVec.toNat (hsame.trans hfound.symm)
  rw [hheader, hheader, BitVec.toNat_ofNat, BitVec.toNat_ofNat, Nat.mod_eq_of_lt h64,
    Nat.mod_eq_of_lt (by omega)] at hval
  apply hnew
  rw [← hfound, hheader, hheader]
  congr 1
  omega

/-- `wait_for_write` returns at the second turn of its reader at the latest, from the first turn on
that comes when `total_writes` is not `last_seen` and no insertion is in progress. -/
theorem wait_for_write_returns (hsleep : SleepsInTime acts (waitingStates cap vals acts))
    {t₁ t₂ : ℕ} (hlt : t₁ < t₂) (hcall : ((waitingStates cap vals acts t₁).reader i).pc ≠ .outside)
    (hturn₁ : acts t₁ = .reader i) (hidle : (waitingStates cap vals acts t₁).writer.prog = .ret ())
    (hnew : (waitingStates cap vals acts t₁).mem.header () ≠
      ((waitingStates cap vals acts t₁).reader i).lastSeen)
    (hturn₂ : acts t₂ = .reader i)
    (h64 : published (waitingStates cap vals acts t₂).writer < 2 ^ 64) :
    ∃ t w, t₁ ≤ t ∧ t ≤ t₂ ∧ Announces (waitingStates cap vals acts t) (acts t) i w := by
  cases hpc : ((waitingStates cap vals acts t₁).reader i).pc with
  | outside => exact absurd hpc hcall
  | loading => exact ⟨t₁, _, le_rfl, hlt.le, hturn₁, hpc, rfl, hnew⟩
  | asleep => exact absurd (asleep_lastSeen hsleep hidle hpc) hnew
  | waiting =>
    obtain ⟨hloading, hlater⟩ := leaves_waiting hsleep hturn₁ hpc hnew
    -- the next turn of the reader
    obtain ⟨t, hrange, hturn, hbefore⟩ : ∃ t, (t₁ < t ∧ t ≤ t₂) ∧ acts t = .reader i ∧
        ∀ t', t₁ < t' → t' < t → acts t' ≠ .reader i := by
      classical
      have hex : ∃ t, t₁ < t ∧ acts t = .reader i := ⟨t₂, hlt, hturn₂⟩
      refine ⟨Nat.find hex, ⟨(Nat.find_spec hex).1, Nat.find_min' hex ⟨hlt, hturn₂⟩⟩,
        (Nat.find_spec hex).2, ?_⟩
      intro t' hlt' hbefore hturn
      exact Nat.find_min hex hbefore ⟨hlt', hturn⟩
    have hstays : ∀ t', t₁ < t' → t' ≤ t → (waitingStates cap vals acts t').reader i =
        (waitingStates cap vals acts (t₁ + 1)).reader i := by
      apply holds_between
      · rfl
      · intro t' hlt' hle hsame
        rw [loading_succ (hbefore t' hlt' hle) (by rw [hsame, hloading]), hsame]
    have hsame := hstays t hrange.1 le_rfl
    have hpub : published (waitingStates cap vals acts t).writer ≤
        published (waitingStates cap vals acts t₂).writer := by
      rw [waiting_writer, waiting_writer]
      exact published_mono cap vals (turns acts) nobody hrange.2
    refine ⟨t, _, hrange.1.le, hrange.2, hturn, by rw [hsame, hloading], rfl, ?_⟩
    rw [hsame]
    exact hlater t hrange.1 (hpub.trans_lt h64)

/-- The insertion falls between the load of `total_writes` and the call of `FUTEX_WAIT`. -/
def aboutToSleep : ℕ → Action Unit WaitEvent :=
  StateMachines.script (.event () .spurious)
    (StateMachines.repeated [(.event () (.call 0 false), 1), (.reader (), 1), (.writer, 8),
      (.reader (), 2)])

theorem wait_for_write_returns_aboutToSleep : ∃ t w, 10 ≤ t ∧ t ≤ 11 ∧
    Announces (waitingStates (F := oneWord) capacityTwo tens aboutToSleep t) (aboutToSleep t) ()
      w := by
  have hsleep : SleepsInTime aboutToSleep
      (waitingStates (F := oneWord) capacityTwo tens aboutToSleep) := by
    intro i t₀ t _ _ _ _ hact
    have hlt : t < 12 := by
      by_contra hge
      have hrest : aboutToSleep t = .event () .spurious :=
        StateMachines.script_of_le (Nat.le_of_not_lt hge)
      rw [hrest] at hact
      cases hact
    have hpublished : ∀ t < 12,
        published (waitingStates (F := oneWord) capacityTwo tens aboutToSleep t).writer < 2 := by
      decide +kernel
    exact (hpublished t hlt).trans_le (by omega)
  exact wait_for_write_returns hsleep (show 10 < 11 by decide) (by decide +kernel) rfl rfl
    (by decide +kernel) rfl (by decide +kernel)

end SafeShm.CyclicBuffer
