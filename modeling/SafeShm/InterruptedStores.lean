import SafeShm.SequenceLocks
import Mathlib.Data.Nat.Count

/-!
# Stores that are interrupted

A writer may stop for ever at any step of a call. The next call is then made by another writer,
on the memory as it was left. `cutOff` is what such a writer does of its call, and a `Series` is a
sequence of calls of this kind, each of which stores a value in a cell.

A store that is interrupted while the counter is odd turns the parity of the counter round for all
stores that follow. If no store is (`Interrupted`), the counter of a cell is twice the number of
the stores finished there, between any two calls and whoever makes them, and the cell is
`Versioned`.
-/

namespace SafeShm.InterruptedStores
open AtomicPrograms SingleWriterRuns SequenceLocks

section CutOff
variable {L : Type} {V : L → Type} {C M : Type}

/-- The first `n` steps of a call whose caller then stops for ever. -/
def cutOff : ℕ → Prog L V C Unit → Prog L V C Unit
  | 0, _ => .ret ()
  | n + 1, .load l next => .load l (fun v => cutOff n (next v))
  | n + 1, .store c next => .store c (cutOff n next)
  | _ + 1, .ret u => .ret u
  | _ + 1, .spin => .spin

variable (mem : Memory L V C M)

private theorem iterate_still {p : Prog L V C Unit} (hp : ∀ m, soloStep mem (m, p) = (m, p)) (m : M)
    (n : ℕ) : (soloStep mem)^[n] (m, p) = (m, p) := Function.iterate_fixed (hp m) n

theorem iterate_cutOff (stop n : ℕ) (m : M) (p : Prog L V C Unit) :
    ((soloStep mem)^[n] (m, cutOff stop p)).1 = ((soloStep mem)^[min n stop] (m, p)).1 := by
  induction stop generalizing n m p with
  | zero =>
    rw [cutOff, iterate_still mem (fun _ => rfl), Nat.min_zero]
    rfl
  | succ stop ih =>
    cases n with
    | zero => simp
    | succ n =>
      rw [Nat.succ_min_succ, Function.iterate_succ_apply, Function.iterate_succ_apply]
      cases p with
      | ret u => rw [cutOff, iterate_still mem (fun _ => rfl), iterate_still mem (fun _ => rfl)]
      | load l next => exact ih n m (next (mem.read m l))
      | store c next => exact ih n (mem.write m c) next
      | spin => rw [cutOff, iterate_still mem (fun _ => rfl), iterate_still mem (fun _ => rfl)]

theorem steps_cutOff (stop : ℕ) (m : M) (p : Prog L V C Unit) :
    steps mem (cutOff stop p) m = min stop (steps mem p m) := by
  induction stop generalizing m p with
  | zero => rw [cutOff, steps, Nat.zero_min]
  | succ stop ih =>
    cases p with
    | ret u => rw [cutOff, steps, Nat.min_zero]
    | load l next => rw [cutOff, steps, steps, ih, Nat.succ_min_succ]
    | store c next => rw [cutOff, steps, steps, ih, Nat.succ_min_succ]
    | spin => rw [cutOff, steps, Nat.min_zero]

theorem finish_cutOff (stop : ℕ) (m : M) (p : Prog L V C Unit) :
    finish mem (cutOff stop p) m = ((soloStep mem)^[stop] (m, p)).1 := by
  induction stop generalizing m p with
  | zero => rfl
  | succ stop ih =>
    rw [Function.iterate_succ_apply]
    cases p with
    | ret u => exact congrArg Prod.fst (iterate_still mem (fun _ => rfl) m stop).symm
    | load l next => exact ih m (next (mem.read m l))
    | store c next => exact ih (mem.write m c) next
    | spin => exact congrArg Prod.fst (iterate_still mem (fun _ => rfl) m stop).symm

end CutOff

section Series
variable {H Cell : Type} [DecidableEq H] [DecidableEq Cell] {W : ℕ} {Word : Type}

def SameCells (r r' : Region H Cell W Word) : Prop := r.seq = r'.seq ∧ r.data = r'.data

variable (H Cell W Word) in
/-- Calls on a zero-filled region, each cut off after `stop k` steps. Call number `k` stores `val k`
in the cell `cell k` by the steps of `lockedStore`, which follow `before` other steps. -/
structure Series where
  script : ℕ → Program H Cell W Word (Cmd H Cell W Word) Unit
  stop : ℕ → ℕ
  zero : Word
  cell : ℕ → Cell
  val : ℕ → Fin W → Word
  before : ℕ
  locked : ∀ k n,
    let m := callMem memory (fun k => cutOff (stop k) (script k)) (Region.zeroed zero) k
    SameCells ((soloStep memory)^[n] (m, script k)).1
      (if n < before + 2 then m
      else if n < before + (W + 3) then m.writing (cell k) (val k) (n - (before + 2))
      else m.written (cell k) (val k))
  long : ∀ k, before + (W + 3) ≤ steps memory (script k)
    (callMem memory (fun k => cutOff (stop k) (script k)) (Region.zeroed zero) k)

namespace Series
variable (S : Series H Cell W Word)

def calls (k : ℕ) : Program H Cell W Word (Cmd H Cell W Word) Unit := cutOff (S.stop k) (S.script k)

/-- The region when call number `k` begins. -/
abbrev start (k : ℕ) : Region H Cell W Word := callMem memory S.calls (Region.zeroed S.zero) k

/-- Call number `k` makes the counter even again. -/
abbrev Finishes (k : ℕ) : Prop := S.before + (W + 3) ≤ S.stop k

/-- Call number `k` stops while the counter is odd. -/
abbrev Interrupted (k : ℕ) : Prop := S.before + 2 ≤ S.stop k ∧ S.stop k < S.before + (W + 3)

/-- How many of the first `k` calls finish a store in the cell `c`. -/
def count (c : Cell) (k : ℕ) : ℕ := Nat.count (fun j => S.Finishes j ∧ S.cell j = c) k

def held (c : Cell) : ℕ → Fin W → Word
  | 0 => fun _ => S.zero
  | k + 1 => if S.Finishes k ∧ S.cell k = c then S.val k else held c k

theorem count_succ (c : Cell) (k : ℕ) :
    S.count c (k + 1) = S.count c k + if S.Finishes k ∧ S.cell k = c then 1 else 0 :=
  Nat.count_succ _ k

theorem count_mono (c : Cell) : Monotone (S.count c) := Nat.count_monotone _

theorem held_eq_of_count_eq {c : Cell} {k k' : ℕ} (hle : k ≤ k')
    (h : S.count c k = S.count c k') : S.held c k = S.held c k' := by
  induction k', hle using Nat.le_induction with
  | base => rfl
  | succ k' hle ih =>
    have hmono := S.count_mono c hle
    rw [count_succ] at h
    by_cases hk : S.Finishes k' ∧ S.cell k' = c
    · rw [if_pos hk] at h
      omega
    · rw [if_neg hk] at h
      rw [held, if_neg hk, ih h]

theorem held_cases (c : Cell) (k : ℕ) : S.held c k = (fun _ => S.zero) ∨
    ∃ j < k, S.cell j = c ∧ S.held c k = S.val j := by
  induction k with
  | zero => exact .inl rfl
  | succ k ih =>
    rw [held]
    split
    · rename_i hk
      exact .inr ⟨k, Nat.lt_succ_self k, hk.2, rfl⟩
    · rcases ih with h | ⟨j, hj, hcell, h⟩
      · exact .inl h
      · exact .inr ⟨j, Nat.lt_succ_of_lt hj, hcell, h⟩

def reached (k n : ℕ) : Region H Cell W Word :=
  if n < S.before + 2 then S.start k
  else if n < S.before + (W + 3) then (S.start k).writing (S.cell k) (S.val k) (n - (S.before + 2))
  else (S.start k).written (S.cell k) (S.val k)

private theorem reached_of_ne {c : Cell} {k : ℕ} (hc : S.cell k ≠ c) (n : ℕ) :
    (S.reached k n).seq c = (S.start k).seq c ∧ (S.reached k n).data c = (S.start k).data c := by
  rw [reached]
  split
  · exact ⟨rfl, rfl⟩
  split
  · simp [Region.writing, Function.update_of_ne (Ne.symm hc)]
  · simp [Region.written, Function.update_of_ne (Ne.symm hc)]

private theorem memAt_cells (k pc : ℕ) :
    SameCells (memAt memory S.calls (Region.zeroed S.zero) k pc) (S.reached k (min pc (S.stop k))) := by
  rw [memAt, calls, iterate_cutOff]
  exact S.locked k (min pc (S.stop k))

private theorem start_succ_cells (k : ℕ) : SameCells (S.start (k + 1)) (S.reached k (S.stop k)) := by
  rw [start, callMem, calls, finish_cutOff]
  exact S.locked k (S.stop k)

variable {S}

/-- Between two calls the counter of a cell is twice the number of the stores finished there, and
the payload is that of the last one. -/
theorem start_cell (hout : ∀ k, ¬ S.Interrupted k) (c : Cell) (k : ℕ) :
    (S.start k).seq c = BitVec.ofNat 32 (2 * S.count c k) ∧ (S.start k).data c = S.held c k := by
  induction k with
  | zero => exact ⟨rfl, rfl⟩
  | succ k ih =>
    obtain ⟨hseq, hdata⟩ := S.start_succ_cells k
    rw [hseq, hdata, count_succ, held, reached]
    by_cases hstop : S.stop k < S.before + 2
    · have hnot : ¬ (S.Finishes k ∧ S.cell k = c) := fun h => by omega
      rw [if_pos hstop, if_neg hnot, if_neg hnot]
      exact ih
    · have hfinishes : S.Finishes k := by
        have := hout k
        omega
      rw [if_neg hstop, if_neg (by omega)]
      by_cases hc : S.cell k = c
      · subst hc
        simp [Region.written, hfinishes, ih.1, Nat.mul_add, BitVec.ofNat_add]
      · simp [Region.written, hc, Function.update_of_ne (Ne.symm hc), ih.1, ih.2]

/-- How far the counter of its cell is moved by the first `n` steps of a call. -/
def moved (S : Series H Cell W Word) (n : ℕ) : ℕ :=
  if n < S.before + 2 then 0 else if n < S.before + (W + 3) then 1 else 2

theorem moved_mono (S : Series H Cell W Word) : Monotone S.moved := by
  intro n n' hle
  simp only [moved]
  split
  · exact Nat.zero_le _
  · split
    · rw [if_neg (by omega)]
      split <;> omega
    · rw [if_neg (by omega), if_neg (by omega)]

/-- The version of a cell after `pc` steps of call number `k`. -/
def verAt (S : Series H Cell W Word) (c : Cell) (k pc : ℕ) : ℕ :=
  2 * S.count c k + if S.cell k = c then S.moved (min pc (S.stop k)) else 0

theorem verAt_mono (S : Series H Cell W Word) (c : Cell) (k : ℕ) : Monotone (S.verAt c k) := by
  intro pc pc' hle
  rw [verAt, verAt]
  apply Nat.add_le_add_left
  split
  · exact S.moved_mono (min_le_min_right _ hle)
  · exact le_rfl

theorem memAt_seq (hout : ∀ k, ¬ S.Interrupted k) (c : Cell) (k pc : ℕ) :
    (memAt memory S.calls (Region.zeroed S.zero) k pc).seq c = BitVec.ofNat 32 (S.verAt c k pc) := by
  rw [(S.memAt_cells k pc).1, verAt]
  have hstart := (start_cell hout c k).1
  by_cases hc : S.cell k = c
  · subst hc
    rw [if_pos rfl, reached, moved]
    split
    · exact hstart
    split
    · simp [Region.writing, hstart, BitVec.ofNat_add]
    · simp [Region.written, hstart, BitVec.ofNat_add]
  · rw [if_neg hc, (S.reached_of_ne hc _).1]
    exact hstart

/-- While the version is even, the payload is that of the stores it counts. -/
theorem memAt_data (hout : ∀ k, ¬ S.Interrupted k) {c : Cell} {k pc : ℕ}
    (heven : S.verAt c k pc % 2 = 0) :
    ∃ k', (k' = k ∨ k' = k + 1 ∧ pc ≠ 0) ∧ S.verAt c k pc = 2 * S.count c k' ∧
      (memAt memory S.calls (Region.zeroed S.zero) k pc).data c = S.held c k' := by
  rw [(S.memAt_cells k pc).2]
  rw [verAt] at heven ⊢
  have hstart := (start_cell hout c k).2
  by_cases hc : S.cell k = c
  · rw [reached]
    rw [if_pos hc, moved] at heven ⊢
    split
    · exact ⟨k, .inl rfl, rfl, hstart⟩
    · rename_i hn
      split
      · rename_i hn'
        rw [if_neg hn, if_pos hn'] at heven
        omega
      · have hfinishes : S.Finishes k ∧ S.cell k = c := ⟨by omega, hc⟩
        refine ⟨k + 1, .inr ⟨rfl, by omega⟩, ?_, ?_⟩
        · rw [count_succ, if_pos hfinishes, Nat.mul_add]
        · rw [held, if_pos hfinishes]
          subst hc
          simp [Region.written]
  · rw [if_neg hc, (S.reached_of_ne hc _).2]
    exact ⟨k, .inl rfl, rfl, hstart⟩

theorem verAt_of_steps_le (hout : ∀ k, ¬ S.Interrupted k) {c : Cell} {k pc : ℕ}
    (h : steps memory (S.calls k) (S.start k) ≤ pc) : S.verAt c k pc = 2 * S.count c (k + 1) := by
  have hlong : S.before + (W + 3) ≤ steps memory (S.script k) (S.start k) := S.long k
  rw [calls, steps_cutOff] at h
  have hk := hout k
  rw [verAt, count_succ, moved]
  by_cases hc : S.cell k = c
  · by_cases hfinishes : S.Finishes k
    · rw [if_pos hc, if_neg (by omega), if_neg (by omega), if_pos ⟨hfinishes, hc⟩, Nat.mul_add]
    · rw [if_pos hc, if_pos (by omega), if_neg (fun h => hfinishes h.1), Nat.add_zero, Nat.add_zero]
  · rw [if_neg hc, if_neg (fun h => hc h.2), Nat.add_zero, Nat.add_zero]

theorem verAt_le (hout : ∀ k, ¬ S.Interrupted k) (c : Cell) (k pc : ℕ) :
    S.verAt c k pc ≤ 2 * S.count c (k + 1) := by
  have hk := hout k
  rw [verAt, count_succ, moved]
  by_cases hc : S.cell k = c
  · rw [if_pos hc]
    by_cases hfinishes : S.Finishes k
    · rw [if_pos (show S.Finishes k ∧ S.cell k = c from ⟨hfinishes, hc⟩)]
      split
      · omega
      · split <;> omega
    · rw [if_pos (by omega)]
      omega
  · rw [if_neg hc]
    omega

end Series
end Series

section Runs
variable {H Cell : Type} [DecidableEq H] [DecidableEq Cell] {W : ℕ} {Word : Type}
variable {ι : Type} [DecidableEq ι] {A : ι → Type}
variable (S : Series H Cell W Word) (sched : ℕ → Party ι)
variable (readers : (i : ι) → Program H Cell W Word Empty (A i))

namespace Series

def states : ℕ → System (Loc H Cell W) (Val Word) (Cmd H Cell W Word) (Region H Cell W Word) ι A :=
  (System.start (Region.zeroed S.zero) readers).after memory S.calls sched

def regions (t : ℕ) : Region H Cell W Word := (S.states sched readers t).mem

def writers (t : ℕ) : Client (Loc H Cell W) (Val Word) (Cmd H Cell W Word) :=
  (S.states sched readers t).writer

def ended (w : Client (Loc H Cell W) (Val Word) (Cmd H Cell W Word)) : ℕ :=
  if w.prog.result?.isSome then w.begun else w.begun - 1

/-- Stores in the cell `c` of the calls begun by instant `ta` that had not ended at `tb`. -/
def storesWithin (c : Cell) (tb ta : ℕ) : ℕ :=
  S.count c (S.writers sched readers ta).begun - S.count c (ended (S.writers sched readers tb))

theorem regions_eq (t : ℕ) : S.regions sched readers t = memAt memory S.calls (Region.zeroed S.zero)
    ((S.writers sched readers t).begun - 1) (S.writers sched readers t).pc :=
  mem_after memory _ _ sched readers t

theorem begun_le {t t' : ℕ} (h : t ≤ t') :
    (S.writers sched readers t).begun ≤ (S.writers sched readers t').begun :=
  begun_mono memory S.calls _ sched readers h

theorem pc_eq_zero_of_begun {t : ℕ} (h : (S.writers sched readers t).begun = 0) :
    (S.writers sched readers t).pc = 0 := pc_eq_zero _ _ _ _ _ h

variable {S} (hout : ∀ k, ¬ S.Interrupted k)
include hout

theorem idle_cell {t : ℕ} (hidle : (S.writers sched readers t).prog = .ret ()) (c : Cell) :
    (S.regions sched readers t).seq c = BitVec.ofNat 32 (2 * S.count c (S.writers sched readers t).begun) ∧
      (S.regions sched readers t).data c = S.held c (S.writers sched readers t).begun := by
  rw [regions, states, mem_eq_callMem _ _ _ _ _ hidle]
  exact start_cell hout c _

def versioned (c : Cell) : Versioned (S.regions sched readers) c where
  ver t := S.verAt c ((S.writers sched readers t).begun - 1) (S.writers sched readers t).pc
  mono := by
    apply monotone_calls memory S.calls (Region.zeroed S.zero) sched readers
      (fun k pc => S.verAt c (k - 1) pc)
    · intro k pc
      exact S.verAt_mono c k (Nat.le_succ pc)
    · exact le_rfl
    · intro k pc hsteps
      exact (verAt_of_steps_le hout hsteps).le.trans (Nat.le_add_right _ _)
  seq_eq t := by
    rw [regions_eq, memAt_seq hout]
  data_eq t t' heven heq := by
    obtain ⟨k, -, hver, hdata⟩ := memAt_data hout heven
    obtain ⟨k', -, hver', hdata'⟩ := memAt_data hout (heq ▸ heven)
    rw [regions_eq, regions_eq, hdata, hdata']
    rcases le_total k k' with hle | hle
    · exact (S.held_eq_of_count_eq hle (by omega)).symm
    · exact S.held_eq_of_count_eq hle (by omega)

private theorem ver_le_count (c : Cell) (t : ℕ) :
    (versioned sched readers hout c).ver t ≤ 2 * S.count c (S.writers sched readers t).begun := by
  have hpc := pc_eq_zero_of_begun S sched readers (t := t)
  rw [versioned]
  dsimp only
  rcases Nat.eq_zero_or_pos (S.writers sched readers t).begun with hbegun | hbegun
  · rw [hpc hbegun, hbegun]
    simp [verAt, moved, count]
  · have hle := verAt_le hout c ((S.writers sched readers t).begun - 1) (S.writers sched readers t).pc
    rw [Nat.sub_add_cancel hbegun] at hle
    exact hle

private theorem count_ended_le_ver (c : Cell) (t : ℕ) :
    2 * S.count c (ended (S.writers sched readers t)) ≤ (versioned sched readers hout c).ver t := by
  rw [ended]
  split
  · rename_i hret
    obtain ⟨u, hu⟩ := Option.isSome_iff_exists.mp hret
    rcases Nat.eq_zero_or_pos (S.writers sched readers t).begun with hbegun | hbegun
    · rw [hbegun]
      exact Nat.zero_le _
    · have hsteps : steps memory (S.calls ((S.writers sched readers t).begun - 1))
          (S.start ((S.writers sched readers t).begun - 1)) ≤ (S.writers sched readers t).pc :=
        steps_le_pc memory S.calls _ sched readers (Prog.eq_ret_of_result? hu) hbegun.ne'
      have hver := verAt_of_steps_le hout (c := c) hsteps
      rw [Nat.sub_add_cancel hbegun] at hver
      exact hver.ge
  · exact Nat.le_add_right _ _

theorem ver_lt_of_storesWithin {c : Cell} {tb ta : ℕ}
    (hfew : S.storesWithin sched readers c tb ta < 2 ^ 31) :
    (versioned sched readers hout c).ver ta < (versioned sched readers hout c).ver tb + 2 ^ 32 := by
  have hta := ver_le_count sched readers hout c ta
  have htb := count_ended_le_ver sched readers hout c tb
  rw [storesWithin] at hfew
  omega

theorem cleanRead_whole {c : Cell} {log : List (Event (Loc H Cell W))} {tb ta : ℕ}
    {v : Fin W → Word} (hread : CleanRead (S.regions sched readers) c log tb ta v)
    (hfew : S.storesWithin sched readers c tb ta < 2 ^ 31) :
    v = (fun _ => S.zero) ∨
      ∃ j < (S.writers sched readers tb).begun, S.cell j = c ∧ v = S.val j := by
  obtain ⟨-, heven, hv⟩ := (versioned sched readers hout c).cleanRead hread
    (ver_lt_of_storesWithin sched readers hout hfew)
  obtain ⟨k, hk, -, hdata⟩ := memAt_data hout heven
  rw [hv, regions_eq, hdata]
  rcases S.held_cases c k with h | ⟨j, hj, hcell, h⟩
  · exact .inl h
  · have hpc := pc_eq_zero_of_begun S sched readers (t := tb)
    exact .inr ⟨j, by omega, hcell, h⟩

end Series
end Runs

end SafeShm.InterruptedStores
