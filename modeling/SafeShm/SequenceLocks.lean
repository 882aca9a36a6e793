import SafeShm.SingleWriterRuns
import Mathlib.Algebra.Group.Nat.Defs
import Mathlib.Data.List.FinRange

/-!
# Cells guarded by sequence counters

A region holds some 64-bit header words and some cells. A cell is a 32-bit counter
and `W` words of payload. A store makes the counter odd, copies the payload word by
word, and makes it even again; a read takes the counter, copies the payload, takes
the counter again, and keeps the copy if the two agree on an even value.

`Versioned` is the reason why such a copy is one stored value: the counter is the
low half of an unbounded version that never goes back, and the payload stays as it is
while the version is one even number.
-/

namespace SafeShm.SequenceLocks
open AtomicPrograms SingleWriterRuns

/-- What an atomic access may touch: a header word, a counter, or a payload word. -/
inductive Loc (H Cell : Type) (W : ℕ) where
  | header (h : H)
  | seq (c : Cell)
  | word (c : Cell) (j : Fin W)
  deriving DecidableEq

@[reducible] def Val {H Cell : Type} {W : ℕ} (Word : Type) : Loc H Cell W → Type
  | .header _ => BitVec 64
  | .seq _ => BitVec 32
  | .word _ _ => Word

/-- The stores, and the wake-up call, which leaves the region alone. -/
inductive Cmd (H Cell : Type) (W : ℕ) (Word : Type) where
  | header (h : H) (v : BitVec 64)
  | seq (c : Cell) (v : BitVec 32)
  | word (c : Cell) (j : Fin W) (w : Word)
  | wake

structure Region (H Cell : Type) (W : ℕ) (Word : Type) where
  header : H → BitVec 64
  seq : Cell → BitVec 32
  data : Cell → Fin W → Word

/-- A new segment: all header words, counters and payload words are zero. -/
def Region.zeroed {H Cell : Type} {W : ℕ} {Word : Type} (zero : Word) :
    Region H Cell W Word :=
  ⟨fun _ => 0, fun _ => 0, fun _ _ => zero⟩

abbrev Program (H Cell : Type) (W : ℕ) (Word C A : Type) :=
  Prog (Loc H Cell W) (Val Word) C A

section
variable {H Cell : Type} [DecidableEq H] [DecidableEq Cell] {W : ℕ} {Word : Type}

def memory : Memory (Loc H Cell W) (Val Word) (Cmd H Cell W Word) (Region H Cell W Word) where
  read r
    | .header h => r.header h
    | .seq c => r.seq c
    | .word c j => r.data c j
  write r
    | .header h v => { r with header := Function.update r.header h v }
    | .seq c v => { r with seq := Function.update r.seq c v }
    | .word c j w => { r with data := Function.update r.data c (Function.update (r.data c) j w) }
    | .wake => r

end

section Programs
variable {H Cell : Type} {W : ℕ} {Word C : Type}

def loadHeader (h : H) : Program H Cell W Word C (BitVec 64) := .load (.header h) .ret

def loadSeq (c : Cell) : Program H Cell W Word C (BitVec 32) := .load (.seq c) .ret

def loadWord (c : Cell) (j : Fin W) : Program H Cell W Word C Word := .load (.word c j) .ret

def issue (cmd : Cmd H Cell W Word) : Program H Cell W Word (Cmd H Cell W Word) Unit :=
  .store cmd (.ret ())

/-- `memcpy` of the payload `v` into the cell. -/
def copyIn (c : Cell) (v : Fin W → Word) :
    List (Fin W) → Program H Cell W Word (Cmd H Cell W Word) Unit
  | [] => pure ()
  | j :: js => do
      issue (.word c j (v j))
      copyIn c v js

/-- `memcpy` of the cell's payload into the local variable `result`. -/
def copyOut (c : Cell) : List (Fin W) → (Fin W → Word) → Program H Cell W Word C (Fin W → Word)
  | [], result => pure result
  | j :: js, result => do
      let w ← loadWord c j
      copyOut c js (Function.update result j w)

/-- Store `v` in a cell: odd counter, payload, even counter. -/
def lockedStore (c : Cell) (v : Fin W → Word) :
    Program H Cell W Word (Cmd H Cell W Word) Unit := do
  let cur ← loadSeq c
  issue (.seq c (cur + 1))
  copyIn c v (List.finRange W)
  issue (.seq c (cur + 2))

/-- One attempt to read a cell into the local variable `result`. -/
def readAttempt (c : Cell) (result : Fin W → Word) :
    Program H Cell W Word C (Bool × (Fin W → Word)) := do
  let before ← loadSeq c
  if before &&& 1 ≠ 0 then
    return (false, result) -- write in progress
  let result ← copyOut c (List.finRange W) result
  let after ← loadSeq c
  return (before == after, result)

/-- Read a cell, retrying for ever; `fuel` bounds the attempts followed. -/
def spinRead : ℕ → Cell → (Fin W → Word) → Program H Cell W Word C (Fin W → Word)
  | 0, _, _ => .spin
  | fuel + 1, c, result => do
      let (done, result) ← readAttempt c result
      if done then return result
      spinRead fuel c result

end Programs

section Stores
variable {H Cell : Type} [DecidableEq H] [DecidableEq Cell] {W : ℕ} {Word B : Type}

/-- The region while `v` is being stored in `c`, `j` words of it already copied. -/
def Region.writing (r : Region H Cell W Word) (c : Cell) (v : Fin W → Word) (j : ℕ) :
    Region H Cell W Word :=
  { r with
    seq := Function.update r.seq c (r.seq c + 1)
    data := Function.update r.data c (fun i => if i.val < j then v i else r.data c i) }

def Region.written (r : Region H Cell W Word) (c : Cell) (v : Fin W → Word) :
    Region H Cell W Word :=
  { r with
    seq := Function.update r.seq c (r.seq c + 2)
    data := Function.update r.data c v }

private theorem writing_succ (r : Region H Cell W Word) (c : Cell) (v : Fin W → Word)
    (j : Fin W) :
    memory.write (r.writing c v j) (.word c j (v j)) = r.writing c v (j + 1) := by
  simp only [memory, Region.writing, Function.update_self, Function.update_idem]
  congr 2
  funext i
  by_cases hi : i = j
  · simp [hi]
  · have hne : (i : ℕ) ≠ j := fun h => hi (Fin.ext h)
    simp only [Function.update_of_ne hi]
    congr 1
    exact propext (by omega)

private theorem iterate_copyIn (r : Region H Cell W Word) (c : Cell) (v : Fin W → Word)
    (g : Unit → Program H Cell W Word (Cmd H Cell W Word) B) {j : ℕ} (hj : j ≤ W) :
    (soloStep memory)^[j] (r.writing c v 0, copyIn c v (List.finRange W) >>= g) =
      (r.writing c v j, copyIn c v ((List.finRange W).drop j) >>= g) := by
  induction j with
  | zero => simp
  | succ j ih =>
    rw [Function.iterate_succ_apply', ih (by omega),
      List.drop_eq_getElem_cons (by rw [List.length_finRange]; omega)]
    simp only [copyIn, issue, Prog.store_bind, Prog.ret_bind, soloStep,
      List.getElem_finRange, Fin.cast_mk]
    rw [writing_succ r c v ⟨j, hj⟩]

private theorem written_eq (r : Region H Cell W Word) (c : Cell) (v : Fin W → Word) :
    memory.write (r.writing c v W) (.seq c (r.seq c + 2)) = r.written c v := by
  simp [memory, Region.writing, Region.written]

private theorem iterate_begin (r : Region H Cell W Word) (c : Cell) (v : Fin W → Word)
    (f : Unit → Program H Cell W Word (Cmd H Cell W Word) B) :
    (soloStep memory)^[2] (r, lockedStore c v >>= f) =
      (r.writing c v 0, copyIn c v (List.finRange W) >>= fun _ =>
        issue (.seq c (r.seq c + 2)) >>= f) := by
  simp [lockedStore, loadSeq, issue, soloStep, memory, Region.writing]

theorem iterate_lockedStore (r : Region H Cell W Word) (c : Cell) (v : Fin W → Word)
    (f : Unit → Program H Cell W Word (Cmd H Cell W Word) B) {k : ℕ} (hk : k ≤ W + 2) :
    ((soloStep memory)^[k] (r, lockedStore c v >>= f)).1 =
      if k < 2 then r else r.writing c v (k - 2) := by
  match k with
  | 0 => rfl
  | 1 => rfl
  | j + 2 =>
    rw [Function.iterate_add_apply, iterate_begin, iterate_copyIn r c v _ (by omega)]
    simp

theorem iterate_lockedStore_end (r : Region H Cell W Word) (c : Cell) (v : Fin W → Word)
    (f : Unit → Program H Cell W Word (Cmd H Cell W Word) B) :
    (soloStep memory)^[W + 3] (r, lockedStore c v >>= f) = (r.written c v, f ()) := by
  have hdrop : (List.finRange W).drop W = [] := by simp
  rw [show W + 3 = (1 + W) + 2 by omega, Function.iterate_add_apply, iterate_begin,
    Function.iterate_add_apply, iterate_copyIn r c v _ le_rfl]
  simp only [hdrop, copyIn, issue, Prog.pure_eq, Prog.ret_bind, Prog.store_bind,
    Function.iterate_one, soloStep]
  rw [written_eq]

end Stores

section Reads
variable {H Cell : Type} [DecidableEq H] [DecidableEq Cell] {W : ℕ} {Word : Type}
variable {σ : ℕ → Region H Cell W Word}

def OfCell (c : Cell) : Loc H Cell W → Prop
  | .header _ => False
  | .seq c' => c' = c
  | .word c' _ => c' = c

omit [DecidableEq H] [DecidableEq Cell] in
private theorem loadsIn_copyOut (c : Cell) (js : List (Fin W)) (result : Fin W → Word) :
    (copyOut c js result : Program H Cell W Word Empty _).LoadsIn (OfCell c) := by
  induction js generalizing result with
  | nil => trivial
  | cons j js ih =>
    rw [copyOut]
    apply Prog.LoadsIn.bind
    · exact ⟨rfl, fun _ => trivial⟩
    · intro w
      exact ih _

omit [DecidableEq H] [DecidableEq Cell] in
theorem loadsIn_readAttempt (c : Cell) (result : Fin W → Word) :
    (readAttempt c result : Program H Cell W Word Empty _).LoadsIn (OfCell c) := by
  have hseq : (loadSeq c : Program H Cell W Word Empty _).LoadsIn (OfCell c) :=
    ⟨rfl, fun _ => trivial⟩
  rw [readAttempt]
  apply hseq.bind
  intro before
  split
  · trivial
  · apply (loadsIn_copyOut c _ result).bind
    intro copy
    apply hseq.bind
    intro after
    trivial

omit [DecidableEq H] [DecidableEq Cell] in
theorem loadsIn_spinRead (fuel : ℕ) (c : Cell) (result : Fin W → Word) :
    (spinRead fuel c result : Program H Cell W Word Empty _).LoadsIn (OfCell c) := by
  induction fuel generalizing result with
  | zero => trivial
  | succ fuel ih =>
    rw [spinRead]
    apply (loadsIn_readAttempt c result).bind
    intro x
    obtain ⟨done, copy⟩ := x
    cases done with
    | true => trivial
    | false => exact ih copy

private theorem run_copyOut (r : Region H Cell W Word) (c : Cell) (js : List (Fin W))
    (result : Fin W → Word) : (copyOut c js result).run (memory.read r) =
      some (fun j => if j ∈ js then r.data c j else result j) := by
  induction js generalizing result with
  | nil => simp [copyOut]
  | cons j js ih =>
    simp only [copyOut, loadWord, Prog.load_bind, Prog.ret_bind, Prog.run_load, ih]
    congr 1
    funext i
    by_cases hi : i ∈ js
    · simp [hi]
    · by_cases hij : i = j
      · subst hij
        simp [hi, memory]
      · simp [hi, hij]

/-- On a region that nobody changes, the first attempt on a cell with an even counter
succeeds. -/
theorem run_readAttempt {r : Region H Cell W Word} {c : Cell} (h : r.seq c &&& 1 = 0)
    (result : Fin W → Word) :
    (readAttempt c result).run (memory.read r) = some (true, r.data c) := by
  have hseq : memory.read r (.seq c) = r.seq c := rfl
  simp only [readAttempt, loadSeq, Prog.load_bind, Prog.ret_bind, Prog.run_load, hseq]
  rw [if_neg (not_not_intro h)]
  simp [run_copyOut, hseq]

theorem run_spinRead {r : Region H Cell W Word} {c : Cell} (h : r.seq c &&& 1 = 0) (fuel : ℕ)
    (result : Fin W → Word) :
    (spinRead (fuel + 1) c result).run (memory.read r) = some (r.data c) := by
  simp [spinRead, run_readAttempt h]

theorem run_spinRead_odd {r : Region H Cell W Word} {c : Cell} (h : r.seq c &&& 1 ≠ 0) (fuel : ℕ)
    (result : Fin W → Word) : (spinRead fuel c result).run (memory.read r) = none := by
  have hseq : memory.read r (.seq c) = r.seq c := rfl
  induction fuel with
  | zero => rfl
  | succ fuel ih =>
    simp only [spinRead, readAttempt, loadSeq, Prog.load_bind, Prog.ret_bind, Prog.run_load, hseq]
    rw [if_pos h]
    exact ih

/-- In `log`, an attempt on the cell `c` takes the counter at `tb`, copies the whole
payload, and takes the counter again at `ta`. -/
def Attempt (c : Cell) (log : List (Event (Loc H Cell W))) (tb ta : ℕ) : Prop :=
  ∃ front words back, log = front ++ ⟨tb, .seq c⟩ :: (words ++ ⟨ta, .seq c⟩ :: back) ∧
    words.map Event.loc = (List.finRange W).map (.word c)

omit [DecidableEq H] [DecidableEq Cell] in
theorem Attempt.of_infix {c : Cell} {log log' : List (Event (Loc H Cell W))} {tb ta : ℕ}
    (h : Attempt c log tb ta) (hlog : log <:+: log') : Attempt c log' tb ta := by
  obtain ⟨front, words, back, rfl, hwords⟩ := h
  obtain ⟨front', back', rfl⟩ := hlog
  exact ⟨front' ++ front, words, back ++ back', by simp, hwords⟩

omit [DecidableEq H] [DecidableEq Cell] in
theorem Attempt.mem_log {c : Cell} {log : List (Event (Loc H Cell W))} {tb ta : ℕ}
    (h : Attempt c log tb ta) : ⟨tb, .seq c⟩ ∈ log ∧ ⟨ta, .seq c⟩ ∈ log := by
  obtain ⟨front, words, back, rfl, -⟩ := h
  simp

/-- What a successful attempt saw: an even counter, the same counter again at the end
of the log, and in between each word of the copy `v`. -/
structure CleanRead (σ : ℕ → Region H Cell W Word) (c : Cell)
    (log : List (Event (Loc H Cell W))) (tb ta : ℕ) (v : Fin W → Word) : Prop where
  attempt : Attempt c log tb ta
  last : log.getLast? = some ⟨ta, .seq c⟩
  le : tb ≤ ta
  even : (σ tb).seq c &&& 1 = 0
  same : (σ tb).seq c = (σ ta).seq c
  words : ∀ j, ∃ t, tb ≤ t ∧ t ≤ ta ∧ v j = (σ t).data c j

omit [DecidableEq H] [DecidableEq Cell] in
theorem CleanRead.append_left {c : Cell} {log : List (Event (Loc H Cell W))} {tb ta : ℕ}
    {v : Fin W → Word} (h : CleanRead σ c log tb ta v) (front : List (Event (Loc H Cell W))) :
    CleanRead σ c (front ++ log) tb ta v :=
  { h with
    attempt := h.attempt.of_infix (List.suffix_append front log).isInfix
    last := by simp [List.getLast?_append, h.last] }

omit [DecidableEq H] [DecidableEq Cell] in
theorem CleanRead.eq_of_last {c : Cell} {log : List (Event (Loc H Cell W))} {tb ta t : ℕ}
    {v : Fin W → Word} {l : Loc H Cell W} (h : CleanRead σ c log tb ta v)
    (hlast : log.getLast? = some ⟨t, l⟩) : ta = t := by
  have heq := h.last.symm.trans hlast
  simp only [Option.some.injEq, Event.mk.injEq] at heq
  exact heq.1

theorem exec_loadHeader {s b : ℕ} {h : H} {log : List (Event (Loc H Cell W))} {w : BitVec 64} :
    Exec memory.read σ s (loadHeader h) log b w ↔
      ∃ t, log = [⟨t, .header h⟩] ∧ s ≤ t ∧ t < b ∧ (σ t).header h = w := by
  simp only [loadHeader, exec_load, exec_ret]
  constructor
  · rintro ⟨t, _, rfl, hs, rfl, hb, rfl⟩
    exact ⟨t, rfl, hs, hb, rfl⟩
  · rintro ⟨t, rfl, hs, hb, rfl⟩
    exact ⟨t, [], rfl, hs, rfl, hb, rfl⟩

theorem exec_loadSeq {s b : ℕ} {c : Cell} {log : List (Event (Loc H Cell W))} {q : BitVec 32} :
    Exec memory.read σ s (loadSeq c) log b q ↔
      ∃ t, log = [⟨t, .seq c⟩] ∧ s ≤ t ∧ t < b ∧ (σ t).seq c = q := by
  simp only [loadSeq, exec_load, exec_ret]
  constructor
  · rintro ⟨t, _, rfl, hs, rfl, hb, rfl⟩
    exact ⟨t, rfl, hs, hb, rfl⟩
  · rintro ⟨t, rfl, hs, hb, rfl⟩
    exact ⟨t, [], rfl, hs, rfl, hb, rfl⟩

/-- The copy is word for word what the cell held at the instants of the loads. -/
theorem exec_copyOut {s b : ℕ} {c : Cell} {js : List (Fin W)} {result v : Fin W → Word}
    {log : List (Event (Loc H Cell W))}
    (h : Exec memory.read σ s (copyOut c js result) log b v) :
    log.map Event.loc = js.map (.word c) ∧
      (∀ j ∈ js, ∃ t, s ≤ t ∧ t < b ∧ v j = (σ t).data c j) ∧ ∀ j ∉ js, v j = result j := by
  induction js generalizing s result log with
  | nil =>
    obtain ⟨rfl, -, rfl⟩ := exec_ret.mp h
    simp
  | cons j js ih =>
    simp only [copyOut, loadWord, Prog.load_bind, Prog.ret_bind] at h
    obtain ⟨t, tail, rfl, hs, htail⟩ := exec_load.mp h
    obtain ⟨hmap, hin, hout⟩ := ih htail
    have hb := htail.le
    refine ⟨by simp [hmap], ?_, ?_⟩
    · intro i hi
      by_cases hjs : i ∈ js
      · obtain ⟨t', ht', hb', hv⟩ := hin i hjs
        exact ⟨t', by omega, hb', hv⟩
      · obtain rfl : i = j := by simpa [hjs] using hi
        refine ⟨t, hs, hb, ?_⟩
        rw [hout i hjs, Function.update_self]
        rfl
    · intro i hi
      obtain ⟨hij, hjs⟩ := not_or.mp (mt List.mem_cons.mpr hi)
      rw [hout i hjs, Function.update_of_ne hij]

theorem exec_readAttempt {s b : ℕ} {c : Cell} {result v : Fin W → Word}
    {log : List (Event (Loc H Cell W))}
    (h : Exec memory.read σ s (readAttempt c result) log b (true, v)) :
    ∃ tb ta, CleanRead σ c log tb ta v := by
  obtain ⟨before, m, log₁, log₂, rfl, h₁, h₂⟩ := exec_bind.mp h
  obtain ⟨tb, rfl, hs, hm, rfl⟩ := exec_loadSeq.mp h₁
  split at h₂
  · obtain ⟨-, -, hfalse⟩ := exec_ret.mp h₂
    simp at hfalse
  · rename_i heven
    obtain ⟨copy, m', log₃, log₄, rfl, h₃, h₄⟩ := exec_bind.mp h₂
    obtain ⟨after, m'', log₅, log₆, rfl, h₅, h₆⟩ := exec_bind.mp h₄
    obtain ⟨ta, rfl, hs', hm', rfl⟩ := exec_loadSeq.mp h₅
    obtain ⟨rfl, hb, heq⟩ := exec_ret.mp h₆
    obtain ⟨hsame, rfl⟩ := Prod.mk.inj heq
    obtain ⟨hmap, hin, -⟩ := exec_copyOut h₃
    have hle := h₃.le
    refine ⟨tb, ta, ⟨[], log₃, [], by simp, hmap⟩, ?_, by omega, by simpa using heven,
      by simpa using hsame, fun j => ?_⟩
    · rw [List.append_nil, ← List.append_assoc]
      exact List.getLast?_concat
    · obtain ⟨t, ht, ht', hv⟩ := hin j (List.mem_finRange j)
      exact ⟨t, by omega, by omega, hv⟩

/-- A read that returns has made a successful attempt, and nothing after it. -/
theorem exec_spinRead {fuel s b : ℕ} {c : Cell} {result v : Fin W → Word}
    {log : List (Event (Loc H Cell W))}
    (h : Exec memory.read σ s (spinRead fuel c result) log b v) :
    ∃ tb ta, CleanRead σ c log tb ta v := by
  induction fuel generalizing s result log with
  | zero => exact absurd h not_exec_spin
  | succ fuel ih =>
    obtain ⟨⟨done, copy⟩, m, log₁, log₂, rfl, h₁, h₂⟩ := exec_bind.mp h
    cases done with
    | true =>
      obtain ⟨rfl, -, rfl⟩ := exec_ret.mp h₂
      simpa using exec_readAttempt h₁
    | false =>
      obtain ⟨tb, ta, hread⟩ := ih h₂
      exact ⟨tb, ta, hread.append_left log₁⟩

end Reads

theorem ofNat_two_mul_and_one (n : ℕ) : BitVec.ofNat 32 (2 * n) &&& 1 = 0 := by
  apply BitVec.eq_of_toNat_eq
  simp [BitVec.toNat_and]

/-- The history of a cell under one writer: an unbounded version that never goes back,
whose low 32 bits are the counter, and that fixes the payload while it is even. -/
structure Versioned {H Cell : Type} {W : ℕ} {Word : Type} (σ : ℕ → Region H Cell W Word)
    (c : Cell) where
  ver : ℕ → ℕ
  mono : Monotone ver
  seq_eq : ∀ t, (σ t).seq c = BitVec.ofNat 32 (ver t)
  data_eq : ∀ t t', ver t % 2 = 0 → ver t' = ver t → (σ t').data c = (σ t).data c

namespace Versioned
variable {H Cell : Type} {W : ℕ} {Word : Type} {σ : ℕ → Region H Cell W Word} {c : Cell}
variable {log : List (Event (Loc H Cell W))} {tb ta : ℕ} {v : Fin W → Word}

theorem even_of_and_one {n : ℕ} (h : BitVec.ofNat 32 n &&& 1 = 0) : n % 2 = 0 := by
  have hn := congrArg BitVec.toNat h
  simp at hn
  omega

theorem eq_of_ofNat {n m : ℕ} (h : BitVec.ofNat 32 n = BitVec.ofNat 32 m)
    (hle : n ≤ m) (hlt : m < n + 2 ^ 32) : m = n := by
  have hn := congrArg BitVec.toNat h
  simp only [BitVec.toNat_ofNat] at hn
  omega

/-- If the counter is the same even value at `tb` and `ta` and the version moved by less than
`2 ^ 32` in between, it did not move at all, and words copied in between are those of the payload
that the cell held at `tb`. -/
theorem copied (h : Versioned σ c) (hle : tb ≤ ta) (heven : (σ tb).seq c &&& 1 = 0)
    (hsame : (σ tb).seq c = (σ ta).seq c)
    (hwords : ∀ j, ∃ t, tb ≤ t ∧ t ≤ ta ∧ v j = (σ t).data c j)
    (hfew : h.ver ta < h.ver tb + 2 ^ 32) :
    h.ver ta = h.ver tb ∧ h.ver tb % 2 = 0 ∧ v = (σ tb).data c := by
  rw [h.seq_eq] at heven
  rw [h.seq_eq, h.seq_eq] at hsame
  have hta := eq_of_ofNat hsame (h.mono hle) hfew
  have hev := even_of_and_one heven
  refine ⟨hta, hev, ?_⟩
  funext j
  obtain ⟨t, hbt, hat, hv⟩ := hwords j
  have ht : h.ver t = h.ver tb := le_antisymm ((h.mono hat).trans hta.le) (h.mono hbt)
  rw [hv, h.data_eq tb t hev ht]

theorem cleanRead (h : Versioned σ c) (hread : CleanRead σ c log tb ta v)
    (hfew : h.ver ta < h.ver tb + 2 ^ 32) :
    h.ver ta = h.ver tb ∧ h.ver tb % 2 = 0 ∧ v = (σ tb).data c :=
  h.copied hread.le hread.even hread.same hread.words hfew

end Versioned

end SafeShm.SequenceLocks
