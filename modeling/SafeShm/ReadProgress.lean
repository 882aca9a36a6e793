import SafeShm.SequenceLocks
import Mathlib.Data.List.Infix

/-!
# How long a read takes

A read of a counted cell is retried for ever, so that it is delayed by whoever makes the counter
odd or changes it. The delay is bounded by the disturbance: of the turns of a reader that has not
returned, those not lost to an odd counter are at most the loads of one attempt for every time that
the counter was made odd, and of one more (`spinRead_returns`).
-/

namespace SafeShm.SingleWriterRuns
open AtomicPrograms

variable {L : Type} {V : L → Type} {C M B : Type}

section Turns
variable {ι : Type} [DecidableEq ι] {A : ι → Type}

/-- The instants from `a` on and before `b` at which reader `i` has its turn. -/
def turnsOf (sched : ℕ → Party ι) (i : ι) (a b : ℕ) : List ℕ :=
  (List.range' a (b - a)).filter (fun t => sched t = .reader i)

/-- What is left of a program after a load at each of the given instants. -/
def afterTurns (mem : Memory L V C M) (σ : ℕ → M) (ts : List ℕ) (p : Prog L V Empty B) :
    Prog L V Empty B :=
  ts.foldl (fun p t => readerStep mem (σ t) p) p

variable {sched : ℕ → Party ι} {i : ι} {a b : ℕ}

theorem turnsOf_succ (hab : a ≤ b) : turnsOf sched i a (b + 1) =
    if sched b = .reader i then turnsOf sched i a b ++ [b] else turnsOf sched i a b := by
  rw [turnsOf, turnsOf, show b + 1 - a = b - a + 1 by omega, List.range'_1_concat,
    List.filter_append, show a + (b - a) = b by omega]
  by_cases h : sched b = .reader i <;> simp [h]

theorem mem_turnsOf {t : ℕ} (h : t ∈ turnsOf sched i a b) : a ≤ t ∧ t < b := by
  have hrange := List.mem_range'_1.mp (List.mem_of_mem_filter h)
  omega

theorem pairwise_turnsOf : (turnsOf sched i a b).Pairwise (· < ·) := by
  apply List.Pairwise.filter
  exact List.pairwise_lt_range'

theorem exists_turnsOf_eq (hab : a ≤ b) {ts : List ℕ} (h : ts <+: turnsOf sched i a b) :
    ∃ t, a ≤ t ∧ t ≤ b ∧ turnsOf sched i a t = ts := by
  induction b, hab using Nat.le_induction with
  | base =>
    have hnil : turnsOf sched i a a = [] := by simp [turnsOf]
    rw [hnil, List.prefix_nil] at h
    exact ⟨a, le_rfl, le_rfl, hnil.trans h.symm⟩
  | succ b hab ih =>
    rw [turnsOf_succ hab] at h
    split at h
    · rename_i hturn
      rcases List.prefix_concat_iff.mp h with rfl | hprefix
      · refine ⟨b + 1, by omega, le_rfl, ?_⟩
        rw [turnsOf_succ hab, if_pos hturn]
      · obtain ⟨t, hat, htb, heq⟩ := ih hprefix
        exact ⟨t, hat, by omega, heq⟩
    · obtain ⟨t, hat, htb, heq⟩ := ih h
      exact ⟨t, hat, by omega, heq⟩

/-- The program of a reader at instant `b` is what its turns have left of the one at instant
`a`. -/
theorem reader_afterTurns {mem : Memory L V C M} {script : ℕ → Prog L V C Unit}
    (s : System L V C M ι A) (hab : a ≤ b) : (s.after mem script sched b).reader i =
      afterTurns mem (fun t => (s.after mem script sched t).mem) (turnsOf sched i a b)
        ((s.after mem script sched a).reader i) := by
  induction b, hab using Nat.le_induction with
  | base => simp [turnsOf, afterTurns]
  | succ b hab ih =>
    rw [reader_step, turnsOf_succ hab, ih]
    by_cases hturn : sched b = .reader i
    · rw [if_pos hturn, if_pos hturn, afterTurns, afterTurns, List.foldl_append]
      rfl
    · rw [if_neg hturn, if_neg hturn]

end Turns

variable {mem : Memory L V C M} {σ : ℕ → M}

theorem afterTurns_append (ts ts' : List ℕ) (p : Prog L V Empty B) :
    afterTurns mem σ (ts ++ ts') p = afterTurns mem σ ts' (afterTurns mem σ ts p) :=
  List.foldl_append ..

theorem afterTurns_load (t : ℕ) (ts : List ℕ) (l : L) (next : V l → Prog L V Empty B) :
    afterTurns mem σ (t :: ts) (.load l next) = afterTurns mem σ ts (next (mem.read (σ t) l)) :=
  rfl

theorem afterTurns_ret (ts : List ℕ) (v : B) :
    afterTurns mem σ ts (.ret v) = (.ret v : Prog L V Empty B) := by
  induction ts with
  | nil => rfl
  | cons t ts ih => exact ih

theorem afterTurns_spin (ts : List ℕ) :
    afterTurns mem σ ts .spin = (.spin : Prog L V Empty B) := by
  induction ts with
  | nil => rfl
  | cons t ts ih => exact ih

theorem exists_prefix_bind {D : Type} {ts : List ℕ} {p : Prog L V Empty B} {v : B}
    (h : afterTurns mem σ ts p = .ret v) (k : B → Prog L V Empty D) :
    ∃ ts', ts' <+: ts ∧ afterTurns mem σ ts' p = .ret v ∧ afterTurns mem σ ts' (p >>= k) = k v := by
  induction ts generalizing p with
  | nil =>
    obtain rfl : p = .ret v := h
    exact ⟨[], List.nil_prefix, rfl, rfl⟩
  | cons t ts ih =>
    cases p with
    | ret w =>
      rw [afterTurns_ret] at h
      cases h
      exact ⟨[], List.nil_prefix, rfl, rfl⟩
    | load l next =>
      obtain ⟨ts', hprefix, hret, hbind⟩ := ih h
      exact ⟨t :: ts', List.cons_prefix_cons.mpr ⟨rfl, hprefix⟩, hret, hbind⟩
    | store c => exact nomatch c
    | spin =>
      rw [afterTurns_spin] at h
      cases h

theorem afterTurns_map {D : Type} {ts : List ℕ} {p : Prog L V Empty B} {v : B}
    (h : afterTurns mem σ ts p = .ret v) (f : B → D) :
    afterTurns mem σ ts (p >>= fun v => .ret (f v)) = .ret (f v) := by
  obtain ⟨ts', hprefix, -, hbind⟩ := exists_prefix_bind h (fun v => .ret (f v))
  obtain ⟨later, rfl⟩ := hprefix
  rw [afterTurns_append, hbind, afterTurns_ret]

/-- The turns after which a program has returned are an execution of it, and the first ones of
them are its loads. -/
theorem exec_of_afterTurns {ts : List ℕ} {p : Prog L V Empty B} {v : B} {a b : ℕ} (hab : a ≤ b)
    (h : afterTurns mem σ ts p = .ret v) (hsorted : ts.Pairwise (· < ·))
    (hbounds : ∀ t ∈ ts, a ≤ t ∧ t < b) :
    ∃ log, Exec mem.read σ a p log b v ∧ log.map Event.time <+: ts := by
  induction ts generalizing p a with
  | nil =>
    obtain rfl : p = .ret v := h
    exact ⟨[], .ret v hab, List.nil_prefix⟩
  | cons t ts ih =>
    obtain ⟨hlater, hsorted'⟩ := List.pairwise_cons.mp hsorted
    have ht := hbounds t List.mem_cons_self
    cases p with
    | ret w =>
      rw [afterTurns_ret] at h
      cases h
      exact ⟨[], .ret v hab, List.nil_prefix⟩
    | load l next =>
      obtain ⟨log, hlog, hprefix⟩ := ih (Nat.succ_le_of_lt ht.2) h hsorted' (fun t' ht' =>
        ⟨hlater t' ht', (hbounds t' (List.mem_cons_of_mem t ht')).2⟩)
      exact ⟨⟨t, l⟩ :: log, .load ht.1 hlog, List.cons_prefix_cons.mpr ⟨rfl, hprefix⟩⟩
    | store c => exact nomatch c
    | spin =>
      rw [afterTurns_spin] at h
      cases h

/-- A reader whose turns end the first part of its program comes to the second part, and has
executed the first one. -/
theorem exists_returned {ι : Type} [DecidableEq ι] {A : ι → Type} {script : ℕ → Prog L V C Unit}
    {sched : ℕ → Party ι} {s : System L V C M ι A} {i : ι} {a b : ℕ} (hab : a ≤ b)
    {p : Prog L V Empty B} {k : B → Prog L V Empty (A i)} {v : B}
    (hprog : (s.after mem script sched a).reader i = p >>= k)
    (h : afterTurns mem (fun t => (s.after mem script sched t).mem) (turnsOf sched i a b) p =
      .ret v) :
    ∃ t log, a ≤ t ∧ t ≤ b ∧ (s.after mem script sched t).reader i = k v ∧
      Exec mem.read (fun t => (s.after mem script sched t).mem) a p log t v ∧
      log.map Event.time <+: turnsOf sched i a b := by
  obtain ⟨ts, hprefix, hret, hbind⟩ := exists_prefix_bind h k
  obtain ⟨t, hat, htb, rfl⟩ := exists_turnsOf_eq hab hprefix
  obtain ⟨log, hlog, htimes⟩ := exec_of_afterTurns hat hret pairwise_turnsOf (fun t' => mem_turnsOf)
  refine ⟨t, log, hat, htb, ?_, hlog, htimes.trans hprefix⟩
  rw [reader_afterTurns s hat, hprog, hbind]

end SafeShm.SingleWriterRuns

namespace SafeShm.SequenceLocks
open AtomicPrograms SingleWriterRuns

variable {H Cell : Type} [DecidableEq H] [DecidableEq Cell] {W : ℕ} {Word : Type}
variable {σ : ℕ → Region H Cell W Word} {c : Cell}

private theorem afterTurns_copyOut (σ : ℕ → Region H Cell W Word) (c : Cell) {js : List (Fin W)}
    {ts : List ℕ} (h : ts.length = js.length) (result : Fin W → Word)
    (k : (Fin W → Word) → Program H Cell W Word Empty (Fin W → Word)) :
    ∃ copy, afterTurns memory σ ts (copyOut c js result >>= k) = k copy := by
  induction js generalizing ts result with
  | nil =>
    obtain rfl := List.length_eq_zero_iff.mp h
    exact ⟨result, rfl⟩
  | cons j js ih =>
    cases ts with
    | nil => simp at h
    | cons t ts =>
      have hlength : ts.length = js.length := Nat.succ.inj h
      obtain ⟨copy, hcopy⟩ := ih hlength (Function.update result j ((σ t).data c j))
      exact ⟨copy, hcopy⟩

namespace Versioned

def opened (h : Versioned σ c) (t : ℕ) : ℕ := (h.ver t + 1) / 2

omit [DecidableEq H] [DecidableEq Cell] in
theorem opened_mono (h : Versioned σ c) : Monotone h.opened := by
  intro t t' hle
  have hver := h.mono hle
  rw [opened, opened]
  omega

omit [DecidableEq H] [DecidableEq Cell] in
/-- Between two different values of the counter of which the first is even, the counter has been
made odd. -/
theorem opened_lt (h : Versioned σ c) {t t' : ℕ} (hle : t ≤ t') (heven : (σ t).seq c &&& 1 = 0)
    (hne : (σ t).seq c ≠ (σ t').seq c) : h.opened t < h.opened t' := by
  have hver := h.mono hle
  have hparity : h.ver t % 2 = 0 := by
    rw [h.seq_eq] at heven
    have hval := congrArg BitVec.toNat heven
    simp at hval
    omega
  have hlt : h.ver t ≠ h.ver t' := by
    intro heq
    exact hne (by rw [h.seq_eq, h.seq_eq, heq])
  rw [opened, opened]
  omega

end Versioned

def oddAt (σ : ℕ → Region H Cell W Word) (c : Cell) (t : ℕ) : Bool := (σ t).seq c &&& 1 ≠ 0

omit [DecidableEq H] [DecidableEq Cell] in
theorem Versioned.oddAt_eq (h : Versioned σ c) (t : ℕ) : oddAt σ c t = decide (h.ver t % 2 = 1) := by
  rw [oddAt, h.seq_eq, decide_eq_decide, ← BitVec.toNat_inj.ne]
  simp

private theorem attempt_odd {t : ℕ} (h : oddAt σ c t) (fuel : ℕ) (result : Fin W → Word) :
    afterTurns memory σ [t] (spinRead (fuel + 1) c result) = spinRead fuel c result := by
  have hodd : (σ t).seq c &&& 1 ≠ 0 := by simpa [oddAt] using h
  simp only [spinRead, readAttempt, loadSeq, Prog.load_bind, Prog.ret_bind]
  rw [afterTurns_load, show memory.read (σ t) (.seq c) = (σ t).seq c from rfl, if_pos hodd]
  rfl

private theorem attempt_even {t : ℕ} {ts : List ℕ} (h : ¬ oddAt σ c t) (hts : ts.length = W)
    (t' fuel : ℕ) (result : Fin W → Word) :
    ∃ copy, afterTurns memory σ (t :: (ts ++ [t'])) (spinRead (fuel + 1) c result) =
      if (σ t).seq c = (σ t').seq c then .ret copy else spinRead fuel c copy := by
  have heven : ¬ (σ t).seq c &&& 1 ≠ 0 := by simpa [oddAt] using h
  simp only [spinRead, readAttempt, loadSeq, Prog.load_bind, Prog.ret_bind]
  rw [afterTurns_load, show memory.read (σ t) (.seq c) = (σ t).seq c from rfl, if_neg heven,
    afterTurns_append]
  simp only [Prog.load_bind, Prog.ret_bind, bind_assoc, Prog.pure_eq]
  have hjs : ts.length = (List.finRange W).length := by simpa using hts
  obtain ⟨copy, hcopy⟩ := afterTurns_copyOut σ c hjs result (fun v =>
    Prog.load (.seq c) fun after =>
      if ((σ t).seq c == after) = true then Prog.ret v else spinRead fuel c v)
  refine ⟨copy, ?_⟩
  rw [hcopy, afterTurns_load, show memory.read (σ t') (.seq c) = (σ t').seq c from rfl]
  by_cases hsame : (σ t).seq c = (σ t').seq c
  · simp only [hsame, beq_self_eq_true, if_true]
    rfl
  · simp only [hsame, beq_eq_false_iff_ne.mpr hsame, Bool.false_eq_true, if_false]
    rfl

/-- Of the turns of a reader in a cell that are more than those at an odd counter, than the loads
of one attempt for every time that the counter was made odd, and than those of one more attempt
but one, the first ones end the read. -/
theorem spinRead_returns (h : Versioned σ c) {fuel : ℕ} {result : Fin W → Word} {ts : List ℕ} {a b : ℕ}
    (hsorted : ts.Pairwise (· < ·)) (hbounds : ∀ t ∈ ts, a ≤ t ∧ t < b)
    (hfuel : ts.length ≤ fuel)
    (hlong : ts.countP (oddAt σ c) + (W + 2) * (h.opened b - h.opened a) + (W + 1) < ts.length) :
    ∃ v, afterTurns memory σ ts (spinRead fuel c result) = .ret v := by
  induction fuel generalizing result ts a with
  | zero => omega
  | succ fuel ih =>
    cases ts with
    | nil => simp at hlong
    | cons t rest =>
      obtain ⟨hlater, hsorted'⟩ := List.pairwise_cons.mp hsorted
      have ht := hbounds t List.mem_cons_self
      have hbounds' : ∀ t' ∈ rest, a ≤ t' ∧ t' < b :=
        fun t' ht' => hbounds t' (List.mem_cons_of_mem t ht')
      rw [List.countP_cons, List.length_cons] at hlong
      rw [List.length_cons] at hfuel
      by_cases hodd : oddAt σ c t
      · rw [if_pos hodd] at hlong
        obtain ⟨v, hv⟩ := ih hsorted' hbounds' (by omega) (by omega)
        refine ⟨v, ?_⟩
        rw [← List.singleton_append, afterTurns_append, attempt_odd hodd fuel result, hv]
      · -- the loads of the attempt, and the turns after them
        have hlength : W < rest.length := by
          have := Nat.zero_le ((W + 2) * (h.opened b - h.opened a))
          omega
        obtain ⟨copied, t', later, hcopied, rfl⟩ :
            ∃ copied t' later, copied.length = W ∧ rest = copied ++ [t'] ++ later :=
          ⟨rest.take W, rest[W], rest.drop (W + 1), by simp; omega, by simp⟩
        obtain ⟨copy, hattempt⟩ := attempt_even hodd hcopied t' fuel result
        by_cases hsame : (σ t).seq c = (σ t').seq c
        · rw [if_pos hsame] at hattempt
          refine ⟨copy, ?_⟩
          rw [← List.cons_append, afterTurns_append, hattempt, afterTurns_ret]
        · -- the counter has been made odd since the attempt began
          rw [if_neg hsame] at hattempt
          have hmem : t' ∈ copied ++ [t'] ++ later := by simp
          have heven : (σ t).seq c &&& 1 = 0 := by simpa [oddAt] using hodd
          have hopened := h.opened_lt (hlater t' hmem).le heven hsame
          have hfirst := h.opened_mono ht.1
          have hlast := h.opened_mono (hbounds' t' hmem).2.le
          have hafter := (List.pairwise_append.mp hsorted').2
          have hrounds : (W + 2) * (h.opened b - h.opened t' + 1) ≤
              (W + 2) * (h.opened b - h.opened a) := Nat.mul_le_mul_left _ (by omega)
          rw [Nat.mul_add, Nat.mul_one] at hrounds
          rw [List.countP_append, List.countP_append, List.length_append, List.length_append,
            List.length_singleton, hcopied] at hlong
          rw [List.length_append, List.length_append, List.length_singleton, hcopied] at hfuel
          have hbounds'' : ∀ x ∈ later, t' ≤ x ∧ x < b := by
            intro x hx
            have hlt := hafter.2 t' (by simp) x hx
            exact ⟨hlt.le, (hbounds' x (by simp [hx])).2⟩
          obtain ⟨v, hv⟩ := ih hafter.1 hbounds'' (by omega) (by omega)
          refine ⟨v, ?_⟩
          rw [← List.cons_append, afterTurns_append, hattempt, hv]

end SafeShm.SequenceLocks
