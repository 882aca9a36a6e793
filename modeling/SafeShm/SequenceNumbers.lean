import SafeShm.Seqlock

/-!
# Sequence numbers

`sequence` returns the counter ("even = stable, odd = write in progress"). Two calls that return
the same even number enclose a time in which nothing is stored: all loads made between them return
the value of one and the same store, each at its first attempt, and the number says which one.
-/

namespace SafeShm.Seqlock
open AtomicPrograms SingleWriterRuns SequenceLocks

variable {F : FlatType}

variable (F) in
/-- `SeqlockReader::sequence`. -/
def sequence : ReadProgram F (BitVec 32) := loadSeq ()

section Steady
variable {σ : ℕ → Segment F} {q : BitVec 32} {a b : ℕ}

private theorem exec_readAttempt_steady {result : F.T} {log : List (Event (Loc Empty Unit F.words))}
    {x : Bool × F.T} (hsteady : ∀ t, a ≤ t → t < b → (σ t).seq () = q) (heven : q &&& 1 = 0)
    (h : Exec memory.read σ a (readAttempt () result) log b x) :
    x.1 = true ∧ log.length = F.words + 2 := by
  obtain ⟨before, m, log₁, log₂, rfl, h₁, h₂⟩ := exec_bind.mp h
  obtain ⟨tb, rfl, hs, hm, hbefore⟩ := exec_loadSeq.mp h₁
  rw [hsteady tb hs (hm.trans_le h₂.le)] at hbefore
  subst hbefore
  rw [if_neg (not_not_intro heven)] at h₂
  obtain ⟨copy, m', log₃, log₄, rfl, h₃, h₄⟩ := exec_bind.mp h₂
  obtain ⟨after, m'', log₅, log₆, rfl, h₅, h₆⟩ := exec_bind.mp h₄
  obtain ⟨ta, rfl, hs', hm', hafter⟩ := exec_loadSeq.mp h₅
  have hle₁ := h₁.le
  have hle₃ := h₃.le
  have hle₆ := h₆.le
  rw [hsteady ta (by omega) (by omega)] at hafter
  subst hafter
  obtain ⟨rfl, -, rfl⟩ := exec_ret.mp h₆
  have hlength : log₃.length = F.words := by
    have hmap := congrArg List.length (exec_copyOut h₃).1
    simpa using hmap
  constructor
  · simp
  · simp [hlength]

private theorem exec_load_steady {fuel : ℕ} {log : List (Event (Loc Empty Unit F.words))} {v : F.T}
    (hsteady : ∀ t, a ≤ t → t < b → (σ t).seq () = q) (heven : q &&& 1 = 0)
    (h : Exec memory.read σ a (load F fuel) log b v) : log.length = F.words + 2 := by
  cases fuel with
  | zero => exact absurd h not_exec_spin
  | succ fuel =>
    obtain ⟨x, m, log₁, log₂, rfl, h₁, h₂⟩ := exec_bind.mp h
    obtain ⟨hdone, hlength⟩ := exec_readAttempt_steady
      (fun t hat htm => hsteady t hat (htm.trans_le h₂.le)) heven h₁
    obtain ⟨done, copy⟩ := x
    obtain rfl : done = true := hdone
    obtain ⟨rfl, -, -⟩ := exec_ret.mp h₂
    rw [List.append_nil, hlength]

end Steady

section Runs
variable {ι : Type} [DecidableEq ι] {A : ι → Type}
variable (vals : ℕ → F.T) (sched : ℕ → Party ι) (readers : (i : ι) → ReadProgram F (A i))

/-- From `t₁` to `t₂` no store has the counter odd, and none is finished. -/
def Unchanged (t₁ t₂ : ℕ) : Prop :=
  ∀ t, t₁ ≤ t → t ≤ t₂ → midStore (states vals sched readers t).writer = 0 ∧
    finished (states vals sched readers t).writer = finished (states vals sched readers t₁).writer

variable {vals sched readers}

private theorem unchanged_iff {t₁ t₂ : ℕ} (hle : t₁ ≤ t₂)
    (hver : (versioned vals sched readers).ver t₂ < (versioned vals sched readers).ver t₁ + 2 ^ 32) :
    ((segments vals sched readers t₁).seq () = (segments vals sched readers t₂).seq () ∧
        (segments vals sched readers t₁).seq () &&& 1 = 0) ↔
      Unchanged vals sched readers t₁ t₂ := by
  constructor
  · rintro ⟨hsame, heven⟩ t hlo hhi
    rw [(versioned vals sched readers).seq_eq] at heven
    rw [(versioned vals sched readers).seq_eq, (versioned vals sched readers).seq_eq] at hsame
    have heq := Versioned.eq_of_ofNat hsame ((versioned vals sched readers).mono hle) hver
    have hparity := Versioned.even_of_and_one heven
    have hlower := (versioned vals sched readers).mono hlo
    have hupper := (versioned vals sched readers).mono hhi
    have h₁ := midStore_le_one (states vals sched readers t₁).writer
    have h := midStore_le_one (states vals sched readers t).writer
    simp only [versioned] at heq hparity hlower hupper
    omega
  · intro h
    obtain ⟨hmid₁, -⟩ := h t₁ le_rfl hle
    obtain ⟨hmid₂, hfinished⟩ := h t₂ hle le_rfl
    rw [segments_seq, segments_seq, hmid₁, hmid₂, hfinished]
    exact ⟨rfl, ofNat_two_mul_and_one _⟩

private theorem storesWithin_mono {a b tb ta : ℕ} (htb : a ≤ tb) (hta : ta ≤ b) :
    storesWithin vals sched readers tb ta ≤ storesWithin vals sched readers a b := by
  have hfinished : finished (states vals sched readers a).writer ≤
      finished (states vals sched readers tb).writer := finished_mono vals sched readers htb
  have hbegun : (states vals sched readers ta).writer.begun ≤
      (states vals sched readers b).writer.begun := begun_mono memory _ _ sched readers hta
  rw [storesWithin, storesWithin]
  omega

/-- Two calls of `sequence` return the same even number exactly if nothing was stored between their
loads of the counter, which are at `t₁` and `t₂`. The number is then twice that of the last store,
modulo `2 ^ 32`, and every load made between the two calls returns the value of that store at its
first attempt. -/
theorem sequence_encloses {s₁ b₁ s₂ b₂ : ℕ} {log₁ log₂ : List (Event (Loc Empty Unit F.words))}
    {x y : BitVec 32}
    (h₁ : Exec memory.read (segments vals sched readers) s₁ (sequence F) log₁ b₁ x)
    (h₂ : Exec memory.read (segments vals sched readers) s₂ (sequence F) log₂ b₂ y) (hle : b₁ ≤ s₂)
    (hfew : storesWithin vals sched readers s₁ b₂ < 2 ^ 31) :
    ∃ t₁ t₂, log₁ = [⟨t₁, .seq ()⟩] ∧ log₂ = [⟨t₂, .seq ()⟩] ∧
      s₁ ≤ t₁ ∧ t₁ < b₁ ∧ s₂ ≤ t₂ ∧ t₂ < b₂ ∧
      ((x = y ∧ x &&& 1 = 0) ↔ Unchanged vals sched readers t₁ t₂) ∧
      (x = y → x &&& 1 = 0 →
        x = BitVec.ofNat 32 (2 * finished (states vals sched readers t₁).writer) ∧
        ∀ a b fuel log v, b₁ ≤ a → b ≤ s₂ →
          Exec memory.read (segments vals sched readers) a (load F fuel) log b v →
            v = stored vals (finished (states vals sched readers t₁).writer) ∧
              log.length = F.words + 2) := by
  obtain ⟨t₁, rfl, hs₁, hb₁, rfl⟩ := exec_loadSeq.mp h₁
  obtain ⟨t₂, rfl, hs₂, hb₂, rfl⟩ := exec_loadSeq.mp h₂
  have hlt : t₁ ≤ t₂ := by omega
  have hunchanged := unchanged_iff hlt (ver_lt vals sched readers
    ((storesWithin_mono hs₁ hb₂.le).trans_lt hfew))
  refine ⟨t₁, t₂, rfl, rfl, hs₁, hb₁, hs₂, hb₂, hunchanged, ?_⟩
  intro hsame heven
  have hstill := hunchanged.mp ⟨hsame, heven⟩
  have hseq : ∀ t, t₁ ≤ t → t ≤ t₂ → (segments vals sched readers t).seq () =
      BitVec.ofNat 32 (2 * finished (states vals sched readers t₁).writer) := by
    intro t hlo hhi
    obtain ⟨hmid, hfinished⟩ := hstill t hlo hhi
    rw [segments_seq, hmid, hfinished, Nat.add_zero]
  refine ⟨hseq t₁ le_rfl hlt, ?_⟩
  intro a b fuel log v ha hb hexec
  constructor
  · obtain ⟨t, hat, htb, hv⟩ := exec_load_value vals sched readers hexec (by
      intro tb ta hatt
      have htb : a ≤ tb := (hexec.mem_log _ hatt.mem_log.1).1
      have hta : ta < b := (hexec.mem_log _ hatt.mem_log.2).2
      exact (storesWithin_mono (by omega) (by omega)).trans_lt hfew)
    rw [hv, (hstill t (by omega) (by omega)).2]
  · exact exec_load_steady (fun t hat htb => hseq t (by omega) (by omega))
      (ofNat_two_mul_and_one _) hexec

end Runs

section Sample

/-- A load after the store of the run, between two calls of `sequence`. -/
theorem sequence_encloses_oneStore : ∃ log,
    Exec memory.read (segments twoWordVals oneStore oneLoad) 10 (load twoWords 4) log 14
      (twoWordVals 0) ∧ log.length = 4 ∧
      Unchanged twoWordVals oneStore oneLoad 9 14 := by
  have hfirst : Exec memory.read (segments twoWordVals oneStore oneLoad) 9 (sequence twoWords)
      [⟨9, .seq ()⟩] 10 2 := exec_of_replay (show replay _ _ _ _ _ [9] = _ by decide +kernel)
  have hsecond : Exec memory.read (segments twoWordVals oneStore oneLoad) 14 (sequence twoWords)
      [⟨14, .seq ()⟩] 15 2 := exec_of_replay (show replay _ _ _ _ _ [14] = _ by decide +kernel)
  have hload : Exec memory.read (segments twoWordVals oneStore oneLoad) 10 (load twoWords 4)
      [⟨10, .seq ()⟩, ⟨11, .word () 0⟩, ⟨12, .word () 1⟩, ⟨13, .seq ()⟩] 14 (twoWordVals 0) :=
    exec_of_replay (show replay _ _ _ _ _ [10, 11, 12, 13] = _ by decide +kernel)
  obtain ⟨t₁, t₂, h₁, h₂, -, -, -, -, hunchanged, hloads⟩ :=
    sequence_encloses hfirst hsecond (by omega) (by decide +kernel)
  obtain rfl : t₁ = 9 := by simpa using h₁.symm
  obtain rfl : t₂ = 14 := by simpa using h₂.symm
  obtain ⟨-, hread⟩ := hloads rfl (by decide)
  exact ⟨_, hload, (hread 10 14 4 _ _ le_rfl le_rfl hload).2, hunchanged.mp ⟨rfl, by decide⟩⟩

end Sample

end SafeShm.Seqlock
