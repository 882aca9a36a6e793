import SafeShm.CyclicBuffer
import Mathlib.Data.Nat.ModEq

/-!
# Reading the cyclic buffer while a writer inserts

A call loads `total_writes` once, computes the slot from it, and then reads the slot
until the counter is the same even value on both sides of the copy. The copy is
always one whole insertion, the last one complete in that slot when the successful
attempt began (`readCall_value`). Which insertion that is depends on how far the ring
has moved since `total_writes` was loaded: nothing in the call looks at that.
-/

namespace SafeShm.CyclicBuffer
open AtomicPrograms SingleWriterRuns SequenceLocks RingSlots

variable {F : FlatType} (cap : Capacity)

/-- The calls that read one element. -/
inductive ReadCall where
  | getLatest
  | get (reverseIndex : BitVec 64)
  | tryGet (reverseIndex : BitVec 64) (maxRetries : BitVec 32)

def ReadCall.reverseIndex : ReadCall → BitVec 64
  | .getLatest => 0
  | .get r => r
  | .tryGet r _ => r

variable (F) in
/-- The program of a call; `get_latest` and `get` always return a value. -/
def ReadCall.prog (fuel : ℕ) : ReadCall → ReadProgram F (Option F.T)
  | .getLatest => do
      let v ← CyclicBuffer.getLatest F cap fuel
      return some v
  | .get r => do
      let v ← CyclicBuffer.get F cap fuel r
      return some v
  | .tryGet r maxRetries => CyclicBuffer.tryGet F cap fuel r maxRetries

section AnyHistory
variable {cap} {σ : ℕ → Segment F} {s b fuel : ℕ} {log : List (Event (Place F))} {v : F.T}

theorem exec_tryReadSlotFrom {idx : BitVec 64} {maxRetries attempt : BitVec 32} {result : F.T}
    (h : Exec memory.read σ s (tryReadSlotFrom idx maxRetries fuel attempt result) log b (some v)) :
    ∃ tb ta, CleanRead σ idx log tb ta v := by
  induction fuel generalizing s attempt result log with
  | zero => exact absurd h not_exec_spin
  | succ fuel ih =>
    rw [tryReadSlotFrom] at h
    split at h
    · obtain ⟨⟨done, copy⟩, m, log₁, log₂, rfl, h₁, h₂⟩ := exec_bind.mp h
      cases done with
      | true =>
        obtain ⟨rfl, -, heq⟩ := exec_ret.mp h₂
        obtain rfl := Option.some.inj heq
        simpa using exec_readAttempt h₁
      | false =>
        obtain ⟨tb, ta, hread⟩ := ih h₂
        exact ⟨tb, ta, hread.append_left log₁⟩
    · exact absurd h not_exec_ret_none

theorem exec_header_bind {A : Type} {k : BitVec 64 → ReadProgram F A} {x : A}
    (h : Exec memory.read σ s (loadHeader () >>= k) log b x) :
    ∃ t₀ m log', log = ⟨t₀, .header ()⟩ :: log' ∧ s ≤ t₀ ∧ t₀ < m ∧
      Exec memory.read σ m (k ((σ t₀).header ())) log' b x := by
  obtain ⟨w, m, log₁, log₂, rfl, h₁, h₂⟩ := exec_bind.mp h
  obtain ⟨t₀, rfl, hs, hm, rfl⟩ := exec_loadHeader.mp h₁
  exact ⟨t₀, m, log₂, rfl, hs, hm, h₂⟩

private theorem exists_cleanRead {A : Type} {p : ReadProgram F A} {x : A} {m t₀ : ℕ}
    {idx : BitVec 64} (hm : t₀ < m) (hexec : Exec memory.read σ m p log b x)
    (hread : ∃ tb ta, CleanRead σ idx log tb ta v) (e : Event (Place F)) :
    ∃ tb ta, t₀ < tb ∧ CleanRead σ idx (e :: log) tb ta v := by
  obtain ⟨tb, ta, hread⟩ := hread
  have htb := (hexec.mem_log _ hread.attempt.mem_log.1).1
  exact ⟨tb, ta, Nat.lt_of_lt_of_le hm htb, hread.append_left [e]⟩

/-- A call that returns a value loads `total_writes` first, and then reads the slot
computed from it. Only `get_latest` reads nothing and returns `T{}`, if `total_writes` is zero. -/
theorem exec_readCall_cases {call : ReadCall}
    (h : Exec memory.read σ s (call.prog F cap fuel) log b (some v)) :
    ∃ t₀, log.head? = some ⟨t₀, .header ()⟩ ∧ s ≤ t₀ ∧
      (call = .getLatest ∧ (σ t₀).header () = 0 ∧ v = F.valueInit ∨
        (call = .getLatest → (σ t₀).header () ≠ 0) ∧ ∃ tb ta, t₀ < tb ∧ CleanRead σ
          (((σ t₀).header () - 1 - call.reverseIndex) &&& (cap.N - 1)) log tb ta v) := by
  cases call with
  | getLatest =>
    simp only [ReadCall.prog, CyclicBuffer.getLatest, bind_assoc] at h
    obtain ⟨t₀, m, log', rfl, hs, hm, h'⟩ := exec_header_bind h
    refine ⟨t₀, rfl, hs, ?_⟩
    split at h'
    · rename_i hzero
      obtain ⟨-, -, heq⟩ := exec_ret.mp h'
      exact .inl ⟨rfl, hzero, (Option.some.inj heq).symm⟩
    · rename_i hzero
      obtain ⟨v', m', log₁, log₂, rfl, h₁, h₂⟩ := exec_bind.mp h'
      obtain ⟨rfl, -, heq⟩ := exec_ret.mp h₂
      obtain rfl := Option.some.inj heq
      refine .inr ⟨fun _ => hzero, ?_⟩
      simpa [ReadCall.reverseIndex] using exists_cleanRead hm h₁ (exec_spinRead h₁) ⟨t₀, .header ()⟩
  | get r =>
    simp only [ReadCall.prog, CyclicBuffer.get, bind_assoc] at h
    obtain ⟨t₀, m, log', rfl, hs, hm, h'⟩ := exec_header_bind h
    refine ⟨t₀, rfl, hs, .inr ⟨by simp, ?_⟩⟩
    obtain ⟨v', m', log₁, log₂, rfl, h₁, h₂⟩ := exec_bind.mp h'
    obtain ⟨rfl, -, heq⟩ := exec_ret.mp h₂
    obtain rfl := Option.some.inj heq
    rw [List.append_nil]
    exact exists_cleanRead hm h₁ (exec_spinRead h₁) ⟨t₀, .header ()⟩
  | tryGet r maxRetries =>
    obtain ⟨t₀, m, log', rfl, hs, hm, h'⟩ := exec_header_bind h
    refine ⟨t₀, rfl, hs, .inr ⟨by simp, ?_⟩⟩
    split at h'
    · exact absurd h' not_exec_ret_none
    · exact exists_cleanRead hm h' (exec_tryReadSlotFrom h') ⟨t₀, .header ()⟩

theorem exec_readCall {call : ReadCall}
    (h : Exec memory.read σ s (call.prog F cap fuel) log b (some v)) :
    ∃ t₀, log.head? = some ⟨t₀, .header ()⟩ ∧ s ≤ t₀ ∧
      (call.reverseIndex.toNat < min ((σ t₀).header ()).toNat cap.size →
        ∃ tb ta, t₀ < tb ∧ CleanRead σ
          (((σ t₀).header () - 1 - call.reverseIndex) &&& (cap.N - 1)) log tb ta v) := by
  obtain ⟨t₀, hhead, hs, ⟨-, hzero, -⟩ | ⟨-, hread⟩⟩ := exec_readCall_cases h
  · refine ⟨t₀, hhead, hs, fun hr => ?_⟩
    simp [hzero] at hr
  · exact ⟨t₀, hhead, hs, fun _ => hread⟩

theorem lt_of_exec_tryGet {r : BitVec 64} {maxRetries : BitVec 32} {t₀ : ℕ}
    (h : Exec memory.read σ s (CyclicBuffer.tryGet F cap fuel r maxRetries) log b (some v))
    (hload : log.head? = some ⟨t₀, .header ()⟩) :
    r.toNat < min ((σ t₀).header ()).toNat cap.size := by
  obtain ⟨t, m, log', rfl, -, -, h'⟩ := exec_header_bind h
  obtain rfl : t = t₀ := by simpa using hload
  split at h'
  · exact absurd h' not_exec_ret_none
  · rename_i hlt
    rw [BitVec.le_def, toNat_umin] at hlt
    exact Nat.lt_of_not_le hlt

theorem loadsIn_tryReadSlotFrom (idx : BitVec 64) (maxRetries : BitVec 32) (fuel : ℕ)
    (attempt : BitVec 32) (result : F.T) :
    (tryReadSlotFrom idx maxRetries fuel attempt result).LoadsIn (OfCell idx) := by
  induction fuel generalizing attempt result with
  | zero => trivial
  | succ fuel ih =>
    rw [tryReadSlotFrom]
    split
    · apply (loadsIn_readAttempt idx result).bind
      intro x
      obtain ⟨done, copy⟩ := x
      cases done with
      | true => trivial
      | false => exact ih _ _
    · trivial

theorem exec_available {n : BitVec 64}
    (h : Exec memory.read σ s (CyclicBuffer.available F cap) log b n) :
    ∃ t₀, log = [⟨t₀, .header ()⟩] ∧ n = umin ((σ t₀).header ()) cap.N := by
  obtain ⟨t₀, m, log', rfl, -, -, h'⟩ := exec_header_bind h
  obtain ⟨rfl, -, rfl⟩ := exec_ret.mp h'
  exact ⟨t₀, rfl, rfl⟩

theorem exec_tryGet_loads {r : BitVec 64} {maxRetries : BitVec 32} {x : Option F.T}
    (h : Exec memory.read σ s (CyclicBuffer.tryGet F cap fuel r maxRetries) log b x) :
    ∃ t₀ log', log = ⟨t₀, .header ()⟩ :: log' ∧ ∀ e ∈ log',
      r.toNat < min ((σ t₀).header ()).toNat cap.size ∧
        OfCell (((σ t₀).header () - 1 - r) &&& (cap.N - 1)) e.loc := by
  obtain ⟨t₀, m, log', rfl, -, -, h'⟩ := exec_header_bind h
  refine ⟨t₀, log', rfl, ?_⟩
  intro e he
  split at h'
  · obtain ⟨rfl, -, -⟩ := exec_ret.mp h'
    exact absurd he List.not_mem_nil
  · rename_i hlt
    rw [BitVec.le_def, toNat_umin] at hlt
    exact ⟨Nat.lt_of_not_le hlt, h'.loc_mem (loadsIn_tryReadSlotFrom _ _ _ _ _) e he⟩

end AnyHistory

section Runs
variable {ι : Type} [DecidableEq ι] {A : ι → Type}
variable (vals : ℕ → F.T) (sched : ℕ → Party ι) (readers : (i : ι) → ReadProgram F (A i))

/-- Insertions into slot `i` begun by instant `ta` that were not published at `tb`. -/
def hitsWithin (i tb ta : ℕ) : ℕ :=
  hits cap.size i (writers cap vals sched readers ta).begun -
    hits cap.size i (published (writers cap vals sched readers tb))

private theorem hits_add_midInsert_le (w : Writer F) (i : ℕ)
    (h0 : w.pc ≠ 0 → w.begun ≠ 0) :
    hits cap.size i (completed w) + midInsert cap w i ≤ hits cap.size i w.begun := by
  rw [midInsert]
  split
  · rename_i hmid
    obtain ⟨h3, h4, hi⟩ := hmid
    rw [completed, if_neg (by omega), hi]
    exact hits_lt cap.size le_rfl (by omega)
  · exact hits_mono cap.size i (completed_le_begun w)

theorem ver_lt_of_hitsWithin {i : BitVec 64} {tb ta : ℕ}
    (h : hitsWithin cap vals sched readers i.toNat tb ta < 2 ^ 31) :
    (versioned cap vals sched readers i).ver ta <
      (versioned cap vals sched readers i).ver tb + 2 ^ 32 := by
  have hta := hits_add_midInsert_le cap (writers cap vals sched readers ta) i.toNat
    (fun h h0 => h (pc_eq_zero memory _ _ sched readers h0))
  have htb := hits_mono cap.size i.toNat
    (published_le_completed (writers cap vals sched readers tb))
  simp only [hitsWithin, versioned] at h ⊢
  omega

/-- A clean copy is the last insertion complete in the slot when the attempt began, and
no insertion into the slot was completed during the attempt. -/
theorem cleanRead_content {i : BitVec 64} {log : List (Event (Place F))} {tb ta : ℕ} {v : F.T}
    (hread : CleanRead (segments cap vals sched readers) i log tb ta v)
    (hver : (versioned cap vals sched readers i).ver ta <
      (versioned cap vals sched readers i).ver tb + 2 ^ 32) :
    v = content cap.size (fun _ => F.zero) vals i.toNat
        (completed (writers cap vals sched readers tb)) ∧
      hits cap.size i.toNat (completed (writers cap vals sched readers ta)) =
        hits cap.size i.toNat (completed (writers cap vals sched readers tb)) := by
  obtain ⟨hsame, heven, hv⟩ := (versioned cap vals sched readers i).cleanRead hread hver
  have hlb := midInsert_le_one cap (writers cap vals sched readers tb) i.toNat
  have hla := midInsert_le_one cap (writers cap vals sched readers ta) i.toNat
  simp only [versioned] at hsame heven
  refine ⟨?_, by omega⟩
  rw [hv, segments_data cap vals sched readers (by omega)]

variable {fuel a b t₀ : ℕ} {call : ReadCall} {log : List (Event (Place F))} {v : F.T}

/-- The number of the insertion that a call asks for when it has loaded
`total_writes` at instant `t₀`. -/
def asked (call : ReadCall) (t₀ : ℕ) : ℕ :=
  ((segments cap vals sched readers t₀).header ()).toNat - 1 - call.reverseIndex.toNat

theorem readCall_slot
    (hexec : Exec memory.read (segments cap vals sched readers) a (call.prog F cap fuel) log b
      (some v))
    (hload : log.head? = some ⟨t₀, .header ()⟩)
    (hr : call.reverseIndex.toNat <
      min ((segments cap vals sched readers t₀).header ()).toNat cap.size) :
    ∃ i tb ta, i.toNat = asked cap vals sched readers call t₀ % cap.size ∧ a ≤ t₀ ∧ t₀ < tb ∧
      ta < b ∧ CleanRead (segments cap vals sched readers) i log tb ta v := by
  obtain ⟨t, hhead, hs, hread⟩ := exec_readCall hexec
  obtain rfl : t = t₀ := by simpa using hhead.symm.trans hload
  obtain ⟨tb, ta, htb, hread⟩ := hread hr
  have hta := (hexec.mem_log _ hread.attempt.mem_log.2).2
  refine ⟨_, tb, ta, ?_, hs, htb, hta, hread⟩
  rw [cap.toNat_and_mask, asked]
  generalize (segments cap vals sched readers t).header () = w at hr
  congr 1
  bv_omega

theorem toNat_header (t : ℕ) : ((segments cap vals sched readers t).header ()).toNat =
    published (writers cap vals sched readers t) % 2 ^ 64 := by
  rw [segments_header, BitVec.toNat_ofNat]

theorem published_le_completed_of_le {t t' : ℕ} (h : t ≤ t') :
    published (writers cap vals sched readers t) ≤ completed (writers cap vals sched readers t') :=
  (published_le_completed _).trans (completed_le cap vals sched readers h)

theorem completed_le_begun_of_le {t t' : ℕ} (h : t ≤ t') :
    completed (writers cap vals sched readers t) ≤ (writers cap vals sched readers t').begun :=
  (completed_le_begun _).trans (writers_begun_mono cap vals sched readers h)

theorem hitsWithin_lt {M : Type} {p : ReadProgram F M} {x : M}
    (hexec : Exec memory.read (segments cap vals sched readers) a p log b x)
    (hb : (writers cap vals sched readers b).begun < 2 ^ 31) (i : BitVec 64) (tb ta : ℕ)
    (h : Attempt i log tb ta) : hitsWithin cap vals sched readers i.toNat tb ta < 2 ^ 31 := by
  have hta := (hexec.mem_log _ h.mem_log.2).2
  have hle : (writers cap vals sched readers ta).begun ≤ (writers cap vals sched readers b).begun :=
    writers_begun_mono cap vals sched readers hta.le
  have hhits := hits_le cap.size i.toNat (writers cap vals sched readers ta).begun
  rw [hitsWithin]
  omega

/-- The value a call returns is one whole insertion: the last one complete in the slot
it asked for when its last attempt began. -/
theorem readCall_value
    (hexec : Exec memory.read (segments cap vals sched readers) a (call.prog F cap fuel) log b
      (some v))
    (hload : log.head? = some ⟨t₀, .header ()⟩)
    (hr : call.reverseIndex.toNat <
      min ((segments cap vals sched readers t₀).header ()).toNat cap.size)
    (hfew : ∀ i tb ta, Attempt i log tb ta →
      hitsWithin cap vals sched readers i.toNat tb ta < 2 ^ 31) :
    ∃ i tb ta m, i.toNat = m % cap.size ∧ a ≤ t₀ ∧ t₀ < tb ∧ ta < b ∧
      CleanRead (segments cap vals sched readers) i log tb ta v ∧ v = vals m ∧
      m < completed (writers cap vals sched readers tb) ∧
      completed (writers cap vals sched readers tb) ≤ m + cap.size ∧
      m % cap.size = asked cap vals sched readers call t₀ % cap.size ∧
      asked cap vals sched readers call t₀ ≤ m := by
  obtain ⟨i, tb, ta, hi, ha, ht, hb, hread⟩ :=
    readCall_slot cap vals sched readers hexec hload hr
  obtain ⟨hv, -⟩ := cleanRead_content cap vals sched readers hread
    (ver_lt_of_hitsWithin cap vals sched readers (hfew i tb ta hread.attempt))
  have hlt : asked cap vals sched readers call t₀ <
      completed (writers cap vals sched readers tb) := by
    have hpub := published_le_completed_of_le cap vals sched readers ht.le
    have hheader := toNat_header cap vals sched readers t₀
    have hmod := Nat.mod_le (published (writers cap vals sched readers t₀)) (2 ^ 64)
    rw [asked]
    omega
  obtain ⟨m, hle, hm, hn, hmod⟩ := exists_last cap.size_pos hlt
  refine ⟨i, tb, ta, m, by omega, ha, ht, hb, hread, ?_, hm, hn, hmod, hle⟩
  rw [hv, hi, ← hmod, content_eq hm hn]

/-- Reads are untorn and never older than the counter they loaded: a value returned by
`get_latest`, `get` or `try_get` is the whole value of one insertion in the slot that
was asked for, no older than the one asked for, and begun before the return. -/
theorem readCall_untorn
    (hexec : Exec memory.read (segments cap vals sched readers) a (call.prog F cap fuel) log b
      (some v))
    (hload : log.head? = some ⟨t₀, .header ()⟩)
    (hr : call.reverseIndex.toNat <
      min ((segments cap vals sched readers t₀).header ()).toNat cap.size)
    (hfew : ∀ i tb ta, Attempt i log tb ta →
      hitsWithin cap vals sched readers i.toNat tb ta < 2 ^ 31) :
    ∃ m, v = vals m ∧ m ≡ asked cap vals sched readers call t₀ [MOD cap.size] ∧
      asked cap vals sched readers call t₀ ≤ m ∧
      m < (writers cap vals sched readers b).begun := by
  obtain ⟨i, tb, ta, m, -, -, -, hb, hread, hv, hm, -, hmod, hle⟩ :=
    readCall_value cap vals sched readers hexec hload hr hfew
  refine ⟨m, hv, hmod, hle, ?_⟩
  calc m < completed (writers cap vals sched readers tb) := hm
    _ ≤ (writers cap vals sched readers b).begun :=
      completed_le_begun_of_le cap vals sched readers (hread.le.trans hb.le)

private theorem ver_lt_of_completed_le {m tb ta : ℕ} {i : BitVec 64} (hi : i.toNat = m % cap.size)
    (hlt : m < completed (writers cap vals sched readers tb)) (hle : tb ≤ ta)
    (hta : completed (writers cap vals sched readers ta) ≤ m + cap.size) :
    (versioned cap vals sched readers i).ver ta <
      (versioned cap vals sched readers i).ver tb + 2 ^ 32 := by
  have hmono := completed_le cap vals sched readers hle
  have hb := hits_eq hlt (hmono.trans hta)
  have ha := hits_eq (hlt.trans_le hmono) hta
  have hmid := midInsert_le_one cap (writers cap vals sched readers ta) i.toNat
  simp only [versioned]
  rw [hi] at hmid ⊢
  omega

/-- The call returns the value of the insertion it asks for if that insertion is still
the last one complete in its slot when the call makes its last load. -/
theorem readCall_asked {ta : ℕ} {l : Place F}
    (hexec : Exec memory.read (segments cap vals sched readers) a (call.prog F cap fuel) log b
      (some v))
    (hload : log.head? = some ⟨t₀, .header ()⟩)
    (hr : call.reverseIndex.toNat <
      min ((segments cap vals sched readers t₀).header ()).toNat cap.size)
    (hlast : log.getLast? = some ⟨ta, l⟩)
    (hcond : completed (writers cap vals sched readers ta) ≤
      asked cap vals sched readers call t₀ + cap.size) :
    v = vals (asked cap vals sched readers call t₀) := by
  obtain ⟨i, tb, ta', hi, -, ht, -, hread⟩ :=
    readCall_slot cap vals sched readers hexec hload hr
  obtain rfl := hread.eq_of_last hlast
  have hpub := published_le_completed_of_le cap vals sched readers ht.le
  have hmono := completed_le cap vals sched readers hread.le
  -- `total_writes` has not wrapped: that takes more insertions than the ring has slots
  have hw : ((segments cap vals sched readers t₀).header ()).toNat =
      published (writers cap vals sched readers t₀) := by
    have hheader := toNat_header cap vals sched readers t₀
    have hsize := cap.size_lt
    rw [asked] at hcond
    omega
  have hlt : asked cap vals sched readers call t₀ <
      completed (writers cap vals sched readers tb) := by
    rw [asked]
    omega
  obtain ⟨hv, -⟩ := cleanRead_content cap vals sched readers hread
    (ver_lt_of_completed_le cap vals sched readers hi hlt hread.le hcond)
  rw [hv, hi, content_eq hlt (hmono.trans hcond)]

/-- Otherwise it returns the value of a later insertion. -/
theorem readCall_overwritten {ta : ℕ} {l : Place F}
    (hexec : Exec memory.read (segments cap vals sched readers) a (call.prog F cap fuel) log b
      (some v))
    (hload : log.head? = some ⟨t₀, .header ()⟩)
    (hr : call.reverseIndex.toNat <
      min ((segments cap vals sched readers t₀).header ()).toNat cap.size)
    (hlast : log.getLast? = some ⟨ta, l⟩)
    (hfew : ∀ i tb ta, Attempt i log tb ta →
      hitsWithin cap vals sched readers i.toNat tb ta < 2 ^ 31)
    (hcond : asked cap vals sched readers call t₀ + cap.size <
      completed (writers cap vals sched readers ta)) :
    ∃ m, v = vals m ∧ asked cap vals sched readers call t₀ < m ∧
      m < (writers cap vals sched readers b).begun := by
  obtain ⟨i, tb, ta', m, hi, -, -, hb, hread, hv, hm, hn, hmod, hle⟩ :=
    readCall_value cap vals sched readers hexec hload hr hfew
  obtain rfl := hread.eq_of_last hlast
  obtain ⟨-, hhits⟩ := cleanRead_content cap vals sched readers hread
    (ver_lt_of_hitsWithin cap vals sched readers (hfew i tb ta' hread.attempt))
  have hbegun := completed_le_begun_of_le cap vals sched readers (hread.le.trans hb.le)
  refine ⟨m, hv, ?_, hm.trans_le hbegun⟩
  rcases Nat.lt_or_eq_of_le hle with hlt | rfl
  · exact hlt
  · -- the insertion that replaces it would have moved the counter
    have hmoved := hits_lt cap.size hn hcond
    rw [Nat.add_mod_right, ← hi] at hmoved
    omega

/-- `try_get` returns the element that was asked for exactly as long as that element has
not been completely overwritten when the call makes its last load. The other direction
is for distinct values, where the returned value tells which insertion was read. -/
theorem tryGet_asked_iff {r : BitVec 64} {maxRetries : BitVec 32} {ta : ℕ} {l : Place F}
    (hexec : Exec memory.read (segments cap vals sched readers) a
      ((ReadCall.tryGet r maxRetries).prog F cap fuel) log b (some v))
    (hload : log.head? = some ⟨t₀, .header ()⟩) (hlast : log.getLast? = some ⟨ta, l⟩) :
    (completed (writers cap vals sched readers ta) ≤
        asked cap vals sched readers (.tryGet r maxRetries) t₀ + cap.size →
      v = vals (asked cap vals sched readers (.tryGet r maxRetries) t₀)) ∧
    ((∀ i tb ta, Attempt i log tb ta →
        hitsWithin cap vals sched readers i.toNat tb ta < 2 ^ 31) →
      Set.InjOn vals {m | m < (writers cap vals sched readers b).begun} →
      v = vals (asked cap vals sched readers (.tryGet r maxRetries) t₀) →
      completed (writers cap vals sched readers ta) ≤
        asked cap vals sched readers (.tryGet r maxRetries) t₀ + cap.size) := by
  have hr := lt_of_exec_tryGet hexec hload
  refine ⟨readCall_asked cap vals sched readers hexec hload hr hlast, ?_⟩
  intro hfew hinj hv
  by_contra hcond
  obtain ⟨m, hm, hlt, hb⟩ := readCall_overwritten cap vals sched readers hexec hload hr hlast hfew
    (Nat.lt_of_not_le hcond)
  have heq := hinj (hlt.trans hb) hb (hv.symm.trans hm)
  omega

end Runs

section Samples

abbrev tryGetSecond (cap : Capacity) (_ : Unit) : ReadProgram oneWord (Option oneWord.T) :=
  (ReadCall.tryGet 1 4).prog oneWord cap 9

/-- Two insertions, then `try_get(1)` loads `total_writes`, then a third insertion before
`try_get(1)` reads its slot. -/
def lapped : ℕ → Party Unit :=
  blocks [(.writer, 16), (.reader (), 1), (.writer, 8), (.reader (), 3)]

def lappedLog : List (Event (Place oneWord)) :=
  [⟨16, .header ()⟩, ⟨25, .seq 0⟩, ⟨26, .word 0 0⟩, ⟨27, .seq 0⟩]

theorem exec_lapped :
    Exec memory.read (segments capacityTwo tens lapped (tryGetSecond capacityTwo)) 16
      (tryGetSecond capacityTwo ()) lappedLog 28 (some (tens 2)) :=
  exec_of_replay (show replay _ _ _ _ _ [16, 25, 26, 27] = _ by decide +kernel)

theorem readCall_untorn_lapped :
    ∃ m, tens 2 = tens m ∧
      m ≡ asked capacityTwo tens lapped (tryGetSecond capacityTwo) (.tryGet 1 4) 16
        [MOD capacityTwo.size] ∧
      asked capacityTwo tens lapped (tryGetSecond capacityTwo) (.tryGet 1 4) 16 ≤ m ∧
      m < (writers capacityTwo tens lapped (tryGetSecond capacityTwo) 28).begun := by
  have hbegun : (writers capacityTwo tens lapped (tryGetSecond capacityTwo) 28).begun = 3 := by
    decide +kernel
  exact readCall_untorn capacityTwo tens lapped (tryGetSecond capacityTwo) exec_lapped rfl
    (by decide +kernel) (hitsWithin_lt capacityTwo tens lapped _ exec_lapped (by omega))

/-- With four slots the third insertion goes into another slot. -/
theorem tryGet_asked_iff_otherSlot :
    tens 0 = tens (asked capacityFour tens lapped (tryGetSecond capacityFour) (.tryGet 1 4) 16) ∧
      completed (writers capacityFour tens lapped (tryGetSecond capacityFour) 27) ≤
        asked capacityFour tens lapped (tryGetSecond capacityFour) (.tryGet 1 4) 16 +
          capacityFour.size := by
  have hexec : Exec memory.read (segments capacityFour tens lapped (tryGetSecond capacityFour)) 16
      (tryGetSecond capacityFour ()) lappedLog 28 (some (tens 0)) :=
    exec_of_replay (show replay _ _ _ _ _ [16, 25, 26, 27] = _ by decide +kernel)
  have hbegun : (writers capacityFour tens lapped (tryGetSecond capacityFour) 28).begun = 3 := by
    decide +kernel
  have hdistinct : ∀ m < 3, ∀ m' < 3, tens m = tens m' → m = m' := by decide
  obtain ⟨hasked, hconverse⟩ := tryGet_asked_iff capacityFour tens lapped
    (tryGetSecond capacityFour) hexec rfl rfl
  have hv := hasked (by decide +kernel)
  refine ⟨hv, hconverse (hitsWithin_lt capacityFour tens lapped _ hexec (by omega)) ?_ hv⟩
  intro m hm m' hm' heq
  rw [Set.mem_ofPred_eq, hbegun] at hm hm'
  exact hdistinct m hm m' hm' heq

/-- In the lapped run on two slots `try_get(1)` loads `total_writes = 2` and returns the value of
insertion number 2, not of insertion number 0, which it asked for. At no instant of the call is
that value at index 1. -/
theorem tryGet_returns_overwriting :
    ((states capacityTwo tens lapped (tryGetSecond capacityTwo) 28).reader ()).result? =
      some (some (tens 2)) ∧
    Exec memory.read (segments capacityTwo tens lapped (tryGetSecond capacityTwo)) 16
      (tryGetSecond capacityTwo ()) lappedLog 28 (some (tens 2)) ∧
    (segments capacityTwo tens lapped (tryGetSecond capacityTwo) 16).header () = 2 ∧
    tens 2 ≠
      tens (asked capacityTwo tens lapped (tryGetSecond capacityTwo) (.tryGet 1 4) 16) ∧
    ∀ t ≤ 28, 16 ≤ t →
      tens 2 ≠ tens (asked capacityTwo tens lapped (tryGetSecond capacityTwo) (.tryGet 1 4) t) :=
  ⟨by decide +kernel, exec_lapped, by decide +kernel, by decide +kernel, by decide +kernel⟩

end Samples

end SafeShm.CyclicBuffer
