import SafeShm.CyclicBuffer

/-!
# The cyclic buffer as a bounded history

Between insertions the segment represents the list of all values inserted so far, and
the queries answer as the list does: only its last `N` values can be asked for. The
representation is established by a zero-filled segment and kept by `insert`, whichever
writer object makes the call, since a writer object holds nothing but the mapping.
-/

namespace SafeShm.CyclicBuffer
open AtomicPrograms SingleWriterRuns SequenceLocks RingSlots

variable {F : FlatType} (cap : Capacity)

theorem run_getLatest_even {m : Segment F} {fuel : ℕ}
    (h : m.seq ((m.header () - 1) &&& (cap.N - 1)) &&& 1 = 0) :
    (getLatest F cap (fuel + 1)).run (memory.read m) = some
      (if m.header () = 0 then F.valueInit else m.data ((m.header () - 1) &&& (cap.N - 1))) := by
  have hheader : memory.read m (.header ()) = m.header () := rfl
  simp only [getLatest, readSlot, loadHeader, Prog.load_bind, Prog.ret_bind, Prog.run_load, hheader]
  by_cases hz : m.header () = 0
  · rw [if_pos hz, if_pos hz]
    rfl
  · rw [if_neg hz, if_neg hz, run_spinRead h]

section Quiet
variable (vals : ℕ → F.T) (n : ℕ)

theorem quiet_seq_even (i : BitVec 64) : (quiet cap vals n).seq i &&& 1 = 0 :=
  ofNat_two_mul_and_one _

theorem run_totalWrites :
    (totalWrites F).run (memory.read (quiet cap vals n)) = some (BitVec.ofNat 64 n) := rfl

theorem run_available :
    (available F cap).run (memory.read (quiet cap vals n)) =
      some (umin (BitVec.ofNat 64 n) cap.N) := rfl

/-- The slot of reverse index `r` holds insertion number `n - 1 - r`, also when
`total_writes` has wrapped. -/
theorem quiet_data {w r : BitVec 64} (hw : w = BitVec.ofNat 64 n)
    (hr : r.toNat < min (n % 2 ^ 64) cap.size) :
    (quiet cap vals n).data ((w - 1 - r) &&& (cap.N - 1)) = vals (n - 1 - r.toNat) := by
  have hmod := Nat.div_add_mod n (2 ^ 64)
  have hidx : (w - 1 - r).toNat = n % 2 ^ 64 - 1 - r.toNat := by
    have hwn : w.toNat = n % 2 ^ 64 := by rw [hw, BitVec.toNat_ofNat]
    bv_omega
  have hslot : ((w - 1 - r) &&& (cap.N - 1)).toNat = (n - 1 - r.toNat) % cap.size := by
    obtain ⟨k, hk⟩ := cap.size_dvd
    have hsplit : n - 1 - r.toNat =
        (n % 2 ^ 64 - 1 - r.toNat) + cap.size * (k * (n / 2 ^ 64)) := by
      rw [← Nat.mul_assoc, ← hk]
      omega
    rw [cap.toNat_and_mask, hidx, hsplit, Nat.add_mul_mod_self_left]
  change content cap.size (fun _ => F.zero) vals _ n = _
  rw [hslot]
  apply content_eq
  · omega
  · omega

theorem run_get (fuel : ℕ) {r : BitVec 64} (hr : r.toNat < min (n % 2 ^ 64) cap.size) :
    (get F cap (fuel + 1) r).run (memory.read (quiet cap vals n)) =
      some (vals (n - 1 - r.toNat)) := by
  simp only [get, readSlot, loadHeader, Prog.load_bind, Prog.ret_bind, Prog.run_load]
  rw [run_spinRead (quiet_seq_even cap vals n _)]
  exact congrArg some (quiet_data cap vals n rfl hr)

theorem run_getLatest (fuel : ℕ) :
    (getLatest F cap (fuel + 1)).run (memory.read (quiet cap vals n)) =
      some (if n % 2 ^ 64 = 0 then F.valueInit else vals (n - 1)) := by
  have hheader : (quiet cap vals n).header () = BitVec.ofNat 64 n := rfl
  have hzero : BitVec.ofNat 64 n = 0 ↔ n % 2 ^ 64 = 0 := by
    rw [← BitVec.toNat_inj, BitVec.toNat_ofNat]
    rfl
  rw [run_getLatest_even cap (quiet_seq_even cap vals n _), hheader]
  by_cases hn : n % 2 ^ 64 = 0
  · rw [if_pos (hzero.mpr hn), if_pos hn]
  · rw [if_neg (mt hzero.mp hn), if_neg hn]
    have hsize := cap.size_pos
    have hdata := quiet_data cap vals n (r := 0) rfl (by simp; omega)
    simpa using hdata

theorem run_tryGet (fuel : ℕ) (r : BitVec 64) (maxRetries : BitVec 32) :
    (tryGet F cap (fuel + 1) r maxRetries).run (memory.read (quiet cap vals n)) =
      some (if r.toNat < min (n % 2 ^ 64) cap.size then some (vals (n - 1 - r.toNat)) else none) := by
  have hheader : memory.read (quiet cap vals n) (.header ()) = BitVec.ofNat 64 n := rfl
  have hle : umin (BitVec.ofNat 64 n) cap.N ≤ r ↔ ¬ r.toNat < min (n % 2 ^ 64) cap.size := by
    rw [BitVec.le_def, toNat_available, Nat.not_lt]
  simp only [tryGet, loadHeader, Prog.load_bind, Prog.ret_bind, Prog.run_load, hheader]
  by_cases hr : r.toNat < min (n % 2 ^ 64) cap.size
  · rw [if_neg (not_not_intro hr ∘ hle.mp), if_pos hr, tryReadSlot, tryReadSlotFrom,
      if_pos (BitVec.le_def.mpr (Nat.zero_le _)), Prog.run_bind, run_readAttempt (quiet_seq_even cap vals n _)]
    exact congrArg (some ∘ some) (quiet_data cap vals n rfl hr)
  · rw [if_pos (hle.mpr hr), if_neg hr]
    rfl

end Quiet

/-- The bounded history: all values inserted so far, oldest first, of which the last
`size` can be asked for. -/
structure History (α : Type) (size : ℕ) where
  inserted : List α

namespace History
variable {α : Type} {size : ℕ} (h : History α size)

def insert (v : α) : History α size := ⟨h.inserted ++ [v]⟩

def totalWrites : ℕ := h.inserted.length

def available : ℕ := min h.totalWrites size

def tryGet (r : ℕ) : Option α :=
  if r < h.available then h.inserted[h.totalWrites - 1 - r]? else none

def latest? : Option α := h.inserted.getLast?

/-- How many values went into slot `i`. -/
def slotWrites (i : ℕ) : ℕ := Nat.count (fun k => k % size = i) h.totalWrites

end History

/-- The quiet segment `m` represents the history `h`. -/
def Represents (m : Segment F) (h : History F.T cap.size) : Prop :=
  ∃ vals : ℕ → F.T, (∀ k v, h.inserted[k]? = some v → vals k = v) ∧
    m = quiet cap vals h.totalWrites

theorem represents_zeroed : Represents cap (Region.zeroed F.zero) ⟨[]⟩ :=
  ⟨fun _ => F.valueInit, by simp, rfl⟩

private theorem content_congr {α : Type} {size i n : ℕ} {empty : α} {vals vals' : ℕ → α}
    (h : ∀ k < n, vals k = vals' k) :
    content size empty vals i n = content size empty vals' i n := by
  induction n with
  | zero => rfl
  | succ n ih =>
    rw [content, content, h n (by omega), ih (fun k hk => h k (by omega))]

variable {cap}

theorem Represents.insert {m : Segment F} {h : History F.T cap.size} (hm : Represents cap m h)
    (v : F.T) : Represents cap (finish memory (insert cap v) m) (h.insert v) := by
  obtain ⟨vals, hvals, rfl⟩ := hm
  refine ⟨Function.update vals h.totalWrites v, ?_, ?_⟩
  · intro k w hk
    rw [History.insert, List.getElem?_append] at hk
    split at hk
    · rename_i hlt
      have hne : k ≠ h.totalWrites := hlt.ne
      rw [Function.update_of_ne hne, hvals k w hk]
    · rename_i hge
      obtain ⟨hlt, hw⟩ := List.getElem?_eq_some_iff.mp hk
      simp only [List.length_singleton, List.getElem_singleton] at hlt hw
      obtain rfl : k = h.totalWrites := by
        rw [History.totalWrites]
        omega
      rw [Function.update_self, hw]
  · have hquiet : quiet cap vals h.totalWrites =
        quiet cap (Function.update vals h.totalWrites v) h.totalWrites := by
      simp only [quiet, Region.mk.injEq, true_and]
      funext i
      apply content_congr
      intro k hk
      rw [Function.update_of_ne (by omega)]
    have hfinish := finish_insert cap (Function.update vals h.totalWrites v) h.totalWrites
    rw [Function.update_self] at hfinish
    rw [hquiet, hfinish]
    simp [History.insert, History.totalWrites]

/-- The segment after a succession of writer objects, each attached after the one
before it is gone, has made its insertions. -/
def insertAll (cap : Capacity) (sessions : List (List F.T)) : Segment F :=
  sessions.foldl (fun m session => session.foldl (fun m v => finish memory (insert cap v) m) m)
    (Region.zeroed F.zero)

private theorem Represents.session {m : Segment F} {h : List F.T} (hm : Represents cap m ⟨h⟩)
    (session : List F.T) : Represents cap
      (session.foldl (fun m v => finish memory (CyclicBuffer.insert cap v) m) m)
      ⟨h ++ session⟩ := by
  induction session generalizing m h with
  | nil => simpa using hm
  | cons v session ih =>
    have hv := ih (hm.insert v)
    rw [List.append_assoc] at hv
    exact hv

variable (cap) in
theorem represents_insertAll (sessions : List (List F.T)) :
    Represents cap (insertAll cap sessions) ⟨sessions.flatten⟩ := by
  suffices hall : ∀ (m : Segment F) (h : List F.T), Represents cap m ⟨h⟩ → Represents cap
      (sessions.foldl (fun m session =>
        session.foldl (fun m v => finish memory (insert cap v) m) m) m)
      ⟨h ++ sessions.flatten⟩ by
    exact hall _ [] (represents_zeroed cap)
  induction sessions with
  | nil =>
    intro m h hm
    simpa using hm
  | cons session sessions ih =>
    intro m h hm
    have hs := ih _ _ (hm.session session)
    rw [List.append_assoc] at hs
    exact hs

private theorem History.getElem?_of_lt {α : Type} {size : ℕ} (h : History α size) {r : ℕ}
    (hr : r < h.totalWrites) : ∃ v, h.inserted[h.totalWrites - 1 - r]? = some v := by
  have hlt : h.totalWrites - 1 - r < h.inserted.length := by
    rw [totalWrites] at hr ⊢
    omega
  exact ⟨_, List.getElem?_eq_getElem hlt⟩

section Queries
variable {m : Segment F} {h : History F.T cap.size} (hm : Represents cap m h)
variable (hn : h.totalWrites < 2 ^ 64) (fuel : ℕ)
include hm hn

theorem Represents.run_totalWrites :
    ((totalWrites F).run (memory.read m)).map BitVec.toNat = some h.totalWrites := by
  obtain ⟨vals, -, rfl⟩ := hm
  rw [CyclicBuffer.run_totalWrites, Option.map_some, BitVec.toNat_ofNat, Nat.mod_eq_of_lt hn]

theorem Represents.run_available :
    ((available F cap).run (memory.read m)).map BitVec.toNat = some h.available := by
  obtain ⟨vals, -, rfl⟩ := hm
  rw [CyclicBuffer.run_available, Option.map_some, toNat_available, Nat.mod_eq_of_lt hn]
  rfl

theorem Represents.run_tryGet (r : BitVec 64) (maxRetries : BitVec 32) :
    (tryGet F cap (fuel + 1) r maxRetries).run (memory.read m) = some (h.tryGet r.toNat) := by
  obtain ⟨vals, hvals, rfl⟩ := hm
  rw [CyclicBuffer.run_tryGet, History.tryGet, History.available, Nat.mod_eq_of_lt hn]
  congr 1
  split
  · rename_i hr
    obtain ⟨v, hv⟩ := h.getElem?_of_lt (hr.trans_le (Nat.min_le_left _ _))
    rw [hv, hvals _ _ hv]
  · rfl

theorem Represents.run_get {r : BitVec 64} (hr : r.toNat < h.available) :
    (get F cap (fuel + 1) r).run (memory.read m) = h.tryGet r.toNat := by
  obtain ⟨vals, hvals, rfl⟩ := hm
  obtain ⟨v, hv⟩ := h.getElem?_of_lt (hr.trans_le (Nat.min_le_left _ _))
  rw [CyclicBuffer.run_get cap vals _ fuel (by rwa [Nat.mod_eq_of_lt hn]), History.tryGet,
    if_pos hr, hv, hvals _ _ hv]

theorem Represents.run_getLatest :
    (getLatest F cap (fuel + 1)).run (memory.read m) = some (h.latest?.getD F.valueInit) := by
  obtain ⟨vals, hvals, rfl⟩ := hm
  rw [CyclicBuffer.run_getLatest, Nat.mod_eq_of_lt hn, History.latest?, List.getLast?_eq_getElem?]
  by_cases hzero : h.totalWrites = 0
  · have hnil : h.inserted = [] := List.length_eq_zero_iff.mp hzero
    rw [if_pos hzero, hnil]
    rfl
  · obtain ⟨v, hv⟩ := h.getElem?_of_lt (Nat.pos_of_ne_zero hzero)
    have hlast : h.inserted[h.inserted.length - 1]? = some v := hv
    have hval : vals (h.totalWrites - 1) = v := hvals _ _ hv
    rw [if_neg hzero, hlast, hval]
    rfl

omit hn in
theorem Represents.seq_eq (i : BitVec 64) :
    m.seq i &&& 1 = 0 ∧ (m.seq i).toNat = 2 * h.slotWrites i.toNat % 2 ^ 32 := by
  obtain ⟨vals, -, rfl⟩ := hm
  refine ⟨quiet_seq_even cap vals _ i, ?_⟩
  rw [quiet, BitVec.toNat_ofNat]
  rfl

end Queries

/-- The ring refines the bounded history. After any succession of writer objects has made
fewer than `2 ^ 64` insertions, and with no insertion going on, every query answers as the
list of the inserted values does, and the counter of every slot is even and counts the
insertions into it. -/
theorem queries_refine_history (sessions : List (List F.T))
    (hn : sessions.flatten.length < 2 ^ 64) (fuel : ℕ) :
    let m := insertAll cap sessions
    let h : History F.T cap.size := ⟨sessions.flatten⟩
    ((totalWrites F).run (memory.read m)).map BitVec.toNat = some h.totalWrites ∧
    ((available F cap).run (memory.read m)).map BitVec.toNat = some h.available ∧
    (∀ r maxRetries, (tryGet F cap (fuel + 1) r maxRetries).run (memory.read m) =
      some (h.tryGet r.toNat)) ∧
    (getLatest F cap (fuel + 1)).run (memory.read m) = some (h.latest?.getD F.valueInit) ∧
    (∀ r : BitVec 64, r.toNat < h.available →
      (get F cap (fuel + 1) r).run (memory.read m) = h.tryGet r.toNat) ∧
    ∀ i, m.seq i &&& 1 = 0 ∧ (m.seq i).toNat = 2 * h.slotWrites i.toNat % 2 ^ 32 := by
  intro m h
  have hm : Represents cap m h := represents_insertAll cap sessions
  refine ⟨hm.run_totalWrites hn, hm.run_available hn, hm.run_tryGet hn fuel,
    hm.run_getLatest hn fuel, ?_, hm.seq_eq⟩
  intro r hr
  exact hm.run_get hn fuel hr

/-- Two writer objects, three insertions into two slots: `try_get(1)` is the second one. -/
theorem queries_refine_history_threeWrites :
    (tryGet oneWord capacityTwo 1 1 4).run
      (memory.read (insertAll capacityTwo [[tens 0, tens 1], [tens 2]])) =
        some (some (tens 1)) :=
  (queries_refine_history [[tens 0, tens 1], [tens 2]] (by decide) 0).2.2.1 1 4

end SafeShm.CyclicBuffer
