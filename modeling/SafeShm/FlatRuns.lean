import SafeShm.FlatSegments
import SafeShm.RunSimulations
import SafeShm.Seqlock
import SafeShm.UnlappedReads

/-!
# Runs over the bytes of a segment

The programs of the ring and of the seqlock, run on the bytes of a zero-filled segment at the
offsets of the layouts, go through the same states as over the structured regions. The words of
`memcpy` are bytes here, and the bytes behind the region stay zero.
-/

namespace SafeShm.ByteLayouts
open AtomicPrograms SingleWriterRuns SequenceLocks RingSlots ByteMemory
open CyclicBuffer (Place Command Segment ReadProgram ReadCall insert writers published completed)

variable {P : Payload} {ι : Type} [DecidableEq ι] {A : ι → Type}

section Ring
variable {cap : Capacity}

/-- The bytes hold the region, and the bytes behind it are zero. -/
structure HoldsAlone (P : Payload) (cap : Capacity) (m : Bytes) (r : Segment P.flat) : Prop where
  holds : Holds P cap m r
  behind : ∀ a, (CyclicRegion.totalSize P cap).toNat ≤ a → m a = 0

private theorem valid_of_storesInRing {c : Command P.flat} (hc : StoresInRing cap c) {p : Piece}
    (hp : p ∈ pieceOf P c) : p.Valid cap := by
  cases c with
  | header u v =>
    cases hp
    trivial
  | seq i v =>
    cases hp
    exact hc
  | word i j w =>
    cases hp
    exact hc
  | wake => cases hp

theorem simulates_ring (hfits : CyclicRegion.Fits P cap) :
    Simulates (byteMemory P) memory (InRing cap) (StoresInRing cap) (HoldsAlone P cap) where
  read _ _ _ h hl := h.holds.read hl
  write m r c h hc := by
    refine ⟨h.holds.write hfits hc, ?_⟩
    intro a ha
    rw [write_of_notMem, h.behind a ha]
    intro p hp hap
    have hlt := piece_inside hfits (valid_of_storesInRing hc hp) hap
    exact absurd (Set.mem_Iio.mp hlt) (Nat.not_lt_of_le ha)

theorem holdsAlone_zeros : HoldsAlone P cap (fun _ => 0) (Region.zeroed 0) :=
  ⟨⟨load_zeros, fun _ _ => load_zeros, fun _ _ _ => rfl⟩, fun _ _ => rfl⟩

/-- The run of the writer and of the readers on the bytes of a zero-filled segment. -/
def byteStates (cap : Capacity) (vals : ℕ → P.flat.T) (sched : ℕ → Party ι)
    (readers : (i : ι) → ReadProgram P.flat (A i)) :
    ℕ → System (Place P.flat) (Val (BitVec 8)) (Command P.flat) Bytes ι A :=
  (System.start (fun _ => 0) readers).after (byteMemory P) (fun k => insert cap (vals k)) sched

variable {vals : ℕ → P.flat.T} {sched : ℕ → Party ι}
variable {readers : (i : ι) → ReadProgram P.flat (A i)}

private theorem ring_alike (hfits : CyclicRegion.Fits P cap)
    (hreaders : ∀ i, (readers i).LoadsIn (InRing cap)) (t : ℕ) :
    Alike (InRing cap) (StoresInRing cap) (HoldsAlone P cap) (byteStates cap vals sched readers t)
      (CyclicBuffer.states cap vals sched readers t) :=
  alike_after (simulates_ring hfits) (fun k => within_insert_ring (vals k)) holdsAlone_zeros
    hreaders sched t

variable (vals sched) in
/-- A ring in bytes runs as the structured ring. If the region fits into the address space, then
the writer and all readers, whatever they load of the header and of the `N` slots, are at every
instant where they are over the structured region, and the bytes hold that region. The bytes behind
`total_size` stay zero. A counter is loaded and stored at once, whether it is aligned or not. -/
theorem ring_runs_on_bytes (hfits : CyclicRegion.Fits P cap)
    (hreaders : ∀ i, (readers i).LoadsIn (InRing cap)) (t : ℕ) :
    let s := byteStates cap vals sched readers t
    let s' := CyclicBuffer.states cap vals sched readers t
    s.writer = s'.writer ∧ s.reader = s'.reader ∧ Holds P cap s.mem s'.mem ∧
      load 8 s.mem 0 = BitVec.ofNat 64 (published s.writer) ∧
      ∀ a, (CyclicRegion.totalSize P cap).toNat ≤ a → s.mem a = 0 := by
  intro s s'
  have h : Alike (InRing cap) (StoresInRing cap) (HoldsAlone P cap) s s' :=
    ring_alike hfits hreaders t
  refine ⟨h.writer, h.reader, h.mem.holds, ?_, h.mem.behind⟩
  rw [h.mem.holds.header, h.writer]
  exact CyclicBuffer.segments_header cap vals sched readers t

/-- The slots that the calls compute are slots of the ring. -/
theorem loadsIn_readCall (cap : Capacity) (fuel : ℕ) (call : ReadCall) :
    (call.prog P.flat cap fuel).LoadsIn (InRing cap) := by
  have hslot : ∀ x : BitVec 64, ∀ l, OfCell (x &&& (cap.N - 1)) l → InRing (P := P) cap l := by
    intro x l hl
    have hlt : x &&& (cap.N - 1) < cap.N := by
      rw [BitVec.lt_def, cap.toNat_and_mask]
      exact Nat.mod_lt _ cap.size_pos
    cases l with
    | header u => trivial
    | seq c =>
      obtain rfl : c = _ := hl
      exact hlt
    | word c j =>
      obtain rfl : c = _ := hl
      exact hlt
  have hread : ∀ x : BitVec 64,
      (CyclicBuffer.readSlot P.flat fuel (x &&& (cap.N - 1))).LoadsIn (InRing cap) :=
    fun x => (loadsIn_spinRead fuel _ _).mono (hslot x)
  cases call with
  | getLatest =>
    simp only [ReadCall.prog, CyclicBuffer.getLatest, loadHeader, Prog.load_bind, Prog.ret_bind]
    refine ⟨trivial, fun writes => ?_⟩
    dsimp only
    split
    · trivial
    · exact (hread _).bind fun _ => trivial
  | get r =>
    simp only [ReadCall.prog, CyclicBuffer.get, loadHeader, Prog.load_bind, Prog.ret_bind]
    exact ⟨trivial, fun writes => (hread _).bind fun _ => trivial⟩
  | tryGet r maxRetries =>
    simp only [ReadCall.prog, CyclicBuffer.tryGet, loadHeader, Prog.load_bind, Prog.ret_bind]
    refine ⟨trivial, fun writes => ?_⟩
    dsimp only
    split
    · trivial
    · exact (CyclicBuffer.loadsIn_tryReadSlotFrom _ _ _ _ _).mono (hslot _)

/-- What a call returns, for any index, is the whole value of an insertion, but for a `get_latest`
of a ring without insertions, and for a `get` of an index that is out of range. -/
private theorem readCall_whole {fuel b : ℕ} {call : ReadCall} {log : List (Event (Place P.flat))}
    {v : P.flat.T} (hexec : Exec memory.read (CyclicBuffer.segments cap vals sched readers) 0
      (call.prog P.flat cap fuel) log b (some v))
    (hfew : (writers cap vals sched readers b).begun < 2 ^ 31) :
    (∃ u < b, call = .getLatest ∧ published (writers cap vals sched readers u) = 0 ∧
        v = P.valueInit) ∨
      (∃ u < b, ∃ r, call = .get r ∧
        min (published (writers cap vals sched readers u)) cap.size ≤ r.toNat ∧
        v = fun _ => 0) ∨
      ∃ m < (writers cap vals sched readers b).begun, v = vals m := by
  obtain ⟨t₀, hhead, -, hcases⟩ := CyclicBuffer.exec_readCall_cases hexec
  have ht₀ : t₀ < b := (hexec.mem_log _ (List.mem_of_head? hhead)).2
  have hheader : ((CyclicBuffer.segments cap vals sched readers t₀).header ()).toNat =
      published (writers cap vals sched readers t₀) := by
    have hle := CyclicBuffer.completed_le_begun_of_le cap vals sched readers ht₀.le
    have hpub := CyclicBuffer.published_le_completed (writers cap vals sched readers t₀)
    rw [CyclicBuffer.toNat_header]
    omega
  rcases hcases with ⟨hlatest, hzero, hv⟩ | ⟨hsome, tb, ta, -, hread⟩
  · rw [hzero] at hheader
    exact .inl ⟨t₀, ht₀, hlatest, hheader.symm, hv⟩
  have hhits := CyclicBuffer.hitsWithin_lt cap vals sched readers hexec hfew
  have hthere : call.reverseIndex.toNat < min ((CyclicBuffer.segments cap vals sched readers
      t₀).header ()).toNat cap.size →
        ∃ m < (writers cap vals sched readers b).begun, v = vals m := by
    intro hr
    obtain ⟨i, tb, ta, m, -, -, -, hta, hread, hv, hm, -⟩ :=
      CyclicBuffer.readCall_value cap vals sched readers hexec hhead hr hhits
    have hle := CyclicBuffer.completed_le_begun_of_le cap vals sched readers
      (hread.le.trans hta.le)
    exact ⟨m, hm.trans_le hle, hv⟩
  cases call with
  | getLatest =>
    refine .inr (.inr (hthere ?_))
    have hne := hsome rfl
    rw [← BitVec.toNat_ne_iff_ne] at hne
    exact lt_min (Nat.pos_of_ne_zero hne) cap.size_pos
  | get r =>
    by_cases hr : r.toNat < min ((CyclicBuffer.segments cap vals sched readers
        t₀).header ()).toNat cap.size
    · exact .inr (.inr (hthere hr))
    rw [hheader, Nat.not_lt] at hr
    obtain ⟨hv, -⟩ := CyclicBuffer.cleanRead_content cap vals sched readers hread
      (CyclicBuffer.ver_lt_of_hitsWithin cap vals sched readers (hhits _ tb ta hread.attempt))
    rcases content_cases (fun _ => P.flat.zero) vals _ _ with hempty | ⟨m, hm, heq⟩
    · exact .inr (.inl ⟨t₀, ht₀, r, rfl, hr, hv.trans hempty⟩)
    · have hta := (hexec.mem_log _ hread.attempt.mem_log.2).2
      have hle := CyclicBuffer.completed_le_begun_of_le cap vals sched readers
        (hread.le.trans hta.le)
      exact .inr (.inr ⟨m, hm.trans_le hle, hv.trans heq⟩)
  | tryGet r maxRetries =>
    exact .inr (.inr (hthere (CyclicBuffer.lt_of_exec_tryGet hexec hhead)))

/-- A payload of four bytes, the first of which has the default initialiser 7. -/
def fourBytes : Payload :=
  ⟨4, 4, fun j => if j.val = 0 then 7 else 0, ⟨2, rfl⟩, by decide, by decide⟩

theorem fits_ring_fourBytes : CyclicRegion.Fits fourBytes capacityTwo := by
  unfold CyclicRegion.Fits
  decide

/-- One reader calls `get_latest` before the first insertion, and the other one after it. -/
abbrev beforeAndAfter : ℕ → Party Bool :=
  blocks [(.reader false, 2), (.writer, 10), (.reader true, 20)]

abbrev latestOf (_ : Bool) : ReadProgram fourBytes.flat (Option fourBytes.flat.T) :=
  ReadCall.getLatest.prog fourBytes.flat capacityTwo 1

theorem ring_runs_on_bytes_oneInsertion :
    let s := byteStates capacityTwo bytesFrom beforeAndAfter latestOf 20
    published s.writer = 1 ∧ load 8 s.mem 0 = 1 ∧ s.mem 64 = 0 := by
  have hrun := ring_runs_on_bytes bytesFrom beforeAndAfter fits_ring_fourBytes
    (fun _ : Bool => loadsIn_readCall capacityTwo 1 .getLatest) 20
  have hone : published (byteStates capacityTwo bytesFrom beforeAndAfter latestOf 20).writer = 1 := by
    decide +kernel
  obtain ⟨-, -, -, hheader, hbehind⟩ := hrun
  exact ⟨hone, by rw [hheader, hone]; rfl, hbehind 64 (by decide)⟩

end Ring

section Seqlock

/-- Loads and stores at the offsets of `SeqlockRegion`. -/
def seqlockBytes (P : Payload) : Memory (Loc Empty Unit P.flat.words) (Val (BitVec 8))
    (Cmd Empty Unit P.flat.words (BitVec 8)) Bytes where
  read m
    | .header h => h.elim
    | .seq _ => load 4 m 0
    | .word _ j => m ((SeqlockRegion.dataOffset P).toNat + j)
  write m
    | .header h _ => h.elim
    | .seq _ v => store 4 m 0 v
    | .word _ j w => Function.update m ((SeqlockRegion.dataOffset P).toNat + j) w
    | .wake => m

/-- The bytes hold the counter and the payload, and the bytes behind the region are zero. -/
structure SeqlockHolds (P : Payload) (m : Bytes) (r : Seqlock.Segment P.flat) : Prop where
  seq : load 4 m 0 = r.seq ()
  data : ∀ j : Fin P.sizeof.toNat, m ((SeqlockRegion.dataOffset P).toNat + j) = r.data () j
  behind : ∀ a, (SeqlockRegion.totalSize P).toNat ≤ a → m a = 0

theorem simulates_seqlock (hfits : SeqlockRegion.Fits P) :
    Simulates (seqlockBytes P) memory (fun _ => True) (fun _ => True) (SeqlockHolds P) := by
  have hle : (4 : BitVec 64).toNat ≤ (SeqlockRegion.dataOffset P).toNat :=
    P.le_roundUp (by decide)
  rw [show (4 : BitVec 64).toNat = 4 from rfl] at hle
  have htotal : (SeqlockRegion.totalSize P).toNat =
      (SeqlockRegion.dataOffset P).toNat + P.sizeof.toNat := by
    rw [SeqlockRegion.totalSize, BitVec.toNat_add, Nat.mod_eq_of_lt hfits]
  constructor
  · intro m r l h _
    cases l with
    | header h => exact h.elim
    | seq c => exact h.seq
    | word c j => exact h.data j
  · intro m r c h _
    cases c with
    | header h v => exact h.elim
    | seq c v =>
      -- the payload and what is behind it lie apart from the counter
      have hapart : ∀ a, 4 ≤ a → store 4 m 0 v a = m a := by
        intro a ha
        apply store_of_notMem (n := 4)
        rw [Set.mem_Ico]
        omega
      refine ⟨(load_store (n := 4) v).trans (Function.update_self c v r.seq).symm, ?_, ?_⟩
      · intro j
        exact (hapart _ (by omega)).trans (h.data j)
      · intro a ha
        exact (hapart a (by omega)).trans (h.behind a ha)
    | word c j w =>
      refine ⟨?_, ?_, ?_⟩
      · refine Eq.trans (load_congr (n := 4) ?_) h.seq
        intro a ha
        rw [Set.mem_Ico] at ha
        exact Function.update_of_ne (by omega) ..
      · intro j'
        by_cases hj : j' = j
        · subst hj
          simp [seqlockBytes, memory]
        · have hval : (SeqlockRegion.dataOffset P).toNat + j' ≠
              (SeqlockRegion.dataOffset P).toNat + j := by
            intro heq
            exact hj (Fin.ext (Nat.add_left_cancel heq))
          simp only [seqlockBytes, memory, Function.update_self, Function.update_of_ne hval,
            Function.update_of_ne hj]
          exact h.data j'
      · intro a ha
        have hne : a ≠ (SeqlockRegion.dataOffset P).toNat + j := by
          have hj : j.val < P.sizeof.toNat := j.isLt
          omega
        exact (Function.update_of_ne hne ..).trans (h.behind a ha)
    | wake => exact h

theorem seqlockHolds_zeros : SeqlockHolds P (fun _ => 0) (Region.zeroed 0) :=
  ⟨load_zeros, fun _ => rfl, fun _ _ => rfl⟩

/-- The run of the writer and of the readers on the bytes of a zero-filled segment. -/
def seqlockByteStates (vals : ℕ → P.flat.T) (sched : ℕ → Party ι)
    (readers : (i : ι) → Seqlock.ReadProgram P.flat (A i)) :
    ℕ → System (Loc Empty Unit P.flat.words) (Val (BitVec 8))
      (Cmd Empty Unit P.flat.words (BitVec 8)) Bytes ι A :=
  (System.start (fun _ => 0) readers).after (seqlockBytes P) (fun k => Seqlock.store (vals k)) sched

variable {vals : ℕ → P.flat.T} {sched : ℕ → Party ι}

private theorem within_true {B : Type}
    (p : Program Empty Unit P.flat.words (BitVec 8) (Cmd Empty Unit P.flat.words (BitVec 8)) B) :
    Within (fun _ => True) (fun _ => True) p := by
  induction p with
  | ret a => trivial
  | load l next ih => exact ⟨trivial, ih⟩
  | store c next ih => exact ⟨trivial, ih⟩
  | spin => trivial

private theorem loadsIn_true {B : Type} (p : Seqlock.ReadProgram P.flat B) :
    p.LoadsIn (fun _ => True) := by
  induction p with
  | ret a => trivial
  | load l next ih => exact ⟨trivial, ih⟩
  | store c => exact nomatch c
  | spin => trivial

private theorem seqlock_alike (hfits : SeqlockRegion.Fits P)
    (readers : (i : ι) → Seqlock.ReadProgram P.flat (A i)) (t : ℕ) :
    Alike (fun _ => True) (fun _ => True) (SeqlockHolds P) (seqlockByteStates vals sched readers t)
      (Seqlock.states vals sched readers t) :=
  alike_after (simulates_seqlock hfits) (fun _ => within_true _) seqlockHolds_zeros
    (fun _ => loadsIn_true _) sched t

variable (vals sched) in
/-- A seqlock in bytes runs as the structured one. If the region fits into the address space, the
counter in the bytes is twice the number of finished stores, plus one during a store; between two
stores the payload is that of the last one, byte for byte; every load returns the bytes of the last
store finished at some instant of the load; and nothing behind `total_size` is ever written. -/
theorem seqlock_runs_on_bytes (hfits : SeqlockRegion.Fits P) (fuel t : ℕ)
    (hfew : (seqlockByteStates vals sched (fun _ : ι => Seqlock.load P.flat fuel) t).writer.begun <
      2 ^ 31) :
    let s := seqlockByteStates vals sched (fun _ : ι => Seqlock.load P.flat fuel)
    load 4 (s t).mem 0 = BitVec.ofNat 32
        (2 * Seqlock.finished (s t).writer + Seqlock.midStore (s t).writer) ∧
      (Seqlock.midStore (s t).writer = 0 → ∀ j : Fin P.sizeof.toNat,
        (s t).mem ((SeqlockRegion.dataOffset P).toNat + j) =
          Seqlock.stored vals (Seqlock.finished (s t).writer) j) ∧
      (∀ i v, ((s t).reader i).result? = some v → ∃ u < t,
        v = Seqlock.stored vals (Seqlock.finished (s u).writer)) ∧
      ∀ a, (SeqlockRegion.totalSize P).toNat ≤ a → (s t).mem a = 0 := by
  intro s
  have h : ∀ t, Alike (fun _ => True) (fun _ => True) (SeqlockHolds P) (s t)
      (Seqlock.states vals sched (fun _ : ι => Seqlock.load P.flat fuel) t) :=
    seqlock_alike hfits _
  refine ⟨?_, ?_, ?_, (h t).mem.behind⟩
  · rw [(h t).mem.seq, (h t).writer]
    exact Seqlock.segments_seq vals sched _ t
  · intro hmid j
    rw [(h t).writer] at hmid
    rw [(h t).mem.data, (h t).writer]
    exact congrFun (Seqlock.segments_data vals sched _ hmid) j
  · intro i v hv
    rw [(h t).reader] at hv
    obtain ⟨log, hexec⟩ := Seqlock.exec_of_states vals sched
      (fun _ : ι => Seqlock.load P.flat fuel) i v t hv
    obtain ⟨u, -, hut, hvalue⟩ := Seqlock.exec_load_value vals sched _ hexec (by
      intro tb ta hatt
      have hta := (hexec.mem_log _ hatt.mem_log.2).2
      have hle : (Seqlock.states vals sched (fun _ : ι => Seqlock.load P.flat fuel)
          ta).writer.begun ≤ (Seqlock.states vals sched (fun _ : ι => Seqlock.load P.flat fuel)
            t).writer.begun := begun_mono memory _ _ sched _ hta.le
      have hbegun : (s t).writer.begun < 2 ^ 31 := hfew
      rw [(h t).writer] at hbegun
      rw [Seqlock.storesWithin]
      omega)
    exact ⟨u, hut, by rw [hvalue, (h u).writer]⟩

/-- One store of three bytes, then a load. -/
abbrev storedThenLoaded : ℕ → Party Unit := blocks [(.writer, 7), (.reader (), 20)]

theorem seqlock_runs_on_bytes_oneStore :
    let s := seqlockByteStates bytesFrom storedThenLoaded
      (fun _ => Seqlock.load threeBytes.flat 1) 12
    load 4 s.mem 0 = 2 ∧ (s.reader ()).result? = some (bytesFrom 0) ∧ s.mem 7 = 0 := by
  have hfits : SeqlockRegion.Fits threeBytes := by
    unfold SeqlockRegion.Fits
    decide
  obtain ⟨hseq, -, -, hbehind⟩ := seqlock_runs_on_bytes bytesFrom
    storedThenLoaded hfits 1 12 (by decide +kernel)
  refine ⟨hseq.trans (by decide +kernel), by decide +kernel, hbehind 7 (by decide)⟩

end Seqlock

end SafeShm.ByteLayouts
