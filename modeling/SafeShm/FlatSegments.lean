import SafeShm.ByteLayouts

/-!
# The cyclic buffer over an array of bytes

The programs of the cyclic buffer run here on the bytes of the segment, at the offsets of
`CyclicRegion`. As long as the region fits into the address space, the bytes and the region of
header, counters and cells hold the same values after the same stores (`Holds`), so that what is
known of the region is known of the bytes.
-/

namespace SafeShm.ByteLayouts
open AtomicPrograms SingleWriterRuns SequenceLocks ByteMemory CyclicBuffer

/-- The payload type as the bytes that `memcpy` moves. -/
abbrev Payload.flat (P : Payload) : FlatType := ⟨P.sizeof.toNat, BitVec 8, 0, P.valueInit⟩

section Memory
variable (P : Payload)

/-- Loads and stores at the offsets of `CyclicRegion`. The four bytes of a counter and the eight of
the header are loaded and stored at once, as an aligned atomic access does it; which counters are
aligned says `CyclicRegion.four_dvd_slotSeq_iff`. -/
def byteMemory : Memory (Place P.flat) (Val (BitVec 8)) (Command P.flat) Bytes where
  read m
    | .header _ => load 8 m 0
    | .seq c => load 4 m (CyclicRegion.slotSeq P c).toNat
    | .word c j => m ((CyclicRegion.slotData P c).toNat + j)
  write m
    | .header _ v => store 8 m 0 v
    | .seq c v => store 4 m (CyclicRegion.slotSeq P c).toNat v
    | .word c j w => Function.update m ((CyclicRegion.slotData P c).toNat + j) w
    | .wake => m

def pieceOf : Command P.flat → Option Piece
  | .header _ _ => some .header
  | .seq c _ => some (.seq c)
  | .word c _ _ => some (.data c)
  | .wake => none

variable {P} {m : Bytes} {a : ℕ}

theorem write_of_notMem (c : Command P.flat) (h : ∀ p ∈ pieceOf P c, a ∉ p.bytes P) :
    (byteMemory P).write m c a = m a := by
  cases c with
  | header u v => exact store_of_notMem (n := 8) v (h .header rfl)
  | seq i v => exact store_of_notMem (n := 4) v (h (.seq i) rfl)
  | word i j w =>
    apply Function.update_of_ne
    rintro rfl
    exact h (.data i) rfl (Set.mem_Ico.mpr ⟨Nat.le_add_right _ _, Nat.add_lt_add_left j.isLt _⟩)
  | wake => rfl

end Memory

section Refinement
variable {P : Payload} {cap : Capacity}

/-- The bytes hold the header, the counters and the payloads of the region. -/
structure Holds (P : Payload) (cap : Capacity) (m : Bytes) (r : Segment P.flat) : Prop where
  header : load 8 m 0 = r.header ()
  seq : ∀ i < cap.N, load 4 m (CyclicRegion.slotSeq P i).toNat = r.seq i
  data : ∀ i < cap.N, ∀ j : Fin P.sizeof.toNat,
    m ((CyclicRegion.slotData P i).toNat + j) = r.data i j

def InRing (cap : Capacity) : Place P.flat → Prop
  | .header _ => True
  | .seq c | .word c _ => c < cap.N

def StoresInRing (cap : Capacity) : Command P.flat → Prop
  | .header _ _ | .wake => True
  | .seq c _ | .word c _ _ => c < cap.N

theorem Holds.read {m : Bytes} {r : Segment P.flat} (h : Holds P cap m r) {l : Place P.flat}
    (hl : InRing cap l) : (byteMemory P).read m l = memory.read r l := by
  cases l with
  | header u => exact h.header
  | seq i => exact h.seq i hl
  | word i j => exact h.data i hl j

section Stores
variable (hfits : CyclicRegion.Fits P cap) {m : Bytes} {c : Command P.flat}
variable (hc : StoresInRing cap c)
include hfits hc

theorem write_apart {p : Piece} (hp : p.Valid cap) (hne : pieceOf P c ≠ some p) :
    ∀ a ∈ p.bytes P, (byteMemory P).write m c a = m a := by
  intro a ha
  apply write_of_notMem
  intro q hq haq
  have hvalid : q.Valid cap := by
    cases c <;> simp only [pieceOf, Option.mem_def, Option.some.injEq, reduceCtorEq] at hq
    all_goals
      subst hq
      exact hc
  have hpq : p ≠ q := by
    rintro rfl
    exact hne hq
  exact Set.disjoint_left.mp (pieces_disjoint hfits hp hvalid hpq) ha haq

private theorem Holds.header_write {r : Segment P.flat} (h : Holds P cap m r) :
    load 8 ((byteMemory P).write m c) 0 = (memory.write r c).header () := by
  by_cases hown : pieceOf P c = some .header
  · cases c with
    | header u v => exact (load_store (n := 8) v).trans (Function.update_self () v r.header).symm
    | _ => simp [pieceOf] at hown
  · refine Eq.trans (load_congr (n := 8) (write_apart (p := .header) hfits hc trivial hown)) ?_
    rw [h.header]
    cases c with
    | header u v => exact absurd rfl hown
    | _ => rfl

private theorem Holds.seq_write {r : Segment P.flat} (h : Holds P cap m r) {i : BitVec 64}
    (hi : i < cap.N) :
    load 4 ((byteMemory P).write m c) (CyclicRegion.slotSeq P i).toNat =
      (memory.write r c).seq i := by
  by_cases hown : pieceOf P c = some (.seq i)
  · cases c with
    | seq i' v =>
      obtain rfl : i' = i := by simpa [pieceOf] using hown
      exact (load_store (n := 4) v).trans (Function.update_self i' v r.seq).symm
    | _ => simp [pieceOf] at hown
  · refine Eq.trans (load_congr (n := 4) (write_apart (p := .seq i) hfits hc hi hown)) ?_
    rw [h.seq i hi]
    cases c with
    | seq i' v =>
      have hne : i ≠ i' := fun heq => hown (heq ▸ rfl)
      exact (Function.update_of_ne hne ..).symm
    | _ => rfl

private theorem Holds.data_write {r : Segment P.flat} (h : Holds P cap m r) {i : BitVec 64}
    (hi : i < cap.N) (j : Fin P.sizeof.toNat) :
    (byteMemory P).write m c ((CyclicRegion.slotData P i).toNat + j) =
      (memory.write r c).data i j := by
  have hin : (CyclicRegion.slotData P i).toNat + j ∈ Piece.bytes P (.data i) :=
    Set.mem_Ico.mpr ⟨Nat.le_add_right _ _, Nat.add_lt_add_left j.isLt _⟩
  by_cases hown : pieceOf P c = some (.data i)
  · cases c with
    | word i' j' w =>
      obtain rfl : i' = i := by simpa [pieceOf] using hown
      by_cases hj : j = j'
      · subst hj
        simp [byteMemory, memory]
      · have hval : (CyclicRegion.slotData P i').toNat + j ≠
            (CyclicRegion.slotData P i').toNat + j' := by
          intro heq
          exact hj (Fin.ext (Nat.add_left_cancel heq))
        simp only [byteMemory, memory, Function.update_self, Function.update_of_ne hval,
          Function.update_of_ne hj]
        exact h.data i' hi j
    | _ => simp [pieceOf] at hown
  · rw [write_apart (p := .data i) hfits hc hi hown _ hin, h.data i hi j]
    cases c with
    | word i' j' w =>
      have hne : i ≠ i' := fun heq => hown (heq ▸ rfl)
      simp [memory, hne]
    | _ => rfl

theorem Holds.write {r : Segment P.flat} (h : Holds P cap m r) :
    Holds P cap ((byteMemory P).write m c) (memory.write r c) where
  header := h.header_write hfits hc
  seq _ hi := h.seq_write hfits hc hi
  data _ hi j := h.data_write hfits hc hi j

end Stores

def OnSlot (idx : BitVec 64) : Command P.flat → Prop
  | .header _ _ | .wake => True
  | .seq c _ | .word c _ _ => c = idx

theorem within_copyIn {S : Place P.flat → Prop} (idx : BitVec 64) (v : P.flat.T)
    (js : List (Fin P.flat.words)) : Within S (OnSlot idx) (copyIn idx v js) := by
  induction js with
  | nil => exact trivial
  | cons j js ih => exact ⟨rfl, ih⟩

variable (cap) in
theorem within_insert (v : P.flat.T) (writes : BitVec 64) :
    writes &&& (cap.N - 1) < cap.N ∧
      Within (InRing cap) (OnSlot (writes &&& (cap.N - 1))) (do
        lockedStore (writes &&& (cap.N - 1)) v
        issue (.header () (writes + 1))
        issue .wake : WriteProgram P.flat Unit) := by
  have hidx : writes &&& (cap.N - 1) < cap.N := by
    rw [BitVec.lt_def, cap.toNat_and_mask]
    exact Nat.mod_lt _ cap.size_pos
  refine ⟨hidx, ?_⟩
  apply Within.bind
  · refine ⟨hidx, fun cur => ⟨rfl, ?_⟩⟩
    exact (within_copyIn _ v _).bind fun _ => ⟨rfl, trivial⟩
  · exact fun _ => ⟨trivial, trivial, trivial⟩

theorem within_insert_ring (v : P.flat.T) : Within (InRing cap) (StoresInRing cap)
    (insert cap v : WriteProgram P.flat Unit) := by
  refine ⟨trivial, fun writes => ?_⟩
  obtain ⟨hidx, hbody⟩ := within_insert cap v writes
  apply hbody.mono
  intro c hc
  cases c with
  | header u v => exact trivial
  | seq i w =>
    rw [show i = _ from hc]
    exact hidx
  | word i j w =>
    rw [show i = _ from hc]
    exact hidx
  | wake => exact trivial

section Insert
variable (hfits : CyclicRegion.Fits P cap) (m : Bytes) (v : P.flat.T)

/-- `insert` on the bytes changes only the header word and the slot that it writes. -/
theorem finish_insert_of_notMem {a : ℕ} (hheader : a ∉ Piece.bytes P .header)
    (hseq : a ∉ Piece.bytes P (.seq (load 8 m 0 &&& (cap.N - 1))))
    (hdata : a ∉ Piece.bytes P (.data (load 8 m 0 &&& (cap.N - 1)))) :
    finish (byteMemory P) (insert cap v) m a = m a := by
  have hwrite : ∀ m' c, OnSlot (load 8 m 0 &&& (cap.N - 1)) c → m' a = m a →
      (byteMemory P).write m' c a = m a := by
    intro m' c hc hm'
    rw [write_of_notMem, hm']
    intro p hp
    cases c with
    | header u v =>
      cases hp
      exact hheader
    | seq i v =>
      cases hp
      rw [show i = _ from hc]
      exact hseq
    | word i j w =>
      cases hp
      rw [show i = _ from hc]
      exact hdata
    | wake => cases hp
  exact finish_invariant (Q := fun m' : Bytes => m' a = m a) hwrite
    (within_insert cap v (load 8 m 0)).2 rfl

include hfits

theorem holds_insert {r : Segment P.flat} (h : Holds P cap m r) :
    Holds P cap (finish (byteMemory P) (insert cap v) m) (finish memory (insert cap v) r) := by
  exact finish_simulates (fun _ _ _ h hl => h.read hl) (fun _ _ _ h hc => h.write hfits hc)
    (within_insert_ring v) h

def regionOf (P : Payload) (m : Bytes) : Segment P.flat where
  header _ := load 8 m 0
  seq i := load 4 m (CyclicRegion.slotSeq P i).toNat
  data i j := m ((CyclicRegion.slotData P i).toNat + j)

omit hfits in
theorem holds_regionOf : Holds P cap m (regionOf P m) :=
  ⟨rfl, fun _ _ => rfl, fun _ _ _ => rfl⟩

theorem finish_insert_data (j : Fin P.sizeof.toNat) :
    finish (byteMemory P) (insert cap v) m
      ((CyclicRegion.slotData P (load 8 m 0 &&& (cap.N - 1))).toNat + j) = v j := by
  have h := holds_insert hfits m v (holds_regionOf m)
  rw [h.data _ (within_insert cap v (load 8 m 0)).1 j, finish_insert_eq]
  simp [memory, Region.written, nextSlot, regionOf]

omit hfits in
theorem finish_copyIn_data (i : BitVec 64) (js : List (Fin P.sizeof.toNat)) (m : Bytes)
    (j : Fin P.sizeof.toNat) :
    finish (byteMemory P) (copyIn i v js) m ((CyclicRegion.slotData P i).toNat + j) =
      if j ∈ js then v j else m ((CyclicRegion.slotData P i).toNat + j) := by
  induction js generalizing m with
  | nil => rfl
  | cons j' js ih =>
    refine (ih _).trans ?_
    by_cases hmem : j ∈ js
    · rw [if_pos hmem, if_pos (List.mem_cons_of_mem _ hmem)]
    rw [if_neg hmem]
    by_cases hj : j = j'
    · subst hj
      rw [if_pos List.mem_cons_self]
      exact Function.update_self ..
    · have hval : (CyclicRegion.slotData P i).toNat + j ≠
          (CyclicRegion.slotData P i).toNat + j' := by
        intro heq
        exact hj (Fin.ext (Nat.add_left_cancel heq))
      rw [if_neg (List.not_mem_cons_of_ne_of_not_mem hj hmem)]
      exact Function.update_of_ne hval ..

/-- What `memcpy` writes into the payload of a slot is read again after any stores to other
pieces. -/
theorem foldl_write_data {i : BitVec 64} (hi : i < cap.N) (cs : List (Command P.flat))
    (hcs : ∀ c ∈ cs, StoresInRing cap c ∧ pieceOf P c ≠ some (.data i)) (j : Fin P.sizeof.toNat) :
    cs.foldl (byteMemory P).write (finish (byteMemory P) (copyIn i v (List.finRange _)) m)
      ((CyclicRegion.slotData P i).toNat + j) = v j := by
  have hcopied := finish_copyIn_data v i (List.finRange _) m j
  rw [if_pos (List.mem_finRange j)] at hcopied
  generalize finish (byteMemory P) (copyIn i v (List.finRange _)) m = m' at hcopied
  induction cs generalizing m' with
  | nil => exact hcopied
  | cons c cs ih =>
    obtain ⟨⟨hc, hne⟩, hrest⟩ := List.forall_mem_cons.mp hcs
    apply ih hrest
    rw [write_apart (p := .data i) hfits hc hi hne, hcopied]
    exact Set.mem_Ico.mpr ⟨Nat.le_add_right _ _, Nat.add_lt_add_left j.isLt _⟩

end Insert

end Refinement

/-- The flat layouts refine the structured ones. In a cyclic region that fits into the address
space, the header word, the counters and the payloads share no byte and lie inside `total_size`;
`insert` changes only the header word and the slot that it writes, its payload is read back, and the
bytes follow the structured region; what is copied into a payload is read back whatever is stored
elsewhere. In the regions of the seqlock and of `OwnedShm` the two parts lie apart and inside. -/
theorem flat_layouts_refine (P : Payload) (cap : Capacity) :
    (CyclicRegion.Fits P cap →
      (∀ p q : Piece, p.Valid cap → q.Valid cap → p ≠ q → Disjoint (p.bytes P) (q.bytes P)) ∧
      (∀ p : Piece, p.Valid cap → p.bytes P ⊆ Set.Iio (CyclicRegion.totalSize P cap).toNat) ∧
      (∀ (m : Bytes) (v : P.flat.T),
        let idx := load 8 m 0 &&& (cap.N - 1)
        let m' := finish (byteMemory P) (insert cap v) m
        (∀ a, a ∉ Piece.bytes P .header → a ∉ Piece.bytes P (.seq idx) →
            a ∉ Piece.bytes P (.data idx) → m' a = m a) ∧
          (∀ j : Fin P.sizeof.toNat, m' ((CyclicRegion.slotData P idx).toNat + j) = v j) ∧
          ∀ r, Holds P cap m r → Holds P cap m' (finish memory (insert cap v) r)) ∧
      ∀ (m : Bytes) (i : BitVec 64) (v : P.flat.T) (cs : List (Command P.flat)), i < cap.N →
        (∀ c ∈ cs, StoresInRing cap c ∧ pieceOf P c ≠ some (.data i)) →
        ∀ j : Fin P.sizeof.toNat, cs.foldl (byteMemory P).write
          (finish (byteMemory P) (copyIn i v (List.finRange _)) m)
          ((CyclicRegion.slotData P i).toNat + j) = v j) ∧
    (SeqlockRegion.Fits P → Apart SeqlockRegion.seqSize (SeqlockRegion.dataOffset P) P.sizeof
      (SeqlockRegion.totalSize P)) ∧
    (OwnedShm.Fits P → Apart OwnedShm.headerSize (OwnedShm.dataOffset P) P.sizeof
      (OwnedShm.totalSize P)) := by
  refine ⟨fun hfits => ⟨?_, ?_, ?_, ?_⟩, apart_roundUp (by decide), apart_roundUp (by decide)⟩
  · exact fun p q hp hq => pieces_disjoint hfits hp hq
  · exact fun p hp => piece_inside hfits hp
  · intro m v idx m'
    refine ⟨?_, finish_insert_data hfits m v, fun r => holds_insert hfits m v⟩
    exact fun a => finish_insert_of_notMem m v
  · exact fun m i v cs hi hcs j => foldl_write_data hfits m v hi cs hcs j

def threeBytes : Payload := ⟨1, 3, fun _ => 0, align_one, by decide, by decide⟩

/-- Sample values: the bytes from `10 * n` on. -/
def bytesFrom {P : Payload} (n : ℕ) : P.flat.T := fun j => BitVec.ofNat 8 (10 * n + j)

/-- A segment in which no insertion was counted, with other bytes than zero behind the header. -/
abbrev usedBytes (a : ℕ) : BitVec 8 := if a < 8 then 0 else 9

/-- The counter of the other slot, at offset 15, keeps its bytes. -/
theorem flat_layouts_refine_threeBytes :
    let m := finish (byteMemory threeBytes) (insert capacityTwo (bytesFrom 1)) usedBytes
    CyclicRegion.Fits threeBytes capacityTwo ∧
      Disjoint (Piece.bytes threeBytes (.data 0)) (Piece.bytes threeBytes (.seq 1)) ∧ m 15 = 9 ∧
      (∀ j : Fin 3, m ((CyclicRegion.slotData threeBytes 0).toNat + j) =
        bytesFrom (P := threeBytes) 1 j) ∧
      Holds threeBytes capacityTwo m
        (finish memory (insert capacityTwo (bytesFrom 1)) (regionOf threeBytes usedBytes)) ∧
      (∀ j : Fin 3, [.seq 0 2, .header () 1, .seq 1 1, .word 1 ⟨0, by decide⟩ 5].foldl
        (byteMemory threeBytes).write
        (finish (byteMemory threeBytes) (copyIn 0 (bytesFrom 1) (List.finRange _)) usedBytes)
        ((CyclicRegion.slotData threeBytes 0).toNat + j) = bytesFrom (P := threeBytes) 1 j) ∧
      SeqlockRegion.Fits threeBytes ∧ OwnedShm.Fits threeBytes ∧
      Apart OwnedShm.headerSize (OwnedShm.dataOffset threeBytes) threeBytes.sizeof
        (OwnedShm.totalSize threeBytes) := by
  intro m
  have hfits : CyclicRegion.Fits threeBytes capacityTwo := by
    unfold CyclicRegion.Fits
    decide
  have hseqlock : SeqlockRegion.Fits threeBytes := by
    unfold SeqlockRegion.Fits
    decide
  have howned : OwnedShm.Fits threeBytes := by
    unfold OwnedShm.Fits
    decide
  have hidx : load 8 usedBytes 0 &&& (capacityTwo.N - 1) = 0 := by decide
  obtain ⟨hcyclic, -, hshm⟩ := flat_layouts_refine threeBytes capacityTwo
  obtain ⟨hdisjoint, -, hinsert, hcopy⟩ := hcyclic hfits
  obtain ⟨hframe, hdata, hholds⟩ := hinsert usedBytes (bytesFrom 1)
  rw [hidx] at hframe hdata
  refine ⟨hfits, ?_, ?_, hdata, hholds _ (holds_regionOf usedBytes), ?_, hseqlock, howned,
    hshm howned⟩
  · exact hdisjoint (.data 0) (.seq 1) (show (0 : BitVec 64) < 2 by decide)
      (show (1 : BitVec 64) < 2 by decide) (by simp)
  · refine (hframe 15 ?_ ?_ ?_).trans rfl <;> rw [Piece.bytes, Set.mem_Ico] <;> decide
  · refine hcopy usedBytes 0 (bytesFrom 1) _ (by decide) ?_
    simp [StoresInRing, pieceOf, capacityTwo]

end SafeShm.ByteLayouts
