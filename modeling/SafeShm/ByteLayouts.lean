import SafeShm.ByteMemory
import SafeShm.CyclicBufferRefinement
import Mathlib.Data.Nat.ModEq

/-!
# Layouts of the segments

Where the counters, the payloads and the headers lie in a segment, as 64-bit offsets from its page-
aligned base. All offsets come from rounding up to `alignof(T)` and from the stride of the slots.
The stride is a multiple of `alignof(T)` but not of the alignment of a counter, which matters for
payloads whose size is not a multiple of 4.
-/

namespace SafeShm.ByteLayouts
open ByteMemory

/-- What the layouts read of the payload type `T`. The bytes `valueInit` are those of the object
`T{}`, which need not be zero: a member may have a default initialiser. -/
structure Payload where
  alignof : BitVec 64
  sizeof : BitVec 64
  valueInit : Fin sizeof.toNat → BitVec 8
  align_pow : ∃ k, alignof.toNat = 2 ^ k
  size_pos : 0 < sizeof.toNat
  size_dvd : alignof.toNat ∣ sizeof.toNat

namespace CyclicSlot

def seqSize : BitVec 64 := 4

/-- `CyclicSlot<T>::data_offset`. -/
def dataOffset (P : Payload) : BitVec 64 := roundUp seqSize P.alignof

/-- `CyclicSlot<T>::slot_size`. -/
def slotSize (P : Payload) : BitVec 64 := dataOffset P + P.sizeof

end CyclicSlot

namespace CyclicRegion

def headerSize : BitVec 64 := 8

/-- `CyclicRegion<T, N>::slots_offset`. -/
def slotsOffset (P : Payload) : BitVec 64 := roundUp headerSize P.alignof

/-- `CyclicRegion<T, N>::total_size`. -/
def totalSize (P : Payload) (cap : Capacity) : BitVec 64 :=
  slotsOffset P + CyclicSlot.slotSize P * cap.N

/-- `slot_seq(idx)`. -/
def slotSeq (P : Payload) (idx : BitVec 64) : BitVec 64 :=
  slotsOffset P + idx * CyclicSlot.slotSize P

/-- `slot_data(idx)`. -/
def slotData (P : Payload) (idx : BitVec 64) : BitVec 64 :=
  slotsOffset P + idx * CyclicSlot.slotSize P + CyclicSlot.dataOffset P

end CyclicRegion

namespace SeqlockRegion

def seqSize : BitVec 64 := 4

/-- `SeqlockRegion<T>::data_offset`. -/
def dataOffset (P : Payload) : BitVec 64 := roundUp seqSize P.alignof

/-- `SeqlockRegion<T>::total_size`. -/
def totalSize (P : Payload) : BitVec 64 := dataOffset P + P.sizeof

end SeqlockRegion

namespace OwnedShm

/-- `sizeof(ShmHeader)`. -/
def headerSize : BitVec 64 := 32

/-- `OwnedShm<T>::data_offset`. -/
def dataOffset (P : Payload) : BitVec 64 := roundUp headerSize P.alignof

/-- `OwnedShm<T>::total_size`. -/
def totalSize (P : Payload) : BitVec 64 := dataOffset P + P.sizeof

end OwnedShm

section Alignment
variable (P : Payload)

theorem Payload.alignof_le : P.alignof.toNat ≤ 2 ^ 63 := by
  obtain ⟨k, hk⟩ := P.align_pow
  have hlt := P.alignof.isLt
  rw [hk] at hlt ⊢
  have hk' : k < 64 := (Nat.pow_lt_pow_iff_right (by omega)).mp hlt
  exact Nat.pow_le_pow_right (by omega) (Nat.le_of_lt_succ hk')

theorem Payload.alignof_dvd_roundUp (n : BitVec 64) :
    P.alignof.toNat ∣ (roundUp n P.alignof).toNat := by
  obtain ⟨k, hk⟩ := P.align_pow
  rw [hk]
  exact dvd_roundUp hk

theorem Payload.le_roundUp {n : BitVec 64} (hn : n.toNat ≤ 2 ^ 63) :
    n.toNat ≤ (roundUp n P.alignof).toNat := by
  obtain ⟨k, hk⟩ := P.align_pow
  have hle := P.alignof_le
  exact (ByteMemory.le_roundUp hk (by omega)).1

/-- A multiple of 4 stays one when it is rounded up: to a power of two that is a multiple of 4, or
to one that divides it. -/
theorem Payload.four_dvd_roundUp {n : BitVec 64} (hn : n.toNat ≤ 2 ^ 63) (hfour : 4 ∣ n.toNat) :
    4 ∣ (roundUp n P.alignof).toNat := by
  obtain ⟨k, hk⟩ := P.align_pow
  have hle := P.alignof_le
  have hdvd := P.alignof_dvd_roundUp n
  have hbounds := ByteMemory.le_roundUp hk (show n.toNat + P.alignof.toNat ≤ 2 ^ 64 by omega)
  rw [hk] at hdvd hbounds
  rcases Nat.lt_or_ge k 2 with hsmall | hlarge
  · -- the alignment is 1 or 2
    rcases show k = 0 ∨ k = 1 by omega with rfl | rfl
    · rw [show (roundUp n P.alignof).toNat = n.toNat by omega]
      exact hfour
    · rw [show (roundUp n P.alignof).toNat = n.toNat by omega]
      exact hfour
  · exact (Nat.pow_dvd_pow 2 hlarge).trans hdvd

theorem CyclicRegion.four_dvd_slotsOffset : 4 ∣ (CyclicRegion.slotsOffset P).toNat :=
  P.four_dvd_roundUp (by decide) (by decide)

theorem CyclicSlot.four_dvd_dataOffset : 4 ∣ (CyclicSlot.dataOffset P).toNat :=
  P.four_dvd_roundUp (by decide) (by decide)

theorem dvd_toNat_add {d : ℕ} (hd : d ∣ 2 ^ 64) {x y : BitVec 64} (hx : d ∣ x.toNat) :
    d ∣ (x + y).toNat ↔ d ∣ y.toNat := by
  rw [BitVec.toNat_add, Nat.dvd_mod_iff hd, Nat.dvd_add_right hx]

theorem dvd_toNat_mul {d : ℕ} (hd : d ∣ 2 ^ 64) {x y : BitVec 64} (hy : d ∣ y.toNat) :
    d ∣ (x * y).toNat := by
  rw [BitVec.toNat_mul, Nat.dvd_mod_iff hd]
  exact hy.mul_left _

theorem Payload.alignof_dvd : P.alignof.toNat ∣ 2 ^ 64 := by
  obtain ⟨k, hk⟩ := P.align_pow
  have hlt := P.alignof.isLt
  rw [hk] at hlt ⊢
  exact Nat.pow_dvd_pow 2 ((Nat.pow_lt_pow_iff_right (by omega)).mp hlt).le

theorem CyclicRegion.alignof_dvd_slotData (idx : BitVec 64) :
    P.alignof.toNat ∣ (CyclicRegion.slotData P idx).toNat := by
  have hd := P.alignof_dvd
  have hslots : P.alignof.toNat ∣ (CyclicRegion.slotsOffset P).toNat := P.alignof_dvd_roundUp _
  have hdata : P.alignof.toNat ∣ (CyclicSlot.dataOffset P).toNat := P.alignof_dvd_roundUp _
  have hsize : P.alignof.toNat ∣ (CyclicSlot.slotSize P).toNat :=
    (dvd_toNat_add hd hdata).mpr P.size_dvd
  have hseq : P.alignof.toNat ∣ (CyclicRegion.slotsOffset P + idx * CyclicSlot.slotSize P).toNat :=
    (dvd_toNat_add hd hslots).mpr (dvd_toNat_mul hd hsize)
  exact (dvd_toNat_add hd hseq).mpr hdata

theorem CyclicRegion.four_dvd_slotSeq_iff (idx : BitVec 64) :
    4 ∣ (CyclicRegion.slotSeq P idx).toNat ↔ 4 ∣ idx.toNat * P.sizeof.toNat := by
  have hd : 4 ∣ 2 ^ 64 := by decide
  have hdata := CyclicSlot.four_dvd_dataOffset P
  have hsize : (CyclicSlot.slotSize P).toNat ≡ P.sizeof.toNat [MOD 4] := by
    rw [CyclicSlot.slotSize, BitVec.toNat_add, Nat.ModEq]
    omega
  rw [CyclicRegion.slotSeq, dvd_toNat_add hd (CyclicRegion.four_dvd_slotsOffset P),
    BitVec.toNat_mul, Nat.dvd_mod_iff hd]
  exact (hsize.mul_left _).dvd_iff dvd_rfl

theorem CyclicRegion.four_dvd_slotSeq {cap : Capacity} (h : cap.N = 1 ∨ 4 ∣ P.sizeof.toNat)
    {idx : BitVec 64} (hidx : idx < cap.N) : 4 ∣ (CyclicRegion.slotSeq P idx).toNat := by
  rw [CyclicRegion.four_dvd_slotSeq_iff]
  rcases h with hone | hfour
  · rw [hone, BitVec.lt_def] at hidx
    rw [Nat.lt_one_iff.mp hidx, Nat.zero_mul]
    exact Nat.dvd_zero 4
  · exact hfour.mul_left _

/-- In a segment with a page-aligned base, every counter of the ring is aligned for
`std::atomic_ref<uint32_t>` and every payload for `T`, exactly if there is one slot only or the size
of the payload is a multiple of 4. -/
theorem slots_aligned_iff (P : Payload) (cap : Capacity) :
    (∀ i : BitVec 64, i < cap.N → 4 ∣ (CyclicRegion.slotSeq P i).toNat ∧
        P.alignof.toNat ∣ (CyclicRegion.slotData P i).toNat) ↔
      cap.N = 1 ∨ 4 ∣ P.sizeof.toNat := by
  constructor
  · intro haligned
    by_cases hone : cap.N = 1
    · exact .inl hone
    · have hpos := BitVec.lt_def.mp cap.pos
      have hne : cap.N.toNat ≠ 1 := fun h => hone (BitVec.eq_of_toNat_eq h)
      have hlt : 1 < cap.N := by
        rw [BitVec.lt_def]
        exact Nat.lt_of_le_of_ne hpos (Ne.symm hne)
      have hsecond : 4 ∣ 1 * P.sizeof.toNat :=
        (CyclicRegion.four_dvd_slotSeq_iff P 1).mp (haligned 1 hlt).1
      rw [Nat.one_mul] at hsecond
      exact .inr hsecond
  · intro hcond i hi
    exact ⟨CyclicRegion.four_dvd_slotSeq P hcond hi, CyclicRegion.alignof_dvd_slotData P i⟩

theorem align_one : ∃ k, (1 : BitVec 64).toNat = 2 ^ k := ⟨0, rfl⟩

def oneByte : Payload := ⟨1, 1, fun _ => 0, align_one, by decide, by decide⟩

/-- The counter of the second of two slots with one-byte payloads is at offset 13. -/
theorem slotSeq_misaligned :
    (1 : BitVec 64) < capacityTwo.N ∧ CyclicRegion.slotSeq oneByte 1 = 13 ∧
      ¬ 4 ∣ (CyclicRegion.slotSeq oneByte 1).toNat := by
  decide

end Alignment

section Ranges
variable (P : Payload) (cap : Capacity)

def stride : ℕ := (CyclicSlot.dataOffset P).toNat + P.sizeof.toNat

/-- The sum and the product in `total_size` do not overflow. -/
def CyclicRegion.Fits : Prop :=
  (CyclicRegion.slotsOffset P).toNat + stride P * cap.size < 2 ^ 64

def SeqlockRegion.Fits : Prop := (SeqlockRegion.dataOffset P).toNat + P.sizeof.toNat < 2 ^ 64

def OwnedShm.Fits : Prop := (OwnedShm.dataOffset P).toNat + P.sizeof.toNat < 2 ^ 64

/-- The header word, the counters and the payloads of a cyclic region. -/
inductive Piece where
  | header
  | seq (i : BitVec 64)
  | data (i : BitVec 64)

def Piece.Valid : Piece → Prop
  | .header => True
  | .seq i | .data i => i < cap.N

def Piece.start : Piece → ℕ
  | .header => 0
  | .seq i => (CyclicRegion.slotSeq P i).toNat
  | .data i => (CyclicRegion.slotData P i).toNat

def Piece.size : Piece → ℕ
  | .header => 8
  | .seq _ => 4
  | .data _ => P.sizeof.toNat

def Piece.bytes (p : Piece) : Set ℕ := Set.Ico (p.start P) (p.start P + p.size P)

section Fits
variable {P} {cap} (hfits : CyclicRegion.Fits P cap) {i j : BitVec 64} (hi : i < cap.N)
include hfits

theorem toNat_slotSize : (CyclicSlot.slotSize P).toNat = stride P := by
  have hone : stride P * 1 ≤ stride P * cap.size := Nat.mul_le_mul_left _ cap.size_pos
  rw [CyclicRegion.Fits] at hfits
  rw [CyclicSlot.slotSize, BitVec.toNat_add, Nat.mod_eq_of_lt]
  · rfl
  · rw [← stride]
    omega

theorem toNat_totalSize : (CyclicRegion.totalSize P cap).toNat =
    (CyclicRegion.slotsOffset P).toNat + stride P * cap.size := by
  have hmul : (CyclicSlot.slotSize P * cap.N).toNat = stride P * cap.size := by
    rw [BitVec.toNat_mul, toNat_slotSize hfits]
    rw [CyclicRegion.Fits] at hfits
    exact Nat.mod_eq_of_lt (show stride P * cap.size < 2 ^ 64 by omega)
  rw [CyclicRegion.totalSize, BitVec.toNat_add, hmul]
  exact Nat.mod_eq_of_lt hfits

include hi

omit hfits in
theorem slot_end_le : i.toNat * stride P + stride P ≤ stride P * cap.size := by
  have hlt : i.toNat + 1 ≤ cap.size := BitVec.lt_def.mp hi
  rw [← Nat.succ_mul, Nat.mul_comm]
  exact Nat.mul_le_mul_left _ hlt

theorem toNat_slotSeq : (CyclicRegion.slotSeq P i).toNat =
    (CyclicRegion.slotsOffset P).toNat + i.toNat * stride P := by
  have hend := slot_end_le (P := P) hi
  have hmul : (i * CyclicSlot.slotSize P).toNat = i.toNat * stride P := by
    rw [BitVec.toNat_mul, toNat_slotSize hfits]
    rw [CyclicRegion.Fits] at hfits
    exact Nat.mod_eq_of_lt (by omega)
  rw [CyclicRegion.Fits] at hfits
  rw [CyclicRegion.slotSeq, BitVec.toNat_add, hmul]
  exact Nat.mod_eq_of_lt (by omega)

theorem toNat_slotData : (CyclicRegion.slotData P i).toNat =
    (CyclicRegion.slotsOffset P).toNat + i.toNat * stride P + (CyclicSlot.dataOffset P).toNat := by
  have hend := slot_end_le (P := P) hi
  have hseq := toNat_slotSeq hfits hi
  have hsize : stride P = (CyclicSlot.dataOffset P).toNat + P.sizeof.toNat := rfl
  rw [CyclicRegion.Fits] at hfits
  rw [CyclicRegion.slotData, ← CyclicRegion.slotSeq, BitVec.toNat_add, hseq]
  exact Nat.mod_eq_of_lt (by omega)

end Fits

variable {P} {cap}

theorem slot_le_of_lt {i j : BitVec 64} (hij : i.toNat < j.toNat) :
    i.toNat * stride P + stride P ≤ j.toNat * stride P := by
  rw [← Nat.succ_mul]
  exact Nat.mul_le_mul_right _ hij

section Pieces
variable (hfits : CyclicRegion.Fits P cap) {p q : Piece} (hp : p.Valid cap) (hq : q.Valid cap)
include hfits hp

private theorem piece_place :
    p = .header ∧ p.start P + p.size P ≤ (CyclicRegion.slotsOffset P).toNat ∨
    ∃ i, (p = .seq i ∨ p = .data i) ∧ i < cap.N ∧
      (CyclicRegion.slotsOffset P).toNat + i.toNat * stride P ≤ p.start P ∧
      p.start P + p.size P ≤
        (CyclicRegion.slotsOffset P).toNat + (i.toNat * stride P + stride P) := by
  have hslots : 8 ≤ (CyclicRegion.slotsOffset P).toNat := P.le_roundUp (n := 8) (by decide)
  have hdata : 4 ≤ (CyclicSlot.dataOffset P).toNat := P.le_roundUp (n := 4) (by decide)
  have hsize : stride P = (CyclicSlot.dataOffset P).toNat + P.sizeof.toNat := rfl
  cases p with
  | header => exact .inl ⟨rfl, hslots⟩
  | seq i =>
    refine .inr ⟨i, .inl rfl, hp, ?_⟩
    simp only [Piece.start, Piece.size, toNat_slotSeq hfits hp]
    omega
  | data i =>
    refine .inr ⟨i, .inr rfl, hp, ?_⟩
    simp only [Piece.start, Piece.size, toNat_slotData hfits hp]
    omega

omit hp in
private theorem seq_le_data {i : BitVec 64} (hi : i < cap.N) :
    (Piece.seq i).start P + (Piece.seq i).size P ≤ (Piece.data i).start P := by
  have hdata : 4 ≤ (CyclicSlot.dataOffset P).toNat := P.le_roundUp (n := 4) (by decide)
  simp only [Piece.start, Piece.size, toNat_slotSeq hfits hi, toNat_slotData hfits hi]
  omega

include hq in
private theorem pieces_apart (hne : p ≠ q) :
    p.start P + p.size P ≤ q.start P ∨ q.start P + q.size P ≤ p.start P := by
  rcases piece_place hfits hp with ⟨rfl, hp'⟩ | ⟨i, hpi, hi, hstart, hend⟩
  · rcases piece_place hfits hq with ⟨rfl, -⟩ | ⟨j, -, -, hstart', -⟩
    · exact absurd rfl hne
    · exact .inl (by omega)
  · rcases piece_place hfits hq with ⟨rfl, hq'⟩ | ⟨j, hqj, -, hstart', hend'⟩
    · exact .inr (by omega)
    · rcases Nat.lt_trichotomy i.toNat j.toNat with hlt | heq | hgt
      · have hle := slot_le_of_lt (P := P) hlt
        exact .inl (by omega)
      · obtain rfl := BitVec.eq_of_toNat_eq heq
        rcases hpi with rfl | rfl
        · rcases hqj with rfl | rfl
          · exact absurd rfl hne
          · exact .inl (seq_le_data hfits hi)
        · rcases hqj with rfl | rfl
          · exact .inr (seq_le_data hfits hi)
          · exact absurd rfl hne
      · have hle := slot_le_of_lt (P := P) hgt
        exact .inr (by omega)

include hq in
theorem pieces_disjoint (hne : p ≠ q) : Disjoint (p.bytes P) (q.bytes P) := by
  rcases pieces_apart hfits hp hq hne with hle | hle
  · exact disjoint_Ico_of_le hle
  · exact (disjoint_Ico_of_le hle).symm

theorem piece_inside : p.bytes P ⊆ Set.Iio (CyclicRegion.totalSize P cap).toNat := by
  intro a ha
  rw [Piece.bytes, Set.mem_Ico] at ha
  rw [Set.mem_Iio, toNat_totalSize hfits]
  rcases piece_place hfits hp with ⟨-, hend⟩ | ⟨i, -, hi, -, hend⟩
  · omega
  · have hring := slot_end_le (P := P) hi
    omega

end Pieces

/-- A header of `head` bytes and a payload of `size` bytes at offset `off` do not share a byte, and
lie inside `total` bytes. -/
def Apart (head off size total : BitVec 64) : Prop :=
  Disjoint (Set.Ico 0 head.toNat) (Set.Ico off.toNat (off.toNat + size.toNat)) ∧
    Set.Ico 0 head.toNat ⊆ Set.Iio total.toNat ∧
    Set.Ico off.toNat (off.toNat + size.toNat) ⊆ Set.Iio total.toNat

theorem apart_roundUp {n : BitVec 64} (hn : n.toNat ≤ 2 ^ 63)
    (hfits : (roundUp n P.alignof).toNat + P.sizeof.toNat < 2 ^ 64) :
    Apart n (roundUp n P.alignof) P.sizeof (roundUp n P.alignof + P.sizeof) := by
  have hle := P.le_roundUp hn
  have htotal : (roundUp n P.alignof + P.sizeof).toNat =
      (roundUp n P.alignof).toNat + P.sizeof.toNat := by
    rw [BitVec.toNat_add, Nat.mod_eq_of_lt hfits]
  refine ⟨?_, ?_, ?_⟩
  · rw [Set.Ico_disjoint_Ico]
    omega
  · intro a ha
    rw [Set.mem_Ico] at ha
    rw [Set.mem_Iio, htotal]
    omega
  · intro a ha
    rw [Set.mem_Ico] at ha
    rw [Set.mem_Iio, htotal]
    exact ha.2

end Ranges

end SafeShm.ByteLayouts
