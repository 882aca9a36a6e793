import SafeShm.SingleWriterRuns

/-!
# One run over two memories

A program sees of its memory only the answers to its loads. Two memories that answer alike, and
that still do so after the same store, are the same for all parties of a run, as long as their
programs keep to the locations and the stores for which this is so.
-/

namespace SafeShm.SingleWriterRuns
open AtomicPrograms

variable {L : Type} {V : L → Type} {C M M' : Type} {ι : Type} [DecidableEq ι] {A : ι → Type}

/-- Memories in `R` answer the loads in `S` alike, and are in `R` after the same store in `K`. -/
structure Simulates (mem : Memory L V C M) (mem' : Memory L V C M') (S : L → Prop) (K : C → Prop)
    (R : M → M' → Prop) : Prop where
  read : ∀ m m' l, R m m' → S l → mem.read m l = mem'.read m' l
  write : ∀ m m' c, R m m' → K c → R (mem.write m c) (mem'.write m' c)

/-- The same state of a run over two memories. -/
structure Alike (S : L → Prop) (K : C → Prop) (R : M → M' → Prop) (s : System L V C M ι A)
    (s' : System L V C M' ι A) : Prop where
  mem : R s.mem s'.mem
  writer : s.writer = s'.writer
  reader : s.reader = s'.reader
  writerWithin : Within S K s.writer.prog
  readerLoads : ∀ i, (s.reader i).LoadsIn S

variable {mem : Memory L V C M} {mem' : Memory L V C M'} {S : L → Prop} {K : C → Prop}
variable {R : M → M' → Prop} {script : ℕ → Prog L V C Unit}
variable {s : System L V C M ι A} {s' : System L V C M' ι A}

private theorem client_alike (hmem : Simulates mem mem' S K R) {m : M} {m' : M'} (hm : R m m')
    (hscript : ∀ k, Within S K (script k)) {w : Client L V C} (hw : Within S K w.prog) :
    R (w.step mem script m).1 (w.step mem' script m').1 ∧
      (w.step mem script m).2 = (w.step mem' script m').2 ∧
      Within S K (w.step mem script m).2.prog := by
  obtain ⟨begun, pc, prog⟩ := w
  cases prog with
  | ret u => exact ⟨hm, rfl, hscript begun⟩
  | load l next =>
    have hread : mem.read m l = mem'.read m' l := hmem.read m m' l hm hw.1
    refine ⟨hm, ?_, hw.2 _⟩
    simp only [Client.step, hread]
  | store c next => exact ⟨hmem.write m m' c hm hw.1, rfl, hw.2⟩
  | spin => exact ⟨hm, rfl, hw⟩

private theorem reader_alike {B : Type} (hmem : Simulates mem mem' S K R) {m : M} {m' : M'}
    (hm : R m m') {p : Prog L V Empty B} (hp : p.LoadsIn S) :
    readerStep mem m p = readerStep mem' m' p ∧ (readerStep mem m p).LoadsIn S := by
  cases p with
  | ret a => exact ⟨rfl, hp⟩
  | load l next => exact ⟨congrArg next (hmem.read m m' l hm hp.1), hp.2 _⟩
  | store c => exact nomatch c
  | spin => exact ⟨rfl, hp⟩

theorem Alike.step (hmem : Simulates mem mem' S K R) (hscript : ∀ k, Within S K (script k))
    (h : Alike S K R s s') (p : Party ι) :
    Alike S K R (s.step mem script p) (s'.step mem' script p) := by
  cases p with
  | writer =>
    obtain ⟨hm, hwriter, hwithin⟩ := client_alike hmem h.mem hscript h.writerWithin
    rw [System.step, System.step, ← h.writer]
    exact ⟨hm, hwriter, h.reader, hwithin, h.readerLoads⟩
  | reader i =>
    obtain ⟨hread, hloads⟩ := reader_alike hmem h.mem (h.readerLoads i)
    rw [System.step, System.step, ← h.reader, ← hread]
    refine ⟨h.mem, h.writer, rfl, h.writerWithin, ?_⟩
    intro j
    by_cases hj : j = i
    · subst hj
      simpa using hloads
    · simpa [Function.update_of_ne hj] using h.readerLoads j

theorem alike_after (hmem : Simulates mem mem' S K R) (hscript : ∀ k, Within S K (script k))
    {m₀ : M} {m₀' : M'} (hm : R m₀ m₀') {readers : (i : ι) → Prog L V Empty (A i)}
    (hreaders : ∀ i, (readers i).LoadsIn S) (sched : ℕ → Party ι) (t : ℕ) :
    Alike S K R ((System.start m₀ readers).after mem script sched t)
      ((System.start m₀' readers).after mem' script sched t) := by
  induction t with
  | zero => exact ⟨hm, rfl, rfl, trivial, hreaders⟩
  | succ t ih => exact ih.step hmem hscript (sched t)

end SafeShm.SingleWriterRuns
