import SafeShm.CyclicBufferReads
import SafeShm.Seqlock
import SafeShm.SerializedWriters

/-!
# Several writers of one segment

A segment has one writer, or several that are synchronized from outside ("multiple writers
require external synchronization"). Writers that take turns are as good as one: the loads of a
seqlock return the stores of all writers in the order in which they were made, and the ring counts
and keeps the insertions of all of them.

Two stores that overlap take the same counter. Both make it odd, both make it the same even number,
and the words of both are under it for good (`overlapping_stores_torn`).
-/

namespace SafeShm.SeveralWriters
open AtomicPrograms SingleWriterRuns SequenceLocks RingSlots StateMachines SerializedWriters

variable {F : FlatType} {κ ι : Type} [DecidableEq κ] [DecidableEq ι] {A : ι → Type}

section Seqlock
open Seqlock (store load stored finished segments)

variable (F) in
/-- The stores of any number of `SeqlockWriter` objects on one zero-filled segment. -/
def seqlock : Design (Loc Empty Unit F.words) (Val F.Word) (Cmd Empty Unit F.words F.Word)
    (Seqlock.Segment F) F.T where
  toMemory := memory
  body := store
  running _ := rfl
  m₀ := Region.zeroed F.zero

/-- The value of store number `k` of the list; number 0 stands for the zero-filled segment. -/
def storedIn (F : FlatType) (begun : List F.T) : ℕ → Option F.T
  | 0 => some (fun _ => F.zero)
  | k + 1 => begun[k]?

variable {readers : (i : ι) → Seqlock.ReadProgram F (A i)} {acts : ℕ → Action κ ι F.T}

omit [DecidableEq κ] in
private theorem returned_le_finished {vals : ℕ → F.T} {sched : ℕ → Party (Option ι)}
    {s : State (Loc Empty Unit F.words) (Val F.Word) (Cmd Empty Unit F.words F.Word)
      (Seqlock.Segment F) F.T κ A} {t : ℕ}
    (h : Follows s (Seqlock.states vals sched (withIdle readers) t)) :
    s.returned ≤ finished (Seqlock.states vals sched (withIdle readers) t).writer := by
  rw [finished]
  rcases h.place with ⟨single, -, count⟩ | ⟨-, -, -, -, count⟩
  · have hsteps := steps_le_pc memory (fun k => store (vals k)) (Region.zeroed F.zero) sched
      (withIdle readers) single
    rw [Seqlock.steps_store] at hsteps
    by_cases hzero : s.begun.length = 0
    · omega
    · have hpc : F.words + 4 ≤ (Seqlock.states vals sched (withIdle readers) t).writer.pc :=
        hsteps (fun heq => hzero (h.begun.symm.trans heq))
      rw [if_pos ((Nat.le_succ _).trans hpc), h.begun]
      omega
  · rw [h.begun]
    split <;> omega

private theorem storedIn_eq {vals : ℕ → F.T} {begun : List F.T} {k : ℕ}
    (hvals : ∀ (n : ℕ) (x : F.T), begun[n]? = some x → vals n = x) (hk : k ≤ begun.length) :
    storedIn F begun k = some (stored vals k) := by
  cases k with
  | zero => rfl
  | succ k =>
    have hget : begun[k]? = some begun[k] := List.getElem?_eq_getElem hk
    rw [storedIn, hget, stored, hvals k _ hget]

/-- Loads are linearizable under any number of writers whose stores do not overlap. The
successive loads of a reader can be numbered, each with a number between those of the stores that
had returned when it was called and of those begun before it returned, such that each returned
the value of the store with its number. The numbers do not decrease. -/
theorem loads_of_serialized (hser : (seqlock F).Serialized readers acts)
    {calls : List (Call (Loc Empty Unit F.words) (Val F.Word) F.T)}
    (hcalls : Successive memory.read (fun t => ((seqlock F).states readers acts t).mem) calls)
    (hload : ∀ c ∈ calls, ∃ fuel, c.prog = load F fuel)
    (hfew : ∀ c ∈ calls, ∀ tb ta, Attempt () c.log tb ta →
      ((seqlock F).states readers acts ta).begun.length <
        ((seqlock F).states readers acts tb).returned + 2 ^ 31) :
    ∃ numbers : List ℕ, List.Forall₂ (fun c k =>
        storedIn F ((seqlock F).states readers acts c.stop).begun k = some c.value ∧
        ((seqlock F).states readers acts c.start).returned ≤ k ∧
        k ≤ ((seqlock F).states readers acts c.stop).begun.length) calls numbers ∧
      numbers.Pairwise (· ≤ ·) := by
  have : Nonempty F.T := ⟨fun _ => F.zero⟩
  obtain ⟨vals, hvals, sched, hfollows⟩ := exists_single hser
  have hmem : (fun t => ((seqlock F).states readers acts t).mem) =
      segments vals sched (withIdle readers) := funext fun t => (hfollows t).mem.symm
  rw [hmem] at hcalls
  have hmono := Seqlock.finished_mono vals sched (withIdle readers)
  have hbegun : ∀ t, finished (Seqlock.states vals sched (withIdle readers) t).writer ≤
      ((seqlock F).states readers acts t).begun.length := by
    intro t
    rw [← (hfollows t).begun, finished]
    split
    · exact Nat.le_refl _
    · exact Nat.sub_le ..
  apply hcalls.exists_ordered hmono
  intro c hc
  obtain ⟨fuel, hfuel⟩ := hload c hc
  have hexec := hcalls.exec c hc
  rw [hfuel] at hexec
  obtain ⟨t, hs, hb, hv⟩ := Seqlock.exec_load_value vals sched (withIdle readers) hexec (by
    intro tb ta hatt
    have hlt := hfew c hc tb ta hatt
    have hle := returned_le_finished (hfollows tb)
    rw [Seqlock.storesWithin, show (Seqlock.states vals sched (withIdle readers) ta).writer.begun =
      ((seqlock F).states readers acts ta).begun.length from (hfollows ta).begun]
    omega)
  have hstart : finished (Seqlock.states vals sched (withIdle readers) c.start).writer ≤
      finished (Seqlock.states vals sched (withIdle readers) t).writer := hmono hs
  have hstop : finished (Seqlock.states vals sched (withIdle readers) t).writer ≤
      finished (Seqlock.states vals sched (withIdle readers) c.stop).writer := hmono hb.le
  refine ⟨_, ⟨?_, ?_, hstop.trans (hbegun c.stop)⟩, hstart, hstop⟩
  · rw [hv]
    exact storedIn_eq (hvals c.stop) (hstop.trans (hbegun c.stop))
  · exact (returned_le_finished (hfollows c.start)).trans hstart

/-- The second writer has stored the value 20 after the value 10 of the first one; the load is
called while it does so, and finds the counter odd once. -/
def twoStores : ℕ → Action Bool Unit oneWord.T :=
  script (.reader ()) (repeated [(.call false (tens 0), 1), (.writer false, 5),
    (.call true (tens 1), 1), (.writer true, 2), (.reader (), 1), (.writer true, 3), (.reader (), 3)])

abbrev oneLoad (_ : Unit) : Seqlock.ReadProgram oneWord oneWord.T := load oneWord 4

theorem loads_of_serialized_twoStores : ∃ log, ∃ numbers : List ℕ,
    List.Forall₂ (fun c k =>
        storedIn oneWord ((seqlock oneWord).states oneLoad twoStores c.stop).begun k =
          some c.value ∧
        ((seqlock oneWord).states oneLoad twoStores c.start).returned ≤ k ∧
        k ≤ ((seqlock oneWord).states oneLoad twoStores c.stop).begun.length)
      [Call.mk (oneLoad ()) 0 log 16 (tens 1)] numbers ∧ numbers.Pairwise (· ≤ ·) := by
  have hser : (seqlock oneWord).Serialized oneLoad twoStores :=
    Design.serialized_script _ _ rfl (by decide +kernel)
  obtain ⟨log, hlog⟩ := exec_of_states hser () (v := tens 1) (b := 16) (by decide +kernel)
  refine ⟨log, loads_of_serialized hser ⟨?_, List.pairwise_singleton _ _⟩ (by simp) ?_⟩
  · intro c hc
    obtain rfl := List.mem_singleton.mp hc
    exact hlog
  intro c hc tb ta hatt
  obtain rfl := List.mem_singleton.mp hc
  have hta := (hlog.mem_log _ hatt.mem_log.2).2
  have hbegun : ∀ t < 16, ((seqlock oneWord).states oneLoad twoStores t).begun.length ≤ 2 := by
    decide +kernel
  have hle := hbegun ta hta
  omega

end Seqlock

section Ring
open CyclicBuffer (insert ReadCall published completed)

variable (F) in
/-- The insertions of any number of `CyclicBufferWriter` objects on one zero-filled segment. -/
def ring (cap : Capacity) : Design (CyclicBuffer.Place F) (Val F.Word) (CyclicBuffer.Command F)
    (CyclicBuffer.Segment F) F.T where
  toMemory := memory
  body := insert cap
  running _ := rfl
  m₀ := Region.zeroed F.zero

variable {cap : Capacity} {readers : (i : ι) → CyclicBuffer.ReadProgram F (A i)}
variable {acts : ℕ → Action κ ι F.T}

omit [DecidableEq κ] in
private theorem returned_le_published {vals : ℕ → F.T} {sched : ℕ → Party (Option ι)}
    {s : State (CyclicBuffer.Place F) (Val F.Word) (CyclicBuffer.Command F)
      (CyclicBuffer.Segment F) F.T κ A} {t : ℕ}
    (h : Follows s (CyclicBuffer.states cap vals sched (withIdle readers) t)) :
    s.returned ≤ published (CyclicBuffer.writers cap vals sched (withIdle readers) t) := by
  have hbegun : (CyclicBuffer.writers cap vals sched (withIdle readers) t).begun =
      s.begun.length := h.begun
  rw [published, hbegun]
  rcases h.place with ⟨single, -, count⟩ | ⟨-, -, -, -, count⟩
  · have hsteps := steps_le_pc memory (fun k => insert cap (vals k)) (Region.zeroed F.zero) sched
      (withIdle readers) single
    rw [CyclicBuffer.steps_insert] at hsteps
    by_cases hzero : s.begun.length = 0
    · omega
    · have hpc : F.words + 6 ≤ (CyclicBuffer.writers cap vals sched (withIdle readers) t).pc :=
        hsteps (fun heq => hzero (h.begun.symm.trans heq))
      rw [if_pos ((Nat.le_succ _).trans hpc)]
      omega
  · split <;> omega

/-- Reads of the ring are untorn under any number of writers whose insertions do not overlap.
`total_writes` counts the insertions of all of them: it is between the number of those that have
returned and of those begun. A value that is read is the whole value of one insertion, which went
into the slot that was asked for and is no older than the one asked for. -/
theorem readCall_of_serialized (hser : (ring F cap).Serialized readers acts) {fuel a b t₀ : ℕ}
    {call : ReadCall} {log : List (Event (CyclicBuffer.Place F))} {v : F.T}
    (hexec : Exec memory.read (fun t => ((ring F cap).states readers acts t).mem) a
      (call.prog F cap fuel) log b (some v))
    (hload : log.head? = some ⟨t₀, .header ()⟩)
    (hr : call.reverseIndex.toNat <
      min (((ring F cap).states readers acts t₀).mem.header ()).toNat cap.size)
    (hfew : ∀ i tb ta, Attempt i log tb ta →
      hits cap.size i.toNat ((ring F cap).states readers acts ta).begun.length <
        hits cap.size i.toNat ((ring F cap).states readers acts tb).returned + 2 ^ 31)
    (hlt : ((ring F cap).states readers acts b).begun.length < 2 ^ 64) :
    let writes := (((ring F cap).states readers acts t₀).mem.header ()).toNat
    ((ring F cap).states readers acts t₀).returned ≤ writes ∧
      writes ≤ ((ring F cap).states readers acts t₀).begun.length ∧
      ∃ m, ((ring F cap).states readers acts b).begun[m]? = some v ∧
        m ≡ writes - 1 - call.reverseIndex.toNat [MOD cap.size] ∧
        writes - 1 - call.reverseIndex.toNat ≤ m := by
  intro writes
  have : Nonempty F.T := ⟨fun _ => F.zero⟩
  obtain ⟨vals, hvals, sched, hfollows⟩ := exists_single hser
  have hmem : (fun t => ((ring F cap).states readers acts t).mem) =
      CyclicBuffer.segments cap vals sched (withIdle readers) :=
    funext fun t => (hfollows t).mem.symm
  have hbegun : ∀ t, (CyclicBuffer.writers cap vals sched (withIdle readers) t).begun =
      ((ring F cap).states readers acts t).begun.length := fun t => (hfollows t).begun
  have hmono := CyclicBuffer.writers_begun_mono cap vals sched (withIdle readers)
  rw [hmem] at hexec
  have htime := hexec.mem_log _ (List.mem_of_head? hload)
  have hwrites : writes =
      published (CyclicBuffer.writers cap vals sched (withIdle readers) t₀) := by
    have hle : (CyclicBuffer.writers cap vals sched (withIdle readers) t₀).begun ≤
        (CyclicBuffer.writers cap vals sched (withIdle readers) b).begun := hmono htime.2.le
    have hpub := CyclicBuffer.published_le_completed
      (CyclicBuffer.writers cap vals sched (withIdle readers) t₀)
    have hcomp := CyclicBuffer.completed_le_begun
      (CyclicBuffer.writers cap vals sched (withIdle readers) t₀)
    rw [hbegun b] at hle
    calc writes = ((CyclicBuffer.segments cap vals sched (withIdle readers) t₀).header ()).toNat :=
          congrArg (fun m => (Region.header m ()).toNat) (congrFun hmem t₀)
      _ = published (CyclicBuffer.writers cap vals sched (withIdle readers) t₀) % 2 ^ 64 :=
          CyclicBuffer.toNat_header cap vals sched (withIdle readers) t₀
      _ = published (CyclicBuffer.writers cap vals sched (withIdle readers) t₀) :=
          Nat.mod_eq_of_lt (by omega)
  have hseg : ((CyclicBuffer.segments cap vals sched (withIdle readers) t₀).header ()).toNat =
      writes := (congrArg (fun m => (Region.header m ()).toNat) (congrFun hmem t₀)).symm
  obtain ⟨i, tb, ta, m, -, -, -, hb, hread, hv, hm, -, hmod, hle⟩ :=
    CyclicBuffer.readCall_value cap vals sched (withIdle readers) hexec hload
      (by rw [hseg]; exact hr) (by
        intro i tb ta hatt
        have hfew := hfew i tb ta hatt
        have hhits := hits_mono cap.size i.toNat (returned_le_published (hfollows tb))
        rw [CyclicBuffer.hitsWithin, hbegun ta]
        omega)
  rw [CyclicBuffer.asked, hseg] at hmod hle
  have hmb : m < ((ring F cap).states readers acts b).begun.length := by
    have hcomp := CyclicBuffer.completed_le_begun_of_le cap vals sched (withIdle readers)
      (hread.le.trans hb.le)
    rw [hbegun b] at hcomp
    omega
  refine ⟨hwrites ▸ returned_le_published (hfollows t₀), ?_, m, ?_, hmod, hle⟩
  · rw [hwrites, ← hbegun t₀]
    exact (CyclicBuffer.published_le_completed _).trans (CyclicBuffer.completed_le_begun _)
  · have hget : ((ring F cap).states readers acts b).begun[m]? =
        some ((ring F cap).states readers acts b).begun[m] := List.getElem?_eq_getElem hmb
    rw [hget, hv, hvals b m _ hget]

/-- Two writers insert one value each, and then `try_get(1)` is called. -/
def twoInsertions : ℕ → Action Bool Unit oneWord.T :=
  script (.reader ()) (repeated [(.call false (tens 0), 1), (.writer false, 7),
    (.call true (tens 1), 1), (.writer true, 7), (.reader (), 4)])

abbrev oneTryGet (_ : Unit) : CyclicBuffer.ReadProgram oneWord (Option oneWord.T) :=
  CyclicBuffer.tryGet oneWord capacityTwo 9 1 4

theorem readCall_of_serialized_twoInsertions : ∃ m,
    ((ring oneWord capacityTwo).states oneTryGet twoInsertions 20).begun[m]? = some (tens 0) ∧
      m ≡ 2 - 1 - 1 [MOD capacityTwo.size] ∧ 2 - 1 - 1 ≤ m := by
  have hser : (ring oneWord capacityTwo).Serialized oneTryGet twoInsertions :=
    Design.serialized_script _ _ rfl (by decide +kernel)
  have hexec : Exec memory.read
      (fun t => ((ring oneWord capacityTwo).states oneTryGet twoInsertions t).mem) 16
      ((ReadCall.tryGet 1 4).prog oneWord capacityTwo 9)
      [⟨16, .header ()⟩, ⟨17, .seq 0⟩, ⟨18, .word 0 0⟩, ⟨19, .seq 0⟩] 20 (some (tens 0)) :=
    exec_of_replay (show replay _ _ _ _ _ [16, 17, 18, 19] = _ by decide +kernel)
  have hbegun : ∀ t < 21,
      ((ring oneWord capacityTwo).states oneTryGet twoInsertions t).begun.length ≤ 2 := by
    decide +kernel
  have hread := readCall_of_serialized hser hexec rfl (by decide +kernel) (by
      intro i tb ta hatt
      have hta := (hexec.mem_log _ hatt.mem_log.2).2
      have hle := hbegun ta (Nat.lt_succ_of_lt hta)
      have hhits := hits_le capacityTwo.size i.toNat
        ((ring oneWord capacityTwo).states oneTryGet twoInsertions ta).begun.length
      omega) (by
      have hle := hbegun 20 (by omega)
      omega)
  have hwrites : (((ring oneWord capacityTwo).states oneTryGet twoInsertions 16).mem.header
      ()).toNat = 2 := by decide +kernel
  rw [hwrites] at hread
  exact hread.2.2

end Ring

section Overlap
open Seqlock (store load WriteProgram)

def segment (q : BitVec 32) (d : F.T) : Seqlock.Segment F := ⟨Empty.elim, fun _ => q, fun _ => d⟩

/-- The words in `js` are those of `v`, the others those of `d`. -/
def overlaid (js : List (Fin F.words)) (v d : F.T) : F.T := fun j => if j ∈ js then v j else d j

def opening (cur : BitVec 32) (v : F.T) : WriteProgram F Unit := do
  issue (.seq () (cur + 1))
  copyIn () v (List.finRange F.words)
  issue (.seq () (cur + 2))
  issue .wake

def copying (cur : BitVec 32) (v : F.T) (js : List (Fin F.words)) : WriteProgram F Unit := do
  copyIn () v js
  issue (.seq () (cur + 2))
  issue .wake

section Phases
variable (q cur : BitVec 32) (d v : F.T)

private theorem step_store :
    (soloStep memory)^[1] (segment q d, store v) = (segment q d, opening q v) := by
  simp [store, lockedStore, loadSeq, opening, soloStep, memory, segment]

private theorem step_opening : (soloStep memory)^[1] (segment q d, opening cur v) =
    (segment (cur + 1) d, copying cur v (List.finRange F.words)) := rfl

private theorem overlaid_nil : overlaid [] v d = d := by
  funext j
  simp [overlaid]

private theorem overlaid_cons (j : Fin F.words) (js : List (Fin F.words)) :
    overlaid js v (Function.update d j (v j)) = overlaid (j :: js) v d := by
  funext i
  by_cases hi : i ∈ js
  · simp [overlaid, hi]
  · by_cases hij : i = j
    · subst hij
      simp [overlaid]
    · simp [overlaid, hi, hij]

private theorem steps_copying (js js' : List (Fin F.words)) :
    (soloStep memory)^[js.length] (segment q d, copying cur v (js ++ js')) =
      (segment q (overlaid js v d), copying cur v js') := by
  induction js generalizing d with
  | nil => simp [overlaid_nil]
  | cons j js ih =>
    have hstep : soloStep memory (segment q d, copying cur v (j :: js ++ js')) =
        (segment q (Function.update d j (v j)), copying cur v (js ++ js')) := rfl
    rw [List.length_cons, Function.iterate_succ_apply, hstep, ih, overlaid_cons]

private theorem steps_copying_all (js : List (Fin F.words)) :
    (soloStep memory)^[js.length] (segment q d, copying cur v js) =
      (segment q (overlaid js v d), copying cur v []) := by
  have h := steps_copying q cur d v js []
  rwa [List.append_nil] at h

private theorem steps_closing : (soloStep memory)^[2] (segment q d, copying cur v []) =
    (segment (cur + 2) d, .ret ()) := rfl

end Phases

/-- Two writers, and no reader. -/
abbrev Pair (F : FlatType) :=
  State (Loc Empty Unit F.words) (Val F.Word) (Cmd Empty Unit F.words F.Word) (Seqlock.Segment F)
    F.T Bool (fun _ : Empty => Unit)

/-- The segment and what is left of the calls of the two writers. -/
structure Pair.At (s : Pair F) (begun : List F.T) (m : Seqlock.Segment F)
    (first second : WriteProgram F Unit) : Prop where
  begun : s.begun = begun
  mem : s.mem = m
  first : s.writer false = first
  second : s.writer true = second

section Blocks
variable {s : Pair F} {begun : List F.T} {m m' : Seqlock.Segment F}
variable {p p' r r' : WriteProgram F Unit}

private theorem Pair.At.turns_first (h : s.At begun m p r) {n : ℕ}
    (hp : (soloStep memory)^[n] (m, p) = (m', p')) :
    Pair.At ((List.replicate n (.writer false)).foldl (seqlock F).step s) begun m' p' r := by
  obtain ⟨hk, hothers, hbegun⟩ := foldl_turns (D := seqlock F) false n s
  rw [h.mem, h.first] at hk
  obtain ⟨hmem, hfirst⟩ := Prod.mk.inj (hk.trans hp)
  exact ⟨hbegun.trans h.begun, hmem, hfirst, (hothers true (by simp)).trans h.second⟩

private theorem Pair.At.turns_second (h : s.At begun m p r) {n : ℕ}
    (hr : (soloStep memory)^[n] (m, r) = (m', r')) :
    Pair.At ((List.replicate n (.writer true)).foldl (seqlock F).step s) begun m' p r' := by
  obtain ⟨hk, hothers, hbegun⟩ := foldl_turns (D := seqlock F) true n s
  rw [h.mem, h.second] at hk
  obtain ⟨hmem, hsecond⟩ := Prod.mk.inj (hk.trans hr)
  exact ⟨hbegun.trans h.begun, hmem, (hothers false (by simp)).trans h.first, hsecond⟩

end Blocks

/-- The second writer takes the counter first; the first one stores `k` words of its value, the
second one makes its whole store, and the first one goes on. -/
def overlapped (F : FlatType) (u v : F.T) (k : ℕ) : List (Action Bool Empty F.T) :=
  .call false u :: .call true v :: repeated
    [(.writer true, 1), (.writer false, 1), (.writer false, 1),
      (.writer false, ((List.finRange F.words).take k).length), (.writer true, 1),
      (.writer true, (List.finRange F.words).length), (.writer true, 2),
      (.writer false, ((List.finRange F.words).drop k).length), (.writer false, 2)]

private theorem overlaid_drop (u v d : F.T) (k : ℕ) :
    overlaid ((List.finRange F.words).drop k) u (overlaid (List.finRange F.words) v d) =
      fun j => if j.val < k then v j else u j := by
  funext j
  have hmem : j ∈ (List.finRange F.words).drop k ↔ k ≤ j.val := by
    rw [List.mem_drop_iff_getElem]
    constructor
    · rintro ⟨i, hi, rfl⟩
      simp
    · intro hle
      exact ⟨j.val - k, by simp; omega, Fin.ext (by simp; omega)⟩
  by_cases hj : j.val < k
  · simp [overlaid, hmem, hj]
  · simp [overlaid, hmem, hj, Nat.le_of_not_lt hj]

private theorem overlapped_end (u v : F.T) (k : ℕ) :
    Pair.At ((overlapped F u v k).foldl (seqlock F).step ((seqlock F).start (fun i => i.elim)))
      [u, v] (segment 2 (fun j => if j.val < k then v j else u j)) (.ret ()) (.ret ()) := by
  have hcalls : Pair.At ([.call false u, .call true v].foldl (seqlock F).step
      ((seqlock F).start (fun i => i.elim))) [u, v] (segment 0 (fun _ => F.zero)) (store u)
      (store v) := by
    refine ⟨rfl, ?_, rfl, rfl⟩
    simp [seqlock, segment, Region.zeroed, Design.step, Design.start, Prog.result?, funext_iff]
  have hopened := (hcalls.turns_second (step_store _ _ _)).turns_first (step_store _ _ _)
  have hbegun := hopened.turns_first (step_opening _ _ _ _)
  rw [← List.take_append_drop k (List.finRange F.words)] at hbegun
  have hhalf := hbegun.turns_first (steps_copying _ _ _ _ _ _)
  have hsecond := hhalf.turns_second (step_opening _ _ _ _)
  have hreturned := (hsecond.turns_second (steps_copying_all _ _ _ _ _)).turns_second
    (steps_closing _ _ _ _)
  have hdone := (hreturned.turns_first (steps_copying_all _ _ _ _ _)).turns_first
    (steps_closing _ _ _ _)
  rw [overlaid_drop] at hdone
  simp only [overlapped, repeated, List.foldl_cons, List.foldl_append, List.foldl_nil]
  exact hdone

/-- Two stores that overlap can leave a value that nobody has stored. For any two values and any
number `k` of words there is a run in which two writers each make one store, and from when both
have returned the counter is even and every load returns the first `k` words of the one value and
the other words of the other one. The counter has counted one store only. -/
theorem overlapping_stores_torn (u v : F.T) (k : ℕ) :
    ∃ (acts : ℕ → Action Bool Empty F.T) (t₀ : ℕ), ∀ t, t₀ ≤ t →
      let s : Pair F := (seqlock F).states (fun i => i.elim) acts t
      s.begun = [u, v] ∧ (∀ w, s.writer w = .ret ()) ∧ s.mem.seq () = 2 ∧
        ∀ fuel, (load F (fuel + 1)).run (memory.read s.mem) =
          some (fun j => if j.val < k then v j else u j) := by
  refine ⟨script (.writer false) (overlapped F u v k), (overlapped F u v k).length, ?_⟩
  intro t hle s
  have hend := overlapped_end u v k
  have hs : s = (overlapped F u v k).foldl (seqlock F).step
      ((seqlock F).start (fun i => i.elim)) := by
    rw [← after_script (.writer false)]
    apply after_of_fixed hle
    intro t' hle'
    rw [script_of_le hle', after_script, Design.step, hend.first]
    rfl
  rw [← hs] at hend
  refine ⟨hend.begun, ?_, ?_, ?_⟩
  · intro w
    cases w with
    | false => exact hend.first
    | true => exact hend.second
  · rw [hend.mem]
    rfl
  · intro fuel
    rw [hend.mem, load, run_spinRead (show (2 : BitVec 32) &&& 1 = 0 by decide)]
    rfl

end Overlap

end SafeShm.SeveralWriters
