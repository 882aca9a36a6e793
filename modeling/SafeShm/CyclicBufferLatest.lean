import SafeShm.CyclicBufferReads

/-!
# Successive reads of the latest element

`insert` completes the slot before it publishes the insertion in `total_writes`. A
reader that has been lapped can therefore copy an insertion that `total_writes` does not
count yet, and its next call, which starts from `total_writes`, returns an older one.
This is the only way back: as long as no attempt begins on such a slot, the insertion
numbers that successive calls return do not decrease (`latest_nondecreasing`).
-/

namespace SafeShm.CyclicBuffer
open AtomicPrograms SingleWriterRuns SequenceLocks RingSlots

variable {F : FlatType} (cap : Capacity)

def ReadCall.IsLatest : ReadCall → Prop
  | .getLatest => True
  | .get _ => False
  | .tryGet r _ => r = 0

theorem ReadCall.IsLatest.reverseIndex_eq {call : ReadCall} (h : call.IsLatest) :
    call.reverseIndex = 0 := by
  cases call with
  | getLatest => rfl
  | get r => exact h.elim
  | tryGet r maxRetries => exact h

section Runs
variable {ι : Type} [DecidableEq ι] {A : ι → Type}
variable (vals : ℕ → F.T) (sched : ℕ → Party ι) (readers : (i : ι) → ReadProgram F (A i))

/-- At instant `t` slot `i` holds an insertion that `total_writes` does not count yet. -/
def Unpublished (i : BitVec 64) (t : ℕ) : Prop :=
  published (writers cap vals sched readers t) < completed (writers cap vals sched readers t) ∧
    i.toNat = published (writers cap vals sched readers t) % cap.size

/-- Insertion number `m` is the last one complete in its slot at an instant from `a` to `b`. -/
def HeldWithin (m a b : ℕ) : Prop :=
  ∃ t, a ≤ t ∧ t ≤ b ∧ m < completed (writers cap vals sched readers t) ∧
    completed (writers cap vals sched readers t) ≤ m + cap.size

variable {a b fuel : ℕ} {call : ReadCall} {log : List (Event (Place F))} {v : F.T}

/-- What a call for the latest element returns, and the bounds that the two counters
put on its number. -/
theorem latest_value
    (hexec : Exec memory.read (segments cap vals sched readers) a (call.prog F cap fuel) log b
      (some v))
    (hlatest : call.IsLatest) (hfirst : 0 < published (writers cap vals sched readers a))
    (hfew : ∀ i tb ta, Attempt i log tb ta →
      hitsWithin cap vals sched readers i.toNat tb ta < 2 ^ 31)
    (h64 : published (writers cap vals sched readers b) < 2 ^ 64) :
    ∃ m i tb ta, v = vals m ∧ a ≤ tb ∧ tb ≤ b ∧ Attempt i log tb ta ∧ i.toNat = m % cap.size ∧
      published (writers cap vals sched readers a) ≤ m + 1 ∧
      m < completed (writers cap vals sched readers tb) ∧
      completed (writers cap vals sched readers tb) ≤ m + cap.size := by
  obtain ⟨t₀, hload, hs, -⟩ := exec_readCall hexec
  have ht₀ : t₀ < b := (hexec.mem_log ⟨t₀, .header ()⟩ (List.mem_of_head? hload)).2
  have hpub : published (writers cap vals sched readers a) ≤
      published (writers cap vals sched readers t₀) := published_mono cap vals sched readers hs
  have hheader : ((segments cap vals sched readers t₀).header ()).toNat =
      published (writers cap vals sched readers t₀) := by
    have hle : published (writers cap vals sched readers t₀) ≤
        published (writers cap vals sched readers b) := published_mono cap vals sched readers ht₀.le
    rw [toNat_header]
    omega
  have hzero : call.reverseIndex.toNat = 0 := by
    rw [hlatest.reverseIndex_eq]
    rfl
  have hr : call.reverseIndex.toNat <
      min ((segments cap vals sched readers t₀).header ()).toNat cap.size := by
    have hsize := cap.size_pos
    omega
  obtain ⟨i, tb, ta, m, hi, -, htb, hta, hread, hv, hm, hn, -, hle⟩ :=
    readCall_value cap vals sched readers hexec hload hr hfew
  have hstop := hread.le
  rw [asked] at hle
  exact ⟨m, i, tb, ta, hv, by omega, by omega, hread.attempt, hi, by omega, hm, hn⟩

private theorem lt_published {m tb : ℕ} {i : BitVec 64} (hi : i.toNat = m % cap.size)
    (hm : m < completed (writers cap vals sched readers tb))
    (h : ¬ Unpublished cap vals sched readers i tb) :
    m < published (writers cap vals sched readers tb) := by
  have hle := completed_le_succ (writers cap vals sched readers tb)
  by_contra hge
  obtain rfl : m = published (writers cap vals sched readers tb) := by omega
  exact h ⟨by omega, hi⟩

/-- The insertion numbers of the values that successive calls of `get_latest()` and
`try_get(0)` return never decrease, in a ring of one slot, or when no attempt begins on a
slot that holds an unpublished insertion. -/
theorem latest_nondecreasing
    {calls : List (Call (Place F) (Val F.Word) (Option F.T))}
    (hcalls : Successive memory.read (segments cap vals sched readers) calls)
    (hlatest : ∀ c ∈ calls, ∃ call fuel, ReadCall.IsLatest call ∧ c.prog = call.prog F cap fuel)
    (hfirst : ∀ c ∈ calls, 0 < published (writers cap vals sched readers c.start))
    (hfew : ∀ c ∈ calls, ∀ i tb ta, Attempt i c.log tb ta →
      hitsWithin cap vals sched readers i.toNat tb ta < 2 ^ 31)
    (h64 : ∀ c ∈ calls, (writers cap vals sched readers c.stop).begun < 2 ^ 64)
    (hcond : cap.size = 1 ∨ ∀ c ∈ calls, ∀ i tb ta, Attempt i c.log tb ta →
      ¬ Unpublished cap vals sched readers i tb) :
    ∃ numbers : List ℕ,
      List.Forall₂ (fun c m => c.value = some (vals m) ∧
          HeldWithin cap vals sched readers m c.start c.stop)
        (calls.filter (fun c => c.value.isSome)) numbers ∧
      numbers.Pairwise (· ≤ ·) := by
  have hcalls' := hcalls.sublist (List.filter_sublist (p := fun c => c.value.isSome))
  have hvalue : ∀ c ∈ calls.filter (fun c => c.value.isSome), ∃ m i tb ta,
      c.value = some (vals m) ∧ HeldWithin cap vals sched readers m c.start c.stop ∧
      c.start ≤ tb ∧ tb ≤ c.stop ∧ Attempt i c.log tb ta ∧ i.toNat = m % cap.size ∧
      published (writers cap vals sched readers c.start) ≤ m + 1 ∧
      m < completed (writers cap vals sched readers tb) ∧
      completed (writers cap vals sched readers tb) ≤ m + cap.size := by
    intro c hc
    obtain ⟨hmem, hsome⟩ := List.mem_filter.mp hc
    obtain ⟨v, hv⟩ := Option.isSome_iff_exists.mp hsome
    obtain ⟨call, fuel, hcall, hprog⟩ := hlatest c hmem
    have hexec := hcalls.exec c hmem
    rw [hprog, hv] at hexec
    have hpublished : published (writers cap vals sched readers c.stop) < 2 ^ 64 :=
      ((published_le_completed _).trans (completed_le_begun _)).trans_lt (h64 c hmem)
    obtain ⟨m, i, tb, ta, rfl, hs, hb, hatt, hi, hpub, hm, hn⟩ :=
      latest_value cap vals sched readers hexec hcall (hfirst c hmem) (hfew c hmem) hpublished
    exact ⟨m, i, tb, ta, hv, ⟨tb, hs, hb, hm, hn⟩, hs, hb, hatt, hi, hpub, hm, hn⟩
  rcases hcond with hone | hcond
  · -- with one slot the number read is the last completed one
    have hmono : Monotone (fun t => completed (writers cap vals sched readers t) - 1) :=
      fun t t' h => Nat.sub_le_sub_right (completed_le cap vals sched readers h) 1
    apply hcalls'.exists_ordered hmono
    intro c hc
    obtain ⟨m, i, tb, ta, hv, hheld, hs, hb, -, -, -, hm, hn⟩ := hvalue c hc
    have hstart := completed_le cap vals sched readers hs
    have hstop := completed_le cap vals sched readers hb
    exact ⟨m, ⟨hv, hheld⟩, by omega, by omega⟩
  · have hmono : Monotone (fun t => published (writers cap vals sched readers t) - 1) :=
      fun t t' h => Nat.sub_le_sub_right (published_mono cap vals sched readers h) 1
    apply hcalls'.exists_ordered hmono
    intro c hc
    obtain ⟨m, i, tb, ta, hv, hheld, hs, hb, hatt, hi, hpub, hm, -⟩ := hvalue c hc
    have hlt := lt_published cap vals sched readers hi hm
      (hcond c (List.mem_of_mem_filter hc) i tb ta hatt)
    have hstop : published (writers cap vals sched readers tb) ≤
        published (writers cap vals sched readers c.stop) :=
      published_mono cap vals sched readers hb
    exact ⟨m, ⟨hv, hheld⟩, by omega, by omega⟩

end Runs

section Samples

/-- Two calls of `get_latest()`, one after the other. -/
abbrev latestTwice (_ : Unit) : ReadProgram oneWord (Option oneWord.T × Option oneWord.T) := do
  let first ← ReadCall.getLatest.prog oneWord capacityTwo 9
  let second ← ReadCall.getLatest.prog oneWord capacityTwo 9
  return (first, second)

/-- During each call the writer begins or ends an insertion into the other slot. -/
def interleaved : ℕ → Party Unit :=
  blocks [(.writer, 8), (.reader (), 1), (.writer, 4), (.reader (), 2), (.writer, 3),
    (.reader (), 2), (.writer, 4), (.reader (), 3)]

def interleavedCalls : List (Call (Place oneWord) (Val oneWord.Word) (Option oneWord.T)) :=
  [⟨ReadCall.getLatest.prog oneWord capacityTwo 9, 8,
      [⟨8, .header ()⟩, ⟨13, .seq 0⟩, ⟨14, .word 0 ⟨0, Nat.zero_lt_one⟩⟩, ⟨18, .seq 0⟩], 19,
      some (tens 0)⟩,
    ⟨ReadCall.getLatest.prog oneWord capacityTwo 9, 19,
      [⟨19, .header ()⟩, ⟨24, .seq 1⟩, ⟨25, .word 1 ⟨0, Nat.zero_lt_one⟩⟩, ⟨26, .seq 1⟩], 27,
      some (tens 1)⟩]

theorem latest_nondecreasing_interleaved : ∃ numbers : List ℕ,
    List.Forall₂ (fun c m => c.value = some (tens m) ∧
        HeldWithin capacityTwo tens interleaved latestTwice m c.start c.stop)
      (interleavedCalls.filter (fun c => c.value.isSome)) numbers ∧
    numbers.Pairwise (· ≤ ·) := by
  have hexec : ∀ c ∈ interleavedCalls, Exec memory.read
      (segments capacityTwo tens interleaved latestTwice) c.start c.prog c.log c.stop c.value := by
    refine List.forall_mem_cons.mpr ⟨?_, List.forall_mem_singleton.mpr ?_⟩
    · exact exec_of_replay (show replay _ _ _ _ _ [8, 13, 14, 18] = _ by decide +kernel)
    · exact exec_of_replay (show replay _ _ _ _ _ [19, 24, 25, 26] = _ by decide +kernel)
  have hbegun : ∀ c ∈ interleavedCalls,
      (writers capacityTwo tens interleaved latestTwice c.stop).begun < 4 := by decide +kernel
  refine latest_nondecreasing capacityTwo tens interleaved latestTwice ⟨hexec, by decide⟩ ?_
    (by decide +kernel) ?_ ?_ (.inr ?_)
  · have hprog : ReadCall.IsLatest .getLatest := trivial
    refine List.forall_mem_cons.mpr ⟨?_, List.forall_mem_singleton.mpr ?_⟩
    · exact ⟨.getLatest, 9, hprog, rfl⟩
    · exact ⟨.getLatest, 9, hprog, rfl⟩
  · intro c hc
    apply hitsWithin_lt capacityTwo tens interleaved latestTwice (hexec c hc)
    have := hbegun c hc
    omega
  · intro c hc
    have := hbegun c hc
    omega
  · intro c hc i tb ta hatt hunpub
    have hpub : ∀ c ∈ interleavedCalls, ∀ e ∈ c.log,
        ¬ published (writers capacityTwo tens interleaved latestTwice e.time) <
          completed (writers capacityTwo tens interleaved latestTwice e.time) := by decide +kernel
    exact hpub c hc _ hatt.mem_log.1 hunpub.1

/-- The first call loads `total_writes = 1`; then the writer makes insertion 1 and
completes the slot of insertion 2 without publishing it. -/
def early : ℕ → Party Unit :=
  blocks [(.writer, 8), (.reader (), 1), (.writer, 14), (.reader (), 7)]

def earlyCalls : List (Call (Place oneWord) (Val oneWord.Word) (Option oneWord.T)) :=
  [⟨ReadCall.getLatest.prog oneWord capacityTwo 9, 8,
      [⟨8, .header ()⟩, ⟨23, .seq 0⟩, ⟨24, .word 0 ⟨0, Nat.zero_lt_one⟩⟩, ⟨25, .seq 0⟩], 26, some (tens 2)⟩,
    ⟨ReadCall.getLatest.prog oneWord capacityTwo 9, 26,
      [⟨26, .header ()⟩, ⟨27, .seq 1⟩, ⟨28, .word 1 ⟨0, Nat.zero_lt_one⟩⟩, ⟨29, .seq 1⟩], 30, some (tens 1)⟩]

/-- The reader gets insertion number 2 and then insertion number 1. -/
theorem latest_goes_back :
    ((states capacityTwo tens early latestTwice 30).reader ()).result? =
      some (some (tens 2), some (tens 1)) ∧
    Successive memory.read (segments capacityTwo tens early latestTwice) earlyCalls ∧
    (∀ c ∈ earlyCalls, 0 < published (writers capacityTwo tens early latestTwice c.start)) ∧
    ¬ ∃ numbers : List ℕ,
      List.Forall₂ (fun c m => c.value = some (tens m) ∧
          m < (writers capacityTwo tens early latestTwice c.stop).begun) earlyCalls numbers ∧
      numbers.Pairwise (· ≤ ·) := by
  refine ⟨by decide +kernel, ⟨?_, by decide⟩, by decide +kernel, ?_⟩
  · refine List.forall_mem_cons.mpr ⟨?_, List.forall_mem_singleton.mpr ?_⟩
    · exact exec_of_replay (show replay _ _ _ _ _ [8, 23, 24, 25] = _ by decide +kernel)
    · exact exec_of_replay (show replay _ _ _ _ _ [26, 27, 28, 29] = _ by decide +kernel)
  · intro h
    obtain ⟨numbers, hall, hle⟩ := h
    have hbegun : (writers capacityTwo tens early latestTwice 26).begun = 3 ∧
        (writers capacityTwo tens early latestTwice 30).begun = 3 := by decide +kernel
    have htwo : ∀ m < 3, some (tens 2) = some (tens m) → m = 2 := by decide +kernel
    have hone : ∀ m < 3, some (tens 1) = some (tens m) → m = 1 := by decide +kernel
    cases hall with
    | @cons c₁ m₁ _ _ h₁ htail =>
      cases htail with
      | @cons c₂ m₂ _ _ h₂ htail =>
        have hm₁ : m₁ = 2 := htwo m₁ (hbegun.1 ▸ h₁.2) h₁.1
        have hm₂ : m₂ = 1 := hone m₂ (hbegun.2 ▸ h₂.2) h₂.1
        have hlt := (List.pairwise_cons.mp hle).1 m₂ List.mem_cons_self
        omega

end Samples

end SafeShm.CyclicBuffer
