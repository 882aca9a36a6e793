import SafeShm.CyclicBufferLatest
import SafeShm.InterpolationSearch

/-!
# Temporal queries under a live writer

A query of `TimeSeries` keeps reverse indices while it runs, and every `try_get` loads
`total_writes` again. As long as no insertion is published between the loads of a query,
an index denotes the same insertion each time, and the results for a buffer that stays as it
is carry over. An insertion that has only begun does no harm while the ring is not full, since
it goes into a slot that no index denotes; in a full ring it goes into the slot of the oldest
element.
-/

namespace SafeShm.TimeSeries
open AtomicPrograms SingleWriterRuns SequenceLocks RingSlots
open CyclicBuffer (ReadProgram ReadCall Place Writer segments writers published completed midInsert
  quiet umin)

variable {F : FlatType} (cap : Capacity) {ι : Type} [DecidableEq ι] {A : ι → Type}
variable (vals : ℕ → F.T) (sched : ℕ → Party ι) (readers : (i : ι) → ReadProgram F (A i))
variable {kw : ℕ} {key : F.T → BitVec kw} {target : BitVec kw} {fuel slotFuel a b : ℕ}
variable {log : List (Event (Place F))}

section Interpolation
variable {P C : ℕ}

/-- At each of the events `P` insertions are published, and if that fills the ring, `C` are
complete. -/
def Stable (P C : ℕ) (log : List (Event (Place F))) : Prop :=
  ∀ e ∈ log, published (writers cap vals sched readers e.time) = P ∧
    (completed (writers cap vals sched readers e.time) = C ∨ P < cap.size)

/-- What `try_get(i)` returns, if it returns something, while the buffer is stable. -/
def stableElem (P C : ℕ) (i : BitVec 64) : F.T :=
  if P < cap.size then vals (P % 2 ^ 64 - 1 - i.toNat)
  else content cap.size (fun _ => F.zero) vals ((P % 2 ^ 64 - 1 - i.toNat) % cap.size) C

theorem tryGet_stable {i : BitVec 64} {maxRetries : BitVec 32} {v : F.T}
    (hexec : Exec memory.read (segments cap vals sched readers) a
      (CyclicBuffer.tryGet F cap slotFuel i maxRetries) log b (some v))
    (hstable : Stable cap vals sched readers P C log) : v = stableElem cap vals P C i := by
  have hexec' : Exec memory.read (segments cap vals sched readers) a
      ((ReadCall.tryGet i maxRetries).prog F cap slotFuel) log b (some v) := hexec
  obtain ⟨t₀, hload, -, -⟩ := CyclicBuffer.exec_readCall hexec'
  have hr := CyclicBuffer.lt_of_exec_tryGet hexec hload
  have hasked : CyclicBuffer.asked cap vals sched readers (.tryGet i maxRetries) t₀ =
      P % 2 ^ 64 - 1 - i.toNat := by
    have hP : published (writers cap vals sched readers t₀) = P :=
      (hstable ⟨t₀, .header ()⟩ (List.mem_of_head? hload)).1
    rw [CyclicBuffer.asked, CyclicBuffer.toNat_header, hP]
    rfl
  rw [stableElem]
  by_cases hfull : P < cap.size
  · rw [if_pos hfull]
    obtain ⟨e, he⟩ : ∃ e, log.getLast? = some e := by
      cases log with
      | nil => simp at hload
      | cons e' log' => exact ⟨_, List.getLast?_cons⟩
    have hP := (hstable e (List.mem_of_getLast? he)).1
    have hsucc := CyclicBuffer.completed_le_succ (writers cap vals sched readers e.time)
    have hv := CyclicBuffer.readCall_asked cap vals sched readers hexec' hload hr he (by omega)
    rw [hv, hasked]
  · rw [if_neg hfull]
    obtain ⟨idx, tb, ta, hidx, -, -, -, hread⟩ :=
      CyclicBuffer.readCall_slot cap vals sched readers hexec' hload hr
    have hsame : ∀ e ∈ log, completed (writers cap vals sched readers e.time) = C :=
      fun e he => (hstable e he).2.resolve_right hfull
    have htb := hsame _ hread.attempt.mem_log.1
    have hta := hsame _ hread.attempt.mem_log.2
    obtain ⟨hv, -⟩ := CyclicBuffer.cleanRead_content cap vals sched readers hread (by
      have hle := CyclicBuffer.midInsert_le_one cap (writers cap vals sched readers ta) idx.toNat
      simp only [CyclicBuffer.versioned] at htb hta ⊢
      rw [htb, hta]
      omega)
    rw [hv, hidx, hasked, htb]

variable (F) in
theorem exec_onBuffer_available {B : Type} {k : BitVec 64 → QueryProgram F.T B} {x : B}
    {σ : ℕ → CyclicBuffer.Segment F}
    (h : Exec memory.read σ a (onBuffer F cap slotFuel (available >>= k)) log b x) :
    ∃ t m log', log = ⟨t, .header ()⟩ :: log' ∧
      Exec memory.read σ m (onBuffer F cap slotFuel (k (umin ((σ t).header ()) cap.N))) log' b x := by
  obtain ⟨n, m, log₁, log₂, rfl, h₁, h₂⟩ := exec_bind.mp h
  obtain ⟨t, rfl, rfl⟩ := CyclicBuffer.exec_available h₁
  exact ⟨t, m, log₂, rfl, h₂⟩

/-- A pair returned under a live writer brackets the target if no insertion is published
from the first `try_get` of the query on, and in a full ring none is completed. -/
theorem findInterpolationPair_live {p : InterpPair F.T}
    (hexec : Exec memory.read (segments cap vals sched readers) a
      (onBuffer F cap slotFuel (findInterpolationPair key target fuel)) log b (some p))
    (hstable : Stable cap vals sched readers P C log.tail) : Bracketed key target p := by
  obtain ⟨t, m, log', rfl, h⟩ := exec_onBuffer_available F cap hexec
  obtain ⟨tr, hanswers, hcalls⟩ := h.answers_of_interp
  have htr : AnsweredBy (stableElem cap vals P C) tr := by
    intro i e he
    obtain ⟨s', b', log'', -, -, hlog, hcall⟩ := hcalls _ he
    exact tryGet_stable cap vals sched readers hcall (fun e he => hstable e (hlog.subset he))
  exact answers_pairAmong hanswers htr

end Interpolation

section InterpolationSamples

/-- `find_interpolation_pair(15)`. -/
abbrev findPairFifteen (cap : Capacity) (_ : Unit) :
    ReadProgram oneWord (Option (InterpPair oneWord.T)) :=
  onBuffer oneWord cap 9 (findInterpolationPair wordKey 15 2)

/-- After the insertion of the keys 10 and 20 the query begins, and then the insertion of the key
30, which is complete in its slot but not published when the query returns. -/
def underWay : ℕ → Party Unit :=
  blocks [(.writer, 16), (.reader (), 5), (.writer, 6), (.reader (), 12)]

theorem findInterpolationPair_live_underWay :
    completed (writers capacityFour tens underWay (findPairFifteen capacityFour) 39) = 3 ∧ ∃ p,
      ((CyclicBuffer.states capacityFour tens underWay (findPairFifteen capacityFour) 39).reader
        ()).result? = some (some p) ∧ Bracketed wordKey 15 p := by
  have hsome : (((CyclicBuffer.states capacityFour tens underWay (findPairFifteen capacityFour)
      39).reader ()).result?.map Option.isSome) = some true := by decide +kernel
  obtain ⟨r, hr, hp⟩ := Option.map_eq_some_iff.mp hsome
  obtain ⟨p, rfl⟩ := Option.isSome_iff_exists.mp hp
  obtain ⟨log, hexec⟩ := CyclicBuffer.exec_of_states capacityFour tens underWay
    (findPairFifteen capacityFour) () (show 16 ≤ 39 by decide) (by decide) hr
  have hstable : Stable capacityFour tens underWay (findPairFifteen capacityFour) 2 3 log.tail := by
    have hpublished : ∀ t < 39, 16 ≤ t →
        published (writers capacityFour tens underWay (findPairFifteen capacityFour) t) = 2 := by
      decide +kernel
    intro e he
    have htime := hexec.mem_log e (List.mem_of_mem_tail he)
    exact ⟨hpublished e.time htime.2 htime.1, .inr (by decide)⟩
  exact ⟨by decide +kernel, p, hr, findInterpolationPair_live capacityFour tens underWay
    (findPairFifteen capacityFour) hexec hstable⟩

/-- The insertion of the key 30 falls between the boundary reads of the query and the reads
of the bracket that it found. -/
def shifted : ℕ → Party Unit :=
  blocks [(.writer, 16), (.reader (), 9), (.writer, 8), (.reader (), 8)]

/-- The keys of the three insertions increase, and yet the pair that is returned for the
target 15 begins with the key 20: the target is below it, and the subtraction wraps. -/
theorem findInterpolationPair_shifted :
    (writers capacityTwo tens shifted (findPairFifteen capacityTwo) 41).begun = 3 ∧
    (∀ m' < 3, ∀ m < m', wordKey (tens m) < wordKey (tens m')) ∧
    ∃ p, ((CyclicBuffer.states capacityTwo tens shifted (findPairFifteen capacityTwo) 41).reader ()).result? =
        some (some p) ∧ ¬ wordKey p.before ≤ 15 ∧
      (15 - wordKey p.before).toNat = 2 ^ 64 - 5 ∧ ¬ Bracketed wordKey 15 p := by
  refine ⟨by decide +kernel, by decide, ?_⟩
  have helems : (((CyclicBuffer.states capacityTwo tens shifted (findPairFifteen capacityTwo) 41).reader
      ()).result?.map (Option.map (fun p => p.before))) = some (some (tens 1)) := by
    decide +kernel
  obtain ⟨r, hr, hp⟩ := Option.map_eq_some_iff.mp helems
  obtain ⟨p, rfl, hbefore⟩ := Option.map_eq_some_iff.mp hp
  have hlt : ¬ wordKey p.before ≤ 15 := by
    rw [hbefore]
    decide
  refine ⟨p, hr, hlt, ?_, fun h => hlt h.before_le⟩
  rw [hbefore]
  decide

end InterpolationSamples

section Closest
variable {P : ℕ}

/-- At each of the events `P` insertions are published, and if that fills the ring, no
insertion is writing into it. -/
def Undisturbed (P : ℕ) (log : List (Event (Place F))) : Prop :=
  ∀ e ∈ log, published (writers cap vals sched readers e.time) = P ∧
    (P < cap.size ∨ CyclicBuffer.Settled (writers cap vals sched readers e.time))

private theorem slot_lt_of_not_full {r : BitVec 64} (hlt : P < cap.size)
    (hr : r.toNat < min (BitVec.ofNat 64 P).toNat cap.size) :
    ((BitVec.ofNat 64 P - 1 - r) &&& (cap.N - 1)).toNat < P := by
  have hsize := cap.size_lt
  have hPw : (BitVec.ofNat 64 P).toNat = P := by
    rw [BitVec.toNat_ofNat]
    omega
  have hsub : (BitVec.ofNat 64 P - 1 - r).toNat = P - 1 - r.toNat := by bv_omega
  rw [cap.toNat_and_mask, hsub]
  exact (Nat.mod_le _ _).trans_lt (by omega)

private theorem tryGet_loads_undisturbed {r : BitVec 64} {maxRetries : BitVec 32} {x : Option F.T}
    (hexec : Exec memory.read (segments cap vals sched readers) a
      (CyclicBuffer.tryGet F cap slotFuel r maxRetries) log b x)
    (hlog : Undisturbed cap vals sched readers P log) :
    ∀ e ∈ log, memory.read (segments cap vals sched readers e.time) e.loc =
      memory.read (quiet cap vals P) e.loc := by
  obtain ⟨t₀, log', rfl, hslot⟩ := CyclicBuffer.exec_tryGet_loads hexec
  have hw : (segments cap vals sched readers t₀).header () = BitVec.ofNat 64 P := by
    rw [CyclicBuffer.segments_header, (hlog _ List.mem_cons_self).1]
  intro e he
  rcases List.mem_cons.mp he with rfl | he'
  · exact hw
  · obtain ⟨hr, hcell⟩ := hslot e he'
    rw [hw] at hr hcell
    obtain ⟨hP, hfree⟩ := hlog e he
    obtain ⟨hseq, hdata⟩ := CyclicBuffer.segments_eq_quiet cap vals sched readers hP
      (hfree.symm.imp_right (fun hlt => ⟨hlt, slot_lt_of_not_full cap hlt hr⟩))
    obtain ⟨t, l⟩ := e
    cases l with
    | header h => exact hcell.elim
    | seq c =>
      obtain rfl := hcell
      exact hseq
    | word c j =>
      obtain rfl := hcell
      exact congrFun hdata j

theorem request_undisturbed {q : Request} {x : q.Answer F.T}
    (hexec : Exec memory.read (segments cap vals sched readers) a
      (Request.prog F cap (slotFuel + 1) q) log b x)
    (hlog : Undisturbed cap vals sched readers P log) :
    x = fixedAnswers (umin (BitVec.ofNat 64 P) cap.N) (fun i => vals (P - 1 - i)) q := by
  have hloads : ∀ e ∈ log, memory.read (segments cap vals sched readers e.time) e.loc =
      memory.read (quiet cap vals P) e.loc := by
    cases q with
    | available =>
      obtain ⟨t, rfl, -⟩ := CyclicBuffer.exec_available hexec
      intro e he
      obtain rfl := List.mem_singleton.mp he
      show (segments cap vals sched readers t).header () = BitVec.ofNat 64 P
      rw [CyclicBuffer.segments_header, (hlog _ he).1]
    | tryGet r => exact tryGet_loads_undisturbed cap vals sched readers hexec hlog
  have hrun := hexec.run hloads
  rw [run_request] at hrun
  exact (Option.some.inj hrun).symm

/-- At instant `t` insertion number `m` is one of the last `min(total_writes, N)` published
ones. -/
def InWindow (t m : ℕ) : Prop :=
  m < published (writers cap vals sched readers t) ∧
    published (writers cap vals sched readers t) ≤
      m + min ((segments cap vals sched readers t).header ()).toNat cap.size

private theorem inWindow_iff {t m : ℕ} (hP : published (writers cap vals sched readers t) = P) :
    InWindow cap vals sched readers t m ↔
      ∃ i < (umin (BitVec.ofNat 64 P) cap.N).toNat, m = P - 1 - i := by
  have hle := Nat.mod_le P (2 ^ 64)
  rw [InWindow, hP, CyclicBuffer.toNat_header, hP, CyclicBuffer.toNat_available]
  constructor
  · intro h
    exact ⟨P - 1 - m, by omega, by omega⟩
  · intro h
    obtain ⟨i, hi, rfl⟩ := h
    omega

private theorem descending_of_increasing {n : ℕ} (hP : P ≤ n)
    (hkeys : ∀ m' < n, ∀ m < m', key (vals m) < key (vals m')) :
    Descending key (umin (BitVec.ofNat 64 P) cap.N) (fun i => vals (P - 1 - i)) := by
  intro i j hij hj
  rcases Nat.lt_or_eq_of_le hij with hlt | rfl
  · rw [CyclicBuffer.toNat_available] at hj
    have hle := Nat.mod_le P (2 ^ 64)
    exact BitVec.le_of_lt (hkeys _ (by omega) _ (by omega))
  · exact BitVec.le_refl _

/-- An element that `find_closest` returns under a live writer is, at an instant of the call,
one of the nearest of the published elements, if no insertion is published between the loads
of the query, and in a full ring none is writing. -/
theorem findClosest_live {e : F.T} (hfuel : cap.size ≤ fuel)
    (hexec : Exec memory.read (segments cap vals sched readers) a
      (onBuffer F cap (slotFuel + 1) (findClosest key target fuel none)) log b (some e))
    (hkeys : ∀ m' < (writers cap vals sched readers b).begun, ∀ m < m',
      key (vals m) < key (vals m'))
    (hlog : Undisturbed cap vals sched readers P log) :
    ∃ t m, a ≤ t ∧ t ≤ b ∧ e = vals m ∧ InWindow cap vals sched readers t m ∧
      ∀ m', InWindow cap vals sched readers t m' →
        distance key target (vals m) ≤ distance key target (vals m') := by
  obtain ⟨t, -, log', hload, -⟩ := exec_onBuffer_available F cap hexec
  have hmem : ⟨t, .header ()⟩ ∈ log := by
    rw [hload]
    exact List.mem_cons_self
  have htime : a ≤ t ∧ t < b := hexec.mem_log _ hmem
  have hP : published (writers cap vals sched readers t) = P := (hlog _ hmem).1
  have hbegun : P ≤ (writers cap vals sched readers b).begun := by
    have hle := CyclicBuffer.published_le_completed (writers cap vals sched readers t)
    have hle' := CyclicBuffer.completed_le_begun_of_le cap vals sched readers htime.2.le
    omega
  obtain ⟨tr, hanswers, hcalls⟩ := hexec.answers_of_interp
  have hfixed : ∀ x ∈ tr, x.2 =
      fixedAnswers (umin (BitVec.ofNat 64 P) cap.N) (fun i => vals (P - 1 - i)) x.1 := by
    intro x hx
    obtain ⟨s', b', log'', -, -, hsub, hcall⟩ := hcalls x hx
    exact request_undisturbed cap vals sched readers hcall (fun e he => hlog e (hsub.subset he))
  have hrun := hanswers.run hfixed
  have havail := CyclicBuffer.toNat_available cap P
  have hwindow := fun m => inWindow_iff cap vals sched readers (m := m) hP
  have hdesc := descending_of_increasing cap vals hbegun hkeys
  generalize umin (BitVec.ofNat 64 P) cap.N = avail at hrun havail hwindow hdesc
  by_cases hzero : avail = 0
  · rw [hzero] at hrun
    exact absurd hrun (by simp [findClosest, available, fixedAnswers])
  · obtain ⟨j, hj, hmin, hrun'⟩ := run_findClosest _ hdesc hzero none
      (show avail.toNat ≤ fuel by omega)
    have he : e = vals (P - 1 - j) :=
      Option.some.inj (Option.some.inj (hrun.symm.trans hrun'))
    refine ⟨t, P - 1 - j, htime.1, htime.2.le, he, (hwindow _).mpr ⟨j, hj, rfl⟩, ?_⟩
    intro m' hm'
    obtain ⟨i, hi, rfl⟩ := (hwindow m').mp hm'
    exact hmin i hi

end Closest

section ClosestSamples

/-- `find_closest(12)` on a ring of four slots. -/
abbrev findClosestTwelve (_ : Unit) : ReadProgram oneWord (Option oneWord.T) :=
  onBuffer oneWord capacityFour 9 (findClosest wordKey 12 4 none)

/-- The query runs after the insertion of the keys 10 and 20, while the third insertion is
under way. -/
def whileThird : ℕ → Party Unit := blocks [(.writer, 20), (.reader (), 13)]

theorem findClosest_live_whileThird : ∃ t m, 20 ≤ t ∧ t ≤ 33 ∧ tens 0 = tens m ∧
    InWindow capacityFour tens whileThird findClosestTwelve t m ∧
    ∀ m', InWindow capacityFour tens whileThird findClosestTwelve t m' →
      distance wordKey 12 (tens m) ≤ distance wordKey 12 (tens m') := by
  have hresult : ((CyclicBuffer.states capacityFour tens whileThird findClosestTwelve 33).reader
      ()).result? = some (some (tens 0)) := by decide +kernel
  obtain ⟨log, hexec⟩ := CyclicBuffer.exec_of_states capacityFour tens whileThird
    findClosestTwelve () (show 20 ≤ 33 by decide) (by decide) hresult
  have hbegun : (writers capacityFour tens whileThird findClosestTwelve 33).begun = 3 := by
    decide +kernel
  have hkeys : ∀ m' < 3, ∀ m < m', wordKey (tens m) < wordKey (tens m') := by decide
  have hlog : Undisturbed capacityFour tens whileThird findClosestTwelve 2 log := by
    have hpub : ∀ t < 33, 20 ≤ t →
        published (writers capacityFour tens whileThird findClosestTwelve t) = 2 := by
      decide +kernel
    intro e he
    have htime := hexec.mem_log e he
    exact ⟨hpub e.time htime.2 htime.1, .inl (by decide)⟩
  exact findClosest_live capacityFour tens whileThird findClosestTwelve
    (show capacityFour.size ≤ 4 by decide) hexec (by rwa [hbegun]) hlog

/-- The insertion of the key 30 falls between the loop of the query and its last reads. -/
def moved : ℕ → Party Unit :=
  blocks [(.writer, 16), (.reader (), 5), (.writer, 8), (.reader (), 8)]

/-- The element with key 20 is returned for the target 12, although the element with key 10
is published at every instant of the call. -/
theorem findClosest_moved :
    (writers capacityFour tens moved findClosestTwelve 37).begun = 3 ∧
    (∀ m' < 3, ∀ m < m', wordKey (tens m) < wordKey (tens m')) ∧
    ((CyclicBuffer.states capacityFour tens moved findClosestTwelve 37).reader ()).result? =
      some (some (tens 1)) ∧
    ¬ ∃ t m, 16 ≤ t ∧ t ≤ 37 ∧ tens 1 = tens m ∧
      InWindow capacityFour tens moved findClosestTwelve t m ∧
      ∀ m', InWindow capacityFour tens moved findClosestTwelve t m' →
        distance wordKey 12 (tens m) ≤ distance wordKey 12 (tens m') := by
  refine ⟨by decide +kernel, by decide, by decide +kernel, ?_⟩
  intro h
  obtain ⟨t, m, hstart, hstop, hm, -, hmin⟩ := h
  have hfirst : ∀ t < 39, 16 ≤ t →
      0 < published (writers capacityFour tens moved findClosestTwelve t) ∧
      published (writers capacityFour tens moved findClosestTwelve t) ≤
        0 + min ((segments capacityFour tens moved findClosestTwelve t).header ()).toNat
          capacityFour.size := by decide +kernel
  have hle := hmin 0 (hfirst t (by omega) hstart)
  rw [← hm] at hle
  exact absurd hle (by decide)

end ClosestSamples

end SafeShm.TimeSeries
