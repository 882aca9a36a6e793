import SafeShm.LiveQueries
import SafeShm.SearchBounds
import SafeShm.UnlappedReads
import SafeShm.WriterLiveness

/-!
# What queries return whatever the writer does

Under a live writer `find_closest` and `find_interpolation_pair` may miss the answer, since every
`try_get` loads `total_writes` again. Yet each element of an answer was returned by some `try_get`,
and so it is a whole insertion, and one that is not older than the ring was at the call.
`get_latest_if_fresh` looks at one element only, and its answer is right for the instant of the call
unless the writer goes round the whole ring meanwhile.
-/

namespace SafeShm.TimeSeries
open AtomicPrograms SingleWriterRuns SequenceLocks RingSlots
open CyclicBuffer (ReadProgram ReadCall Place Writer segments writers published completed)

section Programs
variable {T A B : Type} {kw : ℕ} {key : T → BitVec kw} {target : BitVec kw} {S : T → Prop}

def Returned (S : T → Prop) : (q : Request) → q.Answer T → Prop
  | .available, _ => True
  | .tryGet _, v => ∀ e ∈ v, S e

variable {Q : A → Prop}

theorem ensures_available_bind {k : BitVec 64 → QueryProgram T A}
    (hk : ∀ n, (k n).Ensures (Returned S) Q) : (available >>= k).Ensures (Returned S) Q :=
  fun n _ => hk n

theorem ensures_tryGet_bind {i : BitVec 64} {k : Option T → QueryProgram T A}
    (hk : ∀ v, (∀ e ∈ v, S e) → (k v).Ensures (Returned S) Q) :
    (tryGet i >>= k).Ensures (Returned S) Q := hk

theorem closestScan_ensures {n : ℕ} {i : BitVec 64} {best : Option T} {bestDiff : BitVec kw}
    (hbest : ∀ e ∈ best, S e) :
    (closestScan key target n i best bestDiff).Ensures (Returned S) (fun r => ∀ e ∈ r.1, S e) := by
  induction n generalizing i best bestDiff with
  | zero => exact hbest
  | succ n ih =>
    rw [closestScan]
    apply ensures_tryGet_bind
    intro v hv
    cases v with
    | none => exact ih hbest
    | some elem =>
      simp only
      split
      · exact ih hv
      · exact ih hbest

theorem findClosestLinear_ensures {avail : BitVec 64} (maxDistance : Option (BitVec kw)) :
    (findClosestLinear key target avail maxDistance).Ensures (Returned S)
      (fun x => ∀ e ∈ x, S e) := by
  apply (closestScan_ensures (by simp)).bind
  intro found hfound
  obtain ⟨best, bestDiff⟩ := found
  simp only
  split
  · split
    · exact fun e he => by cases he
    · exact hfound
  · exact hfound

theorem closestSearch_ensures {fuel : ℕ} {lo hi : BitVec 64} :
    (closestSearch key target fuel lo hi).Ensures (Returned S)
      (fun x => ∀ e, x = .exact e → S e) := by
  induction fuel generalizing lo hi with
  | zero => trivial
  | succ fuel ih =>
    rw [closestSearch]
    split
    · apply ensures_tryGet_bind
      intro v hv
      cases v with
      | none => exact fun e he => by cases he
      | some elem =>
        simp only
        split
        · exact ih
        · split
          · split
            · exact fun e he => by cases he
            · exact ih
          · intro e he
            cases he
            exact hv elem rfl
    · exact fun e he => by cases he

theorem checkNeighbor_ensures {inRange : Bool} {i : BitVec 64} {best : T} {bestDiff : BitVec kw}
    (hbest : S best) : (checkNeighbor key target inRange i best bestDiff).Ensures (Returned S)
      (fun r => S r.1) := by
  rw [checkNeighbor]
  split
  · apply ensures_tryGet_bind
    intro v hv
    cases v with
    | none => exact hbest
    | some elem =>
      simp only
      split
      · exact hv elem rfl
      · exact hbest
  · exact hbest

theorem checkAround_ensures {avail lo : BitVec 64} (maxDistance : Option (BitVec kw)) :
    (checkAround key target avail maxDistance lo).Ensures (Returned S)
      (fun x => ∀ e ∈ x, S e) := by
  apply ensures_tryGet_bind
  intro v hv
  cases v with
  | none => exact findClosestLinear_ensures none
  | some best =>
    apply (checkNeighbor_ensures (hv best rfl)).bind
    intro newer hnewer
    apply (checkNeighbor_ensures hnewer).bind
    intro older holder
    have hreturn : ∀ e ∈ some older.1, S e := by
      intro e he
      cases he
      exact holder
    cases maxDistance with
    | none => exact hreturn
    | some d =>
      simp only
      split
      · exact fun e he => by cases he
      · exact hreturn

theorem findClosest_ensures {fuel : ℕ} (maxDistance : Option (BitVec kw)) :
    (findClosest key target fuel maxDistance).Ensures (Returned S) (fun x => ∀ e ∈ x, S e) := by
  apply ensures_available_bind
  intro avail
  split
  · exact fun e he => by cases he
  · apply closestSearch_ensures.bind
    intro x hx
    cases x with
    | overwritten => exact findClosestLinear_ensures maxDistance
    | exact elem =>
      intro e he
      cases he
      exact hx elem rfl
    | stopped lo => exact checkAround_ensures maxDistance

def Bracket.In (S : T → Prop) (b : Bracket T kw) : Prop :=
  (∀ e ∈ b.beforeElem, S e) ∧ ∀ e ∈ b.afterElem, S e

theorem Bracket.In.add {b : Bracket T kw} {elem : T} (h : b.In S) (helem : S elem) :
    (b.add key target elem).In S := by
  have hsome : ∀ e ∈ some elem, S e := by
    intro e he
    cases he
    exact helem
  simp only [Bracket.add]
  split <;> split
  · exact ⟨hsome, hsome⟩
  · exact ⟨hsome, h.2⟩
  · exact ⟨h.1, hsome⟩
  · exact h

theorem bracketScan_ensures {n : ℕ} {i : BitVec 64} {b : Bracket T kw} (hb : b.In S) :
    (bracketScan key target n i b).Ensures (Returned S) (Bracket.In S) := by
  induction n generalizing i b with
  | zero => exact hb
  | succ n ih =>
    rw [bracketScan]
    apply ensures_tryGet_bind
    intro v hv
    cases v with
    | none => exact ih hb
    | some elem => exact ih (hb.add (hv elem rfl))

def InterpPair.In (S : T → Prop) (p : InterpPair T) : Prop := S p.before ∧ S p.after

theorem interpPair_in {before after : T} {beforeKey afterKey : BitVec kw} (hb : S before)
    (ha : S after) : (interpPair target before after beforeKey afterKey).In S := by
  rw [interpPair]
  split <;> exact ⟨hb, ha⟩

theorem findInterpolationPairLinear_ensures {avail : BitVec 64} :
    (findInterpolationPairLinear key target avail).Ensures (Returned S)
      (fun x => ∀ p ∈ x, p.In S) := by
  apply (bracketScan_ensures ⟨by simp, by simp⟩).bind
  intro b hb
  split
  · rename_i before after hbefore hafter
    intro p hp
    cases hp
    exact interpPair_in (hb.1 _ hbefore) (hb.2 _ hafter)
  · exact fun p hp => by cases hp

theorem readBracket_ensures {lo hi : BitVec 64} :
    (readBracket key target lo hi).Ensures (Returned S) (fun x => ∀ p ∈ x, p.In S) := by
  apply ensures_tryGet_bind
  intro after hafter
  apply ensures_tryGet_bind
  intro before hbefore
  cases after with
  | none => exact fun p hp => by cases hp
  | some after =>
    cases before with
    | none => exact fun p hp => by cases hp
    | some before =>
      intro p hp
      cases hp
      exact interpPair_in (hbefore _ rfl) (hafter _ rfl)

theorem searchPair_ensures {fuel : ℕ} {avail : BitVec 64} {newest oldest : T} (hn : S newest)
    (ho : S oldest) : (searchPair key target fuel avail newest oldest).Ensures (Returned S)
      (fun x => ∀ p ∈ x, p.In S) := by
  have htwice : ∀ e, S e → ∀ p ∈ some (⟨e, e, 0⟩ : InterpPair T), p.In S := by
    intro e he p hp
    cases hp
    exact ⟨he, he⟩
  rw [searchPair]
  split
  · exact fun p hp => by cases hp
  split
  · exact htwice newest hn
  split
  · exact htwice oldest ho
  apply (Prog.ensures_true _).bind
  intro ends _
  cases ends with
  | none => exact findInterpolationPairLinear_ensures
  | some ends => exact readBracket_ensures

theorem pairAmong_ensures {fuel : ℕ} {avail : BitVec 64} :
    (pairAmong key target fuel avail).Ensures (Returned S) (fun x => ∀ p ∈ x, p.In S) := by
  rw [pairAmong]
  split
  · exact fun p hp => by cases hp
  apply ensures_tryGet_bind
  intro newest hn
  apply ensures_tryGet_bind
  intro oldest ho
  split
  · exact searchPair_ensures (hn _ rfl) (ho _ rfl)
  · exact fun p hp => by cases hp

theorem findInterpolationPair_ensures {fuel : ℕ} :
    (findInterpolationPair key target fuel).Ensures (Returned S) (fun x => ∀ p ∈ x, p.In S) :=
  ensures_available_bind fun _ => pairAmong_ensures

end Programs

section Runs
variable {F : FlatType} (cap : Capacity) {ι : Type} [DecidableEq ι] {A : ι → Type}
variable (vals : ℕ → F.T) (sched : ℕ → Party ι) (readers : (i : ι) → ReadProgram F (A i))
variable {kw : ℕ} {key : F.T → BitVec kw} {target : BitVec kw} {fuel slotFuel a b : ℕ}
variable {log : List (Event (Place F))}

/-- `e` is an insertion begun before `b`, and not more than a ring older than the newest one
published at `a`. -/
def Recent (a b : ℕ) (e : F.T) : Prop :=
  ∃ m, e = vals m ∧ m < (writers cap vals sched readers b).begun ∧
    published (writers cap vals sched readers a) ≤ m + cap.size

/-- What `try_get(i)` returns during a query. -/
theorem tryGet_value {i : BitVec 64} {maxRetries : BitVec 32} {e : F.T} {s b' : ℕ}
    (hexec : Exec memory.read (segments cap vals sched readers) s
      (CyclicBuffer.tryGet F cap slotFuel i maxRetries) log b' (some e)) (hs : a ≤ s) (hb : b' ≤ b)
    (h64 : published (writers cap vals sched readers b) < 2 ^ 64)
    (hfew : (writers cap vals sched readers b).begun <
      published (writers cap vals sched readers a) + 2 ^ 31) :
    ∃ m, e = vals m ∧ m < (writers cap vals sched readers b).begun ∧ i.toNat < cap.size ∧
      published (writers cap vals sched readers a) ≤ m + 1 + i.toNat := by
  have hexec' : Exec memory.read (segments cap vals sched readers) s
      ((ReadCall.tryGet i maxRetries).prog F cap slotFuel) log b' (some e) := hexec
  obtain ⟨t₀, rest, rfl, -⟩ := CyclicBuffer.exec_tryGet_loads hexec
  have hr := CyclicBuffer.lt_of_exec_tryGet hexec rfl
  have ht₀ := hexec.mem_log _ List.mem_cons_self
  have hpub : Monotone fun t => published (writers cap vals sched readers t) :=
    CyclicBuffer.published_mono cap vals sched readers
  obtain ⟨j, tb, ta, m, -, -, -, hta, hread, hv, hm, -, -, hasked⟩ :=
    CyclicBuffer.readCall_value cap vals sched readers hexec' rfl hr (by
      intro j tb ta hatt
      obtain ⟨htb, hta⟩ := hatt.mem_log
      have hbegun : (writers cap vals sched readers ta).begun ≤
          (writers cap vals sched readers b).begun :=
        CyclicBuffer.writers_begun_mono cap vals sched readers
          ((hexec.mem_log _ hta).2.le.trans hb)
      have hstart := hpub (hs.trans (hexec.mem_log _ htb).1)
      have hadd := hits_add_le cap.size j.toNat (published (writers cap vals sched readers tb))
        ((writers cap vals sched readers ta).begun - published (writers cap vals sched readers tb))
      have hmono := hits_mono cap.size j.toNat (show (writers cap vals sched readers ta).begun ≤
        published (writers cap vals sched readers tb) +
          ((writers cap vals sched readers ta).begun -
            published (writers cap vals sched readers tb)) by omega)
      rw [CyclicBuffer.hitsWithin]
      dsimp only at hstart
      omega)
  have hw := CyclicBuffer.toNat_header cap vals sched readers t₀
  have hstart := hpub (hs.trans ht₀.1)
  have hstop := hpub (ht₀.2.le.trans hb)
  dsimp only at hstart hstop
  rw [Nat.mod_eq_of_lt (hstop.trans_lt h64)] at hw
  rw [hw] at hr
  rw [CyclicBuffer.asked, hw] at hasked
  have hbegun := CyclicBuffer.completed_le_begun_of_le cap vals sched readers
    (hread.le.trans (hta.le.trans hb))
  refine ⟨m, hv, hm.trans_le hbegun, hr.trans_le (min_le_right _ _), ?_⟩
  have hr' : i.toNat < published (writers cap vals sched readers t₀) := (lt_min_iff.mp hr).1
  have hasked' : published (writers cap vals sched readers t₀) - 1 - i.toNat ≤ m := hasked
  omega

theorem query_recent {B : Type} {p : QueryProgram F.T B} {Q : B → Prop} {x : B}
    (hp : p.Ensures (Returned (Recent cap vals sched readers a b)) Q)
    (hexec : Exec memory.read (segments cap vals sched readers) a (onBuffer F cap slotFuel p) log
      b x)
    (h64 : published (writers cap vals sched readers b) < 2 ^ 64)
    (hfew : (writers cap vals sched readers b).begun <
      published (writers cap vals sched readers a) + 2 ^ 31) : Q x := by
  obtain ⟨tr, hanswers, hcalls⟩ := hexec.answers_of_interp
  apply hanswers.ensures hp
  intro call hcall
  obtain ⟨s, b', log', hs, hb, -, hrun⟩ := hcalls call hcall
  obtain ⟨q, v⟩ := call
  cases q with
  | available => trivial
  | tryGet i =>
    intro e he
    obtain rfl : v = some e := he
    obtain ⟨m, hv, hm, hi, hold⟩ := tryGet_value cap vals sched readers hrun hs hb h64 hfew
    exact ⟨m, hv, hm, by omega⟩

/-- Whatever the writer does, the temporal queries return whole insertions, and none of them was
out of the ring at the call: each was begun before the return, and at most `N` insertions older than
the newest one that was published at the call. -/
theorem queries_return_recent (maxDistance : Option (BitVec kw))
    (h64 : published (writers cap vals sched readers b) < 2 ^ 64)
    (hfew : (writers cap vals sched readers b).begun <
      published (writers cap vals sched readers a) + 2 ^ 31) :
    (∀ log e, Exec memory.read (segments cap vals sched readers) a
      (onBuffer F cap slotFuel (findClosest key target fuel maxDistance)) log b (some e) →
        Recent cap vals sched readers a b e) ∧
    ∀ log p, Exec memory.read (segments cap vals sched readers) a
      (onBuffer F cap slotFuel (findInterpolationPair key target fuel)) log b (some p) →
        Recent cap vals sched readers a b p.before ∧ Recent cap vals sched readers a b p.after := by
  constructor
  · intro log e hexec
    exact query_recent cap vals sched readers (findClosest_ensures maxDistance) hexec h64 hfew e rfl
  · intro log p hexec
    exact query_recent cap vals sched readers findInterpolationPair_ensures hexec h64 hfew p rfl

/-- The run of `findClosest_moved`: the element that is returned is not the nearest one, but it was
in the ring. -/
theorem queries_return_recent_moved :
    ((CyclicBuffer.states capacityFour tens moved findClosestTwelve 37).reader ()).result? =
      some (some (tens 1)) ∧ Recent capacityFour tens moved findClosestTwelve 16 37 (tens 1) := by
  have hresult : ((CyclicBuffer.states capacityFour tens moved findClosestTwelve 37).reader
      ()).result? = some (some (tens 1)) := by decide +kernel
  obtain ⟨log, hexec⟩ := CyclicBuffer.exec_of_states capacityFour tens moved findClosestTwelve ()
    (show 16 ≤ 37 by decide) (by decide) hresult
  exact ⟨hresult, (queries_return_recent capacityFour tens moved findClosestTwelve none
    (by decide +kernel) (by decide +kernel)).1 log _ hexec⟩

def freshAmong {T : Type} (key : T → BitVec kw) (minKey : BitVec kw) (avail : BitVec 64) :
    QueryProgram T (Option T) :=
  if avail = 0 then return none
  else do
    match ← tryGet 0 with
    | none => return none
    | some latest => if minKey ≤ key latest then return some latest else return none

private theorem lapped_of_tryGet_none {s b' : ℕ}
    (hexec : Exec memory.read (segments cap vals sched readers) s
      (CyclicBuffer.tryGet F cap slotFuel 0 4) log b' none)
    (h64 : published (writers cap vals sched readers b') < 2 ^ 64)
    (hpos : published (writers cap vals sched readers s) ≠ 0) :
    published (writers cap vals sched readers s) + cap.size ≤
      (writers cap vals sched readers b').begun := by
  by_contra hlapped
  obtain ⟨t₀, rest, rfl, -⟩ := CyclicBuffer.exec_tryGet_loads hexec
  have ht₀ := hexec.mem_log _ List.mem_cons_self
  have hpub : Monotone fun t => published (writers cap vals sched readers t) :=
    CyclicBuffer.published_mono cap vals sched readers
  have hthen := hpub ht₀.1
  have hstop := hpub ht₀.2.le
  dsimp only at hthen hstop
  have hw := CyclicBuffer.toNat_header cap vals sched readers t₀
  rw [Nat.mod_eq_of_lt (hstop.trans_lt h64)] at hw
  have hr : (ReadCall.tryGet 0 4).reverseIndex.toNat <
      min ((segments cap vals sched readers t₀).header ()).toNat cap.size := by
    rw [hw]
    exact lt_min (Nat.lt_of_lt_of_le (Nat.pos_of_ne_zero hpos) hthen) cap.size_pos
  obtain ⟨hrun, -⟩ := CyclicBuffer.run_quiet_of_begun_le cap vals sched readers
    (show Exec memory.read (segments cap vals sched readers) s
      ((ReadCall.tryGet 0 4).prog F cap slotFuel) _ b' none from hexec) rfl hr
    (by
      rw [CyclicBuffer.asked, hw]
      have hindex : (ReadCall.tryGet 0 4).reverseIndex.toNat = 0 := rfl
      omega)
  rw [CyclicBuffer.toNat_header] at hr
  cases CyclicBuffer.run_readCall cap vals hr hrun

/-- The newest element that `get_latest_if_fresh` finds at some instant of the call, if the writer
does not go round the ring. -/
theorem exec_getLatestIfFresh {minKey : BitVec kw} {x : Option F.T}
    (hexec : Exec memory.read (segments cap vals sched readers) a
      (onBuffer F cap slotFuel (getLatestIfFresh key minKey)) log b x)
    (h64 : published (writers cap vals sched readers b) < 2 ^ 64)
    (hfew : (writers cap vals sched readers b).begun <
      published (writers cap vals sched readers a) + 2 ^ 31) :
    published (writers cap vals sched readers a) = 0 ∧ x = none ∨
      published (writers cap vals sched readers a) + cap.size ≤
        (writers cap vals sched readers b).begun ∧ x = none ∨
      ∃ m, m < (writers cap vals sched readers b).begun ∧
        published (writers cap vals sched readers a) ≤ m + 1 ∧
        x = if minKey ≤ key (vals m) then some (vals m) else none := by
  have hprog : getLatestIfFresh key minKey = available >>= freshAmong key minKey := rfl
  rw [hprog] at hexec
  obtain ⟨n, s, log₀, log', rfl, havailable, h⟩ := exec_bind.mp hexec
  obtain ⟨t, rfl, rfl⟩ := CyclicBuffer.exec_available havailable
  have hload := havailable.mem_log _ List.mem_cons_self
  have hsb := h.le
  have hpub : ∀ {u u'}, u ≤ u' → published (writers cap vals sched readers u) ≤
      published (writers cap vals sched readers u') :=
    fun hle => CyclicBuffer.published_mono cap vals sched readers hle
  have hheader : ∀ u ≤ b, ((segments cap vals sched readers u).header ()).toNat =
      published (writers cap vals sched readers u) := by
    intro u hu
    rw [CyclicBuffer.toNat_header, Nat.mod_eq_of_lt ((hpub hu).trans_lt h64)]
  have havail := CyclicBuffer.toNat_umin ((segments cap vals sched readers t).header ()) cap.N
  rw [hheader t (hload.2.le.trans hsb)] at havail
  have hsize : 0 < cap.N.toNat := cap.size_pos
  by_cases hzero : CyclicBuffer.umin ((segments cap vals sched readers t).header ()) cap.N = 0
  · rw [hzero] at havail
    have ht : published (writers cap vals sched readers t) = 0 := by
      have : (0 : BitVec 64).toNat = 0 := rfl
      omega
    refine .inl ⟨Nat.eq_zero_of_le_zero ((hpub hload.1).trans_eq ht), ?_⟩
    have hrun : Exec memory.read (segments cap vals sched readers) s
        (onBuffer F cap slotFuel (freshAmong key minKey 0)) log' b x := hzero ▸ h
    exact (exec_ret.mp hrun).2.2.symm
  · have hpos : published (writers cap vals sched readers t) ≠ 0 := by
      intro ht
      rw [ht, Nat.zero_min] at havail
      exact hzero (BitVec.eq_of_toNat_eq havail)
    have hrun : Exec memory.read (segments cap vals sched readers) s
        (onBuffer F cap slotFuel (freshAmong key minKey
          (CyclicBuffer.umin ((segments cap vals sched readers t).header ()) cap.N))) log' b x := h
    rw [freshAmong, if_neg hzero] at hrun
    obtain ⟨v, s', log₁, log₂, rfl, hcall, hrest⟩ := exec_bind.mp hrun
    have hs'b := hrest.le
    cases v with
    | none =>
      have hstart := hpub (hload.1.trans hload.2.le)
      have hbegun : (writers cap vals sched readers s').begun ≤
          (writers cap vals sched readers b).begun :=
        CyclicBuffer.writers_begun_mono cap vals sched readers hs'b
      have hlapped := lapped_of_tryGet_none cap vals sched readers hcall
        ((hpub hs'b).trans_lt h64)
        (Nat.pos_iff_ne_zero.mp ((Nat.pos_of_ne_zero hpos).trans_le (hpub hload.2.le)))
      exact .inr (.inl ⟨by omega, (exec_ret.mp hrest).2.2.symm⟩)
    | some e =>
      obtain ⟨m, rfl, hm, -, hold⟩ := tryGet_value cap vals sched readers hcall
        havailable.le hs'b h64 hfew
      refine .inr (.inr ⟨m, hm, hold, ?_⟩)
      have hreturn : Exec memory.read (segments cap vals sched readers) s'
          (onBuffer F cap slotFuel (if minKey ≤ key (vals m) then .ret (some (vals m))
            else .ret none)) log₂ b x := hrest
      split
      · rename_i hfresh
        rw [if_pos hfresh] at hreturn
        exact (exec_ret.mp hreturn).2.2.symm
      · rename_i hstale
        rw [if_neg hstale] at hreturn
        exact (exec_ret.mp hreturn).2.2.symm

def KeysUpTo (key : F.T → BitVec kw) (n : ℕ) : Prop :=
  ∀ m' < n, ∀ m ≤ m', key (vals m) ≤ key (vals m')

/-- Staleness is detected under a live writer. An element that `get_latest_if_fresh(min_key)`
returns has at least this key, and no newer one was published at the call. If the call returns
`nullopt`, then everything that was published at the call is older than `min_key`, or the writer has
gone round the ring. -/
theorem getLatestIfFresh_live {minKey : BitVec kw} {x : Option F.T}
    (hexec : Exec memory.read (segments cap vals sched readers) a
      (onBuffer F cap slotFuel (getLatestIfFresh key minKey)) log b x)
    (hkeys : KeysUpTo vals key (writers cap vals sched readers b).begun)
    (h64 : published (writers cap vals sched readers b) < 2 ^ 64)
    (hfew : (writers cap vals sched readers b).begun <
      published (writers cap vals sched readers a) + 2 ^ 31) :
    (∀ e, x = some e → minKey ≤ key e ∧ ∃ m, e = vals m ∧
      m < (writers cap vals sched readers b).begun ∧
        published (writers cap vals sched readers a) ≤ m + 1) ∧
    (x = none → (∀ m < published (writers cap vals sched readers a), key (vals m) < minKey) ∨
      published (writers cap vals sched readers a) + cap.size ≤
        (writers cap vals sched readers b).begun) := by
  rcases exec_getLatestIfFresh cap vals sched readers hexec h64 hfew with
    ⟨hempty, rfl⟩ | ⟨hlapped, rfl⟩ | ⟨m, hm, hnewest, rfl⟩
  · exact ⟨fun e he => absurd he (by simp), fun _ => .inl (by simp [hempty])⟩
  · exact ⟨fun e he => absurd he (by simp), fun _ => .inr hlapped⟩
  · constructor
    · intro e he
      obtain ⟨hfresh, he⟩ := (Option.ite_none_right_eq_some).mp he
      cases he
      exact ⟨hfresh, m, rfl, hm, hnewest⟩
    · intro hnone
      refine .inl ?_
      intro m' hm'
      have hstale : ¬ minKey ≤ key (vals m) := by
        intro hfresh
        rw [if_pos hfresh] at hnone
        cases hnone
      have hle := hkeys m hm m' (by omega)
      rw [BitVec.le_def] at hle hstale
      rw [BitVec.lt_def]
      omega

end Runs

section Stamps
open ShmLifecycle (clockGettime toNs_clockGettime)
variable {words : ℕ}

/-- `Stamped<T>` for data in words of 64 bits: the time, the sequence number, the data. -/
abbrev stamped (words : ℕ) : FlatType := ⟨words + 2, BitVec 64, 0, fun _ => 0⟩

/-- `StampedKeyExtractor`. -/
def timestampNs (e : (stamped words).T) : BitVec 64 := e ⟨0, Nat.zero_lt_succ _⟩

/-- `monotonic_now_ns()` when the clock shows `clock`. -/
def monotonicNowNs (clock : BitVec 64) : BitVec 64 := (clockGettime clock).toNs

/-- `stamp(data, seq)` when the clock shows `clock`. -/
def stamp (clock : BitVec 64) (data : Fin words → BitVec 64) (seq : BitVec 64) :
    (stamped words).T := Fin.cons (monotonicNowNs clock) (Fin.cons seq data)

variable (cap : Capacity) {ι : Type} [DecidableEq ι] {A : ι → Type}
variable (vals : ℕ → (stamped words).T) (sched : ℕ → Party ι)
variable (readers : (i : ι) → ReadProgram (stamped words) (A i)) {slotFuel a b : ℕ}
variable {log : List (Event (Place (stamped words)))}

/-- Each insertion begun before `b` is of a value that was stamped when all insertions before it had
begun. -/
structure StampedAt (clock : ℕ → BitVec 64) (stampTime : ℕ → ℕ) (b : ℕ) : Prop where
  begun : ∀ m < (writers cap vals sched readers b).begun,
    (writers cap vals sched readers (stampTime m)).begun = m
  value : ∀ m < (writers cap vals sched readers b).begun, ∃ data seq,
    vals m = stamp (clock (stampTime m)) data seq

variable {cap} {vals} {sched} {readers}
variable {clock : ℕ → BitVec 64} {stampTime : ℕ → ℕ}

theorem StampedAt.timestampNs_eq (h : StampedAt cap vals sched readers clock stampTime b) {m : ℕ}
    (hm : m < (writers cap vals sched readers b).begun) :
    timestampNs (vals m) = clock (stampTime m) := by
  obtain ⟨data, seq, hv⟩ := h.value m hm
  rw [hv]
  exact toNs_clockGettime _

theorem StampedAt.keysUpTo (h : StampedAt cap vals sched readers clock stampTime b)
    (hclock : Monotone fun t => (clock t).toNat) :
    KeysUpTo vals timestampNs (writers cap vals sched readers b).begun := by
  intro m' hm' m hm
  have hle : stampTime m ≤ stampTime m' := by
    by_contra hlt
    have hbegun : (writers cap vals sched readers (stampTime m')).begun ≤
        (writers cap vals sched readers (stampTime m)).begun :=
      CyclicBuffer.writers_begun_mono cap vals sched readers (Nat.le_of_not_le hlt)
    rw [h.begun m' hm', h.begun m (by omega)] at hbegun
    obtain rfl : m = m' := by omega
    exact hlt le_rfl
  rw [h.timestampNs_eq hm', h.timestampNs_eq (by omega : m < _), BitVec.le_def]
  exact hclock hle

/-- A reader that calls `get_latest_if_fresh(monotonic_now_ns() - max_age)` at instant `a` learns
how old the data are. What it is given was stamped at most `max_age` before the call, and no newer
value was published then; if it is given nothing, then all values published at the call were stamped
earlier than that, or the writer has gone round the ring. -/
theorem stamped_latest_live {maxAge : BitVec 64} {x : Option (stamped words).T}
    (hclock : Monotone fun t => (clock t).toNat)
    (hstamps : StampedAt cap vals sched readers clock stampTime b)
    (hage : maxAge ≤ monotonicNowNs (clock a))
    (hexec : Exec memory.read (segments cap vals sched readers) a
      (onBuffer (stamped words) cap slotFuel
        (getLatestIfFresh timestampNs (monotonicNowNs (clock a) - maxAge))) log b x)
    (h64 : published (writers cap vals sched readers b) < 2 ^ 64)
    (hfew : (writers cap vals sched readers b).begun <
      published (writers cap vals sched readers a) + 2 ^ 31) :
    (∀ e, x = some e → ∃ m, e = vals m ∧ m < (writers cap vals sched readers b).begun ∧
      published (writers cap vals sched readers a) ≤ m + 1 ∧
        (clock a).toNat ≤ (clock (stampTime m)).toNat + maxAge.toNat) ∧
    (x = none →
      (∀ m < published (writers cap vals sched readers a),
        (clock (stampTime m)).toNat + maxAge.toNat < (clock a).toNat) ∨
      published (writers cap vals sched readers a) + cap.size ≤
        (writers cap vals sched readers b).begun) := by
  rw [monotonicNowNs, toNs_clockGettime] at hage hexec
  have hbound : (clock a - maxAge).toNat = (clock a).toNat - maxAge.toNat :=
    BitVec.toNat_sub_of_le hage
  rw [BitVec.le_def] at hage
  obtain ⟨hsome, hnone⟩ := getLatestIfFresh_live cap vals sched readers hexec
    (hstamps.keysUpTo hclock) h64 hfew
  constructor
  · intro e he
    obtain ⟨hfresh, m, rfl, hm, hnewest⟩ := hsome e he
    rw [hstamps.timestampNs_eq hm, BitVec.le_def, hbound] at hfresh
    exact ⟨m, rfl, hm, hnewest, by omega⟩
  · intro hx
    refine (hnone hx).imp ?_ id
    intro hstale m hm
    have hle := CyclicBuffer.published_le_completed_of_le cap vals sched readers hexec.le
    have hle' := CyclicBuffer.completed_le_begun (writers cap vals sched readers b)
    have hlt := hstale m hm
    rw [hstamps.timestampNs_eq (by omega), BitVec.lt_def, hbound] at hlt
    omega

/-- The clock shows 1000 when the only value is stamped, and 1500 when the reader calls. -/
def twoReadings (t : ℕ) : BitVec 64 := if t < 5 then 1000 else 1500

abbrev stampedOnce (_ : ℕ) : (stamped 0).T := stamp (twoReadings 0) Fin.elim0 7

/-- `get_latest_if_fresh(monotonic_now_ns() - 600)`. -/
abbrev freshWithin (_ : Unit) : ReadProgram (stamped 0) (Option (stamped 0).T) :=
  onBuffer (stamped 0) capacityTwo 9
    (getLatestIfFresh timestampNs (monotonicNowNs (twoReadings 8) - 600))

def insertedThenChecked : ℕ → Party Unit := blocks [(.writer, 8), (.reader (), 6)]

theorem stamped_latest_live_once :
    ((CyclicBuffer.states capacityTwo stampedOnce insertedThenChecked freshWithin 14).reader
      ()).result? = some (some (stampedOnce 0)) ∧
    (twoReadings 8).toNat ≤ (twoReadings 0).toNat + 600 := by
  have hresult : ((CyclicBuffer.states capacityTwo stampedOnce insertedThenChecked freshWithin
      14).reader ()).result? = some (some (stampedOnce 0)) := by decide +kernel
  obtain ⟨log, hexec⟩ := CyclicBuffer.exec_of_states capacityTwo stampedOnce insertedThenChecked
    freshWithin () (show 8 ≤ 14 by decide) (by decide) hresult
  have hclock : Monotone fun t => (twoReadings t).toNat := by
    intro t t' hle
    simp only [twoReadings]
    split <;> split
    · decide
    · decide
    · omega
    · decide
  have hone : (writers capacityTwo stampedOnce insertedThenChecked freshWithin 14).begun = 1 := by
    decide +kernel
  have hstamps : StampedAt capacityTwo stampedOnce insertedThenChecked freshWithin twoReadings
      (fun _ => 0) 14 := by
    constructor
    · intro m hm
      rw [hone, Nat.lt_one_iff] at hm
      rw [hm]
      decide +kernel
    · exact fun m hm => ⟨Fin.elim0, 7, rfl⟩
  obtain ⟨m, -, -, -, hage⟩ := (stamped_latest_live hclock hstamps (by decide) hexec
    (by decide +kernel) (by decide +kernel)).1 _ rfl
  exact ⟨hresult, hage⟩

end Stamps

end SafeShm.TimeSeries
