import SafeShm.ProducerConsumer
import Mathlib.Tactic.IntervalCases

/-!
# The channel is not stuck between a producer and a consumer

While a caller of `produce` and a caller of `consume` both wait, the token is never out of reach of
both of them: it is with a party inside, which posts it, or in one of the two semaphores. If every
party that is in a call has a turn in each of as many rounds as there are words, and four more, then
some wait has been passed.
-/

namespace SafeShm.ProducerConsumer
open StateMachines

variable {F : FlatType} {ι : Type}

/-- The turns that a party inside still needs for its post. -/
def Pc.postSteps : Pc F → ℕ
  | .writing _ k => (F.words - k) + 2
  | .postingRead | .postingWrite => 1
  | .calling => 3
  | .running _ => 2
  | _ => 0

theorem Pc.inside_iff (p : Pc F) : p.Inside ↔ 0 < p.postSteps := by
  cases p <;> simp [Pc.Inside, Pc.postSteps]

theorem Pc.postSteps_le (p : Pc F) : p.postSteps ≤ F.words + 3 := by
  cases p with
  | writing data k =>
    have hle : F.words - k ≤ F.words := Nat.sub_le _ _
    simp only [Pc.postSteps]
    omega
  | _ => simp [Pc.postSteps]

variable [DecidableEq ι]

section Steps
variable {s : State F ι} {a : Action F ι} {i j : ι}

theorem turn_pc_of_ne (h : j ≠ i) : (s.turn i).pc j = s.pc j := by
  rw [State.turn]
  split
  · exact goto_pc_of_ne h
  · exact goto_pc_of_ne h
  · rfl
  · split
    · exact goto_pc_of_ne h
    · rfl
  · split
    · exact goto_pc_of_ne h
    · exact goto_pc_of_ne h
  · exact goto_pc_of_ne h
  · split
    · exact goto_pc_of_ne h
    · rfl
  · exact goto_pc_of_ne h
  · exact goto_pc_of_ne h
  · exact goto_pc_of_ne h

theorem postSteps_turn (h : (s.pc i).Inside) :
    ((s.turn i).pc i).postSteps < (s.pc i).postSteps := by
  rw [State.turn]
  cases hpc : s.pc i with
  | writing data k =>
    dsimp only
    split
    · rename_i hk
      change ((s.goto i (.writing data (k + 1))).pc i).postSteps < _
      rw [goto_pc_self]
      simp only [Pc.postSteps]
      omega
    · change ((s.goto i .postingRead).pc i).postSteps < _
      rw [goto_pc_self]
      simp only [Pc.postSteps]
      omega
  | postingRead | calling | running | postingWrite => simp [State.goto, Pc.postSteps]
  | absent | opening | outside | awaitingWrite | awaitingRead =>
    rw [hpc] at h
    exact h.elim

theorem wait_turn (hwaits : (s.pc i).Waits) (hnot : ¬ PassesWait s (.turn i)) :
    s.turn i = s := by
  have hout : ¬ ((s.turn i).pc i).Inside := fun hinside => hnot ⟨i, hwaits, hinside⟩
  rw [State.turn] at hout ⊢
  cases hpc : s.pc i with
  | awaitingWrite data =>
    simp only [hpc] at hout ⊢
    split
    · rename_i n hsem
      simp [hsem, State.goto, Pc.Inside] at hout
    · rfl
  | awaitingRead =>
    simp only [hpc] at hout ⊢
    split
    · rename_i n hsem
      simp [hsem, State.goto, Pc.Inside] at hout
    · rfl
  | _ => simp [hpc, Pc.Waits] at hwaits

private theorem postSteps_goto {p : Pc F} (hp : p.postSteps ≤ (s.pc j).postSteps) :
    ((s.goto j p).pc i).postSteps ≤ (s.pc i).postSteps := by
  by_cases hij : i = j
  · subst hij
    rw [goto_pc_self]
    exact hp
  · rw [goto_pc_of_ne hij]

/-- Nobody comes inside without passing a wait. -/
theorem postSteps_step (hnot : ¬ PassesWait s a) :
    ((step s a).pc i).postSteps ≤ (s.pc i).postSteps := by
  cases a with
  | produce j data | consume j =>
    rw [step]
    split
    · exact postSteps_goto (Nat.zero_le _)
    · exact le_rfl
  | throwing j =>
    rw [step]
    split
    · exact postSteps_goto (Nat.zero_le _)
    · exact le_rfl
  | turn j =>
    by_cases hij : i = j
    · subst hij
      by_cases hinside : (s.pc i).Inside
      · exact (postSteps_turn hinside).le
      · by_cases hwaits : (s.pc i).Waits
        · rw [step, wait_turn hwaits hnot]
        · rw [step, State.turn]
          cases hpc : s.pc i with
          | absent | opening => simp [State.goto, Pc.postSteps]
          | outside => rw [hpc]
          | awaitingWrite | awaitingRead => simp [hpc, Pc.Waits] at hwaits
          | writing | postingRead | calling | running | postingWrite =>
            simp [hpc, Pc.Inside] at hinside
    · rw [step, turn_pc_of_ne hij]

/-- A party that waits goes on waiting, as long as no wait is passed. -/
theorem waits_step (hwaits : (s.pc i).Waits) (hnot : ¬ PassesWait s a) :
    (step s a).pc i = s.pc i := by
  have hgoto : ∀ {j p}, ¬ (s.pc j).Waits → (s.goto j p).pc i = s.pc i := by
    intro j p hj
    apply goto_pc_of_ne
    rintro rfl
    exact hj hwaits
  cases a with
  | produce j data | consume j =>
    rw [step]
    split
    · rename_i hpc
      exact hgoto (by simp [hpc, Pc.Waits])
    · rfl
  | throwing j =>
    rw [step]
    split
    · rename_i hpc
      exact hgoto (by simp [hpc, Pc.Waits])
    · rfl
  | turn j =>
    by_cases hij : i = j
    · subst hij
      rw [step, wait_turn hwaits hnot]
    · exact turn_pc_of_ne hij

/-- While nobody is inside and no wait is passed, the semaphores keep their values. -/
theorem values_step (hnobody : ∀ i, ¬ s.Inside i) (hnot : ¬ PassesWait s a) :
    (step s a).readValue = s.readValue ∧ (step s a).writeValue = s.writeValue := by
  cases a with
  | produce j data | consume j =>
    rw [step]
    split
    · exact ⟨rfl, rfl⟩
    · exact ⟨rfl, rfl⟩
  | throwing j =>
    rw [step]
    split
    · exact ⟨rfl, rfl⟩
    · exact ⟨rfl, rfl⟩
  | turn j =>
    have hout := hnobody j
    by_cases hwaits : (s.pc j).Waits
    · rw [step, wait_turn hwaits hnot]
      exact ⟨rfl, rfl⟩
    · rw [step, State.turn]
      cases hpc : s.pc j with
      | absent | opening | outside => exact ⟨rfl, rfl⟩
      | awaitingWrite | awaitingRead => simp [hpc, Pc.Waits] at hwaits
      | writing | postingRead | calling | running | postingWrite =>
        simp [State.Inside, hpc, Pc.Inside] at hout

end Steps

section Runs
variable {acts : ℕ → Action F ι} {b : ℕ → ℕ} {i j : ι} {data : F.T}

/-- Between the instants `a` and `b` every party that is inside or at a wait has a turn. -/
def Round (acts : ℕ → Action F ι) (a b : ℕ) : Prop :=
  ∀ i, (after step initial acts a).Inside i ∨ ((after step initial acts a).pc i).Waits →
    ∃ t, a ≤ t ∧ t < b ∧ acts t = .turn i

private theorem exists_postSteps_lt {a c : ℕ} (hround : Round acts a c)
    (hi : (after step initial acts a).Inside i) : ∃ t, a ≤ t ∧ t < c ∧
      (0 < ((after step initial acts t).pc i).postSteps →
        ((after step initial acts (t + 1)).pc i).postSteps <
          ((after step initial acts t).pc i).postSteps) := by
  obtain ⟨t, hat, htc, hact⟩ := hround i (.inl hi)
  refine ⟨t, hat, htc, ?_⟩
  intro hpos
  rw [after, hact]
  exact postSteps_turn ((Pc.inside_iff _).mpr hpos)

private theorem waits_of_never_passed {a c : ℕ} {k : ι}
    (hnot : ∀ t, a ≤ t → t < c → ¬ PassesWait (after step initial acts t) (acts t))
    (hk : ((after step initial acts a).pc k).Waits) {t : ℕ} (hat : a ≤ t) (htc : t ≤ c) :
    (after step initial acts t).pc k = (after step initial acts a).pc k := by
  refine holds_between
    (P := fun t => (after step initial acts t).pc k = (after step initial acts a).pc k) rfl ?_
    t hat htc
  intro t hat htc hsame
  exact (waits_step (hsame ▸ hk) (hnot t hat htc)).trans hsame

private theorem values_of_never_passed {a c : ℕ}
    (hnot : ∀ t, a ≤ t → t < c → ¬ PassesWait (after step initial acts t) (acts t))
    (hnobody : ∀ k, ¬ (after step initial acts a).Inside k) {t : ℕ} (hat : a ≤ t) (htc : t ≤ c) :
    (∀ k, ¬ (after step initial acts t).Inside k) ∧
      (after step initial acts t).readValue = (after step initial acts a).readValue ∧
      (after step initial acts t).writeValue = (after step initial acts a).writeValue := by
  refine holds_between (P := fun t => (∀ k, ¬ (after step initial acts t).Inside k) ∧
    (after step initial acts t).readValue = (after step initial acts a).readValue ∧
    (after step initial acts t).writeValue = (after step initial acts a).writeValue)
    ⟨hnobody, rfl, rfl⟩ ?_ t hat htc
  rintro t hat htc ⟨hnone, hread, hwrite⟩
  have hpass := hnot t hat htc
  obtain ⟨hread', hwrite'⟩ := values_step hnone hpass
  refine ⟨?_, hread'.trans hread, hwrite'.trans hwrite⟩
  intro k hinside
  have hle := postSteps_step (i := k) hpass
  have hpos := (Pc.inside_iff _).mp hinside
  exact hnone k ((Pc.inside_iff _).mpr (hpos.trans_le hle))

/-- While a caller of `produce` and a caller of `consume` wait, and no callback throws, one wait is
passed within four rounds more than there are words. -/
theorem wait_passed (acts : ℕ → Action F ι) (hb : Monotone b)
    (hround : ∀ k < F.words + 4, Round acts (b k) (b (k + 1)))
    (hcalm : ∀ t < b (F.words + 4), ¬ Throws (after step initial acts t) (acts t))
    (hi : (after step initial acts (b 0)).pc i = .awaitingWrite data)
    (hj : (after step initial acts (b 0)).pc j = .awaitingRead) :
    ∃ t, b 0 ≤ t ∧ t < b (F.words + 4) ∧ PassesWait (after step initial acts t) (acts t) := by
  by_contra hnever
  have hnot : ∀ t, b 0 ≤ t → t < b (F.words + 4) →
      ¬ PassesWait (after step initial acts t) (acts t) :=
    fun t ht hlt hpass => hnever ⟨t, ht, hlt, hpass⟩
  -- the party inside, if there is one, has posted before the last round
  have hnobody : ∀ k, ¬ (after step initial acts (b (F.words + 3))).Inside k := by
    intro k hinside
    have hzero : ((after step initial acts (b (F.words + 3))).pc k).postSteps = 0 := by
      apply rank_eq_zero_of_rounds
        (fun t => ((after step initial acts t).pc k).postSteps) hb
      · intro t ht hlt
        exact postSteps_step (hnot t ht (hlt.trans_le (hb (Nat.le_succ _))))
      · intro n hn hpos
        exact exists_postSteps_lt (hround n (by omega)) ((Pc.inside_iff _).mpr hpos)
      · exact Pc.postSteps_le _
    exact absurd ((Pc.inside_iff _).mp hinside) (by simp [hzero])
  -- so the token is in one of the semaphores, and stays there
  have hfrom := hb (Nat.zero_le (F.words + 3))
  have hlast : ∀ {t}, b (F.words + 3) ≤ t → t ≤ b (F.words + 4) →
      (∀ k, ¬ (after step initial acts t).Inside k) ∧
        (after step initial acts t).readValue =
          (after step initial acts (b (F.words + 3))).readValue ∧
        (after step initial acts t).writeValue =
          (after step initial acts (b (F.words + 3))).writeValue :=
    values_of_never_passed (fun t ht hlt => hnot t (hfrom.trans ht) hlt) hnobody
  have hend := hb (Nat.le_succ (F.words + 3))
  have hmoves : ∀ k, ((after step initial acts (b 0)).pc k).Waits →
      ∃ t, b (F.words + 3) ≤ t ∧ t < b (F.words + 4) ∧ acts t = .turn k ∧
        (after step initial acts t).pc k = (after step initial acts (b 0)).pc k := by
    intro k hk
    have hwaits := waits_of_never_passed hnot hk hfrom hend
    obtain ⟨t, ht, hlt, hact⟩ := hround (F.words + 3) (by omega) k (.inr (hwaits ▸ hk))
    exact ⟨t, ht, hlt, hact, waits_of_never_passed hnot hk (hfrom.trans ht) hlt.le⟩
  have hthrown : (after step initial acts (b (F.words + 3))).thrown = 0 :=
    (thrown_eq_zero_iff _).mpr (fun t ht => hcalm t (ht.trans_le hend))
  cases (correct_after acts (b (F.words + 3))).token with
  | empty _ write =>
    obtain ⟨t, ht, hlt, hact, hpc⟩ := hmoves i (by rw [hi]; trivial)
    apply hnot t (hfrom.trans ht) hlt
    rw [hact, passesWait_write_iff (correct_after acts t) (hpc.trans hi),
      (hlast ht hlt.le).2.2, write]
    exact Nat.one_pos
  | full read =>
    obtain ⟨t, ht, hlt, hact, hpc⟩ := hmoves j (by rw [hj]; trivial)
    apply hnot t (hfrom.trans ht) hlt
    rw [hact, passesWait_read_iff (correct_after acts t) (hpc.trans hj),
      (hlast ht hlt.le).2.1, read]
    exact Nat.one_pos
  | held k _ _ _ here => exact hnobody k (inside_of_at here)
  | lost _ _ _ _ thrown =>
    rw [hthrown] at thrown
    exact absurd thrown (by decide)

end Runs

open Role in
/-- Both parties open the channel and come to their waits, and then they move in turn. -/
def bothWait : ℕ → Action oneWord Role :=
  script (.turn producer)
    ([.turn producer, .turn producer, .turn consumer, .turn consumer, .produce producer (tens 0),
      .consume consumer] ++ (List.replicate 5 [.turn producer, .turn consumer]).flatten)

theorem wait_passed_bothWait : ∃ t, 6 ≤ t ∧ t < 16 ∧
    PassesWait (after step initial bothWait t) (bothWait t) := by
  have hturns : ∀ k < 5, bothWait (6 + 2 * k) = .turn .producer ∧
      bothWait (6 + 2 * k + 1) = .turn .consumer := by
    intro k hk
    interval_cases k <;> exact ⟨rfl, rfl⟩
  have hround : ∀ k < 5, Round bothWait (6 + 2 * k) (6 + 2 * (k + 1)) := by
    intro k hk i _
    obtain ⟨hproducer, hconsumer⟩ := hturns k hk
    cases i with
    | producer => exact ⟨6 + 2 * k, le_rfl, by omega, hproducer⟩
    | consumer => exact ⟨6 + 2 * k + 1, by omega, by omega, hconsumer⟩
  have hmono : Monotone (fun k => 6 + 2 * k) := by
    intro k l hkl
    dsimp only
    omega
  have hcalm : ∀ t < 16, ¬ Throws (after step initial bothWait t) (bothWait t) :=
    (thrown_eq_zero_iff 16).mp rfl
  have hproducer : (after step initial bothWait 6).pc .producer = .awaitingWrite (tens 0) := rfl
  have hconsumer : (after step initial bothWait 6).pc .consumer = .awaitingRead := rfl
  exact wait_passed bothWait (b := fun k => 6 + 2 * k) hmono hround hcalm hproducer hconsumer

end SafeShm.ProducerConsumer
