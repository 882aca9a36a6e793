import Mathlib.Logic.Function.Basic
import Mathlib.Order.Monotone.Basic

/-!
# State machines driven by a sequence of actions

A machine is a step function. An action says which party moves, and it settles whatever is
left open: the value that is stored, the sleeper that is woken. An action that is not possible
in a state leaves it as it is, so that a statement for every sequence of actions is a statement
for every interleaving.
-/

namespace SafeShm.StateMachines
variable {S S' A A' : Type}

def after (step : S → A → S) (s : S) (acts : ℕ → A) : ℕ → S
  | 0 => s
  | t + 1 => step (after step s acts t) (acts t)

def repeated {α : Type} : List (α × ℕ) → List α
  | [] => []
  | (a, n) :: rest => List.replicate n a ++ repeated rest

def script (rest : A) (acts : List A) (t : ℕ) : A := acts.getD t rest

theorem script_of_le {rest : A} {acts : List A} {t : ℕ} (h : acts.length ≤ t) :
    script rest acts t = rest := by
  rw [script, List.getD_eq_getElem?_getD, List.getElem?_eq_none h, Option.getD_none]

variable {step : S → A → S} {s : S} {acts : ℕ → A}

theorem after_script (rest : A) (acts : List A) :
    after step s (script rest acts) acts.length = acts.foldl step s := by
  suffices h : ∀ t ≤ acts.length,
      after step s (script rest acts) t = (acts.take t).foldl step s by
    rw [h _ le_rfl, List.take_length]
  intro t
  induction t with
  | zero => exact fun _ => rfl
  | succ t ih =>
    intro hle
    rw [after, ih (Nat.le_of_succ_le hle), script, List.getD_eq_getElem?_getD,
      List.getElem?_eq_getElem hle, List.take_succ_eq_append_getElem hle, List.foldl_append]
    rfl

theorem after_of_fixed {t₀ t : ℕ} (hle : t₀ ≤ t) (hacts : ∀ t', t₀ ≤ t' →
    step (after step s acts t₀) (acts t') = after step s acts t₀) :
    after step s acts t = after step s acts t₀ := by
  induction t, hle using Nat.le_induction with
  | base => rfl
  | succ t hle ih =>
    rw [after, ih]
    exact hacts t hle

/-- What holds at first and is kept by every step that meets the condition `C` holds after
steps that all meet it. -/
theorem after_invariant_of {P : S → Prop} {C : S → A → Prop} (h₀ : P s)
    (hstep : ∀ s a, C s a → P s → P (step s a)) {t : ℕ}
    (hC : ∀ t' < t, C (after step s acts t') (acts t')) : P (after step s acts t) := by
  induction t with
  | zero => exact h₀
  | succ t ih =>
    apply hstep _ _ (hC t (Nat.lt_succ_self t))
    exact ih (fun t' ht' => hC t' (Nat.lt_succ_of_lt ht'))

theorem after_invariant {P : S → Prop} (h₀ : P s) (hstep : ∀ s a, P s → P (step s a)) (t : ℕ) :
    P (after step s acts t) :=
  after_invariant_of (C := fun _ _ => True) h₀ (fun s a _ => hstep s a) (fun _ _ => trivial)

theorem after_invariant_from {P : S → Prop} {t₀ t : ℕ} (hle : t₀ ≤ t)
    (h₀ : P (after step s acts t₀)) (hstep : ∀ s a, P s → P (step s a)) :
    P (after step s acts t) := by
  induction t, hle using Nat.le_induction with
  | base => exact h₀
  | succ t hle ih => exact hstep _ _ ih

/-- A run that starts outside `P` and is in it now has entered it by a step, and stayed since. -/
theorem exists_entry {P : S → Prop} {E : S → A → Prop} (h₀ : ¬ P s)
    (hstep : ∀ s a, P (step s a) → P s ∨ E s a) {t : ℕ} (ht : P (after step s acts t)) :
    ∃ t₁ < t, E (after step s acts t₁) (acts t₁) ∧
      ∀ t', t₁ < t' → t' ≤ t → P (after step s acts t') := by
  induction t with
  | zero => exact absurd ht h₀
  | succ t ih =>
    rcases hstep _ _ ht with hbefore | hentry
    · obtain ⟨t₁, hlt, hentry, hsince⟩ := ih hbefore
      refine ⟨t₁, Nat.lt_succ_of_lt hlt, hentry, ?_⟩
      intro t' hlt' hle
      rcases Nat.le_or_eq_of_le_succ hle with hle | rfl
      · exact hsince t' hlt' hle
      · exact ht
    · refine ⟨t, Nat.lt_succ_self t, hentry, ?_⟩
      intro t' hlt hle
      rw [Nat.le_antisymm hle hlt]
      exact ht

/-- What holds at instant `a`, and is kept by every step before instant `c`, holds from `a` to
`c`. -/
theorem holds_between {P : ℕ → Prop} {a c : ℕ} (h₀ : P a)
    (hstep : ∀ t, a ≤ t → t < c → P t → P (t + 1)) : ∀ t, a ≤ t → t ≤ c → P t := by
  intro t hat
  induction t, hat using Nat.le_induction with
  | base => exact fun _ => h₀
  | succ t hat ih =>
    intro htc
    exact hstep t hat htc (ih (Nat.le_of_succ_le htc))

/-- If every good step costs one unit of a potential, and no step adds to it more than it adds to
the credit, then there are at most as many good steps as there were potential and new credit. -/
theorem countP_le_of_potential (Φ credit : ℕ → ℕ) (good : ℕ → Bool) {a b : ℕ} (hab : a ≤ b)
    (hstep : ∀ t, a ≤ t → t < b →
      Φ (t + 1) + (good t).toNat + credit t ≤ Φ t + credit (t + 1)) :
    (List.range' a (b - a)).countP good + Φ b + credit a ≤ Φ a + credit b := by
  induction b, hab using Nat.le_induction with
  | base => simp
  | succ b hab ih =>
    have hbefore := ih (fun t hat htb => hstep t hat (Nat.lt_succ_of_lt htb))
    have hlast := hstep b hab (Nat.lt_succ_self b)
    rw [Nat.succ_sub hab, Nat.succ_eq_add_one, List.range'_1_concat, List.countP_append,
      Nat.add_sub_cancel' hab, List.countP_singleton]
    cases hgood : good b
    · rw [hgood] at hlast
      simp only [Bool.toNat_false] at hlast
      simp only [Bool.false_eq_true, if_false]
      omega
    · rw [hgood] at hlast
      simp only [Bool.toNat_true] at hlast
      simp only [if_true]
      omega

/-- A rank that never goes up, and that goes down in every round which finds it above 0, is 0 after
as many rounds as it was high. -/
theorem rank_eq_zero_of_rounds (Φ : ℕ → ℕ) {b : ℕ → ℕ} {n : ℕ} (hb : Monotone b)
    (hstep : ∀ t, b 0 ≤ t → t < b n → Φ (t + 1) ≤ Φ t)
    (hround : ∀ k < n, 0 < Φ (b k) →
      ∃ t, b k ≤ t ∧ t < b (k + 1) ∧ (0 < Φ t → Φ (t + 1) < Φ t))
    (hle : Φ (b 0) ≤ n) : Φ (b n) = 0 := by
  have hanti : ∀ t t', b 0 ≤ t → t ≤ t' → t' ≤ b n → Φ t' ≤ Φ t := by
    intro t t' ht
    apply holds_between
    · exact le_rfl
    · intro u htu hlt hle
      exact (hstep u (ht.trans htu) hlt).trans hle
  have hdown : ∀ k ≤ n, Φ (b k) ≤ Φ (b 0) - k := by
    intro k
    induction k with
    | zero => exact fun _ => le_rfl
    | succ k ih =>
      intro hk
      have hbefore := ih (Nat.le_of_succ_le hk)
      have hbk := hb (Nat.zero_le k)
      have hbn := hb hk
      by_cases hpos : 0 < Φ (b k)
      · obtain ⟨t, hkt, htk, hmove⟩ := hround k hk hpos
        have hlast := hanti (t + 1) (b (k + 1)) (by omega) htk hbn
        have hfirst := hanti (b k) t hbk hkt (htk.le.trans hbn)
        have hstept := hstep t (hbk.trans hkt) (htk.trans_le hbn)
        rcases Nat.eq_zero_or_pos (Φ t) with hzero | hpos'
        · omega
        · have hless := hmove hpos'
          omega
      · have hlast := hanti (b k) (b (k + 1)) hbk (hb (Nat.le_succ k)) hbn
        omega
  have hend := hdown n le_rfl
  omega

theorem rank_eq_zero_between {Φ : ℕ → ℕ} {a c : ℕ} (h₀ : Φ a = 0)
    (hstep : ∀ t, a ≤ t → t < c → Φ (t + 1) ≤ Φ t) : ∀ t, a ≤ t → t ≤ c → Φ t = 0 := by
  apply holds_between
  · exact h₀
  · intro t hat htc hzero
    exact Nat.le_zero.mp ((hstep t hat htc).trans_eq hzero)

/-- A part of a machine that moves by the steps of another machine, or not at all, keeps the
invariants of that machine. -/
theorem after_part_invariant {step' : S' → A' → S'} {P : S' → Prop} (part : S → S')
    (h₀ : P (part s)) (hpart : ∀ s a, part (step s a) = part s ∨
      ∃ a', part (step s a) = step' (part s) a')
    (hstep : ∀ s a, P s → P (step' s a)) (t : ℕ) : P (part (after step s acts t)) := by
  apply after_invariant (P := fun s => P (part s)) h₀
  intro s a h
  rcases hpart s a with heq | ⟨a', heq⟩
  · rw [heq]
    exact h
  · rw [heq]
    exact hstep _ a' h

end SafeShm.StateMachines
