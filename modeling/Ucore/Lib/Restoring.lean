import Mathlib.Algebra.Order.Group.Nat
import Mathlib.Tactic.Ring

/-!
# Restoring division

Division by shifting and subtracting: the bits of the quotient are found from the highest one on,
and the bit `k` is 1 if `m * 2 ^ k` can still be subtracted from what is left of the dividend.
`Quot n m k q a` is the state in which the bits from `k` on are in `q`, and `a` is left.  One trial
goes from `k + 1` to `k` (`Quot.trial`), and the division may stop as soon as nothing is left
(`Quot.done`).

* `Quot.trial_pos`, `Quot.trial_neg` — the two outcomes of a trial.
* `Quot.trial_shifted` — a trial for code that shifts the remainder up instead of the divisor down.
* `Quot.exact` — at the end `q` is the quotient and `a` the remainder.
* `Quot.testBit` — the bit that a trial finds is the one of the quotient, which is what is needed by
  code that does not keep the quotient.
-/

set_option autoImplicit false

namespace Ucore

/-- The bits from `k` on of `n / m` are in `q`, and `a` is left of `n`. -/
structure Quot (n m k q a : ℕ) : Prop where
  eq : n = q * m + a
  lt : a < m * 2 ^ k
  dvd : 2 ^ k ∣ q

namespace Quot

variable {n m k q a : ℕ}

theorem start (h : n < m * 2 ^ k) : Quot n m k 0 n := ⟨by simp, h, dvd_zero _⟩

theorem pos (h : Quot n m k q a) : 0 < m := by
  rcases Nat.eq_zero_or_pos m with rfl | hm
  · have hlt := h.lt
    simp at hlt
  · exact hm

/-- The bit `k` is 1. -/
theorem trial_pos (h : Quot n m (k + 1) q a) (hle : m * 2 ^ k ≤ a) :
    Quot n m k (q + 2 ^ k) (a - m * 2 ^ k) := by
  have hlt := h.lt
  refine ⟨?_, ?_, ?_⟩
  · calc n = q * m + a := h.eq
      _ = q * m + m * 2 ^ k + (a - m * 2 ^ k) := by omega
      _ = (q + 2 ^ k) * m + (a - m * 2 ^ k) := by ring
  · rw [pow_succ, ← Nat.mul_assoc] at hlt
    omega
  · exact Nat.dvd_add ((pow_dvd_pow 2 (Nat.le_succ k)).trans h.dvd) dvd_rfl

/-- The bit `k` is 0. -/
theorem trial_neg (h : Quot n m (k + 1) q a) (hlt : a < m * 2 ^ k) : Quot n m k q a :=
  ⟨h.eq, hlt, (pow_dvd_pow 2 (Nat.le_succ k)).trans h.dvd⟩

/-- **One trial.** -/
theorem trial (h : Quot n m (k + 1) q a) :
    Quot n m k (if m * 2 ^ k ≤ a then q + 2 ^ k else q)
      (if m * 2 ^ k ≤ a then a - m * 2 ^ k else a) := by
  split
  · next hle => exact h.trial_pos hle
  · next hlt => exact h.trial_neg (by omega)

/-- One trial, if the remainder is shifted up and not the divisor: `t` is what the divisor is
compared with, and `rest` are the bits of the dividend that do not belong to it yet. -/
theorem trial_shifted {t rest : ℕ} (h : Quot n m (k + 1) q (t * 2 ^ k + rest)) (hrest : rest < 2 ^ k) :
    Quot n m k (if m ≤ t then q + 2 ^ k else q) ((if m ≤ t then t - m else t) * 2 ^ k + rest) := by
  by_cases hle : m ≤ t
  · have hmul : m * 2 ^ k ≤ t * 2 ^ k := Nat.mul_le_mul_right _ hle
    rw [if_pos hle, if_pos hle, Nat.sub_mul, ← Nat.sub_add_comm hmul]
    exact h.trial_pos (by omega)
  · have hmul : (t + 1) * 2 ^ k ≤ m * 2 ^ k := Nat.mul_le_mul_right _ (by omega)
    rw [if_neg hle, if_neg hle]
    rw [Nat.add_mul, Nat.one_mul] at hmul
    exact h.trial_neg (by omega)

/-- If all bits are found, what is left is the remainder. -/
theorem exact (h : Quot n m 0 q a) : n / m = q ∧ n % m = a := by
  have hlt : a < m := by simpa using h.lt
  rw [Nat.div_mod_unique h.pos]
  exact ⟨by rw [h.eq, Nat.mul_comm, Nat.add_comm], hlt⟩

/-- If nothing is left, all other bits are 0. -/
theorem done (h : Quot n m k q 0) : n / m = q ∧ n % m = 0 := by
  rw [Nat.div_mod_unique h.pos]
  exact ⟨by rw [h.eq, Nat.mul_comm, Nat.add_comm], h.pos⟩

/-- Whether nothing is left can be seen from the operands. -/
theorem eq_zero_iff (h : Quot n m k q a) : a = 0 ↔ m * 2 ^ k ∣ n := by
  have hq : m * 2 ^ k ∣ q * m := by
    rw [Nat.mul_comm q m]
    exact Nat.mul_dvd_mul_left m h.dvd
  rw [h.eq, Nat.dvd_add_right hq]
  constructor
  · rintro rfl
    exact dvd_zero _
  · exact fun hdvd => Nat.eq_zero_of_dvd_of_lt hdvd h.lt

/-- **The bit that a trial finds** is one of the quotient. -/
theorem testBit (h : Quot n m (k + 1) q a) : (n / m).testBit k = decide (m * 2 ^ k ≤ a) := by
  obtain ⟨c, hc⟩ := h.dvd
  have hdiv : n / m = a / m + 2 ^ (k + 1) * c := by
    rw [h.eq, hc, Nat.add_comm, Nat.mul_comm (2 ^ (k + 1) * c) m, Nat.add_mul_div_left _ _ h.pos]
  have hlt : a / m < 2 ^ (k + 1) := Nat.div_lt_of_lt_mul h.lt
  have hle : 2 ^ k ≤ a / m ↔ m * 2 ^ k ≤ a := by
    rw [Nat.le_div_iff_mul_le h.pos, Nat.mul_comm]
  rw [hdiv, Nat.testBit_eq_decide_div_mod_eq, decide_eq_decide, ← hle, pow_succ, Nat.mul_assoc,
    Nat.add_mul_div_left _ _ (Nat.two_pow_pos k), Nat.add_mul_mod_self_left]
  have hhalf : a / m / 2 ^ k < 2 := by
    rw [Nat.div_lt_iff_lt_mul (Nat.two_pow_pos k), Nat.mul_comm, ← pow_succ]
    exact hlt
  have hone : 1 ≤ a / m / 2 ^ k ↔ 2 ^ k ≤ a / m := by
    rw [Nat.le_div_iff_mul_le (Nat.two_pow_pos k), Nat.one_mul]
  rw [← hone]
  generalize a / m / 2 ^ k = bit at hhalf
  omega

theorem le (h : Quot n m k q a) : q ≤ n := by
  calc q = q * 1 := (Nat.mul_one q).symm
    _ ≤ q * m := Nat.mul_le_mul_left q h.pos
    _ ≤ n := by
      rw [h.eq]
      exact Nat.le_add_right _ _

end Quot

/-- A bit that is set below the others. -/
theorem or_two_pow_eq_add {k q : ℕ} (h : 2 ^ (k + 1) ∣ q) : q ||| 2 ^ k = q + 2 ^ k := by
  obtain ⟨c, rfl⟩ := h
  exact (Nat.two_pow_add_eq_or_of_lt (Nat.pow_lt_pow_right (by omega) (by omega)) c).symm

end Ucore
