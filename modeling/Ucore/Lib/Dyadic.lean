import Mathlib.Data.Nat.Bitwise
import Mathlib.Order.Interval.Finset.Nat
import Mathlib.Tactic.Ring

/-!
# Dyadic blocks

A dyadic block of order `k` is an interval of `2 ^ k` numbers that starts at a multiple of
`2 ^ k`.  Two of them are *buddies* if together they make a block of order `k + 1`; the start of
one is the start of the other with bit `k` flipped, and clearing that bit gives the start of the
block they make.  This file says so about `^^^` and `&&&`.
-/

set_option autoImplicit false

namespace Ucore

/-- The numbers of the block of order `k` that starts at `x`. -/
def block (x k : ℕ) : Finset ℕ := Finset.Ico x (x + 2 ^ k)

@[simp] theorem mem_block {x k y : ℕ} : y ∈ block x k ↔ x ≤ y ∧ y < x + 2 ^ k := Finset.mem_Ico

theorem left_mem_block (x k : ℕ) : x ∈ block x k := by
  exact mem_block.2 ⟨le_rfl, Nat.lt_add_of_pos_right (Nat.two_pow_pos k)⟩

@[simp] theorem card_block (x k : ℕ) : (block x k).card = 2 ^ k := by
  rw [block, Nat.card_Ico, Nat.add_sub_cancel_left]

theorem block_mono {x j k : ℕ} (h : j ≤ k) : block x j ⊆ block x k := by
  have hpow : 2 ^ j ≤ 2 ^ k := Nat.pow_le_pow_right (by omega) h
  intro y hy
  rw [mem_block] at hy ⊢
  omega

/-- The start of a block is the start of a lower or an upper half of a larger one. -/
theorem mod_two_pow_succ {x k : ℕ} (h : x % 2 ^ k = 0) :
    x % 2 ^ (k + 1) = 0 ∨ x % 2 ^ (k + 1) = 2 ^ k := by
  obtain ⟨m, rfl⟩ := Nat.dvd_of_mod_eq_zero h
  rw [pow_succ, Nat.mul_mod_mul_left]
  rcases Nat.mod_two_eq_zero_or_one m with hm | hm
  · exact .inl (by rw [hm, mul_zero])
  · exact .inr (by rw [hm, mul_one])

/-- A multiple of a power is a multiple of every lower power. -/
theorem mod_two_pow_of_le {x j k : ℕ} (h : x % 2 ^ k = 0) (hjk : j ≤ k) : x % 2 ^ j = 0 :=
  Nat.mod_eq_zero_of_dvd ((pow_dvd_pow 2 hjk).trans (Nat.dvd_of_mod_eq_zero h))

theorem add_two_pow_mod {x k : ℕ} (h : x % 2 ^ k = 0) : (x + 2 ^ k) % 2 ^ k = 0 := by
  rw [Nat.add_mod_right, h]

/-- Behind an upper half a larger block starts. -/
theorem add_two_pow_mod_succ {x k : ℕ} (h : x % 2 ^ (k + 1) = 2 ^ k) :
    (x + 2 ^ k) % 2 ^ (k + 1) = 0 := by
  have hlt : 2 ^ k < 2 ^ (k + 1) := Nat.pow_lt_pow_right (by omega) (by omega)
  rw [Nat.add_mod, h, Nat.mod_eq_of_lt hlt, ← two_mul, ← pow_succ', Nat.mod_self]

/-- Flipping bit `k` of the start of a lower half leads to the upper half. -/
theorem xor_two_pow_lower {x k : ℕ} (h : x % 2 ^ (k + 1) = 0) :
    x ^^^ 2 ^ k = x + 2 ^ k ∧ x &&& (x ^^^ 2 ^ k) = x := by
  obtain ⟨m, rfl⟩ := Nat.dvd_of_mod_eq_zero h
  have hx : 2 ^ (k + 1) * m = (2 * m) <<< k := by rw [Nat.shiftLeft_eq]; ring
  have hk : 2 ^ k = 1 <<< k := by rw [Nat.one_shiftLeft]
  rw [hx, hk, ← Nat.shiftLeft_xor_distrib, ← Nat.shiftLeft_and_distrib,
    Nat.xor_one_of_even (even_two_mul m)]
  refine ⟨by rw [Nat.shiftLeft_eq, Nat.shiftLeft_eq, Nat.shiftLeft_eq]; ring, ?_⟩
  rw [← Nat.xor_one_of_even (even_two_mul m), Nat.and_xor_distrib_left, Nat.and_self,
    Nat.and_one_is_mod, Nat.mul_mod_right, Nat.xor_zero]

/-- Flipping bit `k` of the start of an upper half leads to the lower half. -/
theorem xor_two_pow_upper {x k : ℕ} (h : x % 2 ^ (k + 1) = 2 ^ k) :
    x ^^^ 2 ^ k = x - 2 ^ k ∧ x &&& (x ^^^ 2 ^ k) = x - 2 ^ k := by
  have hx : x = (2 * (x / 2 ^ (k + 1)) + 1) <<< k := by
    have h1 := Nat.div_add_mod x (2 ^ (k + 1))
    rw [h] at h1
    have h2 : (2 * (x / 2 ^ (k + 1)) + 1) * 2 ^ k = 2 ^ (k + 1) * (x / 2 ^ (k + 1)) + 2 ^ k := by
      ring
    rw [Nat.shiftLeft_eq, h2, h1]
  have hk : 2 ^ k = 1 <<< k := by rw [Nat.one_shiftLeft]
  have hodd : Odd (2 * (x / 2 ^ (k + 1)) + 1) := odd_two_mul_add_one _
  generalize 2 * (x / 2 ^ (k + 1)) + 1 = m at hx hodd
  have hsub : (m - 1) <<< k = x - 1 <<< k := by
    rw [hx, Nat.shiftLeft_eq, Nat.shiftLeft_eq, Nat.shiftLeft_eq, Nat.sub_mul]
  refine ⟨?_, ?_⟩
  · rw [hk, ← hsub, hx, ← Nat.shiftLeft_xor_distrib, Nat.xor_one_of_odd hodd]
  · rw [hk, ← hsub, hx, ← Nat.shiftLeft_xor_distrib, ← Nat.shiftLeft_and_distrib,
      Nat.and_xor_distrib_left, Nat.and_self, Nat.and_one_is_mod, Nat.odd_iff.1 hodd,
      Nat.xor_one_of_odd hodd]

theorem and_two_pow_ne_zero_iff {x k : ℕ} (h : x % 2 ^ k = 0) :
    x &&& 2 ^ k ≠ 0 ↔ x % 2 ^ (k + 1) = 2 ^ k := by
  have hand : x &&& 2 ^ k = x % 2 ^ (k + 1) := by
    obtain ⟨m, rfl⟩ := Nat.dvd_of_mod_eq_zero h
    have hx : 2 ^ k * m = m <<< k := by rw [Nat.shiftLeft_eq, mul_comm]
    have hk : 2 ^ k = 1 <<< k := by rw [Nat.one_shiftLeft]
    rw [pow_succ, Nat.mul_mod_mul_left, hx, hk, ← Nat.shiftLeft_and_distrib, Nat.and_one_is_mod,
      Nat.shiftLeft_eq, Nat.shiftLeft_eq]
    ring
  rw [hand]
  have hpos := Nat.two_pow_pos k
  rcases mod_two_pow_succ h with h0 | h0
  · rw [h0]
    constructor
    · intro h1
      exact absurd rfl h1
    · intro h1
      omega
  · rw [h0]
    constructor
    · exact fun _ => rfl
    · intro _
      omega

/-- A block of order `k + 1` is made of its two halves. -/
theorem block_succ (x k : ℕ) : block x (k + 1) = block x k ∪ block (x + 2 ^ k) k := by
  ext y
  simp only [mem_block, Finset.mem_union, pow_succ]
  omega

end Ucore
