import Mathlib.Data.Set.Card

/-!
# Counting references

Each holder of a type `ι` refers to at most one object of a type `α`, and only finitely many holders
refer to anything.  `refs h p` is the number of holders of `p`.  This file says how the numbers
change when one holder drops its reference (`refs_drop`) or takes one (`refs_take`), which is all
that a reference count ever has to follow.
-/

set_option autoImplicit false

namespace Ucore

variable {ι α : Type}

/-- The holders that refer to `p`. -/
def holders (h : ι → Option α) (p : α) : Set ι := {x | h x = some p}

/-- The number of holders that refer to `p`. -/
noncomputable def refs (h : ι → Option α) (p : α) : ℕ := (holders h p).ncard

/-- Only finitely many holders refer to anything. -/
def FinitelyHeld (h : ι → Option α) : Prop := {x | h x ≠ none}.Finite

variable {h : ι → Option α}

theorem FinitelyHeld.holders (hfin : FinitelyHeld h) (p : α) : (holders h p).Finite := by
  refine hfin.subset fun x hx => ?_
  rw [Set.mem_ofPred_eq, show h x = some p from hx]
  exact Option.some_ne_none p

theorem refs_pos (hfin : FinitelyHeld h) {p : α} : 0 < refs h p ↔ ∃ x, h x = some p :=
  Set.ncard_pos (hfin.holders p)

theorem refs_eq_zero (hfin : FinitelyHeld h) {p : α} (hp : ∀ x, h x ≠ some p) : refs h p = 0 := by
  rw [← Nat.le_zero, ← Nat.not_lt, refs_pos hfin]
  rintro ⟨x, hx⟩
  exact hp x hx

/-- One reference has one holder. -/
theorem eq_of_refs_le_one (hfin : FinitelyHeld h) {p : α} (hle : refs h p ≤ 1) {x y : ι}
    (hx : h x = some p) (hy : h y = some p) : y = x :=
  (Set.ncard_le_one (hfin.holders p)).1 hle y hy x hx

section Update

variable [DecidableEq ι]

theorem FinitelyHeld.update (hfin : FinitelyHeld h) (x : ι) (v : Option α) :
    FinitelyHeld (Function.update h x v) := by
  refine (hfin.insert x).subset fun y hy => ?_
  by_cases hyx : y = x
  · exact .inl hyx
  · rw [Set.mem_ofPred_eq, Function.update_of_ne hyx] at hy
    exact .inr hy

variable [DecidableEq α]

/-- A holder of `p` drops its reference. -/
theorem refs_drop (hfin : FinitelyHeld h) {x : ι} {p : α} (hx : h x = some p) (q : α) :
    refs h q = refs (Function.update h x none) q + if q = p then 1 else 0 := by
  by_cases hq : q = p
  · subst hq
    have hset : holders (Function.update h x none) q = holders h q \ {x} := by
      ext y
      by_cases hyx : y = x
      · simp [holders, hyx]
      · simp [holders, hyx]
    rw [if_pos rfl, refs, refs, hset]
    have hmem : x ∈ holders h q := hx
    exact (Set.ncard_sdiff_singleton_add_one hmem (hfin.holders q)).symm
  · have hset : holders (Function.update h x none) q = holders h q := by
      ext y
      by_cases hyx : y = x
      · simp [holders, hyx, hx, Ne.symm hq]
      · simp [holders, Function.update_of_ne hyx]
    rw [if_neg hq, refs, refs, hset]
    rfl

/-- A holder of nothing takes a reference to `p`. -/
theorem refs_take (hfin : FinitelyHeld h) {x : ι} (hx : h x = none) (p q : α) :
    refs (Function.update h x (some p)) q = refs h q + if q = p then 1 else 0 := by
  have hback : Function.update (Function.update h x (some p)) x none = h := by
    rw [Function.update_idem, ← hx, Function.update_eq_self]
  rw [refs_drop (hfin.update x (some p)) (Function.update_self ..) q, hback]

end Update

end Ucore
