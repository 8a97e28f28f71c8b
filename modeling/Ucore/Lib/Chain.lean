import Mathlib.Data.List.Range
import Mathlib.Logic.Function.Basic

/-!
# A list threaded through an array

An array says for each element which one comes next, and a value that is no element marks the end.
`Chain next stop start l` says that `l` is what one finds from `start` on.  The operations on it are
those of a stack: `Chain.push` stores the old start in the array, and taking the first element
changes nothing in the array at all.
-/

set_option autoImplicit false

namespace Ucore

variable {α : Type}

/-- **The list from `start` on.** -/
def Chain (next : α → α) (stop : α) : α → List α → Prop
  | start, [] => start = stop
  | start, i :: l => start = i ∧ i ≠ stop ∧ Chain next stop (next i) l

variable {next : α → α} {stop start : α} {l : List α}

theorem Chain.nil_iff (h : Chain next stop start l) : l = [] ↔ start = stop := by
  cases l with
  | nil => exact iff_of_true rfl h
  | cons i l => exact iff_of_false (List.cons_ne_nil i l) fun heq => h.2.1 (h.1.symm.trans heq)

variable [DecidableEq α]

/-- Entries that are not visited do not matter. -/
theorem Chain.update {i x : α} (hi : i ∉ l) (h : Chain next stop start l) :
    Chain (Function.update next i x) stop start l := by
  induction l generalizing start with
  | nil => exact h
  | cons j l ih =>
    obtain ⟨hij, hil⟩ := not_or.1 (mt List.mem_cons.2 hi)
    refine ⟨h.1, h.2.1, ?_⟩
    rw [Function.update_of_ne (Ne.symm hij)]
    exact ih hil h.2.2

/-- A new first element. -/
theorem Chain.push {i : α} (hi : i ∉ l) (hstop : i ≠ stop) (h : Chain next stop start l) :
    Chain (Function.update next i start) stop i (i :: l) := by
  refine ⟨rfl, hstop, ?_⟩
  rw [Function.update_self]
  exact h.update hi

/-- An array in which every element is followed by the next number. -/
theorem Chain.range' {next : ℕ → ℕ} {stop k m : ℕ}
    (hnext : ∀ j, k ≤ j → j + 1 < k + m → next j = j + 1)
    (hlast : 0 < m → next (k + m - 1) = stop) (hstop : ∀ j, k ≤ j → j < k + m → j ≠ stop)
    (hm : 0 < m) :
    Chain next stop k (List.range' k m) := by
  induction m generalizing k with
  | zero => exact absurd hm (Nat.lt_irrefl 0)
  | succ m ih =>
    refine ⟨rfl, hstop k le_rfl (by omega), ?_⟩
    cases m with
    | zero => exact hlast hm
    | succ m =>
      rw [hnext k le_rfl (by omega)]
      refine ih (fun j h1 h2 => hnext j (by omega) (by omega)) (fun _ => ?_)
        (fun j h1 h2 => hstop j (by omega) (by omega)) (by omega)
      rw [← hlast hm]
      congr 1
      omega

end Ucore
