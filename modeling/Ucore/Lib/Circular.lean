import Mathlib.Logic.Function.Basic
import Mathlib.Tactic.Common

/-!
# Circular buffers

A buffer of `n` places with two indexes, one for the next read and one for the next write, which
both go back to 0 at the end.  If the indexes are equal the buffer may be empty or full, so a queue
that is kept in it has less than `n` elements.

`Circular.Holds` is the abstraction: the places from the index for reading on are the queue.
Writing appends to the queue (`Holds.push`), reading takes its first element (`Holds.pop`), and the
indexes are equal exactly if it is empty (`Holds.eq_iff`).
-/

set_option autoImplicit false

namespace Ucore.Circular

variable {α : Type}

/-- The index behind `i`. -/
def next (n i : ℕ) : ℕ := if i + 1 = n then 0 else i + 1

theorem next_eq {n i : ℕ} (h : i < n) : next n i = (i + 1) % n := by
  rw [next]
  split
  · next heq => rw [heq, Nat.mod_self]
  · rw [Nat.mod_eq_of_lt (by omega)]

theorem next_lt {n i : ℕ} (h : i < n) : next n i < n := by
  rw [next_eq h]
  exact Nat.mod_lt _ (by omega)

/-- The buffer holds the queue `q`, with `r` and `w` as the indexes for reading and writing. -/
structure Holds (n : ℕ) (buf : ℕ → α) (r w : ℕ) (q : List α) : Prop where
  r_lt : r < n
  length_lt : q.length < n
  w_eq : w = (r + q.length) % n
  get : ∀ i (h : i < q.length), buf ((r + i) % n) = q[i]

namespace Holds

variable {n : ℕ} {buf : ℕ → α} {r w : ℕ} {q : List α}

theorem w_lt (h : Holds n buf r w q) : w < n := by
  rw [h.w_eq]
  exact Nat.mod_lt _ (Nat.zero_lt_of_lt h.r_lt)

/-- A place further along is another place, up to a whole turn. -/
theorem add_mod_ne {i j : ℕ} (hij : i < j) (hj : j < i + n) : (r + i) % n ≠ (r + j) % n := by
  intro heq
  have hmod : ((r + j) - (r + i)) % n = 0 := Nat.sub_mod_eq_zero_of_mod_eq heq.symm
  have hle := Nat.le_of_dvd (by omega) (Nat.dvd_of_mod_eq_zero hmod)
  omega

/-- An empty buffer. -/
theorem nil (hr : r < n) : Holds n buf r r [] :=
  ⟨hr, Nat.zero_lt_of_lt hr, (Nat.mod_eq_of_lt hr).symm, fun i h => absurd h (Nat.not_lt_zero i)⟩

/-- The indexes are equal exactly if the queue is empty. -/
theorem eq_iff (h : Holds n buf r w q) : r = w ↔ q = [] := by
  constructor
  · intro heq
    by_contra hq
    have hpos : 0 < q.length := List.length_pos_iff.2 hq
    have hlt : q.length < 0 + n := by
      have := h.length_lt
      omega
    refine add_mod_ne (r := r) hpos hlt ?_
    rw [← h.w_eq, ← heq, Nat.add_zero, Nat.mod_eq_of_lt h.r_lt]
  · rintro rfl
    rw [h.w_eq, List.length_nil, Nat.add_zero, Nat.mod_eq_of_lt h.r_lt]

/-- Writing appends to the queue, if it does not become full. -/
theorem push (h : Holds n buf r w q) (a : α) (hlt : q.length + 1 < n) :
    Holds n (Function.update buf w a) r (next n w) (q ++ [a]) := by
  refine ⟨h.r_lt, by simpa using hlt, ?_, fun i hi => ?_⟩
  · rw [next_eq h.w_lt, h.w_eq, Nat.mod_add_mod, List.length_append, List.length_singleton,
      Nat.add_assoc]
  · rw [List.length_append, List.length_singleton] at hi
    by_cases hlast : i = q.length
    · subst hlast
      rw [← h.w_eq, Function.update_self, List.getElem_concat_length rfl]
    · have hne : (r + i) % n ≠ w := by
        rw [h.w_eq]
        exact add_mod_ne (by omega) (by omega)
      rw [Function.update_of_ne hne, h.get i (by omega), List.getElem_append_left (by omega)]

/-- Reading takes the first element of the queue. -/
theorem pop {a : α} (h : Holds n buf r w (a :: q)) : buf r = a ∧ Holds n buf (next n r) w q := by
  constructor
  · have hget := h.get 0 (Nat.zero_lt_succ _)
    rwa [Nat.add_zero, Nat.mod_eq_of_lt h.r_lt] at hget
  · have hlen := h.length_lt
    rw [List.length_cons] at hlen
    refine ⟨next_lt h.r_lt, by omega, ?_, fun i hi => ?_⟩
    · rw [h.w_eq, next_eq h.r_lt, Nat.mod_add_mod, List.length_cons]
      congr 1
      omega
    · have hget := h.get (i + 1) (by rw [List.length_cons]; omega)
      rw [List.getElem_cons_succ] at hget
      rw [← hget, next_eq h.r_lt, Nat.mod_add_mod]
      congr 2
      omega

end Holds

end Ucore.Circular
