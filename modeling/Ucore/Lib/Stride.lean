import Ucore.Lib.Loop

/-!
# Loops that pass over what they need not look at

A loop goes through the positions `a`, `a + step`, … below `stop` and does something at each of
them, until it is told to give up.  To save time it may jump over positions at which nothing would
happen.  `doWhile_strides` says that the jumps make no difference: the loop does what `runWhile`
does, which visits every position.
-/

set_option autoImplicit false

namespace Ucore

variable {τ : Type}

/-- `act` on one position after the other, as long as `go` holds of the state. -/
def runWhile (go : τ → Bool) (act : ℕ → τ → Res τ) : List ℕ → τ → Res τ
  | [], t => .ok t
  | a :: l, t => if go t then act a t >>= runWhile go act l else .ok t

variable {go : τ → Bool} {act : ℕ → τ → Res τ}

theorem runWhile_stop {t : τ} (h : go t = false) (l : List ℕ) : runWhile go act l t = .ok t := by
  cases l with
  | nil => rfl
  | cons a l => rw [runWhile, h]; rfl

/-- Positions at which nothing happens may be left out. -/
theorem runWhile_skip {t : τ} {l : List ℕ} (h : ∀ a ∈ l, act a t = .ok t) (m : List ℕ) :
    runWhile go act (l ++ m) t = runWhile go act m t := by
  induction l with
  | nil => rfl
  | cons a l ih =>
    cases hgo : go t with
    | false => rw [runWhile_stop hgo, runWhile_stop hgo]
    | true =>
      rw [List.cons_append, runWhile, hgo, if_pos rfl, h a (by simp), Res.ok_bind]
      exact ih fun b hb => h b (by simp [hb])

/-- Without a reason to give up, this is the loop over a list. -/
theorem runWhile_true (l : List ℕ) (t : τ) :
    runWhile (fun _ => true) act l t = l.foldlM (fun t a => act a t) t := by
  induction l generalizing t with
  | nil => rfl
  | cons a l ih =>
    rw [runWhile, if_pos rfl, List.foldlM_cons]
    refine congrArg (act a t >>= ·) ?_
    funext t'
    exact ih t'

/-- If no step stops in one way, the loop does not. -/
theorem runWhile_ne_error {e : Fault} (h : ∀ a t, act a t ≠ .error e) (l : List ℕ) (t : τ) :
    runWhile go act l t ≠ .error e := by
  induction l generalizing t with
  | nil => exact nofun
  | cons a l ih =>
    rw [runWhile]
    split
    · exact Res.bind_ne_error (h a t) ih
    · exact nofun

section Strides

variable {step stop : ℕ} {round : ℕ × τ → Res (ℕ × τ)}

/-- One round does what is to be done at its position, or jumps over positions at which there is
nothing to do. -/
def Strides (step stop : ℕ) (go : τ → Bool) (act : ℕ → τ → Res τ)
    (round : ℕ × τ → Res (ℕ × τ)) : Prop :=
  ∀ a n t, a + n * step = stop → 0 < n → go t = true →
    round (a, t) = (act a t >>= fun t' => .ok (a + step, t')) ∨
    ∃ j, 0 < j ∧ round (a, t) = .ok (a + j * step, t) ∧
      ∀ b ∈ List.range' a (min j n) step, act b t = .ok t

/-- **The jumps make no difference.** -/
theorem whileLoop_strides (hround : Strides step stop go act round) {a n fuel : ℕ} {t : τ}
    (hpos : 0 < a) (hstep : 0 < step) (hn : a + n * step = stop ∨ stop ≤ a ∧ n = 0)
    (hfuel : n ≤ fuel) :
    (whileLoop (fun s => go s.2 && (decide (s.1 ≠ 0) && decide (s.1 < stop))) round fuel
      (a, t)).map Prod.snd = runWhile go act (List.range' a n step) t := by
  induction n using Nat.strongRecOn generalizing a fuel t with
  | _ n ih =>
    cases n with
    | zero =>
      have hle : ¬ a < stop := by omega
      rw [whileLoop_false (by simp [hle])]
      rfl
    | succ n =>
      have hstop : a + (n + 1) * step = stop := by omega
      have hlt : a < stop := by
        rw [← hstop, Nat.add_mul]
        omega
      obtain ⟨fuel, rfl⟩ : ∃ k, fuel = k + 1 := ⟨fuel - 1, by omega⟩
      cases hgo : go t with
      | false => rw [whileLoop_false (by simp [hgo]), runWhile_stop hgo]; rfl
      | true =>
        rw [whileLoop, if_pos (by simp [hgo, hlt]; omega)]
        rcases hround a (n + 1) t hstop (Nat.succ_pos n) hgo with hact | ⟨j, hj, hjump, hnop⟩
        · rw [hact, List.range'_succ, runWhile, hgo, if_pos rfl]
          cases hres : act a t with
          | error e => rfl
          | ok t' =>
            refine ih n (Nat.lt_succ_self n) (by omega) (.inl ?_) (by omega)
            rw [← hstop, Nat.add_mul]
            omega
        · rw [hjump, Res.ok_bind]
          by_cases hle : j ≤ n + 1
          · obtain ⟨k, hk⟩ := Nat.exists_eq_add_of_le hle
            rw [Nat.min_eq_left hle] at hnop
            rw [hk, ← List.range'_append, runWhile_skip hnop, Nat.mul_comm step j]
            refine ih k (by omega) (by omega) (.inl ?_) (by omega)
            rw [← hstop, hk, Nat.add_mul, Nat.add_assoc]
          · -- the jump goes past the end
            rw [Nat.min_eq_right (by omega)] at hnop
            rw [← List.append_nil (List.range' a (n + 1) step), runWhile_skip hnop]
            refine ih 0 (Nat.succ_pos n) (by omega) (.inr ⟨?_, rfl⟩) (Nat.zero_le _)
            rw [← hstop]
            exact Nat.add_le_add_left (Nat.mul_le_mul_right step (by omega)) a

/-- The same for a loop that tests its guard behind the body. -/
theorem doWhile_strides (hround : Strides step stop go act round) {a n fuel : ℕ} {t : τ}
    (hpos : 0 < a) (hstep : 0 < step) (hstop : a + n * step = stop) (hn : 0 < n) (hgo : go t = true)
    (hfuel : n ≤ fuel + 1) :
    (doWhile (fun s => go s.2 && (decide (s.1 ≠ 0) && decide (s.1 < stop))) round fuel
      (a, t)).map Prod.snd = runWhile go act (List.range' a n step) t := by
  have hlt : a < stop := by
    have h1 := Nat.mul_le_mul_right step hn
    omega
  rw [← whileLoop_strides hround hpos hstep (.inl hstop) hfuel, whileLoop,
    if_pos (by simp [hgo, hlt]; omega)]
  rfl

end Strides

end Ucore
