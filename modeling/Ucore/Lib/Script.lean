import Ucore.Lib.Loop

/-!
# Loops whose course does not depend on the data

The state of a loop often has two parts: data that actions work on, and a few numbers that decide
how the loop goes on.  If the numbers do not depend on the data, then the actions that the loop
takes can be written down before it runs.  `Script` is the list of them, and `whileLoop_script` says
that the loop does what the script says, also if one of the actions stops.
-/

set_option autoImplicit false

namespace Ucore

variable {σ τ κ : Type}

/-- One action after the other. -/
def perform (act : κ → σ → Res σ) (ks : List κ) (s : σ) : Res σ := ks.foldlM (fun s k => act k s) s

section Perform

variable {act : κ → σ → Res σ}

@[simp] theorem perform_nil (s : σ) : perform act [] s = .ok s := rfl

@[simp] theorem perform_cons (k : κ) (ks : List κ) (s : σ) :
    perform act (k :: ks) s = act k s >>= perform act ks := List.foldlM_cons

theorem perform_append (ks ls : List κ) (s : σ) :
    perform act (ks ++ ls) s = perform act ks s >>= perform act ls := List.foldlM_append

/-- What every action keeps is kept. -/
theorem perform_keeps {P : σ → Prop} (hact : ∀ k s s', P s → act k s = .ok s' → P s')
    {ks : List κ} {s s' : σ} (hs : P s) (h : perform act ks s = .ok s') : P s' := by
  induction ks generalizing s with
  | nil =>
    cases h
    exact hs
  | cons k ks ih =>
    rw [perform_cons] at h
    obtain ⟨s₁, hk, h⟩ := Res.bind_eq_ok.1 h
    exact ih (hact k s s₁ hs hk) h

end Perform

/-- The actions `ks` that a loop takes from the control state `t` on, until it ends in `t'`.  A
round is described by `next`, and `n` is the number of rounds. -/
inductive Script (stop : τ → Prop) (next : τ → List κ → τ → Prop) : τ → List κ → τ → ℕ → Prop
  | stop {t : τ} (h : stop t) : Script stop next t [] t 0
  | round {t t₁ t' : τ} {ks ls : List κ} {n : ℕ} (h : next t ks t₁)
      (hs : Script stop next t₁ ls t' n) : Script stop next t (ks ++ ls) t' (n + 1)

/-- **The loop follows the script.**  `e` says where in the state of the loop the control state is
to be found. -/
theorem whileLoop_script {υ : Type} {c : σ × υ → Bool} {f : σ × υ → Res (σ × υ)}
    {act : κ → σ → Res σ} {P : σ → Prop} {stop : τ → Prop} {next : τ → List κ → τ → Prop}
    (e : τ → υ) (hact : ∀ k s s', P s → act k s = .ok s' → P s')
    (hstop : ∀ s t, stop t → c (s, e t) = false)
    (hnext : ∀ s t ks t', P s → next t ks t' → c (s, e t) = true ∧
      f (s, e t) = perform act ks s >>= fun s => .ok (s, e t'))
    {t t' : τ} {ks : List κ} {n fuel : ℕ} (h : Script stop next t ks t' n) (hn : n ≤ fuel) {s : σ}
    (hs : P s) : whileLoop c f fuel (s, e t) = perform act ks s >>= fun s => .ok (s, e t') := by
  induction h generalizing s fuel with
  | stop h => rw [whileLoop_false (hstop s _ h), perform_nil, Res.ok_bind]
  | round h _ ih =>
    obtain ⟨fuel, rfl⟩ : ∃ k, fuel = k + 1 := ⟨fuel - 1, by omega⟩
    obtain ⟨hc, hf⟩ := hnext s _ _ _ hs h
    rw [whileLoop, if_pos hc, hf, perform_append]
    cases hrun : perform act _ s with
    | error e => rfl
    | ok s₁ => exact ih (by omega) (perform_keeps hact hs hrun)

end Ucore
