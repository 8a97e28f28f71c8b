import Mathlib.Tactic.Common

/-!
# Code that may stop, and loops that must not run forever

C code is embedded as functions into `Res`, the computations that either return or stop with a
`Fault`.  There are three ways to stop: an assertion fires, a pointer that is null or dangling is
used, or a loop has used up the fuel it was given.  Keeping them apart from a result means that a
theorem of the shape "`f x = .ok y`" says at once that no assertion of `f` fires and that its loops
terminate.

A `while` loop is `whileLoop`, and the rules for it take the place of inductions on fuel:

* `whileLoop_total` — an invariant with a bound that decreases gives a result, with the invariant
  and the negated guard;
* `whileLoop_keeps` — an invariant alone gives the same, if there is a result;
* `doWhile_spec` — the first rule for loops that test their guard behind the body;
* `whileLoop_forever` — a loop that never ends uses up any fuel;
* `whileLoop_mono` — a result does not depend on how much fuel was left over.

A computation may call something of which it is not known that it returns.  `Res.StopsIn P x` says
that `x` stops only in ways that `P` allows, and `Res.UpTo P x y` that it is `y` if it does not stop
in such a way; each of them has a rule for a sequence of computations.
-/

set_option autoImplicit false

namespace Ucore

/-- The ways in which a computation stops without a result. -/
inductive Fault where
  /-- An assertion or a `panic`. -/
  | assertion
  /-- An access through a pointer to nothing, or an object given back twice. -/
  | memory
  /-- The fuel of a loop ran out. -/
  | fuel
  deriving DecidableEq, Repr

/-- A computation that may stop. -/
abbrev Res (α : Type) := Except Fault α

/-- `assert(p)`. -/
def assert (p : Prop) [Decidable p] : Res Unit := if p then .ok () else .error .assertion

section Res

variable {α β : Type}

@[simp] theorem assert_pos {p : Prop} [Decidable p] (h : p) : assert p = .ok () := if_pos h

@[simp] theorem Res.ok_bind (a : α) (f : α → Res β) : ((Except.ok a : Res α) >>= f) = f a := rfl

@[simp] theorem Res.error_bind (e : Fault) (f : α → Res β) :
    ((Except.error e : Res α) >>= f) = .error e := rfl

@[simp] theorem Res.pure_eq (a : α) : (pure a : Res α) = .ok a := rfl

/-- A sequence of two computations returns exactly when both do. -/
theorem Res.bind_eq_ok {x : Res α} {f : α → Res β} {b : β} :
    (x >>= f) = .ok b ↔ ∃ a, x = .ok a ∧ f a = .ok b := by
  cases x with
  | error e => simp
  | ok a => simp

theorem Res.bind_snd (x : Res (α × β)) : (x >>= fun r => .ok r.2) = x.map Prod.snd := by
  cases x <;> rfl

theorem Res.map_bind {γ : Type} (x : Res α) (g : α → Res β) (f : β → γ) :
    (x >>= g).map f = x >>= fun a => (g a).map f := by
  cases x <;> rfl

theorem Res.bind_map {γ : Type} (x : Res α) (f : α → β) (g : β → Res γ) :
    (x.map f >>= g) = x >>= fun a => g (f a) := by
  cases x <;> rfl

theorem Res.bind_congr {x : Res α} {g g' : α → Res β} (h : ∀ a, g a = g' a) :
    (x >>= g) = (x >>= g') := by
  rw [funext h]

/-- What returns does not stop. -/
theorem Res.ok_ne_error (a : α) (e : Fault) : (.ok a : Res α) ≠ .error e := nofun

theorem Res.error_ne_error {e e' : Fault} (h : e ≠ e') : (.error e : Res α) ≠ .error e' :=
  fun heq => h (Except.error.inj heq)

/-- A sequence of computations does not stop in a way in which none of them does. -/
theorem Res.bind_ne_error {x : Res α} {f : α → Res β} {e : Fault} (hx : x ≠ .error e)
    (hf : ∀ a, f a ≠ .error e) : (x >>= f) ≠ .error e := by
  cases x with
  | error e' => exact fun h => hx (by simpa using h)
  | ok a => exact hf a

theorem assert_bind_eq_ok {p : Prop} [Decidable p] {f : Unit → Res β} {b : β} :
    (assert p >>= f) = .ok b ↔ p ∧ f () = .ok b := by
  by_cases h : p <;> simp [assert, h]

/-- `y` returns whatever `x` returns. -/
def Res.Le (x y : Res α) : Prop := ∀ a, x = .ok a → y = .ok a

theorem Res.Le.refl (x : Res α) : x.Le x := fun _ h => h

theorem Res.Le.bind {x y : Res α} {f g : α → Res β} (hx : x.Le y) (hf : ∀ a, (f a).Le (g a)) :
    Res.Le (x >>= f) (y >>= g) := by
  intro b hb
  obtain ⟨a, ha, hb⟩ := Res.bind_eq_ok.1 hb
  rw [hx a ha, Res.ok_bind]
  exact hf a b hb

theorem Res.Le.ite {p : Prop} [Decidable p] {x y x' y' : Res α} (hx : x.Le x') (hy : y.Le y') :
    Res.Le (if p then x else y) (if p then x' else y') := by
  split
  · exact hx
  · exact hy

/-- `x` stops only in ways that `P` allows. -/
def Res.StopsIn (P : Fault → Prop) (x : Res α) : Prop := ∀ f, x = .error f → P f

section StopsIn

variable {P : Fault → Prop}

theorem Res.StopsIn.ok (a : α) : Res.StopsIn P (.ok a) := nofun

theorem Res.StopsIn.bind {x : Res α} {f : α → Res β} (hx : x.StopsIn P)
    (hf : ∀ a, x = .ok a → (f a).StopsIn P) : Res.StopsIn P (x >>= f) := by
  cases x with
  | error e =>
    rintro f' hf'
    exact hx f' (congrArg Except.error (Except.error.inj hf'))
  | ok a => exact hf a rfl

theorem Res.StopsIn.ite {p : Prop} [Decidable p] {x y : Res α} (hx : x.StopsIn P)
    (hy : y.StopsIn P) : Res.StopsIn P (if p then x else y) := by
  split
  · exact hx
  · exact hy

theorem Res.StopsIn.foldlM {f : β → α → Res β} (hf : ∀ b a, (f b a).StopsIn P) (l : List α) (b : β) :
    Res.StopsIn P (l.foldlM f b) := by
  induction l generalizing b with
  | nil => exact Res.StopsIn.ok b
  | cons a l ih =>
    rw [List.foldlM_cons]
    exact (hf b a).bind fun b _ => ih b

/-- `x` is `y`, unless it stops in a way that `P` allows. -/
def Res.UpTo (P : Fault → Prop) (x y : Res α) : Prop := x = y ∨ ∃ f, P f ∧ x = .error f

theorem Res.UpTo.refl (x : Res α) : x.UpTo P x := .inl rfl

theorem Res.UpTo.bind {x y : Res α} {f g : α → Res β} (hx : x.UpTo P y)
    (hf : ∀ a, (f a).UpTo P (g a)) : Res.UpTo P (x >>= f) (y >>= g) := by
  rcases hx with rfl | ⟨e, he, rfl⟩
  · cases x with
    | error e => exact .inl rfl
    | ok a => exact hf a
  · exact .inr ⟨e, he, rfl⟩

theorem Res.UpTo.ite {p : Prop} [Decidable p] {x y x' y' : Res α} (hx : x.UpTo P x')
    (hy : y.UpTo P y') : Res.UpTo P (if p then x else y) (if p then x' else y') := by
  split
  · exact hx
  · exact hy

/-- Going on where `x` stops. -/
theorem Res.UpTo.orElse {x : Res α} (hx : x.StopsIn P) (y : Res α) : x.UpTo P (x <|> y) := by
  cases x with
  | error e => exact .inr ⟨e, hx e rfl, rfl⟩
  | ok a => exact .inl rfl

theorem Res.UpTo.le {x y : Res α} (h : x.UpTo P y) : x.Le y := by
  rintro a rfl
  rcases h with h | ⟨e, -, he⟩
  · exact h.symm
  · cases he

theorem Res.UpTo.stopsIn {x : Res α} {a : α} (h : x.UpTo P (.ok a)) : x.StopsIn P := by
  rintro f rfl
  rcases h with h | ⟨e, he, hf⟩
  · cases h
  · rw [Except.error.inj hf]
    exact he

end StopsIn

theorem Res.exists_orElse (x : Res α) (a : α) : ∃ b, (x <|> .ok a) = .ok b := by
  cases x with
  | error e => exact ⟨a, rfl⟩
  | ok b => exact ⟨b, rfl⟩

end Res

/-! ## Loops -/

section Loop

variable {σ : Type} {c : σ → Bool} {f : σ → Res σ}

/-- `while (c(s)) s = f(s)`, run for at most `fuel` rounds. -/
def whileLoop (c : σ → Bool) (f : σ → Res σ) : ℕ → σ → Res σ
  | 0, s => if c s then .error .fuel else .ok s
  | fuel + 1, s => if c s then f s >>= whileLoop c f fuel else .ok s

theorem whileLoop_false {fuel : ℕ} {s : σ} (h : c s = false) : whileLoop c f fuel s = .ok s := by
  cases fuel <;> simp [whileLoop, h]

theorem whileLoop_true {fuel : ℕ} {s s' : σ} (h : c s = true) (hb : f s = .ok s') :
    whileLoop c f (fuel + 1) s = whileLoop c f fuel s' := by
  simp [whileLoop, h, hb]

/-- **The total correctness rule.**  `I n s` is an invariant with a bound `n` on the number of
rounds to come.  If every round lowers the bound, `n` rounds of fuel are enough, and the loop ends
in a state with the invariant in which the guard is false. -/
theorem whileLoop_total (I : ℕ → σ → Prop)
    (hstep : ∀ n s, I n s → c s = true → ∃ s' m, f s = .ok s' ∧ I m s' ∧ m < n) :
    ∀ (fuel n : ℕ) (s : σ), I n s → n ≤ fuel →
      ∃ s' m, whileLoop c f fuel s = .ok s' ∧ I m s' ∧ c s' = false := by
  intro fuel
  induction fuel with
  | zero =>
    intro n s hI hn
    cases hc : c s with
    | false => exact ⟨s, n, whileLoop_false hc, hI, hc⟩
    | true =>
      obtain ⟨s', m, -, -, hlt⟩ := hstep n s hI hc
      omega
  | succ fuel ih =>
    intro n s hI hn
    cases hc : c s with
    | false => exact ⟨s, n, whileLoop_false hc, hI, hc⟩
    | true =>
      obtain ⟨s', m, hb, hI', hlt⟩ := hstep n s hI hc
      obtain ⟨s'', m', hw, hI'', hc''⟩ := ih m s' hI' (by omega)
      exact ⟨s'', m', by rw [whileLoop_true hc hb, hw], hI'', hc''⟩

/-- **The partial correctness rule.**  What every round keeps holds if the loop ends. -/
theorem whileLoop_keeps {P : σ → Prop}
    (hstep : ∀ s s', P s → c s = true → f s = .ok s' → P s') {fuel : ℕ} {s s' : σ} (hs : P s)
    (h : whileLoop c f fuel s = .ok s') : P s' := by
  induction fuel generalizing s with
  | zero =>
    rw [whileLoop] at h
    split at h
    · cases h
    · cases h
      exact hs
  | succ fuel ih =>
    rw [whileLoop] at h
    split at h
    · next hc =>
      obtain ⟨s₁, hf, h⟩ := Res.bind_eq_ok.1 h
      exact ih (hstep s s₁ hs hc hf) h
    · cases h
      exact hs

/-- **The rule for loops that do not end.** -/
theorem whileLoop_forever (I : σ → Prop)
    (hstep : ∀ s, I s → c s = true ∧ ∃ s', f s = .ok s' ∧ I s') (fuel : ℕ) {s : σ} (h : I s) :
    whileLoop c f fuel s = .error .fuel := by
  induction fuel generalizing s with
  | zero => rw [whileLoop, if_pos (hstep s h).1]
  | succ fuel ih =>
    obtain ⟨hc, s', hf, hI⟩ := hstep s h
    rw [whileLoop_true hc hf]
    exact ih hI

/-- The same rule, in the form in which a goal about a loop is reduced to a round and the exit. -/
theorem whileLoop_spec (I : ℕ → σ → Prop) {Q : σ → Prop} {fuel n : ℕ} {s : σ} (hinit : I n s)
    (hfuel : n ≤ fuel)
    (hstep : ∀ n s, I n s → c s = true → ∃ s' m, f s = .ok s' ∧ I m s' ∧ m < n)
    (hexit : ∀ n s, I n s → c s = false → Q s) : ∃ s', whileLoop c f fuel s = .ok s' ∧ Q s' := by
  obtain ⟨s', m, hrun, hI, hc⟩ := whileLoop_total I hstep fuel n s hinit hfuel
  exact ⟨s', hrun, hexit m s' hI hc⟩

/-- `do s = f(s); while (c(s))`, run for at most `fuel` rounds after the first one. -/
def doWhile (c : σ → Bool) (f : σ → Res σ) (fuel : ℕ) (s : σ) : Res σ := f s >>= whileLoop c f fuel

/-- **The rule for loops that test their guard behind the body.**  `P n s` is what holds before a
round if at most `n` rounds are to come. -/
theorem doWhile_spec (P : ℕ → σ → Prop) {Q : σ → Prop} {fuel n : ℕ} {s : σ} (hinit : P n s)
    (hfuel : n ≤ fuel + 1)
    (hround : ∀ n s, P n s → ∃ s' m, f s = .ok s' ∧ m < n ∧
      ((c s' = true ∧ P m s') ∨ (c s' = false ∧ Q s'))) :
    ∃ s', doWhile c f fuel s = .ok s' ∧ Q s' := by
  obtain ⟨s₁, m, hf, hm, h₁⟩ := hround n s hinit
  rw [doWhile, hf, Res.ok_bind]
  refine whileLoop_spec (fun m s' => (c s' = true ∧ P m s') ∨ (c s' = false ∧ Q s')) h₁ (by omega)
    ?_ ?_
  · rintro n s (⟨-, hP⟩ | ⟨hc, -⟩) hguard
    · obtain ⟨s', m, hf, hm, h⟩ := hround n s hP
      exact ⟨s', m, hf, h, hm⟩
    · rw [hc] at hguard
      cases hguard
  · rintro n s (⟨hc, -⟩ | ⟨-, hQ⟩) hguard
    · rw [hc] at hguard
      cases hguard
    · exact hQ

/-- More fuel does not change a result. -/
theorem whileLoop_mono {fuel fuel' : ℕ} (hle : fuel ≤ fuel') (s : σ) :
    (whileLoop c f fuel s).Le (whileLoop c f fuel' s) := by
  induction fuel generalizing s fuel' with
  | zero =>
    intro s' h
    cases hc : c s with
    | false => rw [whileLoop_false hc] at h ⊢; exact h
    | true => simp [whileLoop, hc] at h
  | succ fuel ih =>
    intro s' h
    cases hc : c s with
    | false => rw [whileLoop_false hc] at h ⊢; exact h
    | true =>
      obtain ⟨k, rfl⟩ : ∃ k, fuel' = k + 1 := ⟨fuel' - 1, by omega⟩
      rw [whileLoop, if_pos hc, Res.bind_eq_ok] at h
      obtain ⟨s₁, hb, h⟩ := h
      rw [whileLoop_true hc hb]
      exact ih (by omega) s₁ s' h

/-- A loop has at most one result. -/
theorem whileLoop_unique {fuel fuel' : ℕ} {s s₁ s₂ : σ} (h₁ : whileLoop c f fuel s = .ok s₁)
    (h₂ : whileLoop c f fuel' s = .ok s₂) : s₁ = s₂ := by
  have h₁' := whileLoop_mono (Nat.le_max_left fuel fuel') s s₁ h₁
  have h₂' := whileLoop_mono (Nat.le_max_right fuel fuel') s s₂ h₂
  rw [h₁'] at h₂'
  exact Except.ok.inj h₂'

end Loop

end Ucore
