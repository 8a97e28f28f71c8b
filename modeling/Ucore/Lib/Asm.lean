import Ucore.Lib.Loop

/-!
# Routines in assembly language

The text of a routine is a list of lines, with labels in it, and what is still to be executed is the
rest of a text.  So a program counter is not needed: a branch goes to what is behind its label.  The
instructions are those of any machine, and `Asm` says what they do to its state.

`Ends` says that a routine comes to its end in a state with a property.  There is one rule for each
kind of line, as an equivalence, so that `simp` goes through a text as the machine does, and a rule
for loops (`Asm.ends_loop`), which are the texts behind a label.  A routine that is called is a line
like the others: its own `Ends` is the precondition of what is behind the call (`Asm.ends_call`).

The rule for loops asks for an invariant and a bound.  Whoever proves something about the text
behind the label may assume it for all smaller bounds, wherever the text comes back to the label;
there may be several such places, and the loop may be left in the middle.
-/

set_option autoImplicit false

namespace Ucore

/-- A line of a routine, with labels in `L`, conditions in `C` and instructions in `I`. -/
inductive Line (L C I : Type) where
  | label (l : L)
  /-- An instruction that is executed if the condition holds. -/
  | op (c : C) (i : I)
  | branch (c : C) (l : L)
  /-- An instruction that leaves the routine, if the condition holds. -/
  | ret (c : C) (i : I)
  /-- A call: the instruction `i` notes where to go on, and then the routine is executed. -/
  | call (i : I) (routine : List (Line L C I))

/-- What conditions and instructions mean for states in `σ`. -/
structure Asm (C I σ : Type) where
  holds : C → σ → Bool
  exec : I → σ → σ

namespace Asm

variable {L C I σ : Type} [DecidableEq L] (M : Asm C I σ)

/-- What is behind a label. -/
def goto (l : L) : List (Line L C I) → List (Line L C I)
  | [] => []
  | .label l' :: text => if l' = l then text else goto l text
  | _ :: text => goto l text

/-- Execute the rest `text` of the routine `code`, at most `fuel` lines deep.  A text without an end
is an error. -/
def run : ℕ → List (Line L C I) → List (Line L C I) → σ → Res σ
  | 0, _, _, _ => .error .fuel
  | _ + 1, _, [], _ => .error .memory
  | fuel + 1, code, .label _ :: text, s => run fuel code text s
  | fuel + 1, code, .op c i :: text, s =>
    run fuel code text (if M.holds c s then M.exec i s else s)
  | fuel + 1, code, .branch c l :: text, s =>
    run fuel code (if M.holds c s then goto l code else text) s
  | fuel + 1, code, .ret c i :: text, s =>
    if M.holds c s then .ok (M.exec i s) else run fuel code text s
  | fuel + 1, code, .call i routine :: text, s =>
    run fuel routine routine (M.exec i s) >>= run fuel code text

variable {M} {code text : List (Line L C I)} {s : σ} {Q : σ → Prop}

/-- More fuel does not change a result. -/
theorem run_mono {fuel fuel' : ℕ} (hle : fuel ≤ fuel') (code text : List (Line L C I)) (s : σ) :
    (M.run fuel code text s).Le (M.run fuel' code text s) := by
  induction fuel generalizing fuel' code text s with
  | zero => exact fun a h => by cases h
  | succ fuel ih =>
    obtain ⟨k, rfl⟩ : ∃ k, fuel' = k + 1 := ⟨fuel' - 1, by omega⟩
    have hk : fuel ≤ k := by omega
    cases text with
    | nil => exact Res.Le.refl _
    | cons line text =>
      cases line with
      | label l => exact ih hk code text s
      | op c i => exact ih hk code text _
      | branch c l => exact ih hk code _ s
      | ret c i => exact Res.Le.ite (Res.Le.refl _) (ih hk code text s)
      | call i routine => exact Res.Le.bind (ih hk routine routine _) fun s => ih hk code text s

variable (M)

/-- The rest `text` of the routine `code` comes to its end, in a state with the property `Q`. -/
def Ends (code text : List (Line L C I)) (s : σ) (Q : σ → Prop) : Prop :=
  ∃ fuel s', M.run fuel code text s = .ok s' ∧ Q s'

variable {M}

theorem Ends.mono {Q' : σ → Prop} (h : M.Ends code text s Q) (hQ : ∀ s', Q s' → Q' s') :
    M.Ends code text s Q' := by
  obtain ⟨fuel, s', hrun, hs'⟩ := h
  exact ⟨fuel, s', hrun, hQ s' hs'⟩

/-- A line that goes on with one other text. -/
theorem ends_step {code' text' : List (Line L C I)} {s' : σ} {line : Line L C I}
    (h : ∀ fuel, M.run (fuel + 1) code (line :: text) s = M.run fuel code' text' s') :
    M.Ends code (line :: text) s Q ↔ M.Ends code' text' s' Q := by
  constructor
  · rintro ⟨fuel, s', hrun, hQ⟩
    cases fuel with
    | zero => cases hrun
    | succ fuel => exact ⟨fuel, s', (h fuel).symm.trans hrun, hQ⟩
  · rintro ⟨fuel, s', hrun, hQ⟩
    exact ⟨fuel + 1, s', (h fuel).trans hrun, hQ⟩

@[simp] theorem ends_label (l : L) :
    M.Ends code (.label l :: text) s Q ↔ M.Ends code text s Q := ends_step fun _ => rfl

/-- Falling through to a label is like going to it. -/
theorem ends_fall {l : L} (hl : goto l code = text) (h : M.Ends code (goto l code) s Q) :
    M.Ends code (.label l :: text) s Q :=
  (ends_label l).2 (hl ▸ h)

@[simp] theorem ends_op (c : C) (i : I) : M.Ends code (.op c i :: text) s Q ↔
    if M.holds c s then M.Ends code text (M.exec i s) Q else M.Ends code text s Q := by
  cases hc : M.holds c s with
  | false => exact ends_step fun fuel => by rw [run, hc, if_neg (by simp)]
  | true => exact ends_step fun fuel => by rw [run, hc, if_pos rfl]

@[simp] theorem ends_branch (c : C) (l : L) : M.Ends code (.branch c l :: text) s Q ↔
    if M.holds c s then M.Ends code (goto l code) s Q else M.Ends code text s Q := by
  cases hc : M.holds c s with
  | false => exact ends_step fun fuel => by rw [run, hc, if_neg (by simp)]
  | true => exact ends_step fun fuel => by rw [run, hc, if_pos rfl]

@[simp] theorem ends_ret (c : C) (i : I) : M.Ends code (.ret c i :: text) s Q ↔
    if M.holds c s then Q (M.exec i s) else M.Ends code text s Q := by
  cases hc : M.holds c s with
  | false => exact ends_step fun fuel => by rw [run, hc, if_neg (by simp)]
  | true =>
    constructor
    · rintro ⟨fuel, s', hrun, hQ⟩
      cases fuel with
      | zero => cases hrun
      | succ fuel =>
        rw [run, hc, if_pos rfl] at hrun
        cases hrun
        exact hQ
    · intro hQ
      exact ⟨1, M.exec i s, by rw [run, hc, if_pos rfl], hQ⟩

/-- **The rule for calls.** -/
@[simp] theorem ends_call (i : I) (routine : List (Line L C I)) :
    M.Ends code (.call i routine :: text) s Q ↔
      M.Ends routine routine (M.exec i s) fun s' => M.Ends code text s' Q := by
  constructor
  · rintro ⟨fuel, s', hrun, hQ⟩
    cases fuel with
    | zero => cases hrun
    | succ fuel =>
      obtain ⟨s₁, hcall, hrest⟩ := Res.bind_eq_ok.1 hrun
      exact ⟨fuel, s₁, hcall, fuel, s', hrest, hQ⟩
  · rintro ⟨fuel, s₁, hcall, fuel', s', hrest, hQ⟩
    refine ⟨max fuel fuel' + 1, s', Res.bind_eq_ok.2 ⟨s₁, ?_, ?_⟩, hQ⟩
    · exact run_mono (Nat.le_max_left fuel fuel') _ _ _ _ hcall
    · exact run_mono (Nat.le_max_right fuel fuel') _ _ _ _ hrest

/-- **The rule for loops.**  The text behind a label has an invariant, and a bound that decreases
whenever the label is reached again. -/
theorem ends_loop (l : L) (P : ℕ → σ → Prop)
    (hbody : ∀ n s, P n s → (∀ m s', m < n → P m s' → M.Ends code (goto l code) s' Q) →
      M.Ends code (goto l code) s Q) {n : ℕ} (h : P n s) : M.Ends code (goto l code) s Q := by
  induction n using Nat.strongRecOn generalizing s with
  | ind n ih => exact hbody n s h fun m s' hm hs' => ih m hm hs'

end Asm

end Ucore
