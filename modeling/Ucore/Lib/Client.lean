import Ucore.Lib.Loop

/-!
# Clients of a component

A client is a program that calls a component and goes on with what it answers, so that its next call
may depend on all answers before it.  What the component does is a handler, and `Client.run` is the
client with the component below it.

`Client.Ok` is the weakest precondition of a client, over a specification of the component that may
leave several answers open.  There are two ways to use it: a handler that refines the specification
can be put below the client (`Client.Ok.run`), and a handler that is told the answers in advance is
as good as the specification itself (`Client.ok_of_run`).  So what has been proved about a client
with a component that reads its answers from a script holds for it with any component.

* `Spec` says when a call is allowed, and what may be answered.
* `Refines` relates the states of a handler to those of a specification: whatever the handler
  answers, the specification allows.
* `Foretells` is the converse for a handler with a script: whatever the specification allows is
  answered from some script.
* `Client.Ok.foretold` puts the two together: every run on a refinement is a run on the component
  that is told its answers, for some script.
-/

set_option autoImplicit false

namespace Ucore

/-- A program that makes calls in `C`, with answers in `A`. -/
inductive Client (C : Type) (A : C → Type) (α : Type) where
  | ret (a : α)
  | stop (e : Fault)
  | call (c : C) (k : A c → Client C A α)

namespace Client

variable {C : Type} {A : C → Type} {α β σ τ ρ : Type}

/-- One client after the other. -/
def bind (f : α → Client C A β) : Client C A α → Client C A β
  | .ret a => f a
  | .stop e => .stop e
  | .call c k => .call c fun a => (k a).bind f

instance : Monad (Client C A) where
  pure := .ret
  bind x f := x.bind f

/-- A call, and its answer. -/
def send (c : C) : Client C A (A c) := .call c .ret

/-- A computation that calls nothing. -/
def lift : Res α → Client C A α
  | .ok a => .ret a
  | .error e => .stop e

/-- What a component does with a call. -/
abbrev Handler (A : C → Type) (σ : Type) := ∀ c, σ → Res (A c × σ)

/-- The client, with a component below it. -/
def run (h : Handler A σ) : Client C A α → σ → Res (α × σ)
  | .ret a, s => .ok (a, s)
  | .stop e, _ => .error e
  | .call c k, s => h c s >>= fun r => (k r.1).run h r.2

section Run

variable (h : Handler A σ) (s : σ)

@[simp] theorem run_send (c : C) : run h (send c) s = h c s := by
  rw [send, run]
  cases h c s <;> rfl

@[simp] theorem run_lift (x : Res α) : run h (lift x : Client C A α) s = x.map fun a => (a, s) := by
  cases x <;> rfl

/-- **The rule for sequences.** -/
@[simp] theorem run_bind (x : Client C A α) (f : α → Client C A β) :
    run h (x >>= f) s = run h x s >>= fun r => run h (f r.1) r.2 := by
  induction x generalizing s with
  | ret a => rfl
  | stop e => rfl
  | call c k ih =>
    change (h c s >>= fun r => run h (k r.1 >>= f) r.2) = (h c s >>= _) >>= _
    cases h c s with
    | error e => rfl
    | ok r => exact ih r.1 r.2

end Run

/-- What is known of a component: when it may be called, and what it may answer. -/
structure Spec (A : C → Type) (τ : Type) where
  pre : C → τ → Prop
  step : ∀ c, τ → A c → τ → Prop

/-- The client only makes calls that are allowed, and ends with `Q`, whatever it is answered. -/
def Ok (S : Spec A τ) (Q : α → τ → Prop) : Client C A α → τ → Prop
  | .ret a, t => Q a t
  | .stop _, _ => False
  | .call c k, t => S.pre c t ∧ ∀ a t', S.step c t a t' → (k a).Ok S Q t'

/-- All calls of the client are in `P`. -/
def Calls (P : C → Prop) : Client C A α → Prop
  | .ret _ => True
  | .stop _ => True
  | .call c k => P c ∧ ∀ a, (k a).Calls P

section Calls

variable {P : C → Prop}

theorem calls_pure (a : α) : Calls P (pure a : Client C A α) := trivial

theorem calls_send {c : C} (hc : P c) : Calls P (send c : Client C A (A c)) :=
  ⟨hc, fun _ => trivial⟩

theorem calls_lift (x : Res α) : Calls P (lift x : Client C A α) := by
  cases x <;> exact trivial

theorem calls_bind {x : Client C A α} {f : α → Client C A β} (hx : x.Calls P)
    (hf : ∀ a, (f a).Calls P) : Calls P (x >>= f) := by
  induction x with
  | ret a => exact hf a
  | stop e => trivial
  | call c k ih => exact ⟨hx.1, fun a => ih a (hx.2 a)⟩

theorem calls_ite {p : Prop} [Decidable p] {x y : Client C A α} (hx : x.Calls P)
    (hy : y.Calls P) : Calls P (if p then x else y) := by
  split
  · exact hx
  · exact hy

end Calls

variable {S : Spec A τ} {Q : α → τ → Prop}

/-- A handler refines a specification, along a relation between the states. -/
def Refines (h : Handler A σ) (S : Spec A τ) (P : C → Prop) (R : τ → σ → Prop) : Prop :=
  ∀ c t s, P c → S.pre c t → R t s → ∃ a s' t', h c s = .ok (a, s') ∧ S.step c t a t' ∧ R t' s'

/-- **A refinement may be put below a client.** -/
theorem Ok.run {h : Handler A σ} {P : C → Prop} {R : τ → σ → Prop} (href : Refines h S P R)
    {x : Client C A α} {t : τ} {s : σ} (hx : x.Ok S Q t) (hcalls : x.Calls P) (hR : R t s) :
    ∃ a s' t', x.run h s = .ok (a, s') ∧ Q a t' ∧ R t' s' := by
  induction x generalizing t s with
  | ret a => exact ⟨a, s, t, rfl, hx, hR⟩
  | stop e => exact hx.elim
  | call c k ih =>
    obtain ⟨a, s₁, t₁, hcall, hstep, hR₁⟩ := href c t s hcalls.1 hx.1 hR
    obtain ⟨b, s', t', hrun, hQ, hR'⟩ := ih a (hx.2 a t₁ hstep) (hcalls.2 a) hR₁
    refine ⟨b, s', t', ?_, hQ, hR'⟩
    rw [Client.run, hcall, Res.ok_bind, hrun]

/-- A handler is told the answers in advance: for each answer that the specification allows there is
a state in which it is given.  `view` is what the specification sees of a state. -/
structure Foretells (h : Handler A ρ) (S : Spec A τ) (view : ρ → τ) : Prop where
  some : ∀ t, ∃ r, view r = t
  step : ∀ c t a t' r', S.pre c t → S.step c t a t' → view r' = t' →
    ∃ r, view r = t ∧ h c r = .ok (a, r')

/-- **Any script.**  A client that is right whatever its component has been told to answer is right
for the specification. -/
theorem ok_of_run {h : Handler A ρ} {view : ρ → τ} (hh : Foretells h S view)
    (hpre : ∀ c r b, h c r = .ok b → S.pre c (view r)) {x : Client C A α} {t : τ}
    (hx : ∀ r, view r = t → ∃ a r', x.run h r = .ok (a, r') ∧ Q a (view r')) : x.Ok S Q t := by
  induction x generalizing t with
  | ret a =>
    obtain ⟨r, rfl⟩ := hh.some t
    obtain ⟨b, r', hrun, hQ⟩ := hx r rfl
    cases hrun
    exact hQ
  | stop e =>
    obtain ⟨r, rfl⟩ := hh.some t
    obtain ⟨b, r', hrun, -⟩ := hx r rfl
    cases hrun
  | call c k ih =>
    have hallowed : S.pre c t := by
      obtain ⟨r, rfl⟩ := hh.some t
      obtain ⟨b, r', hrun, -⟩ := hx r rfl
      obtain ⟨r₁, hcall, -⟩ := Res.bind_eq_ok.1 hrun
      exact hpre c r r₁ hcall
    refine ⟨hallowed, fun a t' hstep => ih a fun r' hr' => ?_⟩
    obtain ⟨r, hr, hcall⟩ := hh.step c t a t' r' hallowed hstep hr'
    obtain ⟨b, r₂, hrun, hQ⟩ := hx r hr
    rw [Client.run, hcall, Res.ok_bind] at hrun
    exact ⟨b, r₂, hrun, hQ⟩

/-- **Every run has a script.**  A run on a refinement is also a run on the component that is told
its answers, for the right ones. -/
theorem Ok.foretold {h : Handler A σ} {P : C → Prop} {R : τ → σ → Prop} (href : Refines h S P R)
    {h₀ : Handler A ρ} {view : ρ → τ} (hh : Foretells h₀ S view) {x : Client C A α} {t : τ} {s : σ}
    (hx : x.Ok S Q t) (hcalls : x.Calls P) (hR : R t s) :
    ∃ a s' t', x.run h s = .ok (a, s') ∧ Q a t' ∧ R t' s' ∧
      ∀ r', view r' = t' → ∃ r, view r = t ∧ x.run h₀ r = .ok (a, r') := by
  induction x generalizing t s with
  | ret a => exact ⟨a, s, t, rfl, hx, hR, fun r' hr' => ⟨r', hr', rfl⟩⟩
  | stop e => exact hx.elim
  | call c k ih =>
    obtain ⟨a, s₁, t₁, hcall, hstep, hR₁⟩ := href c t s hcalls.1 hx.1 hR
    obtain ⟨b, s', t', hrun, hQ, hR', htold⟩ := ih a (hx.2 a t₁ hstep) (hcalls.2 a) hR₁
    refine ⟨b, s', t', ?_, hQ, hR', fun r' hr' => ?_⟩
    · rw [Client.run, hcall, Res.ok_bind, hrun]
    · obtain ⟨r₁, hr₁, hrun₁⟩ := htold r' hr'
      obtain ⟨r, hr, hcall₀⟩ := hh.step c t a t₁ r₁ hx.1 hstep hr₁
      exact ⟨r, hr, by rw [Client.run, hcall₀, Res.ok_bind, hrun₁]⟩

end Client

end Ucore
