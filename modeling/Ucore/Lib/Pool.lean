import Ucore.Lib.Loop
import Mathlib.Order.Interval.Finset.Nat

/-!
# A pool of objects handed out one at a time

The client's view of an allocator.  A pool knows which objects are in use, and a request for one
more is answered by the next entry of a script: either it fails, or it hands out some object that
is not in use.  A statement about all scripts is a statement about every allocator that never
hands out an object twice, whatever its strategy and whenever it chooses to fail.

`Pages` is the same for objects that are runs of consecutive pages.
-/

set_option autoImplicit false

namespace Ucore

/-- The objects in use, and the answers to the requests to come. -/
structure Pool (α : Type) where
  live : Finset α
  script : List (Option α)

namespace Pool

variable {α : Type} [DecidableEq α]

/-- Ask for an object.  An exhausted script, or one that names an object in use, means failure. -/
def take (p : Pool α) : Option α × Pool α :=
  match p.script with
  | [] => (none, p)
  | none :: s => (none, { p with script := s })
  | some a :: s =>
    if a ∈ p.live then (none, { p with script := s })
    else (some a, ⟨insert a p.live, s⟩)

/-- Give an object back. -/
def give (p : Pool α) (a : α) : Pool α := { p with live := p.live.erase a }

@[simp] theorem give_live (p : Pool α) (a : α) : (p.give a).live = p.live.erase a := rfl

/-- What a request can do. -/
theorem take_cases (p : Pool α) :
    (∃ s, p.take = (none, { p with script := s })) ∨
      ∃ a s, a ∉ p.live ∧ p.take = (some a, ⟨insert a p.live, s⟩) := by
  obtain ⟨live, script⟩ := p
  match script with
  | [] => exact .inl ⟨[], rfl⟩
  | none :: s => exact .inl ⟨s, rfl⟩
  | some a :: s =>
    by_cases h : a ∈ live
    · exact .inl ⟨s, by simp [take, h]⟩
    · exact .inr ⟨a, s, h, by simp [take, h]⟩

theorem take_none_live {p p' : Pool α} (h : p.take = (none, p')) : p'.live = p.live := by
  rcases p.take_cases with ⟨s, hs⟩ | ⟨a, s, -, hs⟩
  · rw [hs] at h
    simp only [Prod.mk.injEq, true_and] at h
    rw [← h]
  · rw [hs] at h
    simp at h

theorem take_some {p p' : Pool α} {a : α} (h : p.take = (some a, p')) :
    a ∉ p.live ∧ p'.live = insert a p.live := by
  rcases p.take_cases with ⟨s, hs⟩ | ⟨b, s, hb, hs⟩
  · rw [hs] at h
    simp at h
  · rw [hs] at h
    simp only [Prod.mk.injEq, Option.some.injEq] at h
    obtain ⟨rfl, rfl⟩ := h
    exact ⟨hb, rfl⟩

end Pool

/-- The pages in use, and the answers to the requests to come. -/
structure Pages where
  live : Finset ℕ
  script : List (Option ℕ)

namespace Pages

/-- The `n` pages from `p` on. -/
def range (p n : ℕ) : Finset ℕ := Finset.Ico p (p + n)

@[simp] theorem mem_range {p n q : ℕ} : q ∈ range p n ↔ p ≤ q ∧ q < p + n := Finset.mem_Ico

/-- `alloc_pages(n)`. -/
def alloc (s : Pages) (n : ℕ) : Option ℕ × Pages :=
  match s.script with
  | [] => (none, s)
  | none :: rest => (none, { s with script := rest })
  | some p :: rest =>
    if Disjoint (range p n) s.live then (some p, ⟨s.live ∪ range p n, rest⟩)
    else (none, { s with script := rest })

/-- `free_pages(p, n)`. -/
def free (s : Pages) (p n : ℕ) : Res Pages :=
  if range p n ⊆ s.live then .ok { s with live := s.live \ range p n } else .error .memory

/-- What a request can do. -/
theorem alloc_cases (s : Pages) (n : ℕ) :
    (∃ rest, s.alloc n = (none, { s with script := rest })) ∨
      ∃ p rest, Disjoint (range p n) s.live ∧ s.alloc n = (some p, ⟨s.live ∪ range p n, rest⟩) := by
  obtain ⟨live, script⟩ := s
  cases script with
  | nil => exact .inl ⟨[], rfl⟩
  | cons a rest =>
    cases a with
    | none => exact .inl ⟨rest, rfl⟩
    | some p =>
      by_cases h : Disjoint (range p n) live
      · exact .inr ⟨p, rest, h, if_pos h⟩
      · exact .inl ⟨rest, if_neg h⟩

end Pages

end Ucore
