import Ucore.Buddy.Run
import Ucore.Lib.Client
import Ucore.Lib.Pool

/-!
# Clients of the buddy allocator

`pagesSpec` is what a client may rely on: it is given pages that are not in use, or nothing.  The
pool `Pages`, which reads its answers from a script, is as good as this specification
(`foretells_pages`), and the buddy allocator refines it (`refines_buddy`).  So every run of a client
on the buddy allocator is a run of it on the pool (`buddy_runs_clients`), and what has been proved
for all scripts holds with the buddy allocator.

A client is a `Client` of the calls `PageCall`, so which call it makes next may depend on every
answer before.  It has to give back only what it was given, in runs of pages that lie in one zone;
if no zone begins where another one ends (`Separated`), any allocated pages that follow each other
do (`refines_buddy_separated`).  The slab allocator is such a client, in `Ucore.Slab.OnBuddy`.
-/

set_option autoImplicit false

namespace Ucore

/-- The calls of a client of a page allocator. -/
inductive PageCall where
  | alloc (n : ℕ)
  | free (p n : ℕ)

namespace PageCall

/-- The answers: `alloc_pages` may fail. -/
abbrev Ans : PageCall → Type
  | .alloc _ => Option ℕ
  | .free _ _ => Unit

/-- The number of pages that are asked for or given back is one that the allocator can handle. -/
def Sized : PageCall → Prop
  | .alloc n => 0 < n ∧ n ≤ 2 ^ maxOrder
  | .free _ n => 0 < n ∧ n < 2 ^ (maxOrder + 1)

end PageCall

open PageCall

/-- `pmm_manager`, as the pool. -/
def pagesHandler : Client.Handler Ans Pages
  | .alloc n, s => .ok (s.alloc n)
  | .free p n, s => (s.free p n).map fun s => ((), s)

/-- `pmm_manager`, as the buddy allocator. -/
def buddyHandler (npage : ℕ) : Client.Handler Ans Buddy
  | .alloc n, s => buddyAllocPages npage s n
  | .free p n, s => (buddyFreePages npage s p n).map fun s => ((), s)

/-- What a client may rely on.  Runs of pages that are handed out or given back are in `G`. -/
def pagesSpec (G : ℕ → ℕ → Prop) : Client.Spec Ans (Finset ℕ) where
  pre
    | .alloc _, _ => True
    | .free p n, live => Pages.range p n ⊆ live ∧ G p n
  step
    | .alloc _, live, none, live' => live' = live
    | .alloc n, live, some p, live' =>
      Disjoint (Pages.range p n) live ∧ G p n ∧ live' = live ∪ Pages.range p n
    | .free p n, live, _, live' => live' = live \ Pages.range p n

/-- **The pool is the specification**, with its answers from a script. -/
theorem foretells_pages (G : ℕ → ℕ → Prop) :
    Client.Foretells pagesHandler (pagesSpec G) Pages.live := by
  refine ⟨fun live => ⟨⟨live, []⟩, rfl⟩, fun c live a live' r' hpre hstep hr' => ?_⟩
  cases c with
  | alloc n =>
    cases a with
    | none =>
      have hlive : r'.live = live := hr'.trans hstep
      exact ⟨⟨live, none :: r'.script⟩, rfl, by rw [← hlive]; rfl⟩
    | some p =>
      obtain ⟨hdisj, -, hlive'⟩ := hstep
      have hlive : r'.live = live ∪ Pages.range p n := hr'.trans hlive'
      refine ⟨⟨live, some p :: r'.script⟩, rfl, ?_⟩
      simp only [pagesHandler, Pages.alloc, if_pos hdisj, ← hlive]
  | free p n =>
    have hlive : r'.live = live \ Pages.range p n := hr'.trans hstep
    refine ⟨⟨live, r'.script⟩, rfl, ?_⟩
    simp only [pagesHandler, Pages.free, if_pos hpre.1, ← hlive, Except.map]

/-- The pool stops if pages are given back that are not in use. -/
theorem pages_pre (c : PageCall) (r : Pages) (b : c.Ans × Pages) (h : pagesHandler c r = .ok b) :
    (pagesSpec fun _ _ => True).pre c r.live := by
  cases c with
  | alloc n => trivial
  | free p n =>
    by_cases hsub : Pages.range p n ⊆ r.live
    · exact ⟨hsub, trivial⟩
    · simp [pagesHandler, Pages.free, hsub, Except.map] at h

/-- The pages lie in one zone. -/
def InZone (zs : List Zone) (p n : ℕ) : Prop := ∃ z ∈ zs, z.base ≤ p ∧ p + n ≤ z.base + z.len

/-- No zone begins where another one ends. -/
def Separated (zs : List Zone) : Prop := ∀ z ∈ zs, ∀ z' ∈ zs, z.base + z.len ≠ z'.base

variable {npage : ℕ} {zs : List Zone} {A : Finset ℕ} {s : Buddy}

/-- **The buddy allocator refines the specification.** -/
theorem refines_buddy (npage : ℕ) (zs : List Zone) : Client.Refines (buddyHandler npage)
    (pagesSpec (InZone zs)) Sized fun A s => Buddy.Reach npage s zs A := by
  intro c A s hsized hpre hR
  cases c with
  | alloc n =>
    rcases hR.inv.buddyAllocPages_spec hsized.1 hsized.2 with
      hnone | ⟨p, s', hsome, -, hzone, hfree, -⟩
    · exact ⟨none, s, A, hnone, rfl, hR.allocFail hsized.1 hsized.2 hnone⟩
    · refine ⟨some p, s', A ∪ Pages.range p n, hsome, ⟨?_, hzone, rfl⟩,
        hR.alloc hsized.1 hsized.2 hsome⟩
      exact Finset.disjoint_left.2 hfree
  | free p n =>
    obtain ⟨hsub, hzone⟩ := hpre
    have hok : Buddy.FreeOk zs A p n := ⟨hsized.1, hsized.2, hsub, hzone⟩
    obtain ⟨z, hargs⟩ := hok.args
    obtain ⟨s', hfree, -⟩ := hR.inv.buddyFreePages_spec hargs hsized.1
    refine ⟨(), s', A \ Pages.range p n, ?_, rfl, hR.free hok hfree⟩
    simp only [buddyHandler, hfree, Except.map]

/-- Allocated pages that follow each other lie in one zone, if the zones do not touch. -/
theorem Separated.inZone (hsep : Separated zs) (H : s.Inv npage zs A) {p n : ℕ} (hn : 0 < n)
    (hsub : Pages.range p n ⊆ A) : InZone zs p n := by
  induction n with
  | zero => omega
  | succ n ih =>
    obtain ⟨z', hz', hlast⟩ := H.alloc (p + n) (hsub (Pages.mem_range.2 ⟨by omega, by omega⟩))
    have hlast' := Zone.mem_pages.1 hlast
    by_cases hn : n = 0
    · subst hn
      exact ⟨z', hz', by omega, by omega⟩
    · have hsub' : Pages.range p n ⊆ A := fun q hq =>
        hsub (Pages.mem_range.2 ⟨(Pages.mem_range.1 hq).1, by have := Pages.mem_range.1 hq; omega⟩)
      obtain ⟨z, hz, hbase, hend⟩ := ih (by omega) hsub'
      by_cases hfit : p + n < z.base + z.len
      · exact ⟨z, hz, hbase, hfit⟩
      · -- the page in front of the last one is in both zones
        have hne := hsep z hz z' hz'
        have hboth : z' = z := by
          obtain ⟨i, hi⟩ := List.mem_iff_getElem?.1 hz
          obtain ⟨j, hj⟩ := List.mem_iff_getElem?.1 hz'
          have hin : p + n - 1 ∈ z.pages := Zone.mem_pages.2 ⟨by omega, by omega⟩
          have hin' : p + n - 1 ∈ z'.pages := Zone.mem_pages.2 ⟨by omega, by omega⟩
          rw [← H.zone_unique hi hj hin hin', hi, Option.some.injEq] at hj
          exact hj.symm
        rw [hboth] at hlast'
        omega

/-- If the zones do not touch, then any allocated pages that follow each other may be given back. -/
theorem refines_buddy_separated (npage : ℕ) (hsep : Separated zs) :
    Client.Refines (buddyHandler npage) (pagesSpec fun _ _ => True) Sized
      fun A s => Buddy.Reach npage s zs A := by
  intro c A s hsized hpre hR
  have hpre' : (pagesSpec (InZone zs)).pre c A := by
    cases c with
    | alloc n => trivial
    | free p n => exact ⟨hpre.1, hsep.inZone hR.inv hsized.1 hpre.1⟩
  obtain ⟨a, s', A', hrun, hstep, hR'⟩ := refines_buddy npage zs c A s hsized hpre' hR
  refine ⟨a, s', A', hrun, ?_, hR'⟩
  cases c with
  | alloc n =>
    cases a with
    | none => exact hstep
    | some p => exact ⟨hstep.1, trivial, hstep.2.2⟩
  | free p n => exact hstep

/-- **Every run on the buddy allocator is a run on the pool.**  A client that gives back what it was
given, whatever the answers are, does not stop, and for some script it does the same on the pool. -/
theorem buddy_runs_clients {α : Type} {x : Client PageCall Ans α} {Q : α → Finset ℕ → Prop}
    (hR : Buddy.Reach npage s zs A) (hsized : x.Calls Sized) (hx : x.Ok (pagesSpec (InZone zs)) Q A) :
    ∃ a s' A' script, x.run (buddyHandler npage) s = .ok (a, s') ∧ Q a A' ∧
      Buddy.Reach npage s' zs A' ∧ x.run pagesHandler ⟨A, script⟩ = .ok (a, ⟨A', []⟩) := by
  obtain ⟨a, s', A', hrun, hQ, hR', htold⟩ :=
    hx.foretold (refines_buddy npage zs) (foretells_pages _) hsized hR
  obtain ⟨⟨live, script⟩, rfl, hscript⟩ := htold ⟨A', []⟩ rfl
  exact ⟨a, s', A', script, hrun, hQ, hR', hscript⟩

/-- A client that asks for pages and gives them back. -/
def borrow (n : ℕ) : Client PageCall Ans (Option ℕ) := .call (.alloc n) fun
  | none => .ret none
  | some p => .call (.free p n) fun _ => .ret (some p)

theorem borrow_ok (G : ℕ → ℕ → Prop) (n : ℕ) (A : Finset ℕ) :
    (borrow n).Ok (pagesSpec G) (fun _ A' => A' = A) A := by
  refine ⟨trivial, fun r A' hstep => ?_⟩
  cases r with
  | none => exact hstep
  | some p =>
    obtain ⟨hdisj, hG, rfl⟩ := hstep
    refine ⟨⟨Finset.subset_union_right, hG⟩, fun _ A'' hstep => ?_⟩
    exact hstep.trans (Finset.union_sdiff_cancel_right hdisj.symm)

theorem buddy_runs_clients_borrow : ∃ s a s' A' script,
    (borrow 3).run (buddyHandler 8) s = .ok (a, s') ∧ A' = ∅ ∧
      Buddy.Reach 8 s' [⟨0, 8⟩] A' ∧ (borrow 3).run pagesHandler ⟨∅, script⟩ = .ok (a, ⟨A', []⟩) := by
  have hok : Buddy.MemmapOk (buddyInit eightPages) [] 0 8 :=
    ⟨by decide, by decide, by decide, fun _ _ => rfl⟩
  have hreach : Buddy.Reach 8 _ [⟨0, 8⟩] ∅ := (Buddy.Reach.init rfl fun _ _ => rfl).memmap hok rfl
  have hsized : (borrow 3).Calls Sized := by
    refine ⟨⟨by decide, by decide⟩, fun r => ?_⟩
    cases r with
    | none => trivial
    | some p => exact ⟨⟨by decide, by decide⟩, fun _ => trivial⟩
  exact ⟨_, buddy_runs_clients hreach hsized (borrow_ok _ 3 ∅)⟩

end Ucore
