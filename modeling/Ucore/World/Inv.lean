import Ucore.World.Effects
import Mathlib.Algebra.BigOperators.Group.Finset.Basic

/-!
# The invariant of the world

`World.Inv` collects what holds of all address spaces together: the reference counts are right, the
present entries of an address space lie in its areas, and the reference count of a shared memory
object is the number of shared areas that refer to it.  That every operation keeps it, with one
exception, is `World.Inv.step` in `Ucore.World.Step`: `mm_unmap` must not cut a hole into a shared
area (`CutsShared`).

The invariant speaks of all address spaces, and an operation works on one of them.  The number of
areas that share an object is split accordingly, into those of one address space and `others`
(`shares_eq`).  There are four ways in which an operation changes the world, and for each of them a
lemma says what has to be shown of the part that changes:

* `Inv.set` — one address space and the memory;
* `Inv.setMm` — the areas of one address space, which share what they did before;
* `Inv.setVm` — the allocators, or the contents of frames;
* `Inv.add` — there is a new address space.

`Pointers` is what an operation needs to find the things that it is given, and `Kept` says that
objects are destroyed when they should be.
-/

set_option autoImplicit false

namespace Ucore

open Vm

namespace World

/-- The number of areas, over all address spaces, that share `o`. -/
def shares (w : World) (o : ℕ) : ℕ := ∑ i ∈ w.mms, sharers (w.mm i).areas o

/-- The same, without the areas of one address space. -/
def others (w : World) (i o : ℕ) : ℕ := ∑ j ∈ w.mms.erase i, sharers (w.mm j).areas o

/-- **The invariant of the world.** -/
structure Inv (w : World) : Prop where
  mm : ∀ i ∈ w.mms, (w.mm i).Inv
  pgdir : ∀ i ∈ w.mms, (w.mm i).pgdir = i
  lt : ∀ i ∈ w.mms, i < w.next
  good : w.vm.Good ∅
  fresh : ∀ d, w.next ≤ d → ∀ k j, w.vm.slots (.dir d k, j) = Pte.zero
  covered : ∀ i ∈ w.mms, ∀ la, (w.vm.slots (userSlot i la)).present = true →
    ∃ a ∈ (w.mm i).areas, a.Has la
  objects : w.vm.Objects w.shares
  backed : ∀ i ∈ w.mms, ∀ a ∈ (w.mm i).areas, a.vmFlags.share = true → a.shmem ≠ none

/-- `mm_unmap` is about to cut a hole into a shared area, and has the memory for it. -/
def CutsShared (w : World) : Op → Prop
  | .mmUnmap i addr len =>
    userAccess (roundDown addr pgSize) (roundUp (addrAdd addr len) pgSize) = true ∧
    (w.mm i).kmem.take.1 ≠ none ∧ ∃ a ∈ (w.mm i).areas, a.vmFlags.share = true ∧
      a.Hole (roundDown addr pgSize) (roundUp (addrAdd addr len) pgSize)
  | _ => False

/-- The pointers that are passed to an operation refer to something. -/
def Pointers (w : World) : Op → Prop
  | .mmMap i _ _ _ | .mmUnmap i _ _ | .pgfault i _ _ | .dupMmap i _ | .exitMmap i | .mmDestroy i
  | .read i _ | .write i _ _ | .supplyMm i _ => i ∈ w.mms
  | .mmMapShmem i addr _ shmem =>
    i ∈ w.mms ∧ ∀ o, shmem = some o → addr % pgSize = 0 → w.vm.shmem o ≠ none
  | .scribble page _ => page ∉ w.vm.frames.live
  | .mmCreate _ | .shmemCreate _ | .supply _ _ _ => True

/-- An object is destroyed exactly if the number of areas that share it returns to 0. -/
def Kept (w w' : World) : Prop := ∀ o sh, w.vm.shmem o = some sh →
  (w'.vm.shmem o = none ↔ 0 < w.shares o ∧ w'.shares o = 0)

theorem Kept.of_drops {w w' : World} (h : Drops w.shares w'.shares w.vm w'.vm) : Kept w w' := h.goes

theorem Kept.of_same {w w' : World} (h : SameObjects w.vm w'.vm)
    (hle : ∀ o, w.shares o ≤ w'.shares o) : Kept w w' := by
  intro o sh ho
  rw [h o, ho]
  have h1 := hle o
  exact ⟨nofun, fun h2 => absurd h2 (by omega)⟩

variable {w : World} {i : ℕ}

theorem getMm_mem (hi : i ∈ w.mms) : w.getMm i = .ok (w.mm i) := if_pos hi

theorem mem_of_getMm {mm : Mm} (h : w.getMm i = .ok mm) : i ∈ w.mms := by
  rw [getMm] at h
  by_contra hi
  rw [if_neg hi] at h
  cases h

/-- An access that returns does nothing, or what `do_pgfault` does. -/
theorem access_cases {w' : World} {addr : ℕ} {write : Bool} {r : ℤ}
    (h : w.access i addr write = .ok (r, w')) :
    i ∈ w.mms ∧ (w' = w ∨ ∃ mm vm, doPgfault (w.mm i)
      ((w.vm.lookup (w.mm i).pgdir addr).errorCode write) addr w.vm = .ok (r, mm, vm) ∧
      w' = w.set i mm vm) := by
  obtain ⟨mm, hmm, h⟩ := Res.bind_eq_ok.1 h
  have hi := mem_of_getMm hmm
  rw [getMm_mem hi] at hmm
  cases hmm
  refine ⟨hi, ?_⟩
  by_cases hperm : (w.vm.lookup (w.mm i).pgdir addr).permits write = true
  · simp only [if_pos hperm] at h
    cases h
    exact .inl rfl
  · simp only [if_neg hperm] at h
    obtain ⟨⟨r', mm, vm⟩, hrun, h⟩ := Res.bind_eq_ok.1 h
    cases h
    exact .inr ⟨mm, vm, hrun, rfl⟩

theorem shares_eq (hi : i ∈ w.mms) : w.shares = fun o =>
    w.others i o + sharers (w.mm i).areas o := by
  funext o
  rw [shares, ← Finset.add_sum_erase _ _ hi, Nat.add_comm]
  rfl

/-- An object that an area shares has a sharer. -/
theorem shares_pos (hi : i ∈ w.mms) {a : Vma} (ha : a ∈ (w.mm i).areas)
    (hshare : a.vmFlags.share = true) {o : ℕ} (ho : a.shmem = some o) : 0 < w.shares o := by
  rw [shares_eq hi]
  exact Nat.add_pos_right _ (List.countP_pos_iff.2 ⟨a, ha, Vma.uses_iff.2 ⟨hshare, ho⟩⟩)

theorem shares_set (hi : i ∈ w.mms) (mm : Mm) (vm : Vm) :
    (w.set i mm vm).shares = fun o => w.others i o + sharers mm.areas o := by
  have hi' : i ∈ (w.set i mm vm).mms := hi
  rw [shares_eq hi']
  funext o
  have h1 : (w.set i mm vm).others i o = w.others i o := by
    refine Finset.sum_congr rfl fun j hj => ?_
    show sharers (Function.update w.mm i mm j).areas o = _
    rw [Function.update_of_ne (Finset.ne_of_mem_erase hj)]
  rw [h1]
  show _ + sharers (Function.update w.mm i mm i).areas o = _
  rw [Function.update_self]

theorem shares_add (hn : w.next ∉ w.mms) (mm : Mm) (vm : Vm) :
    (w.add mm vm).shares = fun o => w.shares o + sharers mm.areas o := by
  funext o
  show ∑ j ∈ insert w.next w.mms, sharers (Function.update w.mm w.next mm j).areas o = _
  rw [Finset.sum_insert hn, Function.update_self, Nat.add_comm]
  congr 1
  refine Finset.sum_congr rfl fun j hj => ?_
  have hne : j ≠ w.next := fun h => hn (h ▸ hj)
  rw [Function.update_of_ne hne]

namespace Inv

/-- An operation on one address space. -/
theorem set (H : w.Inv) (hi : i ∈ w.mms) {mm : Mm} {vm : Vm} (Hm : mm.Inv) (hp : mm.pgdir = i)
    (hg : vm.Good ∅)
    (hdirs : ∀ e, e ≠ i → ∀ k j, vm.slots (.dir e k, j) = w.vm.slots (.dir e k, j))
    (hcov : ∀ la, (vm.slots (userSlot i la)).present = true → ∃ a ∈ mm.areas, a.Has la)
    (hobj : vm.Objects fun o => w.others i o + sharers mm.areas o)
    (hback : ∀ a ∈ mm.areas, a.vmFlags.share = true → a.shmem ≠ none) : (w.set i mm vm).Inv := by
  have hself : (w.set i mm vm).mm i = mm := set_mm_self ..
  have hother : ∀ j, j ≠ i → (w.set i mm vm).mm j = w.mm j := fun j hj => set_mm_of_ne w hj mm vm
  refine ⟨?_, ?_, H.lt, hg, ?_, ?_, ?_, ?_⟩
  · intro j hj
    by_cases hji : j = i
    · rw [hji, hself]
      exact Hm
    · rw [hother j hji]
      exact H.mm j hj
  · intro j hj
    by_cases hji : j = i
    · rw [hji, hself]
      exact hp
    · rw [hother j hji]
      exact H.pgdir j hj
  · intro d hd k j
    have hne : d ≠ i := by
      have h1 := H.lt i hi
      have h2 : w.next ≤ d := hd
      omega
    exact (hdirs d hne k j).trans (H.fresh d hd k j)
  · intro j hj la hla
    have hla' : (vm.slots (userSlot j la)).present = true := hla
    by_cases hji : j = i
    · subst hji
      rw [hself]
      exact hcov la hla'
    · rw [hother j hji]
      refine H.covered j hj la ?_
      rw [← hla']
      exact congrArg Pte.present (hdirs j hji _ _).symm
  · rw [shares_set hi]
    exact hobj
  · intro j hj a ha
    by_cases hji : j = i
    · subst hji
      rw [hself] at ha
      exact hback a ha
    · rw [hother j hji] at ha
      exact H.backed j hj a ha

/-- Nothing but the areas of one address space changes, and they share what they did before. -/
theorem setMm (H : w.Inv) (hi : i ∈ w.mms) {mm : Mm} (Hm : mm.Inv) (hp : mm.pgdir = i)
    (hcov : ∀ a ∈ (w.mm i).areas, a ∈ mm.areas)
    (hsh : ∀ o, sharers mm.areas o = sharers (w.mm i).areas o)
    (hback : ∀ a ∈ mm.areas, a.vmFlags.share = true → a.shmem ≠ none) :
    (w.set i mm w.vm).Inv ∧ Kept w (w.set i mm w.vm) := by
  constructor
  · refine H.set hi Hm hp H.good (fun _ _ _ _ => rfl) ?_ ?_ hback
    · intro la hla
      obtain ⟨a, ha, hhas⟩ := H.covered i hi la hla
      exact ⟨a, hcov a ha, hhas⟩
    · simp only [hsh]
      rw [← shares_eq hi]
      exact H.objects
  · refine Kept.of_same (fun _ => Iff.rfl) fun o => ?_
    rw [shares_set hi, shares_eq hi]
    simp only [hsh, le_refl]

/-- Only the allocators, or contents of frames, change. -/
theorem setVm (H : w.Inv) {vm : Vm} (hg : vm.Good ∅) (hslots : vm.slots = w.vm.slots)
    (hsh : vm.shmem = w.vm.shmem) (hpool : vm.shmemPool.live = w.vm.shmemPool.live) :
    ({ w with vm := vm } : World).Inv ∧ Kept w { w with vm := vm } := by
  have O := H.objects
  constructor
  · refine ⟨H.mm, H.pgdir, H.lt, hg, ?_, ?_, ⟨?_, ?_, ?_, ?_, ?_⟩, H.backed⟩
    · show ∀ d, w.next ≤ d → ∀ k j, vm.slots _ = _
      rw [hslots]
      exact H.fresh
    · show ∀ i ∈ w.mms, ∀ la, (vm.slots _).present = true → _
      rw [hslots]
      exact H.covered
    · show ∀ o sh, vm.shmem o = some sh → _
      rw [hsh]
      exact O.ok
    · show ∀ o sh, vm.shmem o = some sh → _
      rw [hsh]
      exact O.ref
    · show ∀ o sh, vm.shmem o = some sh → _
      rw [hsh]
      exact O.unused
    · show ∀ o sh, vm.shmem o = some sh → o ∈ vm.shmemPool.live
      rw [hsh, hpool]
      exact O.live
    · show ∀ o, vm.shmem o = none → _
      rw [hsh]
      exact O.gone
  · refine Kept.of_same (fun o => ?_) fun _ => le_rfl
    show vm.shmem o = none ↔ _
    rw [hsh]

/-- A new address space. -/
theorem add (H : w.Inv) {mm : Mm} {vm : Vm} (Hm : mm.Inv) (hp : mm.pgdir = w.next)
    (hg : vm.Good ∅)
    (hold : ∀ e, e ≠ w.next → ∀ k j,
      (vm.slots (.dir e k, j)).target = (w.vm.slots (.dir e k, j)).target)
    (hcov : ∀ la, (vm.slots (userSlot w.next la)).present = true → ∃ a ∈ mm.areas, a.Has la)
    (hobj : vm.Objects fun o => w.shares o + sharers mm.areas o) (hsame : SameObjects w.vm vm)
    (hback : ∀ a ∈ mm.areas, a.vmFlags.share = true → a.shmem ≠ none) :
    (w.add mm vm).Inv ∧ Kept w (w.add mm vm) := by
  have hn : w.next ∉ w.mms := fun h => Nat.lt_irrefl _ (H.lt _ h)
  have hself : (w.add mm vm).mm w.next = mm := add_mm_next ..
  have hother : ∀ j, j ≠ w.next → (w.add mm vm).mm j = w.mm j :=
    fun j hj => Function.update_of_ne hj ..
  have hmem : ∀ j, j ∈ (w.add mm vm).mms → j = w.next ∨ j ≠ w.next ∧ j ∈ w.mms := by
    intro j hj
    rcases Finset.mem_insert.1 hj with h | h
    · exact .inl h
    · exact .inr ⟨fun heq => hn (heq ▸ h), h⟩
  refine ⟨⟨?_, ?_, ?_, hg, ?_, ?_, ?_, ?_⟩, ?_⟩
  · intro j hj
    rcases hmem j hj with rfl | ⟨hne, hj⟩
    · rw [hself]
      exact Hm
    · rw [hother j hne]
      exact H.mm j hj
  · intro j hj
    rcases hmem j hj with rfl | ⟨hne, hj⟩
    · rw [hself]
      exact hp
    · rw [hother j hne]
      exact H.pgdir j hj
  · intro j hj
    rcases hmem j hj with rfl | ⟨hne, hj⟩
    · exact Nat.lt_succ_self _
    · exact Nat.lt_succ_of_lt (H.lt j hj)
  · intro d hd k j
    have hd' : w.next + 1 ≤ d := hd
    have h1 := hold d (by omega) k j
    rw [H.fresh d (by omega) k j] at h1
    exact hg.absent _ h1
  · intro j hj la hla
    have hla' : (vm.slots (userSlot j la)).present = true := hla
    rcases hmem j hj with rfl | ⟨hne, hj⟩
    · rw [hself]
      exact hcov la hla'
    · rw [hother j hne]
      refine H.covered j hj la ?_
      have h1 := hold j hne (pdx la) (ptx la)
      have h2 : (vm.slots (userSlot j la)).target = some (vm.slots (userSlot j la)).frame :=
        Pte.target_eq_some.2 ⟨hla', rfl⟩
      exact (Pte.target_eq_some.1 (h1.symm.trans h2)).1
  · rw [shares_add hn]
    exact hobj
  · intro j hj a ha
    rcases hmem j hj with rfl | ⟨hne, hj⟩
    · rw [hself] at ha
      exact hback a ha
    · rw [hother j hne] at ha
      exact H.backed j hj a ha
  · refine Kept.of_same hsame fun o => ?_
    rw [shares_add hn]
    exact Nat.le_add_right _ _

/-- The initial world. -/
theorem init : World.init.Inv := by
  refine ⟨?_, ?_, ?_, ?_, fun _ _ _ _ => rfl, ?_, ?_, ?_⟩
  · exact fun i hi => absurd hi (Finset.notMem_empty i)
  · exact fun i hi => absurd hi (Finset.notMem_empty i)
  · exact fun i hi => absurd hi (Finset.notMem_empty i)
  · refine Good.of_empty (fun x => ?_) (fun _ => rfl) rfl
    cases x <;> rfl
  · exact fun i hi => absurd hi (Finset.notMem_empty i)
  · have hnone : ∀ (o : ℕ) (sh : Shmem), World.init.vm.shmem o ≠ some sh := fun _ sh h =>
      Option.some_ne_none sh h.symm
    exact ⟨fun o sh h => absurd h (hnone o sh), fun o sh h => absurd h (hnone o sh),
      fun o sh h => absurd h (hnone o sh), fun o sh h => absurd h (hnone o sh),
      fun o _ => Finset.sum_empty⟩
  · exact fun i hi => absurd hi (Finset.notMem_empty i)

end Inv

end World

end Ucore
