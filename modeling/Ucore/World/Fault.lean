import Ucore.World.Defs
import Ucore.Pmm.Range
import Ucore.Pmm.Shmem

/-!
# What `do_pgfault` does

A page fault either changes no entry of a page table, or sets one, the entry of the address that was
accessed.  `Fetched` lists the three ways in which a private area gets the frame for it: a new
frame, a new frame with the contents of the one that was shared so far, or the frame that was there,
if there is no other reference to it.

The function has a branch for each combination of an area and an entry, and there is a lemma for
each branch:

* `faultPrivate_spec` — the entry is 0, and the area is private;
* `faultShared_spec` — the entry is 0, and the area is shared;
* `faultCow_spec` — the entry is present, so the page is copied, or is nobody else's.  Both ways end
  in the same lines, `mapPage_spec`.

They are put together twice:

* `faultIn_spec` — the part of `do_pgfault` behind the search for the area;
* `doPgfault_spec` — all of it.

What the rest of the development uses is `Faulted`, which says what may be different after a fault
that has returned, without saying which branch was taken.  On the way there `get_pte` may have made
a page table, which changes no entry (`Faulted.of_grow`).

The only way for `do_pgfault` not to return is an assertion.  In a private area it is the one about
the error code, and it does not fire if the error code is the one that the processor reports.
-/

set_option autoImplicit false

namespace Ucore

open Vm

/-- The frames that the slots refer to. -/
def Vm.holds (s : Vm) : Owner × ℕ → Option ℕ := s.held s.tableOf

/-- Where the frame `p` for the slot `x` comes from, in a private area. -/
inductive Fetched (x : Owner × ℕ) (p : ℕ) (s s' : Vm) : Prop
  | fresh (hzero : s.slots x = Pte.zero) (hp : ∀ y, (s.slots y).target ≠ some p)
      (hmem : s'.mem = s.mem)
  | copy (q : ℕ) (hq : (s.slots x).target = some q) (hp : ∀ y, (s.slots y).target ≠ some p)
      (hmem : s'.mem = Function.update s.mem p (s.mem q))
  | reuse (hp : (s.slots x).target = some p) (hrefs : refs s.holds p ≤ 1) (hmem : s'.mem = s.mem)

/-- What a fault in the area `a` may do to the shared memory objects. -/
def ShmemStep (a : Vma) (s s' : Vm) : Prop :=
  s'.shmem = s.shmem ∨ ∃ o sh sh', a.vmFlags.share = true ∧ a.shmem = some o ∧ s.shmem o = some sh ∧
    s'.shmem = Function.update s.shmem o (some sh') ∧ sh'.Ok ∧ sh'.ref = sh.ref ∧ sh'.len = sh.len

/-- The area has an object to share, if it is a shared one. -/
def Vma.Backed (a : Vma) (s : Vm) : Prop :=
  a.vmFlags.share = true → ∃ o sh, a.shmem = some o ∧ s.shmem o = some sh ∧ sh.Ok

/-- **What a fault in the area `a` does** if it returns: no user entry changes, or the one of the
address is set. -/
structure Faulted (a : Vma) (d addr : ℕ) (ret : ℤ) (s s' : Vm) : Prop where
  good : s'.Good ∅
  shmem : ShmemStep a s s'
  shmemPool : s'.shmemPool = s.shmemPool
  fail : ret ≠ 0 → (∀ e k i, s'.slots (.dir e k, i) = s.slots (.dir e k, i)) ∧ s'.mem = s.mem
  done : ret = 0 → ∃ p, (∀ e k i, s'.slots (.dir e k, i) =
      Function.update s.slots (userSlot d addr) ⟨p, true, ⟨a.vmFlags.write, true⟩⟩ (.dir e k, i)) ∧
    (a.vmFlags.share = false → Fetched (userSlot d addr) p s s')
  pure : a.vmFlags.share = false → s'.shmem = s.shmem ∧
    ∀ o m i, s'.slots (.node o m, i) = s.slots (.node o m, i)

/-- The assertion that a fault in the area `a` may run into. -/
def FaultStops (a : Vma) (d addr errorCode : ℕ) (s : Vm) : Prop :=
  a.vmFlags.share = true ∨ (s.slots (userSlot d addr)).present = true ∧
    ¬ (errorCode / 2 % 2 = 1 ∧ (s.slots (userSlot d addr)).perm.writable = false ∧
      a.vmFlags.write = true)

section Fault

variable {X : Finset ℕ} {s : Vm}

theorem userSlot_roundDown (d addr : ℕ) : userSlot d (roundDown addr pgSize) = userSlot d addr := by
  rw [userSlot_inj]
  refine ⟨rfl, ?_⟩
  simp only [roundDown, pgSize]
  omega

/-- No entry refers to a frame that is not in use. -/
theorem Vm.Good.unheld (H : s.Good X) {p : ℕ} (hp : p ∉ s.frames.live) (y : Owner × ℕ) :
    (s.slots y).target ≠ some p := fun hy => hp (H.used y p hy).1

/-- `page_insert` where there is a page table. -/
theorem pageInsert_found (H : s.Good X) {d la f p : ℕ} (hpde : s.pgdir d (pdx la) = some f)
    (hp : p ∈ X ∨ ∃ y, (s.slots y).target = some p) (perm : Perm) :
    ∃ s', pageInsert d p la perm s = .ok (0, s') ∧ s'.Good (X.erase p) ∧
      s'.slots = Function.update s.slots (userSlot d la) ⟨p, true, perm⟩ ∧ Grow s s' := by
  rcases pageInsert_spec H d la hp perm with ⟨-, -, -, -, hnone, -⟩ | h
  · rw [hpde] at hnone
    cases hnone
  · exact h

/-- A fault on an entry that is 0, in a private area. -/
theorem faultPrivate_spec (H : s.Good ∅) (a : Vma) {d la : ℕ}
    (hzero : s.slots (userSlot d la) = Pte.zero) :
    ∃ ret s', faultPrivate d la ⟨a.vmFlags.write, true⟩ s = .ok (ret, s') ∧
      Faulted a d la ret s s' := by
  rw [faultPrivate]
  rcases pgdirAllocPage_spec H d la ⟨a.vmFlags.write, true⟩ with ⟨s', hrun, H', hslots, hrest⟩ |
    ⟨p, s', hrun, hp, H', hslots, hgrow⟩
  · refine ⟨-eNoMem, s', by rw [hrun]; rfl, H', .inl hrest.shmem, hrest.shmemPool, fun _ => ?_,
      fun h => absurd h (by decide), fun _ => ⟨hrest.shmem, fun o m i => by rw [hslots]⟩⟩
    exact ⟨fun e k i => by rw [hslots], hrest.mem⟩
  · refine ⟨0, s', by rw [hrun]; rfl, H', .inl hgrow.shmem, hgrow.shmemPool, fun h => absurd rfl h,
      fun _ => ⟨p, fun e k i => by rw [hslots], fun _ => .fresh hzero (H.unheld hp) hgrow.mem⟩,
      fun _ => ⟨hgrow.shmem, fun o m i => ?_⟩⟩
    rw [hslots]
    exact Function.update_of_ne (by simp [userSlot]) ..

/-- A fault on an entry that is 0, in a shared area. -/
theorem faultShared_spec (H : s.Good ∅) {a : Vma} {d la f : ℕ} (ha : a.vmFlags.share = true)
    (hback : a.Backed s) (hpde : s.pgdir d (pdx la) = some f) (ptep : ℕ × ℕ) :
    faultShared a d la ⟨a.vmFlags.write, true⟩ ptep s = .error .assertion ∨
    ∃ ret s', faultShared a d la ⟨a.vmFlags.write, true⟩ ptep s = .ok (ret, s') ∧
      Faulted a d la ret s s' := by
  obtain ⟨o, sh, hshmem, ho, hok⟩ := hback ha
  have hshare : ¬ a.vmFlags.share = false := by rw [ha]; decide
  have hstep : ∀ s₁ s₂ : Vm, Touch o sh s s₁ → s₂.shmem = s₁.shmem → ShmemStep a s s₂ := by
    intro s₁ s₂ ht h
    obtain ⟨sh', h1, h2, h3, h4⟩ := ht.shmem
    exact .inr ⟨o, sh, sh', ha, hshmem, ho, h.trans h1, h2, h3, h4⟩
  simp only [faultShared, hshmem]
  rcases shmemGetEntry_spec H ho hok (addrAdd (la - a.vmStart) a.shmemOff) with hget |
    ⟨s₁, hget, H₁, hslots, htouch⟩ | ⟨g, i, m, s₁, hget, H₁, htouch, hT, hother⟩
  · left
    rw [hget]
    rfl
  · right
    refine ⟨-eNoMem, s₁, by rw [hget]; rfl, H₁, hstep s₁ s₁ htouch rfl, htouch.shmemPool,
      fun _ => ⟨fun e k i => by rw [hslots], htouch.mem⟩, fun h => absurd h (by decide),
      fun h => absurd h hshare⟩
  · right
    have hpte : s₁.pte (g, i) = s₁.slots (.node o m, i) := Inv.pte_eq hT i
    have huser : ∀ e k j, s₁.slots (.dir e k, j) = s.slots (.dir e k, j) :=
      fun e k j => hother _ (by simp)
    simp only [hget, Res.ok_bind, hpte]
    cases htarget : (s₁.slots (.node o m, i)).target with
    | none =>
      have hz : s₁.slots (.node o m, i) = Pte.zero := H₁.absent _ htarget
      refine ⟨-eNoMem, s₁, ?_, H₁, hstep s₁ s₁ htouch rfl, htouch.shmemPool,
        fun _ => ⟨huser, htouch.mem⟩, fun h => absurd h (by decide), fun h => absurd h hshare⟩
      rw [if_pos hz]
      rfl
    | some p =>
      obtain ⟨hpres, hframe⟩ := Pte.target_eq_some.1 htarget
      have hne : s₁.slots (.node o m, i) ≠ Pte.zero := by
        intro h
        rw [h] at hpres
        cases hpres
      have hpde₁ : s₁.pgdir d (pdx la) = some f := by rw [htouch.pgdir, hpde]
      obtain ⟨s₂, hins, H₂, hslots₂, hgrow⟩ := pageInsert_found H₁ hpde₁ (.inr ⟨_, htarget⟩)
        ⟨a.vmFlags.write, true⟩
      rw [Finset.erase_eq_of_notMem (Finset.notMem_empty p)] at H₂
      refine ⟨0, s₂, ?_, H₂, hstep s₁ s₂ htouch hgrow.shmem, hgrow.shmemPool.trans htouch.shmemPool,
        fun h => absurd rfl h, fun _ => ⟨p, fun e k j => ?_, fun h => absurd h hshare⟩,
        fun h => absurd h hshare⟩
      · rw [if_neg hne, hpres, if_pos rfl, hframe, hins]
        rfl
      · rw [hslots₂]
        by_cases hx : (Owner.dir e k, j) = userSlot d la
        · rw [hx, Function.update_self, Function.update_self]
        · rw [Function.update_of_ne hx, Function.update_of_ne hx, huser]

/-- The end of `do_pgfault`. -/
theorem mapPage_spec (H : s.Good X) {d la f p : ℕ} (hpde : s.pgdir d (pdx la) = some f)
    (hp : p ∈ X ∨ ∃ y, (s.slots y).target = some p) (perm : Perm) (newpage : Option ℕ)
    (hnew : ∀ q, newpage = some q → q ∈ X ∧ q ≠ p) :
    ∃ s', mapPage d p la perm newpage s = .ok (0, s') ∧
      s'.Good ((X.erase p) \ newpage.toFinset) ∧
      s'.slots = Function.update s.slots (userSlot d la) ⟨p, true, perm⟩ ∧ Grow s s' := by
  obtain ⟨s₁, hins, H₁, hslots, hgrow⟩ := pageInsert_found H hpde hp perm
  rw [mapPage, hins, Res.ok_bind]
  cases newpage with
  | none =>
    rw [Option.toFinset_none, Finset.sdiff_empty]
    exact ⟨s₁, rfl, H₁, hslots, hgrow⟩
  | some q =>
    obtain ⟨hqX, hqp⟩ := hnew q rfl
    obtain ⟨s₂, hfree, H₂, hslot₂, hrest₂⟩ := Inv.freePage H₁ (Finset.mem_erase.2 ⟨hqp, hqX⟩)
    refine ⟨s₂, ?_, ?_, ?_, hgrow.trans hrest₂.grow⟩
    · simp only [Option.elim_some, hfree, Res.ok_bind, Res.pure_eq]
    · rw [Option.toFinset_some, Finset.sdiff_singleton_eq_erase]
      exact H₂.good hrest₂
    · rw [slots_of_rest hslot₂ hrest₂]
      exact hslots

/-- A fault on an entry that is present. -/
theorem faultCow_spec (H : s.Good ∅) (a : Vma) {d la f q : ℕ} (errorCode : ℕ)
    (hpde : s.pgdir d (pdx la) = some f) (hq : (s.slots (userSlot d la)).target = some q) :
    (faultCow a d errorCode la ⟨a.vmFlags.write, true⟩ (f, ptx la) s = .error .assertion ∧
      FaultStops a d la errorCode s) ∨
    ∃ ret s', faultCow a d errorCode la ⟨a.vmFlags.write, true⟩ (f, ptx la) s = .ok (ret, s') ∧
      Faulted a d la ret s s' := by
  obtain ⟨hpres, hframe⟩ := Pte.target_eq_some.1 hq
  have hT : s.tableOf (.dir d (pdx la)) = some f := hpde
  have hpte : s.pte (f, ptx la) = s.slots (userSlot d la) := Inv.pte_eq hT _
  simp only [faultCow, hpte]
  by_cases hcow : errorCode / 2 % 2 = 1 ∧ (s.slots (userSlot d la)).perm.writable = false ∧
      (a.vmFlags.write && !a.vmFlags.share) = true
  · right
    obtain ⟨hwrite, hshare⟩ := Bool.and_eq_true_iff.1 hcow.2.2
    rw [Bool.not_eq_true'] at hshare
    have hassert : (s.slots (userSlot d la)).present = false ∨ errorCode / 2 % 2 = 1 ∧
        (s.slots (userSlot d la)).perm.writable = false ∧
        (a.vmFlags.write && !a.vmFlags.share) = true := .inr hcow
    rw [assert_pos hassert, Res.ok_bind]
    simp only [hcow.2.2, if_true]
    -- what the two answers of the allocator have in common
    obtain ⟨newpage, s₁, halloc, H₁, hslots₁, hrest₁, hnew⟩ : ∃ newpage s₁,
        s.allocPage = (newpage, s₁) ∧ s₁.Good newpage.toFinset ∧ s₁.slots = s.slots ∧ Rest s s₁ ∧
        ∀ p, newpage = some p → p ∉ s.frames.live := by
      rcases Inv.allocPage H with ⟨s₁, halloc, H₁, hslot, hrest⟩ |
        ⟨p, s₁, halloc, hp, H₁, hslot, hrest⟩
      · exact ⟨none, s₁, halloc, H₁.good hrest, slots_of_rest hslot hrest, hrest,
          fun p hp => absurd hp (Option.some_ne_none p).symm⟩
      · refine ⟨some p, s₁, halloc, H₁.good hrest, slots_of_rest hslot hrest, hrest, ?_⟩
        rintro _ ⟨⟩
        exact hp
    have hpde₁ : s₁.pgdir d (pdx la) = some f := by rw [hrest₁.pgdir, hpde]
    have hT₁ : s₁.tableOf (.dir d (pdx la)) = some f := hpde₁
    have hpte₁ : s₁.pte (f, ptx la) = s.slots (userSlot d la) := by
      rw [← hslots₁]
      exact Inv.pte_eq hT₁ _
    have hlive : q ∈ s.frames.live := (H.used _ q hq).1
    have hheld₁ : s₁.holds = s.holds := held_of_slot hslots₁
    have href : s₁.ref q = refs s.holds q := by
      rw [H₁.ref q]
      · exact congrArg (fun h => ((refs h q : ℕ) : ℤ)) hheld₁
      · rw [hrest₁.tableOf]
        exact (H.used _ q hq).2.2
    have hq₁ : ∃ y, (s₁.slots y).target = some q := ⟨userSlot d la, by rw [hslots₁]; exact hq⟩
    simp only [halloc, hpte₁, assert_pos hpres, Res.ok_bind, hframe, true_and]
    by_cases hgt : s₁.ref q > 1
    · rw [if_pos hgt]
      cases newpage with
      | none =>
        refine ⟨-eNoMem, s₁, rfl, H₁, .inl hrest₁.shmem, hrest₁.shmemPool,
          fun _ => ⟨fun e k i => by rw [hslots₁], hrest₁.mem⟩, fun h => absurd h (by decide),
          fun _ => ⟨hrest₁.shmem, fun o m i => by rw [hslots₁]⟩⟩
      | some p =>
        have H₂ : (s₁.copyMem p q).Good {p} := Inv.transfer H₁ rfl rfl rfl
        obtain ⟨s₃, hmap, H₃, hslots₃, hgrow⟩ := mapPage_spec H₂ (p := p) hpde₁
          (.inl (Finset.mem_singleton_self p)) ⟨a.vmFlags.write, true⟩ none
          (fun q hq => absurd hq (Option.some_ne_none q).symm)
        have hslots : s₃.slots = Function.update s.slots (userSlot d la)
            ⟨p, true, ⟨a.vmFlags.write, true⟩⟩ := by
          rw [hslots₃, ← hslots₁]
          rfl
        have hsh : s₃.shmem = s.shmem := hgrow.shmem.trans hrest₁.shmem
        refine ⟨0, s₃, hmap, ?_, .inl hsh, hgrow.shmemPool.trans hrest₁.shmemPool,
          fun h => absurd rfl h, fun _ => ⟨p, fun e k i => by rw [hslots],
            fun _ => .copy q hq (H.unheld (hnew p rfl)) ?_⟩, fun _ => ⟨hsh, fun o m i => ?_⟩⟩
        · rw [Option.toFinset_none, Finset.sdiff_empty, Finset.erase_singleton] at H₃
          exact H₃
        · rw [hgrow.mem, ← hrest₁.mem]
          rfl
        · rw [hslots]
          exact Function.update_of_ne (by simp [userSlot]) ..
    · rw [if_neg hgt]
      obtain ⟨s₃, hmap, H₃, hslots₃, hgrow⟩ := mapPage_spec H₁ hpde₁ (.inr hq₁)
        ⟨a.vmFlags.write, true⟩ newpage (fun p hp => by
          rw [hp, Option.toFinset_some]
          exact ⟨Finset.mem_singleton_self p, fun h => hnew p hp (h ▸ hlive)⟩)
      have hslots : s₃.slots = Function.update s.slots (userSlot d la)
          ⟨q, true, ⟨a.vmFlags.write, true⟩⟩ := by
        rw [hslots₃, hslots₁]
      have hsh : s₃.shmem = s.shmem := hgrow.shmem.trans hrest₁.shmem
      refine ⟨0, s₃, hmap, ?_, .inl hsh, hgrow.shmemPool.trans hrest₁.shmemPool,
        fun h => absurd rfl h, fun _ => ⟨q, fun e k i => by rw [hslots],
          fun _ => .reuse hq ?_ (hgrow.mem.trans hrest₁.mem)⟩, fun _ => ⟨hsh, fun o m i => ?_⟩⟩
      · have hempty : (newpage.toFinset.erase q) \ newpage.toFinset = ∅ :=
          Finset.sdiff_eq_empty_iff_subset.2 (Finset.erase_subset _ _)
        rw [hempty] at H₃
        exact H₃
      · rw [href] at hgt
        omega
      · rw [hslots]
        exact Function.update_of_ne (by simp [userSlot]) ..
  · left
    constructor
    · have hnot : ¬ ((s.slots (userSlot d la)).present = false ∨ errorCode / 2 % 2 = 1 ∧
          (s.slots (userSlot d la)).perm.writable = false ∧
          (a.vmFlags.write && !a.vmFlags.share) = true) := by
        rw [hpres]
        rintro (h | h)
        · cases h
        · exact hcow h
      simp only [assert, if_neg hnot]
      rfl
    · cases hshare : a.vmFlags.share with
      | true => exact .inl hshare
      | false =>
        refine .inr ⟨hpres, fun h => hcow ⟨h.1, h.2.1, ?_⟩⟩
        rw [h.2.2, hshare]
        rfl

/-- `get_pte` may have made a page table before. -/
theorem Faulted.of_grow {a : Vma} {d la : ℕ} {ret : ℤ} {s₁ s' : Vm} (h : Faulted a d la ret s₁ s')
    (hslots : s₁.slots = s.slots) (hgrow : Grow s s₁) : Faulted a d la ret s s' := by
  refine ⟨h.good, ?_, h.shmemPool.trans hgrow.shmemPool, ?_, ?_, ?_⟩
  · have hstep := h.shmem
    rw [ShmemStep, hgrow.shmem] at hstep
    exact hstep
  · intro hret
    have hfail := h.fail hret
    rw [hslots, hgrow.mem] at hfail
    exact hfail
  · intro hret
    obtain ⟨p, hp, hfetch⟩ := h.done hret
    rw [hslots] at hp
    refine ⟨p, hp, fun hshare => ?_⟩
    have hholds : s₁.holds = s.holds := held_of_slot hslots
    cases hfetch hshare with
    | fresh hzero hp hmem =>
      rw [hslots] at hzero hp
      exact .fresh hzero hp (hmem.trans hgrow.mem)
    | copy q hq hp hmem =>
      rw [hslots] at hq hp
      rw [hgrow.mem] at hmem
      exact .copy q hq hp hmem
    | reuse hp hrefs hmem =>
      rw [hslots] at hp
      rw [hholds] at hrefs
      exact .reuse hp hrefs (hmem.trans hgrow.mem)
  · intro hshare
    obtain ⟨h1, h2⟩ := h.pure hshare
    rw [hslots] at h2
    exact ⟨h1.trans hgrow.shmem, h2⟩

/-- A fault that changes nothing. -/
theorem Faulted.refuse (H : s.Good ∅) (a : Vma) (d la : ℕ) {ret : ℤ} (hret : ret ≠ 0) :
    Faulted a d la ret s s :=
  ⟨H, .inl rfl, rfl, fun _ => ⟨fun _ _ _ => rfl, rfl⟩, fun h => absurd h hret,
    fun _ => ⟨rfl, fun _ _ _ => rfl⟩⟩

/-- **A fault in an area.** -/
theorem faultIn_spec (H : s.Good ∅) {a : Vma} (hback : a.Backed s) (d errorCode addr : ℕ) :
    (faultIn a d errorCode addr s = .error .assertion ∧ FaultStops a d addr errorCode s) ∨
    ∃ ret s', faultIn a d errorCode addr s = .ok (ret, s') ∧ Faulted a d addr ret s s' := by
  rw [faultIn]
  by_cases hallow : faultAllowed a.vmFlags errorCode = true
  · simp only [hallow, Bool.not_true, Bool.false_eq_true, if_false]
    have hround := userSlot_roundDown d addr
    set la := roundDown addr pgSize with hla
    have hfaulted : ∀ ret s', Faulted a d la ret s s' → Faulted a d addr ret s s' := by
      intro ret s' h
      refine ⟨h.good, h.shmem, h.shmemPool, h.fail, ?_, h.pure⟩
      rw [← hround]
      exact h.done
    rcases getPte_spec H d la with ⟨s₁, hget, H₁, hslots, -, hrest⟩ |
      ⟨f, s₁, hget, H₁, hslots, hpde, hgrow⟩
    · right
      rw [hget]
      have hne : -eNoMem ≠ 0 := by decide
      exact ⟨-eNoMem, s₁, rfl, (Faulted.refuse H₁ a d addr hne).of_grow hslots hrest.grow⟩
    · rw [hget]
      have hT : s₁.tableOf (.dir d (pdx la)) = some f := hpde
      have hpte : s₁.pte (f, ptx la) = s₁.slots (userSlot d la) := Inv.pte_eq hT _
      have hback₁ : a.Backed s₁ := by
        rw [Vma.Backed, hgrow.shmem]
        exact hback
      simp only [hpte]
      cases htarget : (s₁.slots (userSlot d la)).target with
      | none =>
        have hz : s₁.slots (userSlot d la) = Pte.zero := H₁.absent _ htarget
        rw [if_pos hz]
        cases hshare : a.vmFlags.share with
        | false =>
          right
          obtain ⟨ret, s', hrun, h⟩ := faultPrivate_spec H₁ a hz
          exact ⟨ret, s', hrun, hfaulted ret s' (h.of_grow hslots hgrow)⟩
        | true =>
          rcases faultShared_spec H₁ hshare hback₁ hpde (f, ptx la) with hrun | ⟨ret, s', hrun, h⟩
          · exact .inl ⟨hrun, .inl hshare⟩
          · exact .inr ⟨ret, s', hrun, hfaulted ret s' (h.of_grow hslots hgrow)⟩
      | some q =>
        have hne : s₁.slots (userSlot d la) ≠ Pte.zero := by
          intro h
          rw [h] at htarget
          cases htarget
        rw [if_neg hne]
        rcases faultCow_spec H₁ a errorCode hpde htarget with ⟨hrun, hstop⟩ | ⟨ret, s', hrun, h⟩
        · rw [FaultStops, hslots, hround] at hstop
          exact .inl ⟨hrun, hstop⟩
        · exact .inr ⟨ret, s', hrun, hfaulted ret s' (h.of_grow hslots hgrow)⟩
  · right
    rw [Bool.not_eq_true] at hallow
    rw [hallow]
    have hne : -eInval ≠ 0 := by decide
    exact ⟨-eInval, s, rfl, Faulted.refuse H a d addr hne⟩

/-- **What `do_pgfault` does.** -/
theorem doPgfault_spec {mm : Mm} (Hm : mm.Inv) (H : s.Good ∅)
    (hback : ∀ a ∈ mm.areas, a.Backed s) (errorCode addr : ℕ) :
    (∃ mm', mm'.Inv ∧ mm'.areas = mm.areas ∧ mm'.pgdir = mm.pgdir ∧
      (∀ a ∈ mm.areas, ¬ a.Has addr) ∧
      doPgfault mm errorCode addr s = .ok (-eInval, mm', s)) ∨
    ∃ a ∈ mm.areas, a.Has addr ∧
      ((doPgfault mm errorCode addr s = .error .assertion ∧
        faultIn a mm.pgdir errorCode addr s = .error .assertion ∧
        FaultStops a mm.pgdir addr errorCode s) ∨
      ∃ ret mm' s', mm'.Inv ∧ mm'.areas = mm.areas ∧ mm'.pgdir = mm.pgdir ∧
        faultIn a mm.pgdir errorCode addr s = .ok (ret, s') ∧
        doPgfault mm errorCode addr s = .ok (ret, mm', s') ∧
        Faulted a mm.pgdir addr ret s s') := by
  obtain ⟨c, hfind, Hc⟩ := Hm.findVma_spec addr
  simp only [doPgfault, hfind, Res.ok_bind]
  by_cases hhit : ∃ v, mm.mmapList.find? (Mm.Inv.Below mm.vma addr) = some v ∧
    (mm.vma v).vmStart ≤ addr
  · right
    obtain ⟨v, hv, hle⟩ := hhit
    have hmem : v ∈ mm.mmapList := List.mem_of_find?_eq_some hv
    have hend : addr < (mm.vma v).vmEnd := by
      have h := List.find?_some hv
      exact of_decide_eq_true h
    have harea : mm.vma v ∈ mm.areas := List.mem_map_of_mem hmem
    have hfilter : (mm.mmapList.find? (Mm.Inv.Below mm.vma addr)).filter
        (fun v => ((mm.setCache c).vma v).vmStart ≤ addr) = some v := by
      rw [hv, Option.filter_some]
      exact if_pos (decide_eq_true hle)
    simp only [hfilter]
    refine ⟨mm.vma v, harea, ⟨hle, hend⟩, ?_⟩
    rcases faultIn_spec H (hback _ harea) mm.pgdir errorCode addr with ⟨hrun, hstop⟩ |
      ⟨ret, s', hrun, h⟩
    · left
      refine ⟨?_, hrun, hstop⟩
      show (faultIn (mm.vma v) mm.pgdir errorCode addr s >>= _) = _
      rw [hrun]
      rfl
    · right
      refine ⟨ret, mm.setCache c, s', Hc, rfl, rfl, hrun, ?_, h⟩
      show (faultIn (mm.vma v) mm.pgdir errorCode addr s >>= _) = _
      rw [hrun]
      rfl
  · left
    refine ⟨mm.setCache c, Hc, rfl, rfl, ?_, ?_⟩
    · intro a ha hhas
      obtain ⟨v, hv, hlt⟩ := Hm.meets_iff.1 ⟨a, ha, hhas.2, Nat.lt_succ_of_le hhas.1⟩
      exact hhit ⟨v, hv, Nat.le_of_lt_succ hlt⟩
    · have hfilter : (mm.mmapList.find? (Mm.Inv.Below mm.vma addr)).filter
          (fun v => ((mm.setCache c).vma v).vmStart ≤ addr) = none := by
        rw [Option.filter_eq_none_iff]
        intro v hv
        exact fun h => hhit ⟨v, hv, of_decide_eq_true h⟩
      simp only [hfilter]
      rfl

end Fault

end Ucore
