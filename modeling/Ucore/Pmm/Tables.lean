import Ucore.Pmm.Inv
import Ucore.Vmm.Ops

/-!
# What the functions of `pmm.c` do to the entries

`Vm.Good X s` is the invariant of `Ucore.Pmm.Inv` for the tables that the state itself shows, and
`Vm.slots` are the entries.  The lemmas here say, for each function of `pmm.c` that is about one
address, that it returns, that it keeps the invariant, and what it does to the entries:

* `pageRemovePte_spec` — an entry becomes 0;
* `insertPte_spec` — an entry is set, and what was there is given up.  The function takes the new
  reference first, which makes no difference unless the two frames are one (`releasePage_inc`);
* `getPte_find`, `getPte_spec` — the page table for an address is found, or made;
* `pageInsert_spec`, `pgdirAllocPage_spec` — one entry is set, or there is no memory and no entry
  changes.

A user address has a slot, `userSlot`, and two addresses have the same one if they are on the same
page.  `InRange` are the slots of a range of addresses, with the two steps that a loop through a
range can make: to the next page, and past the rest of a page table.  The loops are in
`Ucore.Pmm.Range`.
-/

set_option autoImplicit false

namespace Ucore

namespace Vm

/-- The entries. -/
def slots (s : Vm) : Owner × ℕ → Pte := s.slot s.tableOf

/-- The invariant for the tables that the state shows. -/
def Good (X : Finset ℕ) (s : Vm) : Prop := s.Inv s.tableOf X

/-- Page tables may have been added, but the contents of memory and the shared memory objects are
the same. -/
structure Grow (s s' : Vm) : Prop where
  mem : s'.mem = s.mem
  shmem : s'.shmem = s.shmem
  shmemPool : s'.shmemPool = s.shmemPool
  pgdir : ∀ d k f, s.pgdir d k = some f → s'.pgdir d k = some f

theorem Rest.grow {s s' : Vm} (h : Rest s s') : Grow s s' :=
  ⟨h.mem, h.shmem, h.shmemPool, fun d k f hf => by rw [h.pgdir]; exact hf⟩

theorem Grow.refl (s : Vm) : Grow s s := (Rest.refl s).grow

theorem Grow.trans {s s' s'' : Vm} (h : Grow s s') (h' : Grow s' s'') : Grow s s'' :=
  ⟨h'.mem.trans h.mem, h'.shmem.trans h.shmem, h'.shmemPool.trans h.shmemPool,
    fun d k f hf => h'.pgdir d k f (h.pgdir d k f hf)⟩

variable {X : Finset ℕ} {s s' : Vm}

theorem Inv.good (h : s'.Inv s.tableOf X) (hr : Rest s s') : s'.Good X := by
  rw [Good, hr.tableOf]
  exact h

/-- Nothing is in use. -/
theorem Good.of_empty (hT : ∀ x, s.tableOf x = none) (href : ∀ p, s.ref p = 0)
    (hlive : s.frames.live = ∅) : s.Good ∅ := by
  have hheld : ∀ x, s.held s.tableOf x = none := by
    intro x
    rw [held, slot, hT]
    rfl
  have hfin : FinitelyHeld (s.held s.tableOf) := by
    rw [FinitelyHeld]
    simp only [hheld, ne_eq, not_true_eq_false]
    exact Set.finite_empty
  refine ⟨?_, ?_, hfin, ?_, ?_, ?_, ?_, ?_, ?_⟩
  · intro x y f hx
    rw [hT] at hx
    cases hx
  · intro x f hx
    rw [hT] at hx
    cases hx
  · intro x p hp
    rw [hheld] at hp
    cases hp
  · intro x _
    rw [slot, hT]
    rfl
  · intro p _
    have h0 : refs (s.held s.tableOf) p = 0 :=
      refs_eq_zero hfin fun x hx => absurd ((hheld x).symm.trans hx) (Option.some_ne_none p).symm
    rw [h0, href]
    rfl
  · intro x p hp
    rw [hheld] at hp
    cases hp
  · exact fun p hp => absurd hp (Finset.notMem_empty p)
  · intro p hp
    rw [hlive] at hp
    exact absurd hp (Finset.notMem_empty p)

theorem slots_of_rest {v : Owner × ℕ → Pte} (h : s'.slot s.tableOf = v) (hr : Rest s s') :
    s'.slots = v := by
  rw [slots, hr.tableOf, h]

end Vm

open Vm

/-! ## The slot of a user address -/

/-- The slot of a user address. -/
def userSlot (d la : ℕ) : Owner × ℕ := (.dir d (pdx la), ptx la)

theorem ptx_lt (la : ℕ) : ptx la < 1024 := Nat.mod_lt _ (by decide)

theorem userSlot_inj {d e la lb : ℕ} :
    userSlot d la = userSlot e lb ↔ d = e ∧ la / pgSize = lb / pgSize := by
  simp only [userSlot, Prod.mk.injEq, Owner.dir.injEq, pdx, ptx, ptSize, pgSize]
  constructor
  · rintro ⟨⟨rfl, h1⟩, h2⟩
    exact ⟨rfl, by omega⟩
  · rintro ⟨rfl, h⟩
    exact ⟨⟨rfl, by omega⟩, by omega⟩

theorem dir_of_eq_userSlot {d e k i la : ℕ} (h : (Owner.dir e k, i) = userSlot d la) : e = d :=
  (Owner.dir.inj (congrArg Prod.fst h)).1

/-- The slots of a page directory are those of addresses. -/
theorem exists_userSlot (d k : ℕ) {i : ℕ} (hi : i < 1024) :
    ∃ la, (Owner.dir d k, i) = userSlot d la := by
  refine ⟨(k * 1024 + i) * pgSize, ?_⟩
  simp only [userSlot, Prod.mk.injEq, Owner.dir.injEq, true_and, pdx, ptx, ptSize, pgSize]
  omega

/-- The slot belongs to an address of a range. -/
def InRange (d start stop : ℕ) (x : Owner × ℕ) : Prop :=
  ∃ la, start ≤ la ∧ la < stop ∧ x = userSlot d la

/-- The next page of a range. -/
theorem InRange.next {d start cur : ℕ} {x : Owner × ℕ} (hcur : cur % pgSize = 0)
    (h : InRange d start (cur + pgSize) x) : InRange d start cur x ∨ x = userSlot d cur := by
  obtain ⟨la, h1, h2, rfl⟩ := h
  by_cases hla : la < cur
  · exact .inl ⟨la, h1, hla, rfl⟩
  · right
    rw [userSlot_inj]
    refine ⟨rfl, ?_⟩
    simp only [pgSize] at *
    omega

/-- The rest of a page table that a range of addresses runs through. -/
theorem InRange.skip {d start cur : ℕ} {x : Owner × ℕ}
    (h : InRange d start (roundDown (cur + ptSize) ptSize) x) :
    InRange d start cur x ∨ x.1 = .dir d (pdx cur) := by
  obtain ⟨la, h1, h2, rfl⟩ := h
  by_cases hla : la < cur
  · exact .inl ⟨la, h1, hla, rfl⟩
  · right
    simp only [userSlot, Owner.dir.injEq, true_and, pdx]
    simp only [roundDown, ptSize] at *
    omega

/-- Addresses below `USERTOP` do not wrap. -/
theorem addrAdd_user {la n : ℕ} (hla : la < userTop) (hn : n ≤ ptSize) : addrAdd la n = la + n := by
  rw [addrAdd]
  refine Nat.mod_eq_of_lt ?_
  simp only [userTop, ptSize] at *
  omega

/-! ## One entry -/

section Entry

variable {T : Owner → Option ℕ} {X : Finset ℕ} {s : Vm}

/-- `page_remove_pte`. -/
theorem pageRemovePte_spec (H : s.Inv T X) {x : Owner} {f : ℕ} (hx : T x = some f) (i : ℕ) :
    ∃ s', pageRemovePte (f, i) s = .ok s' ∧ s'.Inv T X ∧
      s'.slot T = Function.update (s.slot T) (x, i) Pte.zero ∧ Rest s s' := by
  rw [pageRemovePte, Inv.pte_eq hx]
  cases hheld : s.held T (x, i) with
  | none =>
    have hpres := Pte.target_eq_none.1 hheld
    refine ⟨s, by rw [hpres]; rfl, H, ?_, Rest.refl s⟩
    rw [← H.absent _ hheld, Function.update_eq_self]
  | some p =>
    obtain ⟨hpres, hframe⟩ := Pte.target_eq_some.1 hheld
    obtain ⟨s', hrel, H', hslot, hrest⟩ := H.drop hx hheld
    refine ⟨s'.setPte (f, i) Pte.zero, ?_, H', hslot, hrest.mem, hrest.pgdir, hrest.shmem,
      hrest.shmemPool⟩
    rw [hpres, hframe, if_pos rfl, hrel]
    rfl

/-- What giving up a reference can do: the frame is freed if it was the only one. -/
theorem releasePage_cases {p : ℕ} {s' : Vm} (h : releasePage p s = .ok s') :
    s.ref p ≠ 1 ∧ s' = s.pageRefDec p ∨
    s.ref p = 1 ∧ p ∈ s.frames.live ∧
      s' = { (s.pageRefDec p).setPageRef p 0 with frames := s.frames.give p } := by
  have hdec : (s.pageRefDec p).ref p = s.ref p - 1 := Function.update_self ..
  simp only [releasePage, hdec] at h
  by_cases hone : s.ref p = 1
  · rw [if_pos (by omega), Vm.freePage] at h
    split at h
    · next hlive =>
      cases h
      exact .inr ⟨hone, hlive, rfl⟩
    · cases h
  · rw [if_neg (by omega)] at h
    cases h
    exact .inl ⟨hone, rfl⟩

/-- Taking a reference to one frame does not interfere with giving up one to another. -/
theorem releasePage_inc {p q : ℕ} (hne : p ≠ q) {s' : Vm} (h : releasePage q s = .ok s') :
    releasePage q (s.pageRefInc p) = .ok (s'.pageRefInc p) := by
  have hdec : (s.pageRefInc p).pageRefDec q = (s.pageRefDec q).pageRefInc p := by
    simp only [pageRefInc, pageRefDec, setPageRef, Function.update_of_ne hne,
      Function.update_of_ne (Ne.symm hne)]
    rw [Function.update_comm hne]
  have href : ((s.pageRefDec q).pageRefInc p).ref q = (s.pageRefDec q).ref q :=
    Function.update_of_ne (Ne.symm hne) ..
  simp only [releasePage, hdec, href] at h ⊢
  by_cases hz : (s.pageRefDec q).ref q = 0
  · simp only [if_pos hz, Vm.freePage] at h ⊢
    by_cases hlive : q ∈ s.frames.live
    · have hlive' : q ∈ (s.pageRefDec q).frames.live := hlive
      have hlive'' : q ∈ ((s.pageRefDec q).pageRefInc p).frames.live := hlive
      rw [if_pos hlive', Except.ok.injEq] at h
      rw [if_pos hlive'', ← h]
      congr 1
      simp only [pageRefInc, setPageRef, Function.update_of_ne hne]
      rw [Function.update_comm hne]
    · have hlive' : q ∉ (s.pageRefDec q).frames.live := hlive
      rw [if_neg hlive'] at h
      cases h
  · simp only [if_neg hz, Except.ok.injEq] at h ⊢
    rw [h]

/-- `page_insert` once it has an entry. -/
theorem insertPte_spec (H : s.Inv T X) {x : Owner} {f i p : ℕ} (hx : T x = some f) (hi : i < 1024)
    (hp : p ∈ X ∨ ∃ y, s.held T y = some p) (perm : Perm) :
    ∃ s', insertPte p perm (f, i) s = .ok s' ∧ s'.Inv T (X.erase p) ∧
      s'.slot T = Function.update (s.slot T) (x, i) ⟨p, true, perm⟩ ∧ Rest s s' := by
  have hpte : (s.pageRefInc p).pte (f, i) = s.slot T (x, i) := Inv.pte_eq hx i
  simp only [insertPte, hpte]
  cases hheld : s.held T (x, i) with
  | none =>
    -- the entry is 0
    have hpres := Pte.target_eq_none.1 hheld
    obtain ⟨H', hslot⟩ := H.take hx hi hheld hp perm
    refine ⟨(s.pageRefInc p).setPte (f, i) ⟨p, true, perm⟩, ?_, H', hslot, rfl, rfl, rfl, rfl⟩
    simp only [hpres, Bool.false_eq_true, if_false, Res.ok_bind, Res.pure_eq]
  | some q =>
    obtain ⟨hpres, hframe⟩ := Pte.target_eq_some.1 hheld
    simp only [hpres, if_true, hframe]
    by_cases hqp : q = p
    · -- the entry has the frame already: the count goes up and down again
      subst hqp
      have hback : (s.pageRefInc q).pageRefDec q = s := by
        simp only [pageRefInc, pageRefDec, setPageRef, Function.update_self, Function.update_idem,
          add_sub_cancel_right, Function.update_eq_self]
      obtain ⟨H', hslot⟩ := H.setPerm hx hheld perm
      refine ⟨s.setPte (f, i) ⟨q, true, perm⟩, ?_, ?_, hslot, rfl, rfl, rfl, rfl⟩
      · simp only [if_true, hback, Res.ok_bind, Res.pure_eq]
      · rw [Finset.erase_eq_of_notMem (H.used _ q hheld).2.1]
        exact H'
    · -- the entry has another frame, which it lets go of
      obtain ⟨s₁, hrel, H₁, hslot₁, hrest₁⟩ := H.drop hx hheld
      have hheld₁ := held_update hslot₁
      have hp₁ : p ∈ X ∨ ∃ y, (s₁.setPte (f, i) Pte.zero).held T y = some p := by
        refine hp.imp_right ?_
        rintro ⟨y, hy⟩
        refine ⟨y, ?_⟩
        rw [hheld₁, Function.update_of_ne]
        · exact hy
        · rintro rfl
          rw [hheld, Option.some.injEq] at hy
          exact hqp hy
      have hzero : (s₁.setPte (f, i) Pte.zero).held T (x, i) = none := by
        rw [hheld₁, Function.update_self]
        rfl
      obtain ⟨H₂, hslot₂⟩ := H₁.take hx hi hzero hp₁ perm
      refine ⟨_, ?_, H₂, ?_, hrest₁.mem, hrest₁.pgdir, hrest₁.shmem, hrest₁.shmemPool⟩
      · simp only [if_neg hqp, pageRemovePte, hpte, hpres, if_true, hframe,
          releasePage_inc (Ne.symm hqp) hrel, Res.ok_bind, Res.pure_eq]
        rfl
      · rw [hslot₂, hslot₁, Function.update_idem]

end Entry

/-! ## The entry of an address -/

section Insert

variable {X : Finset ℕ} {s : Vm}

theorem tableOf_setPde (s : Vm) (d k : ℕ) (v : Option ℕ) :
    (s.setPde d k v).tableOf = Function.update s.tableOf (.dir d k) v := by
  funext x
  cases x with
  | node o m => rw [Function.update_of_ne (by simp)]; rfl
  | dir e l =>
    show Function.update s.pgdir d (Function.update (s.pgdir d) k v) e l = _
    by_cases he : e = d
    · subst he
      rw [Function.update_self]
      by_cases hl : l = k
      · rw [hl, Function.update_self, Function.update_self]
      · rw [Function.update_of_ne hl, Function.update_of_ne (by simp [hl])]
        rfl
    · rw [Function.update_of_ne he, Function.update_of_ne (by simp [he])]
      rfl

/-- `get_pte` without `create`. -/
theorem getPte_find (d la : ℕ) (s : Vm) :
    getPte d la false s = ((s.pgdir d (pdx la)).map fun f => (f, ptx la), s) := by
  rw [getPte]
  cases s.pgdir d (pdx la) <;> rfl

/-- `get_pte` finds a page table or makes one, unless there is no memory for it. -/
theorem getPte_spec (H : s.Good X) (d la : ℕ) :
    (∃ s', getPte d la true s = (none, s') ∧ s'.Good X ∧ s'.slots = s.slots ∧
      s.pgdir d (pdx la) = none ∧ Rest s s') ∨
    ∃ f s', getPte d la true s = (some (f, ptx la), s') ∧ s'.Good X ∧ s'.slots = s.slots ∧
      s'.pgdir d (pdx la) = some f ∧ Grow s s' := by
  rw [getPte]
  cases hpde : s.pgdir d (pdx la) with
  | some f => exact .inr ⟨f, s, rfl, H, rfl, hpde, Grow.refl s⟩
  | none =>
    have hT : s.tableOf (.dir d (pdx la)) = none := hpde
    simp only [Bool.not_true, Bool.false_eq_true, if_false]
    rcases Inv.allocPage H with ⟨s₁, halloc, H₁, hslot, hrest⟩ |
      ⟨f, s₁, halloc, hfresh, H₁, hslot, hrest⟩
    · rw [halloc]
      exact .inl ⟨s₁, rfl, H₁.good hrest, slots_of_rest hslot hrest, trivial, hrest⟩
    · rw [halloc]
      have hfX : f ∉ X := fun h => hfresh (H.spare f h)
      set s₂ := ((s₁.setPageRef f 1).zeroTable f).setPde d (pdx la) (some f) with hs₂
      have htable : s₂.tableOf = Function.update s.tableOf (.dir d (pdx la)) (some f) := by
        rw [hs₂, tableOf_setPde, ← hrest.tableOf]
        rfl
      have hframes : s₂.frames = s₁.frames := rfl
      obtain ⟨H₂, hslot₂⟩ := H₁.addTable (Finset.mem_insert_self f X) hT hframes rfl
        (fun p hp => Function.update_of_ne hp ..)
      rw [Finset.erase_insert hfX] at H₂
      refine .inr ⟨f, s₂, rfl, ?_, ?_, ?_, hrest.mem, hrest.shmem, hrest.shmemPool, ?_⟩
      · rw [Good, htable]
        exact H₂
      · rw [slots, htable, hslot₂, hslot]
        rfl
      · simp only [hs₂, setPde, Function.update_self]
      · intro e k g hg
        have hg' : s.tableOf (.dir e k) = some g := hg
        have hT' := congrFun htable (.dir e k)
        rw [Function.update_of_ne (fun h => by rw [h, hT] at hg'; cases hg'), hg'] at hT'
        exact hT'

/-- `page_insert`. -/
theorem pageInsert_spec (H : s.Good X) (d la : ℕ) {p : ℕ}
    (hp : p ∈ X ∨ ∃ y, (s.slots y).target = some p) (perm : Perm) :
    (∃ s', pageInsert d p la perm s = .ok (-eNoMem, s') ∧ s'.Good X ∧ s'.slots = s.slots ∧
      s.pgdir d (pdx la) = none ∧ Rest s s') ∨
    ∃ s', pageInsert d p la perm s = .ok (0, s') ∧ s'.Good (X.erase p) ∧
      s'.slots = Function.update s.slots (userSlot d la) ⟨p, true, perm⟩ ∧ Grow s s' := by
  rw [pageInsert]
  rcases getPte_spec H d la with ⟨s₁, hget, H₁, hslots, hnone, hrest⟩ |
    ⟨f, s₁, hget, H₁, hslots, hpde, hgrow⟩
  · rw [hget]
    exact .inl ⟨s₁, rfl, H₁, hslots, hnone, hrest⟩
  · rw [hget]
    have hp' : p ∈ X ∨ ∃ y, s₁.held s₁.tableOf y = some p := by
      refine hp.imp_right fun ⟨y, hy⟩ => ⟨y, ?_⟩
      rw [← hslots] at hy
      exact hy
    obtain ⟨s₂, hins, H₂, hslot₂, hrest₂⟩ :=
      insertPte_spec H₁ (x := .dir d (pdx la)) hpde (ptx_lt la)
      hp' perm
    refine .inr ⟨s₂, ?_, H₂.good hrest₂, ?_, hgrow.trans hrest₂.grow⟩
    · simp only [hins, Res.ok_bind, Res.pure_eq]
    · rw [slots_of_rest hslot₂ hrest₂, ← hslots]
      rfl

/-- `pgdir_alloc_page`. -/
theorem pgdirAllocPage_spec (H : s.Good X) (d la : ℕ) (perm : Perm) :
    (∃ s', pgdirAllocPage d la perm s = .ok (none, s') ∧ s'.Good X ∧ s'.slots = s.slots ∧
      Rest s s') ∨
    ∃ p s', pgdirAllocPage d la perm s = .ok (some p, s') ∧ p ∉ s.frames.live ∧ s'.Good X ∧
      s'.slots = Function.update s.slots (userSlot d la) ⟨p, true, perm⟩ ∧ Grow s s' := by
  rw [pgdirAllocPage]
  rcases Inv.allocPage H with ⟨s₁, halloc, H₁, hslot, hrest⟩ |
    ⟨p, s₁, halloc, hfresh, H₁, hslot, hrest⟩
  · rw [halloc]
    exact .inl ⟨s₁, rfl, H₁.good hrest, slots_of_rest hslot hrest, hrest⟩
  · rw [halloc]
    have herase : (insert p X).erase p = X := Finset.erase_insert fun h => hfresh (H.spare p h)
    have hslots₁ : s₁.slots = s.slots := slots_of_rest hslot hrest
    rcases pageInsert_spec (H₁.good hrest) d la (.inl (Finset.mem_insert_self p X)) perm with
      ⟨s₂, hins, H₂, hslots₂, -, hrest₂⟩ | ⟨s₂, hins, H₂, hslots₂, hgrow⟩
    · obtain ⟨s₃, hfree, H₃, hslot₃, hrest₃⟩ := Inv.freePage H₂ (Finset.mem_insert_self p X)
      rw [herase] at H₃
      refine .inl ⟨s₃, ?_, H₃.good hrest₃, ?_, (hrest.trans hrest₂).trans hrest₃⟩
      · have hne : -eNoMem ≠ 0 := by decide
        simp only [hins, Res.ok_bind, if_pos hne, hfree, Res.pure_eq]
      · rw [slots_of_rest hslot₃ hrest₃]
        exact hslots₂.trans hslots₁
    · rw [herase] at H₂
      refine .inr ⟨p, s₂, ?_, hfresh, H₂, ?_, hrest.grow.trans hgrow⟩
      · simp only [hins, Res.ok_bind, ne_eq, not_true_eq_false, if_false, Res.pure_eq]
      · rw [hslots₂, hslots₁]

end Insert

end Ucore
