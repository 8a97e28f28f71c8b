import Ucore.Pmm.Tables

/-!
# The loops of `pmm.c` over a range of addresses

`unmap_range`, `exit_range` and `copy_range` go through a range of addresses page by page, or table
by table where there is no page table.  For each of them there is a lemma about one round, and the
result about the loop is put together from it by `doWhile_spec`:

* `unmapRange_spec` — the entries of the range become 0, and a frame nobody refers to any more is
  freed;
* `exitRange_spec` — the page tables that meet the range are freed;
* `copyRange_spec` — the entries are copied, without `PTE_W` if the area is private, up to the point
  where there is no memory for a page table.

The invariant of each loop is what the loop is for, with the position in the place of the end of the
range.  A round either deals with the entry of one address, or passes over a page table that does
not exist, whose entries count as 0 (`slots_of_none`).  The loops test their guard behind the body,
and the guard also stops at the address 0, which an end at the top of the address space would wrap
around to (`guard_iff`).

`Copied` is the invariant of `copy_range`, and the rounds are `copyPage_spec` for one page and
`protectPage_spec` for its entry: the source loses `PTE_W` as well, so that both address spaces
fault when they write.
-/

set_option autoImplicit false

namespace Ucore

open Vm

/-- A range of addresses that the loops accept. -/
structure RangeOk (start stop : ℕ) : Prop where
  access : userAccess start stop = true
  start_aligned : start % pgSize = 0
  stop_aligned : stop % pgSize = 0

theorem RangeOk.lt {start stop : ℕ} (h : RangeOk start stop) : start < stop :=
  (userAccess_iff.1 h.access).2.1

theorem RangeOk.le_top {start stop : ℕ} (h : RangeOk start stop) : stop ≤ userTop :=
  (userAccess_iff.1 h.access).2.2

theorem RangeOk.base_le {start stop : ℕ} (h : RangeOk start stop) : userBase ≤ start :=
  (userAccess_iff.1 h.access).1

theorem Vma.Valid.rangeOk {a : Vma} (h : a.Valid) : RangeOk a.vmStart a.vmEnd :=
  ⟨userAccess_iff.2 ⟨h.base_le, h.lt, h.le_top⟩, h.start_aligned, h.end_aligned⟩

/-- The guard of the loops. -/
theorem guard_iff {next stop : ℕ} (h : 0 < next) :
    (decide (next ≠ 0) && decide (next < stop)) = decide (next < stop) := by
  rw [decide_eq_true (Nat.pos_iff_ne_zero.1 h), Bool.true_and]

section Range

variable {X : Finset ℕ} {s : Vm}

/-- A slot whose owner has no table is empty. -/
theorem slots_of_none {x : Owner} (hx : s.tableOf x = none) (i : ℕ) :
    s.slots (x, i) = Pte.zero := by
  rw [slots, slot, hx]
  rfl

/-! ## `unmap_range` -/

/-- One round removes the entry of an address, or passes over a page table that does not exist. -/
theorem unmapRound_spec (H : s.Good X) (d : ℕ) {cur : ℕ} (hcur : cur % pgSize = 0)
    (htop : cur < userTop) : ∃ next s', unmapRound d (cur, s) = .ok (next, s') ∧ s'.Good X ∧
      Rest s s' ∧ cur + pgSize ≤ next ∧ next % pgSize = 0 ∧
      (∀ x, InRange d cur next x → s'.slots x = Pte.zero) ∧
      ∀ x, x ≠ userSlot d cur → s'.slots x = s.slots x := by
  simp only [unmapRound, getPte_find]
  cases hpde : s.pgdir d (pdx cur) with
  | none =>
    refine ⟨roundDown (addrAdd cur ptSize) ptSize, s, rfl, H, Rest.refl s, ?_, ?_, ?_,
      fun _ _ => rfl⟩
    · rw [addrAdd_user htop le_rfl]
      simp only [roundDown, ptSize, pgSize] at *
      omega
    · rw [addrAdd_user htop le_rfl]
      simp only [roundDown, ptSize, pgSize] at *
      omega
    · rw [addrAdd_user htop le_rfl]
      intro x hx
      rcases hx.skip with ⟨la, h1, h2, -⟩ | hx
      · omega
      · obtain ⟨y, i⟩ := x
        rw [show y = .dir d (pdx cur) from hx]
        exact slots_of_none (show s.tableOf (.dir d (pdx cur)) = none from hpde) i
  | some f =>
    have hnext : addrAdd cur pgSize = cur + pgSize := addrAdd_user htop (by decide)
    simp only [Option.map_some, hnext]
    have hx : s.tableOf (.dir d (pdx cur)) = some f := hpde
    have hpte : s.pte (f, ptx cur) = s.slots (userSlot d cur) := Inv.pte_eq hx _
    have hpage : ∀ x, InRange d cur (cur + pgSize) x → x = userSlot d cur := by
      intro x hx
      rcases hx.next hcur with ⟨la, h1, h2, -⟩ | hx
      · omega
      · exact hx
    have hmod : (cur + pgSize) % pgSize = 0 := by rw [Nat.add_mod_right, hcur]
    by_cases hzero : s.pte (f, ptx cur) = Pte.zero
    · refine ⟨cur + pgSize, s, ?_, H, Rest.refl s, le_rfl, hmod, ?_, fun _ _ => rfl⟩
      · simp only [ne_eq, hzero, not_true_eq_false, if_false, Res.ok_bind, Res.pure_eq]
      · intro x hx
        rw [hpage x hx, ← hpte, hzero]
    · obtain ⟨s', hrem, H', hslot, hrest⟩ := pageRemovePte_spec H hx (ptx cur)
      have hslots := slots_of_rest hslot hrest
      refine ⟨cur + pgSize, s', ?_, H'.good hrest, hrest, le_rfl, hmod, ?_, ?_⟩
      · simp only [ne_eq, hzero, not_false_eq_true, if_true, hrem, Res.ok_bind, Res.pure_eq]
      · intro x hx
        rw [hslots, hpage x hx]
        exact Function.update_self ..
      · intro x hx
        rw [hslots]
        exact Function.update_of_ne hx ..

/-- **`unmap_range` clears the entries of its range.** -/
theorem unmapRange_spec (H : s.Good X) (d : ℕ) {start stop : ℕ} (hr : RangeOk start stop) :
    ∃ s', unmapRange d start stop s = .ok s' ∧ s'.Good X ∧ Rest s s' ∧
      (∀ x, InRange d start stop x → s'.slots x = Pte.zero) ∧
      ∀ x, ¬ InRange d start stop x → s'.slots x = s.slots x := by
  have hmain : ∃ t : ℕ × Vm, doWhile (fun t : ℕ × Vm => t.1 ≠ 0 && t.1 < stop) (unmapRound d)
      (stop / pgSize) (start, s) = .ok t ∧ t.2.Good X ∧ Rest s t.2 ∧
      (∀ x, InRange d start stop x → t.2.slots x = Pte.zero) ∧
      ∀ x, ¬ InRange d start stop x → t.2.slots x = s.slots x := by
    refine doWhile_spec (fun n t => t.1 % pgSize = 0 ∧ start ≤ t.1 ∧ t.1 < stop ∧
      n = (stop - t.1) / pgSize ∧ t.2.Good X ∧ Rest s t.2 ∧
      (∀ x, InRange d start t.1 x → t.2.slots x = Pte.zero) ∧
      ∀ x, ¬ InRange d start stop x → t.2.slots x = s.slots x)
      ⟨hr.start_aligned, le_rfl, hr.lt, rfl, H, Rest.refl s, ?_, fun _ _ => rfl⟩ ?_ ?_
    · rintro x ⟨la, h1, h2, -⟩
      omega
    · have := hr.lt
      simp only [pgSize]
      omega
    · rintro n ⟨cur, s₁⟩ ⟨hcur, hle, hlt, rfl, H₁, hrest, hdone, hother⟩
      obtain ⟨next, s₂, hround, H₂, hrest₂, hnext, hmod, hnew, hsame⟩ :=
        unmapRound_spec H₁ d hcur (lt_of_lt_of_le hlt hr.le_top)
      have hdone' : ∀ x, InRange d start next x → s₂.slots x = Pte.zero := by
        rintro x ⟨la, h1, h2, rfl⟩
        by_cases hla : cur ≤ la
        · exact hnew _ ⟨la, hla, h2, rfl⟩
        · have hne : userSlot d la ≠ userSlot d cur := by
            rw [ne_eq, userSlot_inj]
            simp only [pgSize] at *
            omega
          rw [hsame _ hne]
          exact hdone _ ⟨la, h1, by omega, rfl⟩
      have hother' : ∀ x, ¬ InRange d start stop x → s₂.slots x = s.slots x := by
        intro x hx
        rw [hsame x fun h => hx ⟨cur, hle, hlt, h⟩]
        exact hother x hx
      have hpos : 0 < next := by
        simp only [pgSize] at *
        omega
      refine ⟨(next, s₂), (stop - next) / pgSize, hround, ?_, ?_⟩
      · simp only [pgSize] at *
        have := hr.stop_aligned
        simp only [pgSize] at this
        omega
      · simp only [guard_iff hpos, decide_eq_true_eq, decide_eq_false_iff_not]
        by_cases hstop : next < stop
        · exact .inl ⟨hstop, hmod, by omega, hstop, trivial, H₂, hrest.trans hrest₂, hdone',
            hother'⟩
        · refine .inr ⟨hstop, H₂, hrest.trans hrest₂, ?_, hother'⟩
          rintro x ⟨la, h1, h2, rfl⟩
          exact hdone' _ ⟨la, h1, by omega, rfl⟩
  obtain ⟨⟨cur, s'⟩, hrun, hpost⟩ := hmain
  refine ⟨s', ?_, hpost⟩
  rw [unmapRange, assert_pos ⟨hr.start_aligned, hr.stop_aligned⟩, Res.ok_bind,
    assert_pos hr.access, Res.ok_bind, hrun, Res.ok_bind]
  rfl

/-! ## `exit_range` -/

/-- The page table with the number `k` has addresses of a range. -/
def TableMeets (start stop k : ℕ) : Prop := start < (k + 1) * ptSize ∧ k * ptSize < stop

/-- One round frees a page table, which has to be empty. -/
theorem exitRound_spec (H : s.Good X) (d : ℕ) {k : ℕ} (hk : k * ptSize < userTop)
    (hempty : ∀ k i, s.slots (.dir d k, i) = Pte.zero) :
    ∃ s', exitRound d (k * ptSize, s) = .ok ((k + 1) * ptSize, s') ∧ s'.Good X ∧
      s'.slots = s.slots ∧ s'.mem = s.mem ∧ s'.shmem = s.shmem ∧ s'.shmemPool = s.shmemPool ∧
      s'.pgdir = (s.setPde d k none).pgdir ∧
      s'.frames.live = s.frames.live \ (s.pgdir d k).toFinset := by
  have hpdx : pdx (k * ptSize) = k := by
    rw [pdx, Nat.mul_div_cancel _ (by decide)]
  have hnext : addrAdd (k * ptSize) ptSize = (k + 1) * ptSize := by
    rw [addrAdd_user hk le_rfl, Nat.succ_mul]
  simp only [exitRound, hpdx, hnext]
  cases hpde : s.pgdir d k with
  | none =>
    refine ⟨s, rfl, H, rfl, rfl, rfl, rfl, ?_, ?_⟩
    · simp only [setPde, ← hpde, Function.update_eq_self]
    · rw [Option.toFinset_none, Finset.sdiff_empty]
  | some f =>
    obtain ⟨s₁, hfree, H₁, hslot, hlive, hrest⟩ := Inv.dropTable H (x := .dir d k) hpde
      (fun i => hempty k i)
    have hT : (s₁.setPde d k none).tableOf = Function.update s.tableOf (.dir d k) none := by
      rw [tableOf_setPde, hrest.tableOf]
    refine ⟨s₁.setPde d k none, ?_, ?_, ?_, hrest.mem, hrest.shmem, hrest.shmemPool, ?_, ?_⟩
    · simp only [Option.elim_some, hfree, Res.ok_bind, Res.pure_eq]
    · rw [Good, hT]
      exact ⟨H₁.unique, H₁.tables, H₁.finite, H₁.index, H₁.absent, H₁.ref, H₁.used, H₁.spare,
        H₁.live⟩
    · rw [slots, hT]
      exact hslot
    · simp only [setPde, hrest.pgdir]
    · rw [Option.toFinset_some, Finset.sdiff_singleton_eq_erase]
      exact hlive

/-- **`exit_range` frees the page tables of its range**, if there are no entries left in them. -/
theorem exitRange_spec (H : s.Good X) (d : ℕ) {start stop : ℕ} (hr : RangeOk start stop)
    (hempty : ∀ k i, s.slots (.dir d k, i) = Pte.zero) :
    ∃ s', exitRange d start stop s = .ok s' ∧ s'.Good X ∧ s'.slots = s.slots ∧ s'.mem = s.mem ∧
      s'.shmem = s.shmem ∧ s'.shmemPool = s.shmemPool ∧
      (∀ e k, e = d ∧ TableMeets start stop k → s'.pgdir e k = none) ∧
      (∀ e k, ¬ (e = d ∧ TableMeets start stop k) → s'.pgdir e k = s.pgdir e k) ∧
      (∀ f, f ∈ s'.frames.live ↔ f ∈ s.frames.live ∧
        ¬ ∃ k, TableMeets start stop k ∧ s.pgdir d k = some f) := by
  set k₀ := start / ptSize with hk
  have hk₀ : roundDown start ptSize = k₀ * ptSize := by
    simp only [roundDown, ptSize, hk]
    omega
  have hlt := hr.lt
  have htop := hr.le_top
  have hmeets : ∀ k, TableMeets start stop k ↔ k₀ ≤ k ∧ k * ptSize < stop := by
    intro k
    simp only [TableMeets, ptSize, hk]
    omega
  have hmain : ∃ t : ℕ × Vm, doWhile (fun t : ℕ × Vm => t.1 ≠ 0 && t.1 < stop) (exitRound d)
      (stop / ptSize + 1) (k₀ * ptSize, s) = .ok t ∧ t.2.Good X ∧ t.2.slots = s.slots ∧
      t.2.mem = s.mem ∧ t.2.shmem = s.shmem ∧ t.2.shmemPool = s.shmemPool ∧
      (∀ e k, e = d ∧ TableMeets start stop k → t.2.pgdir e k = none) ∧
      (∀ e k, ¬ (e = d ∧ TableMeets start stop k) → t.2.pgdir e k = s.pgdir e k) ∧
      (∀ f, f ∈ t.2.frames.live ↔ f ∈ s.frames.live ∧
        ¬ ∃ k, TableMeets start stop k ∧ s.pgdir d k = some f) := by
    -- the page tables from `k₀` to `k` have been dealt with
    refine doWhile_spec (fun n t => ∃ k, t.1 = k * ptSize ∧ k₀ ≤ k ∧ k * ptSize < stop ∧
      n + k = stop / ptSize + 1 ∧ t.2.Good X ∧ t.2.slots = s.slots ∧
      t.2.mem = s.mem ∧ t.2.shmem = s.shmem ∧ t.2.shmemPool = s.shmemPool ∧
      (∀ e l, e = d ∧ k₀ ≤ l ∧ l < k → t.2.pgdir e l = none) ∧
      (∀ e l, ¬ (e = d ∧ k₀ ≤ l ∧ l < k) → t.2.pgdir e l = s.pgdir e l) ∧
      (∀ f, f ∈ t.2.frames.live ↔ f ∈ s.frames.live ∧
        ¬ ∃ l, (k₀ ≤ l ∧ l < k) ∧ s.pgdir d l = some f))
      ⟨k₀, rfl, le_rfl, ?_, Nat.sub_add_cancel ?_, H, rfl, rfl, rfl, rfl, ?_, fun _ _ _ => rfl, ?_⟩
      ?_ ?_
    · simp only [ptSize, hk] at *
      omega
    · simp only [ptSize, hk] at *
      omega
    · rintro e l ⟨-, h1, h2⟩
      omega
    · refine fun f => ⟨fun hf => ⟨hf, ?_⟩, fun hf => hf.1⟩
      rintro ⟨l, ⟨h1, h2⟩, -⟩
      omega
    · exact (Nat.sub_le _ _).trans (Nat.le_succ _)
    · rintro n ⟨cur, s₁⟩ ⟨k, hcur, hle, hkstop, hn, H₁, hslots, hmem, hsh, hpool, hnone, hsame,
        hlive⟩
      have hcur' : cur = k * ptSize := hcur
      subst hcur'
      obtain ⟨s₂, hround, H₂, hslots₂, hmem₂, hsh₂, hpool₂, hpgdir₂, hlive₂⟩ :=
        exitRound_spec H₁ d (lt_of_lt_of_le hkstop htop) (fun k i => by
          show s₁.slots _ = _
          rw [show s₁.slots = s.slots from hslots]
          exact hempty k i)
      have hpk : s₁.pgdir d k = s.pgdir d k := hsame d k (by omega)
      have hnone' : ∀ e l, e = d ∧ k₀ ≤ l ∧ l < k + 1 → s₂.pgdir e l = none := by
        rintro e l ⟨rfl, h1, h2⟩
        rw [hpgdir₂]
        simp only [setPde, Function.update_self]
        by_cases hl : l = k
        · rw [hl, Function.update_self]
        · rw [Function.update_of_ne hl]
          exact hnone e l ⟨rfl, h1, by omega⟩
      have hsame' : ∀ e l, ¬ (e = d ∧ k₀ ≤ l ∧ l < k + 1) → s₂.pgdir e l = s.pgdir e l := by
        intro e l h
        rw [hpgdir₂, ← hsame e l (by omega)]
        simp only [setPde]
        by_cases he : e = d
        · subst he
          rw [Function.update_self, Function.update_of_ne (by omega)]
        · rw [Function.update_of_ne he]
      have hlive' : ∀ f, f ∈ s₂.frames.live ↔ f ∈ s.frames.live ∧
          ¬ ∃ l, (k₀ ≤ l ∧ l < k + 1) ∧ s.pgdir d l = some f := by
        intro f
        rw [hlive₂, Finset.mem_sdiff, hlive f, hpk, Option.mem_toFinset, Option.mem_def, and_assoc]
        refine and_congr_right fun _ => ⟨?_, ?_⟩
        · rintro ⟨h1, h2⟩ ⟨l, ⟨h3, h4⟩, h5⟩
          by_cases hl : l = k
          · exact h2 (hl ▸ h5)
          · exact h1 ⟨l, ⟨h3, by omega⟩, h5⟩
        · intro h
          refine ⟨?_, fun h5 => h ⟨k, ⟨hle, by omega⟩, h5⟩⟩
          rintro ⟨l, ⟨h3, h4⟩, h5⟩
          exact h ⟨l, ⟨h3, by omega⟩, h5⟩
      have hpos : 0 < (k + 1) * ptSize := by
        simp only [ptSize]
        omega
      refine ⟨((k + 1) * ptSize, s₂), n - 1, hround, ?_, ?_⟩
      · simp only [ptSize] at *
        omega
      · simp only [guard_iff hpos, decide_eq_true_eq, decide_eq_false_iff_not]
        by_cases hstop : (k + 1) * ptSize < stop
        · refine .inl ⟨hstop, k + 1, rfl, by omega, hstop, ?_, H₂, hslots₂.trans hslots,
            hmem₂.trans hmem, hsh₂.trans hsh, hpool₂.trans hpool, hnone', hsame', hlive'⟩
          simp only [ptSize] at *
          omega
        · have hiff : ∀ l, TableMeets start stop l ↔ k₀ ≤ l ∧ l < k + 1 := by
            intro l
            rw [hmeets]
            simp only [ptSize] at *
            omega
          simp only [hiff]
          exact .inr ⟨hstop, H₂, hslots₂.trans hslots, hmem₂.trans hmem, hsh₂.trans hsh,
            hpool₂.trans hpool, hnone', hsame', hlive'⟩
  obtain ⟨⟨cur, s'⟩, hrun, hpost⟩ := hmain
  refine ⟨s', ?_, hpost⟩
  rw [exitRange, assert_pos ⟨hr.start_aligned, hr.stop_aligned⟩, Res.ok_bind,
    assert_pos hr.access, Res.ok_bind, hk₀, hrun, Res.ok_bind]
  rfl

/-! ## `copy_range` -/

/-- The entry that `copy_range` leaves in the source and stores in the target. -/
def Pte.protect (share : Bool) (e : Pte) : Pte :=
  if share then e else { e with perm := { e.perm with writable := false } }

@[simp] theorem Pte.protect_zero (share : Bool) : Pte.zero.protect share = Pte.zero := by
  cases share <;> rfl

@[simp] theorem Pte.protect_target (share : Bool) (e : Pte) :
    (e.protect share).target = e.target := by
  cases share <;> rfl

theorem Pte.protect_of_not_writable {e : Pte} (he : e.perm.writable = false) (share : Bool) :
    e.protect share = e := by
  obtain ⟨frame, present, writable, user⟩ := e
  have he' : writable = false := he
  cases share <;> simp [Pte.protect, he']

/-- A present entry is set again, without `PTE_W` if it belongs to a private area. -/
theorem protectPage_spec (H : s.Good X) {src la f p : ℕ} (share : Bool)
    (hpde : s.pgdir src (pdx la) = some f) (hp : (s.slots (userSlot src la)).target = some p) :
    ∃ s', protectPage src la share (s.slots (userSlot src la)) s =
        .ok (((s.slots (userSlot src la)).protect share).perm, s') ∧ s'.Good X ∧ Grow s s' ∧
      s'.slots = Function.update s.slots (userSlot src la)
        ((s.slots (userSlot src la)).protect share) := by
  obtain ⟨hpres, hframe⟩ := Pte.target_eq_some.1 hp
  rw [protectPage]
  by_cases hw : (!share && (s.slots (userSlot src la)).perm.writable) = true
  · obtain ⟨hshare, hwrite⟩ := Bool.and_eq_true_iff.1 hw
    rw [Bool.not_eq_true'] at hshare
    subst hshare
    rcases pageInsert_spec H src la (.inr ⟨_, hp⟩)
      { (s.slots (userSlot src la)).perm with writable := false } with
      ⟨-, -, -, -, hnone, -⟩ | ⟨s', hins, H', hslots, hgrow⟩
    · rw [hpde] at hnone
      cases hnone
    · rw [Finset.erase_eq_of_notMem (H.used _ p hp).2.1] at H'
      refine ⟨s', ?_, H', hgrow, ?_⟩
      · simp only [hwrite, Bool.not_false, Bool.and_self, if_true, hframe, hins, Res.ok_bind,
          Res.pure_eq]
        rfl
      · rw [hslots, Pte.protect, if_neg Bool.false_ne_true, hpres, hframe]
  · have hsame : (s.slots (userSlot src la)).protect share = s.slots (userSlot src la) := by
      cases hshare : share with
      | true => rfl
      | false =>
        rw [hshare, Bool.not_false, Bool.true_and, Bool.not_eq_true] at hw
        exact Pte.protect_of_not_writable hw false
    refine ⟨s, ?_, H, Grow.refl s, ?_⟩
    · rw [if_neg hw, hsame]
    · rw [hsame, Function.update_eq_self]

/-- One page is copied, or there is no memory for a page table and nothing changes. -/
theorem copyPage_spec (H : s.Good X) {dst src la f p : ℕ} (share : Bool)
    (hpde : s.pgdir src (pdx la) = some f) (hp : (s.slots (userSlot src la)).target = some p)
    (hzero : s.slots (userSlot dst la) = Pte.zero) :
    ∃ ok s', copyPage dst src la share (f, ptx la) s = .ok (ok, s') ∧ s'.Good X ∧ Grow s s' ∧
      (ok = false → s'.slots = s.slots) ∧
      (ok = true → s'.slots = Function.update (Function.update s.slots (userSlot src la)
        ((s.slots (userSlot src la)).protect share)) (userSlot dst la)
        ((s.slots (userSlot src la)).protect share)) := by
  rw [copyPage]
  rcases getPte_spec H dst la with ⟨s₁, hget, H₁, hslots₁, -, hrest₁⟩ |
    ⟨g, s₁, hget, H₁, hslots₁, hpde₁, hgrow₁⟩
  · rw [hget]
    exact ⟨false, s₁, rfl, H₁, hrest₁.grow, fun _ => hslots₁, nofun⟩
  · rw [hget]
    have hsrc : s₁.pgdir src (pdx la) = some f := hgrow₁.pgdir _ _ _ hpde
    have hpte : s₁.pte (f, ptx la) = s₁.slots (userSlot src la) :=
      Inv.pte_eq (T := s₁.tableOf) (x := .dir src (pdx la)) hsrc _
    have hnpte : s₁.pte (g, ptx la) = s₁.slots (userSlot dst la) :=
      Inv.pte_eq (T := s₁.tableOf) (x := .dir dst (pdx la)) hpde₁ _
    obtain ⟨hpres, hframe⟩ := Pte.target_eq_some.1 hp
    have hassert : s₁.pte (f, ptx la) ≠ Pte.zero ∧ s₁.pte (g, ptx la) = Pte.zero := by
      rw [hpte, hnpte, hslots₁, hzero]
      refine ⟨fun h => ?_, rfl⟩
      rw [h] at hpres
      cases hpres
    rw [← hslots₁] at hp
    obtain ⟨s₂, hprot, H₂, hgrow₂, hslots₂⟩ := protectPage_spec H₁ share hsrc hp
    have hheld₂ : ∃ y, (s₂.slots y).target = some p := by
      refine ⟨userSlot src la, ?_⟩
      rw [hslots₂, Function.update_self, Pte.protect_target]
      exact hp
    rcases pageInsert_spec H₂ dst la (.inr hheld₂)
      ((s₁.slots (userSlot src la)).protect share).perm with
      ⟨-, -, -, -, hnone, -⟩ | ⟨s₃, hins, H₃, hslots₃, hgrow₃⟩
    · rw [hgrow₂.pgdir _ _ _ hpde₁] at hnone
      cases hnone
    · obtain ⟨y, hy⟩ := hheld₂
      rw [Finset.erase_eq_of_notMem (H₂.used y p hy).2.1] at H₃
      refine ⟨true, s₃, ?_, H₃, (hgrow₁.trans hgrow₂).trans hgrow₃, nofun, fun _ => ?_⟩
      · rw [← hslots₁] at hpres hframe
        rw [hpte] at hassert
        simp only [assert_pos hassert, Res.ok_bind, hpte, hpres, if_true, hframe, hprot, hins,
          assert_pos, Res.pure_eq]
      · rw [← hslots₁] at hpres hframe ⊢
        rw [hslots₃, hslots₂]
        congr 1
        rw [← hframe]
        cases share
        · rw [Pte.protect, if_neg Bool.false_ne_true, hpres]
        · rw [Pte.protect, if_pos rfl, ← hpres]

/-- The entries from `start` to `stop` have been copied, and no others have changed. -/
structure Copied (dst src start stop : ℕ) (share : Bool) (s s' : Vm) : Prop where
  copy : ∀ la, start ≤ la → la < stop →
    s'.slots (userSlot dst la) = (s.slots (userSlot src la)).protect share ∧
    s'.slots (userSlot src la) = (s.slots (userSlot src la)).protect share
  other : ∀ x, ¬ InRange dst start stop x → ¬ InRange src start stop x → s'.slots x = s.slots x

/-- One round of `copy_range`. -/
theorem copyRound_spec (H : s.Good X) {dst src cur stop : ℕ} (share : Bool) (hne : dst ≠ src)
    (hcur : cur % pgSize = 0) (hlt : cur < stop) (htop : stop ≤ userTop)
    (hzero : ∀ la, cur ≤ la → la < stop → s.slots (userSlot dst la) = Pte.zero) :
    ∃ next ok s', copyRound dst src share (cur, true, s) = .ok (next, ok, s') ∧ s'.Good X ∧
      Grow s s' ∧ cur + pgSize ≤ next ∧ next % pgSize = 0 ∧ (ok = false → s'.slots = s.slots) ∧
      (ok = true → (∀ la, cur ≤ la → la < next → la < stop →
        s'.slots (userSlot dst la) = (s.slots (userSlot src la)).protect share ∧
        s'.slots (userSlot src la) = (s.slots (userSlot src la)).protect share) ∧
        ∀ x, x ≠ userSlot dst cur → x ≠ userSlot src cur → s'.slots x = s.slots x) := by
  have hcurtop : cur < userTop := lt_of_lt_of_le hlt htop
  simp only [copyRound, getPte_find]
  cases hpde : s.pgdir src (pdx cur) with
  | none =>
    have hskip : ∀ la, cur ≤ la → la < roundDown (cur + ptSize) ptSize →
        s.slots (userSlot src la) = Pte.zero := by
      intro la h1 h2
      have hla : InRange src cur (roundDown (cur + ptSize) ptSize) (userSlot src la) :=
        ⟨la, h1, h2, rfl⟩
      rcases hla.skip with ⟨lb, h3, h4, -⟩ | hx
      · omega
      · rw [userSlot, show pdx la = pdx cur from (Owner.dir.inj hx).2]
        exact slots_of_none (show s.tableOf (.dir src (pdx cur)) = none from hpde) _
    refine ⟨roundDown (addrAdd cur ptSize) ptSize, true, s, rfl, H, Grow.refl s, ?_, ?_,
      fun _ => rfl, fun _ => ⟨?_, fun _ _ _ => rfl⟩⟩
    · rw [addrAdd_user hcurtop le_rfl]
      simp only [roundDown, ptSize, pgSize] at *
      omega
    · rw [addrAdd_user hcurtop le_rfl]
      simp only [roundDown, ptSize, pgSize] at *
      omega
    · rw [addrAdd_user hcurtop le_rfl]
      intro la h1 h2 h3
      rw [hskip la h1 h2, hzero la h1 h3, Pte.protect_zero]
      exact ⟨rfl, rfl⟩
  | some f =>
    have hnext : addrAdd cur pgSize = cur + pgSize := addrAdd_user hcurtop (by decide)
    have hmod : (cur + pgSize) % pgSize = 0 := by rw [Nat.add_mod_right, hcur]
    have hx : s.tableOf (.dir src (pdx cur)) = some f := hpde
    have hpte : s.pte (f, ptx cur) = s.slots (userSlot src cur) := Inv.pte_eq hx _
    have hpage : ∀ d la, cur ≤ la → la < cur + pgSize → userSlot d la = userSlot d cur := by
      intro d la h1 h2
      rw [userSlot_inj]
      refine ⟨rfl, ?_⟩
      simp only [pgSize] at *
      omega
    simp only [Option.map_some, hnext, hpte]
    by_cases hz : s.slots (userSlot src cur) = Pte.zero
    · refine ⟨cur + pgSize, true, s, ?_, H, Grow.refl s, le_rfl, hmod, fun _ => rfl,
        fun _ => ⟨?_, fun _ _ _ => rfl⟩⟩
      · simp only [ne_eq, hz, not_true_eq_false, if_false, Res.ok_bind, Res.pure_eq]
      · intro la h1 h2 h3
        rw [hzero la h1 h3, hpage src la h1 h2, hz, Pte.protect_zero]
        exact ⟨rfl, rfl⟩
    · obtain ⟨p, hp⟩ : ∃ p, (s.slots (userSlot src cur)).target = some p := by
        cases hp : (s.slots (userSlot src cur)).target with
        | none => exact absurd (H.absent _ hp) hz
        | some p => exact ⟨p, rfl⟩
      obtain ⟨ok, s', hcopy, H', hgrow, hfail, hdone⟩ :=
        copyPage_spec H share hpde hp (hzero cur le_rfl hlt)
      refine ⟨cur + pgSize, ok, s', ?_, H', hgrow, le_rfl, hmod, hfail, fun hok => ⟨?_, ?_⟩⟩
      · simp only [ne_eq, hz, not_false_eq_true, if_true, hcopy, Res.ok_bind, Res.pure_eq]
      · intro la h1 h2 h3
        have hslot : userSlot src cur ≠ userSlot dst cur := by
          rw [ne_eq, userSlot_inj]
          exact fun h => hne h.1.symm
        rw [hdone hok, hpage dst la h1 h2, hpage src la h1 h2, Function.update_self,
          Function.update_of_ne hslot, Function.update_self]
        exact ⟨rfl, rfl⟩
      · intro x h1 h2
        rw [hdone hok, Function.update_of_ne h1, Function.update_of_ne h2]

/-- **`copy_range` copies the entries of its range**, or those up to the point where it fails. -/
theorem copyRange_spec (H : s.Good X) {dst src start stop : ℕ} (share : Bool) (hne : dst ≠ src)
    (hr : RangeOk start stop)
    (hzero : ∀ la, start ≤ la → la < stop → s.slots (userSlot dst la) = Pte.zero) :
    ∃ ret s' cur, copyRange dst src start stop share s = .ok (ret, s') ∧ s'.Good X ∧ Grow s s' ∧
      start ≤ cur ∧ cur ≤ stop ∧ (ret = 0 ∧ cur = stop ∨ ret = -eNoMem) ∧
      Copied dst src start cur share s s' := by
  have hmain : ∃ t : ℕ × Bool × Vm, doWhile (fun t : ℕ × Bool × Vm => t.2.1 &&
      (t.1 ≠ 0 && t.1 < stop))
      (copyRound dst src share) (stop / pgSize) (start, true, s) = .ok t ∧ t.2.2.Good X ∧
      Grow s t.2.2 ∧ ∃ cur, start ≤ cur ∧ cur ≤ stop ∧ (t.2.1 = true → cur = stop) ∧
      Copied dst src start cur share s t.2.2 := by
    refine doWhile_spec (fun n t => t.2.1 = true ∧ t.1 % pgSize = 0 ∧ start ≤ t.1 ∧ t.1 < stop ∧
      n = (stop - t.1) / pgSize ∧ t.2.2.Good X ∧ Grow s t.2.2 ∧
      Copied dst src start t.1 share s t.2.2)
      ⟨rfl, hr.start_aligned, le_rfl, hr.lt, rfl, H, Grow.refl s, ?_, fun _ _ _ => rfl⟩ ?_ ?_
    · intro la h1 h2
      omega
    · have := hr.lt
      simp only [pgSize]
      omega
    · rintro n ⟨cur, b, s₁⟩ ⟨hb, hcur, hle, hlt, rfl, H₁, hgrow, hcopied⟩
      have hb' : b = true := hb
      subst hb'
      have hfar : ∀ d e la, cur ≤ la → ¬ InRange d start cur (userSlot e la) := by
        rintro d e la hla ⟨lb, h1, h2, heq⟩
        have h := (userSlot_inj.1 heq).2
        simp only [pgSize] at *
        omega
      have hzero₁ : ∀ la, cur ≤ la → la < stop → s₁.slots (userSlot dst la) = Pte.zero := by
        intro la h1 h2
        rw [hcopied.other _ (hfar _ _ _ h1) (hfar _ _ _ h1)]
        exact hzero la (by omega) h2
      obtain ⟨next, ok, s₂, hround, H₂, hgrow₂, hnext, hmod, hfail, hdone⟩ :=
        copyRound_spec H₁ share hne hcur hlt hr.le_top hzero₁
      have hpos : 0 < next := by
        simp only [pgSize] at *
        omega
      have hgrow' := hgrow.trans hgrow₂
      refine ⟨(next, ok, s₂), (stop - next) / pgSize, hround, ?_, ?_⟩
      · simp only [pgSize] at *
        have := hr.stop_aligned
        simp only [pgSize] at this
        omega
      · cases hok : ok with
        | false =>
          -- no memory: the last page was not copied
          refine .inr ⟨rfl, H₂, hgrow', cur, hle, hlt.le, fun h => absurd h Bool.false_ne_true, ?_,
            ?_⟩
          · rw [hfail hok]
            exact hcopied.copy
          · rw [hfail hok]
            exact hcopied.other
        | true =>
          obtain ⟨hcopy, hother⟩ := hdone hok
          -- what has been copied up to the address `m`
          have hm : ∀ m, cur < m → m ≤ next → m ≤ stop → Copied dst src start m share s s₂ := by
            intro m h0 h1 h2
            refine ⟨fun la h3 h4 => ?_, fun x h3 h4 => ?_⟩
            · by_cases hla : cur ≤ la
              · obtain ⟨h5, h6⟩ := hcopy la hla (by omega) (by omega)
                rw [h5, h6, hcopied.other _ (hfar _ _ _ hla) (hfar _ _ _ hla)]
                exact ⟨rfl, rfl⟩
              · have hne' : ∀ d e, userSlot d la ≠ userSlot e cur := by
                  intro d e h
                  have h := (userSlot_inj.1 h).2
                  simp only [pgSize] at *
                  omega
                rw [hother _ (hne' _ _) (hne' _ _), hother _ (hne' _ _) (hne' _ _)]
                exact hcopied.copy la h3 (by omega)
            · rw [hother x (fun h => h3 ⟨cur, hle, h0, h⟩) (fun h => h4 ⟨cur, hle, h0, h⟩)]
              refine hcopied.other x ?_ ?_
              · rintro ⟨la, h5, h6, h7⟩
                exact h3 ⟨la, h5, by omega, h7⟩
              · rintro ⟨la, h5, h6, h7⟩
                exact h4 ⟨la, h5, by omega, h7⟩
          have hcn : cur < next := by
            simp only [pgSize] at hnext
            omega
          simp only [guard_iff hpos, Bool.true_and, decide_eq_true_eq, decide_eq_false_iff_not]
          by_cases hstop : next < stop
          · exact .inl ⟨hstop, trivial, hmod, by omega, hstop, trivial, H₂, hgrow',
              hm next hcn le_rfl hstop.le⟩
          · exact .inr ⟨hstop, H₂, hgrow', stop, hr.lt.le, le_rfl, fun _ => rfl,
              hm stop hlt (by omega) le_rfl⟩
  obtain ⟨⟨next, ok, s'⟩, hrun, H', hgrow, cur, hle, hcur, hok, hcopied⟩ := hmain
  refine ⟨if ok then 0 else -eNoMem, s', cur, ?_, H', hgrow, hle, hcur, ?_, hcopied⟩
  · rw [copyRange, assert_pos ⟨hr.start_aligned, hr.stop_aligned⟩, Res.ok_bind,
      assert_pos hr.access, Res.ok_bind, hrun, Res.ok_bind]
    rfl
  · cases ok with
    | false => exact .inr rfl
    | true => exact .inl ⟨rfl, hok rfl⟩

end Range

end Ucore
