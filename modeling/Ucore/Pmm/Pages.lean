import Ucore.Lib.Stride
import Ucore.Pmm.Range

/-!
# Page by page

`unmap_range` and `copy_range` pass over four megabytes at a time where there is no page table. This
file says that they do what a loop over all the pages of the range would do, in any state at all:
`unmapRange_eq` and `copyRange_eq` are equations between computations, with the faults.  What the
loops leave alone is then read off the loops over the pages.  For this the page tables have to be
different pieces of memory that are in use (`Vm.Apart`), but nothing is asked of what is in them.

* The rule behind the equations is `doWhile_strides` of `Ucore.Lib.Stride`.  It asks that nothing
  would happen at the pages that are passed over, and this is `pageRemove_none` for the one loop and
  the definition of `copyOne` for the other.
* `Vm.Cell` says that of all tables only one entry may differ.  `pageRemove_frame` and
  `copyOne_frame` say this of one page, and `pageRemoves_frame` and `copyPages_frame` of the loops.
* `ranges_pagewise` is the result: the equations, and that no entry outside of the range changes.
-/

set_option autoImplicit false

namespace Ucore

open Vm

/-- The pages of a range. -/
def pagesOf (start stop : ℕ) : List ℕ := List.range' start ((stop - start) / pgSize) pgSize

/-- One page is copied, if the source has an entry for it. -/
def copyOne (dst src : ℕ) (share : Bool) (la : ℕ) (s : Vm) : Res (Bool × Vm) :=
  match getPte src la false s with
  | (none, s) => .ok (true, s)
  | (some ptep, s) =>
    if s.pte ptep ≠ Pte.zero then copyPage dst src la share ptep s else .ok (true, s)

/-- Pages are copied one by one, up to the first one for which there is no page table. -/
def copyPages (dst src : ℕ) (share : Bool) : List ℕ → Vm → Res (ℤ × Vm)
  | [], s => .ok (0, s)
  | la :: l, s => do
    let (ok, s) ← copyOne dst src share la s
    if ok then copyPages dst src share l s else return (-eNoMem, s)

section Pages

variable {start stop : ℕ}

/-- The loops stay inside one page table when they jump. -/
theorem jump_eq {a n : ℕ} (hstop : stop % pgSize = 0) (htop : stop ≤ userTop)
    (hn : a + n * pgSize = stop) (hpos : 0 < n) : ∃ j, 0 < j ∧
      roundDown (addrAdd a ptSize) ptSize = a + j * pgSize ∧
      ∀ b ∈ List.range' a (min j n) pgSize, pdx b = pdx a := by
  refine ⟨1024 - a / pgSize % 1024, by omega, ?_, fun b hb => ?_⟩
  · simp only [addrAdd, roundDown, ptSize, pgSize, userTop] at *
    omega
  · obtain ⟨i, hi, rfl⟩ := List.mem_range'.1 hb
    have hlt : i < 1024 - a / pgSize % 1024 := lt_of_lt_of_le hi (Nat.min_le_left ..)
    simp only [pdx, ptSize, pgSize] at *
    omega

theorem addrAdd_page {a n : ℕ} (htop : stop ≤ userTop) (hn : a + n * pgSize = stop)
    (hpos : 0 < n) : addrAdd a pgSize = a + pgSize := by
  simp only [addrAdd, pgSize, userTop] at *
  omega

theorem RangeOk.pages (h : RangeOk start stop) :
    0 < start ∧ start + (stop - start) / pgSize * pgSize = stop ∧ 0 < (stop - start) / pgSize ∧
      (stop - start) / pgSize ≤ stop / pgSize + 1 := by
  obtain ⟨h1, h2, h3⟩ := userAccess_iff.1 h.access
  have h4 := h.start_aligned
  have h5 := h.stop_aligned
  simp only [userBase, pgSize] at *
  omega

/-- A page in a table that does not exist is not there. -/
theorem pageRemove_none {d la : ℕ} {s : Vm} (h : s.pgdir d (pdx la) = none) :
    pageRemove d la s = .ok s := by
  rw [pageRemove, getPte_find, h]
  rfl

theorem copyOne_none {dst src la : ℕ} {share : Bool} {s : Vm} (h : s.pgdir src (pdx la) = none) :
    copyOne dst src share la s = .ok (true, s) := by
  rw [copyOne, getPte_find, h]
  rfl

/-- **`unmap_range` is `page_remove` on each page of the range.** -/
theorem unmapRange_eq (h : RangeOk start stop) (d : ℕ) (s : Vm) :
    unmapRange d start stop s =
      (pagesOf start stop).foldlM (fun s la => pageRemove d la s) s := by
  obtain ⟨hpos, hlen, hn, hfuel⟩ := h.pages
  have hround : Strides pgSize stop (fun _ => true) (pageRemove d) (unmapRound d) := by
    intro a n s ha hn _
    cases hpde : s.pgdir d (pdx a) with
    | none =>
      right
      obtain ⟨j, hj, hjump, hsame⟩ := jump_eq h.stop_aligned h.le_top ha hn
      refine ⟨j, hj, ?_, fun b hb => pageRemove_none (by rw [hsame b hb, hpde])⟩
      rw [unmapRound, getPte_find, hpde, ← hjump]
      rfl
    | some f =>
      left
      rw [unmapRound, pageRemove, getPte_find, hpde, addrAdd_page h.le_top ha hn]
      dsimp only [Option.map_some]
      by_cases hz : s.pte (f, ptx a) = Pte.zero
      · rw [if_neg (not_not.2 hz), pageRemovePte, hz]
        rfl
      · rw [if_pos hz]
        rfl
  have hrun := doWhile_strides (t := s) hround hpos (by decide) hlen hn rfl hfuel
  rw [runWhile_true] at hrun
  rw [pagesOf, ← hrun, unmapRange, assert_pos ⟨h.start_aligned, h.stop_aligned⟩,
    assert_pos h.access]
  exact Res.bind_snd _

theorem copyPages_eq (dst src : ℕ) (share : Bool) (l : List ℕ) (s : Vm) :
    copyPages dst src share l s =
      (runWhile Prod.fst (fun la t => copyOne dst src share la t.2) l (true, s) >>= fun t =>
        .ok (if t.1 then 0 else -eNoMem, t.2)) := by
  induction l generalizing s with
  | nil => rfl
  | cons la l ih =>
    rw [copyPages, runWhile, if_pos rfl]
    cases hcopy : copyOne dst src share la s with
    | error e => rfl
    | ok r =>
      obtain ⟨ok, s'⟩ := r
      rw [Res.ok_bind, Res.ok_bind]
      cases ok with
      | false =>
        rw [runWhile_stop rfl]
        rfl
      | true => exact ih s'

/-- **`copy_range` copies the pages one by one.** -/
theorem copyRange_eq (h : RangeOk start stop) (dst src : ℕ) (share : Bool) (s : Vm) :
    copyRange dst src start stop share s = copyPages dst src share (pagesOf start stop) s := by
  obtain ⟨hpos, hlen, hn, hfuel⟩ := h.pages
  have hround : Strides pgSize stop Prod.fst (fun la t => copyOne dst src share la t.2)
      (copyRound dst src share) := by
    rintro a n ⟨ok, s⟩ ha hn hgo
    obtain rfl : ok = true := hgo
    cases hpde : s.pgdir src (pdx a) with
    | none =>
      right
      obtain ⟨j, hj, hjump, hsame⟩ := jump_eq h.stop_aligned h.le_top ha hn
      refine ⟨j, hj, ?_, fun b hb => copyOne_none (by rw [hsame b hb]; exact hpde)⟩
      rw [copyRound, getPte_find, hpde, ← hjump]
      rfl
    | some f =>
      left
      dsimp only
      rw [copyRound, copyOne, getPte_find, hpde, addrAdd_page h.le_top ha hn]
      dsimp only [Option.map_some]
      by_cases hz : s.pte (f, ptx a) = Pte.zero
      · rw [if_neg (not_not.2 hz), if_neg (not_not.2 hz)]
        rfl
      · rw [if_pos hz, if_pos hz]
        rfl
  have hrun := doWhile_strides (t := (true, s)) hround hpos (by decide) hlen hn rfl hfuel
  rw [copyPages_eq, pagesOf, ← hrun, copyRange, assert_pos ⟨h.start_aligned, h.stop_aligned⟩,
    assert_pos h.access]
  simp only [Res.ok_bind]
  cases doWhile (fun t : ℕ × Bool × Vm => t.2.1 && (decide (t.1 ≠ 0) && decide (t.1 < stop)))
      (copyRound dst src share) (stop / pgSize) (start, true, s) with
  | error e => rfl
  | ok r => rfl

end Pages

/-! ## What the loops leave alone -/

/-- The tables are different pieces of memory, all of them in use. -/
structure Vm.Apart (s : Vm) : Prop where
  unique : ∀ x y f, s.tableOf x = some f → s.tableOf y = some f → x = y
  live : ∀ x f, s.tableOf x = some f → f ∈ s.frames.live

theorem Vm.Good.apart {X : Finset ℕ} {s : Vm} (H : s.Good X) : s.Apart :=
  ⟨H.unique, fun x f hx => (H.tables x f hx).1⟩

/-- Of all tables only the entry at `p` may differ. -/
structure Vm.Cell (p : ℕ × ℕ) (s s' : Vm) : Prop where
  pgdir : s'.pgdir = s.pgdir
  shmem : s'.shmem = s.shmem
  table : ∀ q, q ≠ p → s'.pte q = s.pte q

section Frame

variable {s s' : Vm}

theorem Vm.Cell.tableOf {p : ℕ × ℕ} (h : Cell p s s') : s'.tableOf = s.tableOf :=
  tableOf_congr h.pgdir h.shmem

/-- An entry is in one slot. -/
theorem Vm.Cell.slots {x : Owner} {f i : ℕ} (h : Cell (f, i) s s')
    (hu : ∀ x y f, s.tableOf x = some f → s.tableOf y = some f → x = y)
    (hx : s.tableOf x = some f) {y : Owner × ℕ} (hy : y ≠ (x, i)) : s'.slots y = s.slots y := by
  rw [Vm.slots, Vm.slots, slot, slot, h.tableOf]
  cases hT : s.tableOf y.1 with
  | none => rfl
  | some g =>
    refine h.table (g, y.2) fun heq => hy ?_
    rw [Prod.mk.injEq] at heq
    exact Prod.ext (hu _ _ f (heq.1 ▸ hT) hx) heq.2

theorem Vm.Cell.apart {p : ℕ × ℕ} (h : Cell p s s') (hf : s'.frames = s.frames) (A : s.Apart) :
    s'.Apart := by
  refine ⟨?_, ?_⟩
  · rw [h.tableOf]
    exact A.unique
  · rw [h.tableOf, hf]
    exact A.live

theorem releasePage_rest {p : ℕ} (h : releasePage p s = .ok s') :
    s'.pgdir = s.pgdir ∧ s'.shmem = s.shmem ∧ s'.table = s.table := by
  rcases releasePage_cases h with ⟨-, rfl⟩ | ⟨-, -, rfl⟩
  · exact ⟨rfl, rfl, rfl⟩
  · exact ⟨rfl, rfl, rfl⟩

theorem setPte_pte_of_ne (s : Vm) {p q : ℕ × ℕ} (h : q ≠ p) (v : Pte) :
    (s.setPte p v).pte q = s.pte q := by
  obtain ⟨f, i⟩ := p
  obtain ⟨g, j⟩ := q
  show Function.update s.table f (Function.update (s.table f) i v) g j = s.table g j
  by_cases hg : g = f
  · subst hg
    rw [Function.update_self, Function.update_of_ne fun hj => h (by rw [hj])]
  · rw [Function.update_of_ne hg]

theorem pageRemove_cell {d la : ℕ} (h : pageRemove d la s = .ok s') :
    s' = s ∨ ∃ f, s.pgdir d (pdx la) = some f ∧ Cell (f, ptx la) s s' := by
  rw [pageRemove, getPte_find] at h
  cases hpde : s.pgdir d (pdx la) with
  | none =>
    rw [hpde] at h
    cases h
    exact .inl rfl
  | some f =>
    rw [hpde] at h
    simp only [Option.map_some, pageRemovePte] at h
    split at h
    · obtain ⟨s₁, hrel, h⟩ := Res.bind_eq_ok.1 h
      cases h
      obtain ⟨hp, hs, ht⟩ := releasePage_rest hrel
      refine .inr ⟨f, rfl, hp, hs, fun q hq => ?_⟩
      rw [setPte_pte_of_ne s₁ hq, Vm.pte, ht]
      rfl
    · cases h
      exact .inl rfl

/-- What a page removal leaves alone. -/
theorem pageRemove_frame {d la : ℕ}
    (hu : ∀ x y f, s.tableOf x = some f → s.tableOf y = some f → x = y)
    (h : pageRemove d la s = .ok s') :
    s'.tableOf = s.tableOf ∧ ∀ x, x ≠ userSlot d la → s'.slots x = s.slots x := by
  rcases pageRemove_cell h with rfl | ⟨f, hf, hcell⟩
  · exact ⟨rfl, fun _ _ => rfl⟩
  · have hT : s.tableOf (.dir d (pdx la)) = some f := hf
    exact ⟨hcell.tableOf, fun x hx => hcell.slots hu hT hx⟩

/-- `page_insert` on an entry that is 0, or that has the page already, frees nothing. -/
theorem insertPte_cell {page : ℕ} {ptep : ℕ × ℕ}
    (hold : (s.pte ptep).present = false ∨ (s.pte ptep).frame = page) (perm : Perm) :
    ∃ s', insertPte page perm ptep s = .ok s' ∧ s'.frames = s.frames ∧ Cell ptep s s' := by
  have hpte : (s.pageRefInc page).pte ptep = s.pte ptep := rfl
  simp only [insertPte, hpte]
  cases hpres : (s.pte ptep).present with
  | false =>
    exact ⟨_, rfl, rfl, rfl, rfl, fun q hq => setPte_pte_of_ne _ hq _⟩
  | true =>
    have hframe : (s.pte ptep).frame = page := hold.resolve_left (by simp [hpres])
    simp only [hframe, if_true]
    exact ⟨_, rfl, rfl, rfl, rfl, fun q hq => setPte_pte_of_ne _ hq _⟩

/-- `get_pte` may make a page table, with entries that are 0. -/
theorem getPte_apart (A : s.Apart) (d la : ℕ) :
    (∃ s', getPte d la true s = (none, s') ∧ s'.Apart ∧ s'.slots = s.slots ∧
      s'.pgdir = s.pgdir) ∨
    ∃ f s', getPte d la true s = (some (f, ptx la), s') ∧ s'.Apart ∧ s'.slots = s.slots ∧
      s'.pgdir d (pdx la) = some f ∧
      ∀ e k, s'.pgdir e k = s.pgdir e k ∨ e = d ∧ k = pdx la ∧ s.pgdir e k = none := by
  rw [getPte]
  cases hpde : s.pgdir d (pdx la) with
  | some f => exact .inr ⟨f, s, rfl, A, rfl, hpde, fun e k => .inl rfl⟩
  | none =>
    simp only [Bool.not_true, Bool.false_eq_true, if_false, Vm.allocPage]
    rcases s.frames.take_cases with ⟨script, hs⟩ | ⟨f, script, hf, hs⟩
    · rw [hs]
      exact .inl ⟨_, rfl, ⟨A.unique, A.live⟩, rfl, rfl⟩
    · rw [hs]
      right
      set s₁ : Vm := { s with frames := ⟨insert f s.frames.live, script⟩ } with hs₁
      set s₂ := ((s₁.setPageRef f 1).zeroTable f).setPde d (pdx la) (some f) with hs₂
      have hT : s₂.tableOf = Function.update s.tableOf (.dir d (pdx la)) (some f) := by
        rw [hs₂, tableOf_setPde]
        rfl
      have hnone : s.tableOf (.dir d (pdx la)) = none := hpde
      -- the new table is not one of the others
      have hnew : ∀ x g, s.tableOf x = some g → g ≠ f := fun x g hx h => hf (h ▸ A.live x g hx)
      refine ⟨f, s₂, rfl, ⟨?_, fun x g hx => ?_⟩, ?_, ?_, fun e k => ?_⟩
      · rw [hT]
        exact Inv.unique_update A.unique hnone hnew
      · rw [hT] at hx
        rcases (Inv.update_eq_some hnone).1 hx with ⟨-, rfl⟩ | hx
        · exact Finset.mem_insert_self g _
        · exact Finset.mem_insert_of_mem (A.live x g hx)
      · rw [Vm.slots, Vm.slots, hT]
        exact Inv.slot_update hnone hnew rfl
      · show Function.update s.pgdir d _ d (pdx la) = _
        rw [Function.update_self, Function.update_self]
      · show Function.update s.pgdir d _ e k = _ ∨ _
        by_cases he : e = d
        · subst he
          rw [Function.update_self]
          by_cases hk : k = pdx la
          · exact .inr ⟨rfl, hk, hk ▸ hpde⟩
          · left
            rw [Function.update_of_ne hk]
            rfl
        · left
          rw [Function.update_of_ne he]

theorem pageInsert_cell {d page la f : ℕ} (hpde : s.pgdir d (pdx la) = some f)
    (hold : (s.pte (f, ptx la)).present = false ∨ (s.pte (f, ptx la)).frame = page) (perm : Perm) :
    ∃ s', pageInsert d page la perm s = .ok (0, s') ∧ s'.frames = s.frames ∧
      Cell (f, ptx la) s s' := by
  obtain ⟨s', hins, hframes, hcell⟩ := insertPte_cell hold perm
  refine ⟨s', ?_, hframes, hcell⟩
  rw [pageInsert, getPte, hpde]
  dsimp only
  rw [hins]
  rfl

/-- A private page loses `PTE_W` at its own place. -/
theorem protectPage_cell {src la f : ℕ} {share : Bool} (hpde : s.pgdir src (pdx la) = some f)
    {perm : Perm} (h : protectPage src la share (s.pte (f, ptx la)) s = .ok (perm, s')) :
    s'.frames = s.frames ∧ Cell (f, ptx la) s s' := by
  rw [protectPage] at h
  split at h
  · obtain ⟨⟨ret, s₁⟩, hrun, h⟩ := Res.bind_eq_ok.1 h
    obtain ⟨s₂, hins, hframes, hcell⟩ := pageInsert_cell hpde (.inr rfl) _
    cases hrun.symm.trans hins
    cases h
    exact ⟨hframes, hcell⟩
  · cases h
    exact ⟨rfl, rfl, rfl, fun _ _ => rfl⟩

/-- What the copy of a page leaves alone. -/
theorem copyOne_frame (A : s.Apart) {dst src la : ℕ} {share ok : Bool}
    (h : copyOne dst src share la s = .ok (ok, s')) : s'.Apart ∧
      (∀ x, x ≠ userSlot src la → x ≠ userSlot dst la → s'.slots x = s.slots x) ∧
      ∀ k, s'.pgdir dst k ≠ s.pgdir dst k →
        k = pdx la ∧ s.slots (userSlot src la) ≠ Pte.zero := by
  have hsame : s.Apart ∧
      (∀ x, x ≠ userSlot src la → x ≠ userSlot dst la → s.slots x = s.slots x) ∧
      ∀ k, s.pgdir dst k ≠ s.pgdir dst k →
        k = pdx la ∧ s.slots (userSlot src la) ≠ Pte.zero :=
    ⟨A, fun _ _ _ => rfl, fun _ hk => absurd rfl hk⟩
  rw [copyOne, getPte_find] at h
  cases hpde : s.pgdir src (pdx la) with
  | none =>
    rw [hpde] at h
    cases h
    exact hsame
  | some f =>
    rw [hpde] at h
    dsimp only [Option.map_some] at h
    split at h
    · next hne =>
      have hT : s.tableOf (.dir src (pdx la)) = some f := hpde
      have hslot : s.slots (userSlot src la) ≠ Pte.zero :=
        fun hz => hne ((Inv.pte_eq hT (ptx la)).trans hz)
      rw [copyPage] at h
      rcases getPte_apart A dst la with ⟨s₁, hget, A₁, hslots₁, hdir₁⟩ |
        ⟨g, s₁, hget, A₁, hslots₁, hg, hdir₁⟩
      · rw [hget] at h
        cases h
        exact ⟨A₁, fun x _ _ => by rw [hslots₁], fun k hk => absurd (by rw [hdir₁]) hk⟩
      · rw [hget] at h
        obtain ⟨⟨hfull, hzero⟩, h⟩ := assert_bind_eq_ok.1 h
        have hk₁ : ∀ k, s₁.pgdir dst k ≠ s.pgdir dst k →
            k = pdx la ∧ s.slots (userSlot src la) ≠ Pte.zero := by
          intro k hk
          rcases hdir₁ dst k with hd | ⟨-, hk', -⟩
          · exact absurd hd hk
          · exact ⟨hk', hslot⟩
        split at h
        · -- the source has its table still, and the target another one
          have hsrc : s₁.pgdir src (pdx la) = some f := by
            rcases hdir₁ src (pdx la) with hd | ⟨-, -, hnone⟩
            · rw [hd, hpde]
            · rw [hpde] at hnone
              cases hnone
          obtain ⟨⟨perm, s₂⟩, hprot, h⟩ := Res.bind_eq_ok.1 h
          obtain ⟨hframes₂, hcell₂⟩ := protectPage_cell hsrc hprot
          have A₂ := hcell₂.apart hframes₂ A₁
          have hgf : (g, ptx la) ≠ (f, ptx la) := by
            intro heq
            rw [heq] at hzero
            exact hfull hzero
          have hdst : s₂.pgdir dst (pdx la) = some g := by rw [hcell₂.pgdir, hg]
          have hempty : (s₂.pte (g, ptx la)).present = false ∨
              (s₂.pte (g, ptx la)).frame = (s₁.pte (f, ptx la)).frame := by
            rw [hcell₂.table _ hgf, hzero]
            exact .inl rfl
          obtain ⟨s₃, hins, hframes₃, hcell₃⟩ := pageInsert_cell hdst hempty perm
          dsimp only at h
          rw [hins] at h
          cases h
          refine ⟨hcell₃.apart hframes₃ A₂, fun x hx hx' => ?_, fun k hk => hk₁ k ?_⟩
          · rw [hcell₃.slots A₂.unique (show s₂.tableOf (.dir dst (pdx la)) = some g from hdst) hx',
              hcell₂.slots A₁.unique (show s₁.tableOf (.dir src (pdx la)) = some f from hsrc) hx,
              hslots₁]
          · rw [hcell₃.pgdir, hcell₂.pgdir] at hk
            exact hk
        · cases h
          exact ⟨A₁, fun x _ _ => by rw [hslots₁], hk₁⟩
    · cases h
      exact hsame

/-! ## The whole loops -/

/-- The loop over the pages removes nothing else. -/
theorem pageRemoves_frame {d : ℕ} {l : List ℕ}
    (hu : ∀ x y f, s.tableOf x = some f → s.tableOf y = some f → x = y)
    (h : l.foldlM (fun s la => pageRemove d la s) s = .ok s') {x : Owner × ℕ}
    (hx : ∀ la ∈ l, x ≠ userSlot d la) : s'.slots x = s.slots x := by
  induction l generalizing s with
  | nil =>
    cases h
    rfl
  | cons la l ih =>
    rw [List.foldlM_cons] at h
    obtain ⟨s₁, hrem, h⟩ := Res.bind_eq_ok.1 h
    obtain ⟨hT, hslots⟩ := pageRemove_frame hu hrem
    rw [ih (by rw [hT]; exact hu) h fun lb hb => hx lb (List.mem_cons_of_mem la hb)]
    exact hslots x (hx la (List.mem_cons_self ..))

/-- The loop over the pages copies nothing else, and makes page tables only for what it copies. -/
theorem copyPages_frame (A : s.Apart) {dst src : ℕ} {share : Bool} {l : List ℕ} {ret : ℤ}
    (hal : ∀ la ∈ l, la % pgSize = 0) (hnd : l.Nodup)
    (h : copyPages dst src share l s = .ok (ret, s')) :
    (∀ x, (∀ la ∈ l, x ≠ userSlot src la ∧ x ≠ userSlot dst la) → s'.slots x = s.slots x) ∧
    ∀ k, s'.pgdir dst k ≠ s.pgdir dst k →
      ∃ la ∈ l, pdx la = k ∧ s.slots (userSlot src la) ≠ Pte.zero := by
  induction l generalizing s with
  | nil =>
    cases h
    exact ⟨fun _ _ => rfl, fun k hk => absurd rfl hk⟩
  | cons la l ih =>
    rw [copyPages] at h
    obtain ⟨⟨ok, s₁⟩, hcopy, h⟩ := Res.bind_eq_ok.1 h
    obtain ⟨A₁, hslots, hdir⟩ := copyOne_frame A hcopy
    have hmem : la ∈ la :: l := List.mem_cons_self ..
    cases ok with
    | false =>
      cases h
      exact ⟨fun x hx => hslots x (hx la hmem).1 (hx la hmem).2,
        fun k hk => ⟨la, hmem, (hdir k hk).1.symm, (hdir k hk).2⟩⟩
    | true =>
      obtain ⟨hrest, hdirs⟩ := ih A₁ (fun lb hb => hal lb (List.mem_cons_of_mem la hb))
        (List.nodup_cons.1 hnd).2 h
      refine ⟨fun x hx => ?_, fun k hk => ?_⟩
      · rw [hrest x fun lb hb => hx lb (List.mem_cons_of_mem la hb)]
        exact hslots x (hx la hmem).1 (hx la hmem).2
      · by_cases hk₁ : s₁.pgdir dst k = s.pgdir dst k
        · obtain ⟨lb, hb, hpdx, hne⟩ := hdirs k (by rw [hk₁]; exact hk)
          -- the copies so far have not changed the entry
          have hpage : ¬ lb / pgSize = la / pgSize := by
            intro heq
            have h1 := hal la hmem
            have h2 := hal lb (List.mem_cons_of_mem la hb)
            have h3 : lb = la := by
              simp only [pgSize] at *
              omega
            exact (List.nodup_cons.1 hnd).1 (h3 ▸ hb)
          rw [hslots _ (fun heq => hpage (userSlot_inj.1 heq).2)
            fun heq => hpage (userSlot_inj.1 heq).2] at hne
          exact ⟨lb, List.mem_cons_of_mem la hb, hpdx, hne⟩
        · exact ⟨la, hmem, (hdir k hk₁).1.symm, (hdir k hk₁).2⟩

end Frame

section Fuel

theorem assert_ne_fuel (p : Prop) [Decidable p] : assert p ≠ .error .fuel := by
  rw [assert]
  split
  · exact Res.ok_ne_error _ _
  · exact Res.error_ne_error (by decide)

theorem releasePage_ne_fuel (p : ℕ) (s : Vm) : releasePage p s ≠ .error .fuel := by
  simp only [releasePage, Vm.freePage]
  split
  · split
    · exact Res.ok_ne_error _ _
    · exact Res.error_ne_error (by decide)
  · exact Res.ok_ne_error _ _

theorem pageRemovePte_ne_fuel (ptep : ℕ × ℕ) (s : Vm) : pageRemovePte ptep s ≠ .error .fuel := by
  rw [pageRemovePte]
  split
  · exact Res.bind_ne_error (releasePage_ne_fuel _ s) fun _ => Res.ok_ne_error _ _
  · exact Res.ok_ne_error _ _

theorem pageRemove_ne_fuel (d la : ℕ) (s : Vm) : pageRemove d la s ≠ .error .fuel := by
  rw [pageRemove]
  split
  · exact Res.ok_ne_error _ _
  · exact pageRemovePte_ne_fuel _ _

theorem pageInsert_ne_fuel (d page la : ℕ) (perm : Perm) (s : Vm) :
    pageInsert d page la perm s ≠ .error .fuel := by
  rw [pageInsert]
  split
  · exact Res.ok_ne_error _ _
  · refine Res.bind_ne_error ?_ fun _ => Res.ok_ne_error _ _
    simp only [insertPte]
    split
    · split
      · exact Res.ok_ne_error _ _
      · exact Res.bind_ne_error (pageRemovePte_ne_fuel _ _) fun _ => Res.ok_ne_error _ _
    · exact Res.ok_ne_error _ _

theorem copyOne_ne_fuel (dst src : ℕ) (share : Bool) (la : ℕ) (s : Vm) :
    copyOne dst src share la s ≠ .error .fuel := by
  rw [copyOne]
  split
  · exact Res.ok_ne_error _ _
  · split
    · rw [copyPage]
      split
      · exact Res.ok_ne_error _ _
      · refine Res.bind_ne_error (assert_ne_fuel _) fun _ => ?_
        split
        · refine Res.bind_ne_error ?_ fun r => Res.bind_ne_error (pageInsert_ne_fuel _ _ _ _ _)
            fun r => Res.bind_ne_error (assert_ne_fuel _) fun _ => Res.ok_ne_error _ _
          rw [protectPage]
          split
          · exact Res.bind_ne_error (pageInsert_ne_fuel _ _ _ _ _) fun _ => Res.ok_ne_error _ _
          · exact Res.ok_ne_error _ _
        · exact Res.ok_ne_error _ _
    · exact Res.ok_ne_error _ _

end Fuel

section Main

variable {start stop : ℕ}

theorem RangeOk.mem_pages (h : RangeOk start stop) {la : ℕ} (hla : la ∈ pagesOf start stop) :
    start ≤ la ∧ la < stop ∧ la % pgSize = 0 := by
  obtain ⟨i, hi, rfl⟩ := List.mem_range'.1 hla
  have h1 := h.start_aligned
  have h2 := h.pages.2.1
  simp only [pgSize] at *
  omega

/-- **Page by page.**  In every state `unmap_range` does what `page_remove` on each page of the
range does, and `copy_range` what copying the pages one by one does, faults included; both loops
end.  If the tables are different pieces of memory in use, then no entry outside the range changes,
and `copy_range` makes no page table for four megabytes in which the source has nothing to copy. -/
theorem ranges_pagewise (h : RangeOk start stop) (s : Vm) :
    (∀ d, unmapRange d start stop s =
        (pagesOf start stop).foldlM (fun s la => pageRemove d la s) s ∧
      unmapRange d start stop s ≠ .error .fuel ∧
      (s.Apart → ∀ s', unmapRange d start stop s = .ok s' →
        ∀ x, ¬ InRange d start stop x → s'.slots x = s.slots x)) ∧
    ∀ dst src share, copyRange dst src start stop share s =
        copyPages dst src share (pagesOf start stop) s ∧
      copyRange dst src start stop share s ≠ .error .fuel ∧
      (s.Apart → ∀ ret s', copyRange dst src start stop share s = .ok (ret, s') →
        (∀ x, ¬ InRange src start stop x → ¬ InRange dst start stop x → s'.slots x = s.slots x) ∧
        ∀ k, (∀ la, start ≤ la → la < stop → pdx la = k →
          s.slots (userSlot src la) = Pte.zero) → s'.pgdir dst k = s.pgdir dst k) := by
  have hin : ∀ d x la, la ∈ pagesOf start stop → ¬ InRange d start stop x → x ≠ userSlot d la := by
    intro d x la hla hx heq
    obtain ⟨h1, h2, -⟩ := h.mem_pages hla
    exact hx ⟨la, h1, h2, heq⟩
  constructor
  · intro d
    rw [unmapRange_eq h]
    refine ⟨rfl, ?_, fun A s' hrun x hx => ?_⟩
    · rw [← runWhile_true]
      exact runWhile_ne_error (fun la t => pageRemove_ne_fuel d la t) _ s
    · exact pageRemoves_frame A.unique hrun fun la hla => hin d x la hla hx
  · intro dst src share
    rw [copyRange_eq h]
    refine ⟨rfl, ?_, fun A ret s' hrun => ?_⟩
    · rw [copyPages_eq]
      exact Res.bind_ne_error
        (runWhile_ne_error (fun la t => copyOne_ne_fuel dst src share la t.2) _ _)
        fun _ => Res.ok_ne_error _ _
    · obtain ⟨hslots, hdirs⟩ := copyPages_frame A (fun la hla => (h.mem_pages hla).2.2)
        (show (pagesOf start stop).Nodup from List.nodup_range' pgSize (by decide)) hrun
      refine ⟨fun x hs hd => ?_, fun k hk => ?_⟩
      · exact hslots x fun la hla => ⟨hin src x la hla hs, hin dst x la hla hd⟩
      · by_contra hne
        obtain ⟨la, hla, hpdx, hfull⟩ := hdirs k hne
        obtain ⟨h1, h2, -⟩ := h.mem_pages hla
        exact hfull (hk la h1 h2 hpdx)

/-- A directory with page tables for the first and the third four megabytes, and a page in each. -/
def sampleTables : Vm :=
  ⟨⟨{20, 21, 30, 31}, [some 40, some 41]⟩, fun p => if p = 30 ∨ p = 31 then 1 else 0,
    fun f i => if f = 20 ∧ i = 1023 then ⟨30, true, ⟨true, true⟩⟩
      else if f = 21 ∧ i = 0 then ⟨31, true, ⟨true, true⟩⟩ else Pte.zero,
    fun _ _ => 0,
    fun d k => if d = 0 ∧ k = 0 then some 20 else if d = 0 ∧ k = 2 then some 21 else none,
    fun _ => none, ⟨∅, []⟩, ⟨∅, []⟩⟩

/-- From the last page of the first table to the first page of the third. -/
theorem ranges_pagewise_gap :
    unmapRange 0 0x3ff000 0x801000 sampleTables = (pagesOf 0x3ff000 0x801000).foldlM
      (fun s la => pageRemove 0 la s) sampleTables ∧
    copyRange 1 0 0x3ff000 0x801000 false sampleTables =
      copyPages 1 0 false (pagesOf 0x3ff000 0x801000) sampleTables ∧
    ∀ ret s', copyRange 1 0 0x3ff000 0x801000 false sampleTables = .ok (ret, s') →
      s'.pgdir 1 1 = none := by
  obtain ⟨hunmap, hcopy⟩ := ranges_pagewise
    (show RangeOk 0x3ff000 0x801000 from ⟨by decide, by decide, by decide⟩) sampleTables
  have hT : ∀ x f, sampleTables.tableOf x = some f →
      x = .dir 0 0 ∧ f = 20 ∨ x = .dir 0 2 ∧ f = 21 := by
    intro x f hx
    cases x with
    | node o m => cases hx
    | dir d k =>
      change (if d = 0 ∧ k = 0 then some 20 else if d = 0 ∧ k = 2 then some 21 else none) =
        some f at hx
      split at hx
      · next hdk => exact .inl ⟨by rw [hdk.1, hdk.2], (Option.some.inj hx).symm⟩
      · split at hx
        · next hdk => exact .inr ⟨by rw [hdk.1, hdk.2], (Option.some.inj hx).symm⟩
        · cases hx
  have A : sampleTables.Apart := by
    refine ⟨fun x y f hx hy => ?_, fun x f hx => ?_⟩
    · rcases hT x f hx with ⟨rfl, rfl⟩ | ⟨rfl, rfl⟩
      · exact ((hT y 20 hy).resolve_right fun h => absurd h.2 (by decide)).1.symm
      · exact ((hT y 21 hy).resolve_left fun h => absurd h.2 (by decide)).1.symm
    · rcases hT x f hx with ⟨-, rfl⟩ | ⟨-, rfl⟩
      · decide
      · decide
  refine ⟨(hunmap 0).1, (hcopy 1 0 false).1, fun ret s' hrun => ?_⟩
  refine ((hcopy 1 0 false).2.2 A ret s' hrun).2 1 fun la _ _ hpdx => ?_
  rw [userSlot, hpdx]
  rfl

end Main

end Ucore
