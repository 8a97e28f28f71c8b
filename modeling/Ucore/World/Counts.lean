import Ucore.World.Step

/-!
# Frame reference counts

The frames of user data are those that are not tables of entries.  `World.frame_counts` says, for
every run, that the reference count of such a frame is the number of present entries, in page tables
and in shared memory objects, that refer to it; that it is in use exactly if this number is not 0;
and that all of them are free again once every address space has gone through `exit_mmap` and
`mm_destroy`.

## The plan

The first two parts are the invariant `Vm.Inv` once more, in terms of directories and addresses, and
of objects, nodes and indexes, instead of slots.  The slots that refer to a frame are the image of
these two kinds of entries (`holders_eq`), which do not overlap, so the number is the sum of the two
(`Good.refs_eq`).

For the last part one has to know that nothing is left behind in a directory whose address space is
gone.  `exit_mmap` clears the directory, and `mm_destroy` does not touch it, so what has to be shown
is that nobody else writes to it afterwards:

* `Inv.away` — an operation changes no entry of a directory that exists and that it does not work
  on;
* `Run.lastExit_empty` — so the directory stays empty as long as the last operation on the address
  space is `exit_mmap`;
* `Run.gone_empty` — and stays so when the address space is gone, since its number is never used
  again.
-/

set_option autoImplicit false

namespace Ucore

open Vm

namespace Vm

/-- The frame is a page table, or the table of entries of a shared memory object. -/
def IsTable (s : Vm) (f : ℕ) : Prop :=
  (∃ d k, s.pgdir d k = some f) ∨ ∃ o sh, s.shmem o = some sh ∧ ∃ m ∈ sh.shmnList, m.entry = f

/-- The present user entries that map the frame: page directories, and addresses of pages. -/
def userPtes (s : Vm) (p : ℕ) : Set (ℕ × ℕ) :=
  {x | x.2 % pgSize = 0 ∧ (s.lookup x.1 x.2).target = some p}

/-- The entries of shared memory objects that hold the frame: objects, their nodes, and indexes. -/
def shmemEntries (s : Vm) (p : ℕ) : Set (ℕ × Shmn × ℕ) :=
  {x | x.2.2 < shmnNentry ∧ (∃ sh, s.shmem x.1 = some sh ∧ x.2.1 ∈ sh.shmnList) ∧
    (s.table x.2.1.entry x.2.2).target = some p}

/-- The number of both. -/
noncomputable def mappings (s : Vm) (p : ℕ) : ℕ := (s.userPtes p).ncard + (s.shmemEntries p).ncard

variable {s : Vm} {X : Finset ℕ}

theorem isTable_iff {f : ℕ} : s.IsTable f ↔ ∃ x, s.tableOf x = some f := by
  constructor
  · rintro (⟨d, k, h⟩ | ⟨o, sh, ho, m, hm, rfl⟩)
    · exact ⟨.dir d k, h⟩
    · exact ⟨.node o m, by rw [tableOf_node ho, if_pos hm]⟩
  · rintro ⟨x, hx⟩
    cases x with
    | dir d k => exact .inl ⟨d, k, hx⟩
    | node o m =>
      cases ho : s.shmem o with
      | none =>
        rw [tableOf_node_none ho] at hx
        cases hx
      | some sh =>
        rw [tableOf_node ho] at hx
        by_cases hm : m ∈ sh.shmnList
        · rw [if_pos hm, Option.some.injEq] at hx
          exact .inr ⟨o, sh, ho, m, hm, hx⟩
        · rw [if_neg hm] at hx
          cases hx

/-- The entries of shared memory objects are slots. -/
theorem mem_shmemEntries (H : s.Good X) {p : ℕ} {x : ℕ × Shmn × ℕ} :
    x ∈ s.shmemEntries p ↔ s.holds (.node x.1 x.2.1, x.2.2) = some p := by
  constructor
  · rintro ⟨-, ⟨sh, ho, hm⟩, ht⟩
    have hT : s.tableOf (.node x.1 x.2.1) = some x.2.1.entry := by rw [tableOf_node ho, if_pos hm]
    rw [holds, held, slot, hT]
    exact ht
  · intro hx
    refine ⟨H.index _ p hx, ?_⟩
    rw [holds, held, slot] at hx
    cases ho : s.shmem x.1 with
    | none =>
      rw [tableOf_node_none ho] at hx
      cases hx
    | some sh =>
      rw [tableOf_node ho] at hx
      by_cases hm : x.2.1 ∈ sh.shmnList
      · rw [if_pos hm] at hx
        exact ⟨⟨sh, rfl, hm⟩, hx⟩
      · rw [if_neg hm] at hx
        cases hx

/-- The slots that refer to a frame are the entries of the two kinds. -/
theorem holders_eq (H : s.Good X) (p : ℕ) : holders s.holds p =
    (fun x : ℕ × ℕ => userSlot x.1 x.2) '' s.userPtes p ∪
      (fun x : ℕ × Shmn × ℕ => (Owner.node x.1 x.2.1, x.2.2)) '' s.shmemEntries p := by
  ext ⟨y, j⟩
  constructor
  · intro hy
    have hy' : s.holds (y, j) = some p := hy
    cases y with
    | dir d k =>
      left
      obtain ⟨la, hla⟩ := exists_userSlot d k (H.index _ p hy')
      have hround := userSlot_roundDown d la
      refine ⟨(d, roundDown la pgSize), ⟨roundDown_mod _ _, ?_⟩, ?_⟩
      · show s.holds (userSlot d (roundDown la pgSize)) = some p
        rw [hround, ← hla]
        exact hy'
      · exact hround.trans hla.symm
    | node o m => exact .inr ⟨(o, m, j), (mem_shmemEntries H).2 hy', rfl⟩
  · rintro (⟨x, hx, heq⟩ | ⟨x, hx, heq⟩)
    · rw [← heq]
      exact hx.2
    · rw [← heq]
      exact (mem_shmemEntries H).1 hx

theorem userSlot_injOn (s : Vm) (p : ℕ) :
    Set.InjOn (fun x : ℕ × ℕ => userSlot x.1 x.2) (s.userPtes p) := by
  rintro ⟨d, la⟩ ⟨h1, -⟩ ⟨e, lb⟩ ⟨h2, -⟩ heq
  obtain ⟨h3, h4⟩ := userSlot_inj.1 heq
  rw [Prod.mk.injEq]
  refine ⟨h3, ?_⟩
  simp only [pgSize] at *
  omega

/-- **The number of entries that refer to a frame is the number of slots.** -/
theorem Good.refs_eq (H : s.Good X) (p : ℕ) :
    (s.userPtes p).Finite ∧ (s.shmemEntries p).Finite ∧ refs s.holds p = s.mappings p := by
  have hfin : (holders s.holds p).Finite := FinitelyHeld.holders H.finite p
  rw [holders_eq H, Set.finite_union] at hfin
  have hnode : Set.InjOn (fun x : ℕ × Shmn × ℕ => (Owner.node x.1 x.2.1, x.2.2))
      (s.shmemEntries p) := by
    rintro ⟨o, m, j⟩ - ⟨o', m', j'⟩ - heq
    simp only [Prod.mk.injEq, Owner.node.injEq] at heq ⊢
    exact ⟨heq.1.1, heq.1.2, heq.2⟩
  have hdisj : Disjoint ((fun x : ℕ × ℕ => userSlot x.1 x.2) '' s.userPtes p)
      ((fun x : ℕ × Shmn × ℕ => (Owner.node x.1 x.2.1, x.2.2)) '' s.shmemEntries p) := by
    rw [Set.disjoint_left]
    rintro _ ⟨x, -, rfl⟩ ⟨y, -, h⟩
    cases congrArg Prod.fst h
  refine ⟨Set.Finite.of_finite_image hfin.1 (userSlot_injOn s p),
    Set.Finite.of_finite_image hfin.2 hnode, ?_⟩
  rw [refs, holders_eq H, Set.ncard_union_eq hdisj hfin.1 hfin.2,
    (userSlot_injOn s p).ncard_image, hnode.ncard_image, mappings]

end Vm

namespace World

variable {w w' : World} {op : Op} {ret : Ret}

/-! ## Entries of other address spaces -/

/-- A user access changes no entry of another address space. -/
theorem Inv.access_sameBut (H : w.Inv) {i addr : ℕ} {write : Bool} {r : ℤ} (hi : i ∈ w.mms)
    (h : w.access i addr write = .ok (r, w')) : SameBut i w.vm w'.vm := by
  rcases H.access hi addr write with hrun | ⟨r', w₁, hrun, -, -, -, hbut, -⟩
  · rw [hrun] at h
    cases h
  · rw [hrun] at h
    cases h
    exact hbut

/-- An operation changes no entry of a directory that exists and that it does not work on. -/
theorem Inv.away (H : w.Inv) (hcut : ¬ CutsShared w op) (hstep : w.step op = .ok (ret, w')) {d : ℕ}
    (hd : d < w.next) (hon : op.on ≠ some d) (k j : ℕ) :
    w'.vm.slots (.dir d k, j) = w.vm.slots (.dir d k, j) := by
  have hptr := pointers_of_step hstep
  have hne : ∀ {i : ℕ}, some i ≠ some d → d ≠ i := fun h heq => h (congrArg some heq.symm)
  cases op with
  | mmCreate script =>
    cases hstep
    rfl
  | shmemCreate len =>
    obtain ⟨o, vm, hrun, -, hslots⟩ := H.shmemCreate len
    simp only [World.step, hrun] at hstep
    cases o with
    | none =>
      cases hstep
      rw [hslots]
    | some o =>
      cases hstep
      rw [hslots]
  | mmMap i addr len flags =>
    obtain ⟨r, v, mm, hrun, -⟩ := H.mmMap hptr addr len flags
    simp only [World.step, getMm_mem hptr, hrun, Res.ok_bind] at hstep
    cases hstep
    rfl
  | mmMapShmem i addr flags shmem =>
    obtain ⟨r, mm, vm, hrun, -, hdirs, -⟩ := H.mmMapShmem hptr.1 addr flags shmem hptr.2
    simp only [World.step, getMm_mem hptr.1, hrun, Res.ok_bind] at hstep
    cases hstep
    exact hdirs d k j
  | mmUnmap i addr len =>
    obtain ⟨r, mm, vm, hrun, -, hres⟩ := H.mmUnmap hptr addr len hcut rfl rfl
    simp only [World.step, getMm_mem hptr, hrun, Res.ok_bind] at hstep
    cases hstep
    rcases hres with ⟨-, -, rfl⟩ | ⟨-, -, hun, -⟩
    · rfl
    · refine hun.other d k j fun a _ la _ _ _ h => hne hon ?_
      exact dir_of_eq_userSlot h
  | pgfault i errorCode addr =>
    rcases H.doPgfault hptr errorCode addr with hrun | ⟨r, mm, vm, hrun, -, hbut⟩
    · simp only [World.step, getMm_mem hptr, hrun, Res.ok_bind] at hstep
      cases hstep
    · simp only [World.step, getMm_mem hptr, hrun, Res.ok_bind] at hstep
      cases hstep
      exact hbut d (hne hon) k j
  | dupMmap src script =>
    obtain ⟨r, mm, vm, as, cs, hrun, -, -, -, hdup, -⟩ := H.dupMmap hptr script
    simp only [World.step, getMm_mem hptr, hrun, Res.ok_bind] at hstep
    cases hstep
    refine hdup.other d k j fun c _ la _ => ⟨fun h => ?_, fun h => ?_⟩
    · have h1 := dir_of_eq_userSlot h
      omega
    · exact hne hon (dir_of_eq_userSlot h)
  | exitMmap i =>
    obtain ⟨vm₁, vm, hrun, -, -, -, hother, hexit, -⟩ := H.exitMmap hptr
    simp only [World.step, getMm_mem hptr, hrun, Res.ok_bind] at hstep
    cases hstep
    show vm.slots _ = _
    rw [hexit.slots]
    exact hother _ fun k' h => hne hon (Owner.dir.inj h).1
  | mmDestroy i =>
    obtain ⟨mm, vm, hrun, -, hdirs, -⟩ := H.mmDestroy hptr
    simp only [World.step, getMm_mem hptr, hrun, Res.ok_bind] at hstep
    cases hstep
    exact hdirs d k j
  | read i addr =>
    obtain ⟨r, hacc⟩ := userRead_cases hstep
    exact H.access_sameBut hptr hacc d (hne hon) k j
  | write i addr b =>
    obtain ⟨r, w₁, hacc, rfl | ⟨p, rfl⟩⟩ := userWrite_cases hstep
    · exact H.access_sameBut hptr hacc d (hne hon) k j
    · exact H.access_sameBut hptr hacc d (hne hon) k j
  | supply frames objects nodes =>
    cases hstep
    rfl
  | supplyMm i script =>
    simp only [World.step, getMm_mem hptr, Res.ok_bind] at hstep
    cases hstep
    rfl
  | scribble page contents =>
    have hp : page ∉ w.vm.frames.live := hptr
    simp only [World.step, if_neg hp] at hstep
    cases hstep
    rfl

/-- A user access leaves the address spaces as they are. -/
theorem access_mms {i addr : ℕ} {write : Bool} {r : ℤ} (h : w.access i addr write = .ok (r, w')) :
    w'.next = w.next ∧ w'.mms = w.mms := by
  obtain ⟨-, rfl | ⟨mm, vm, -, rfl⟩⟩ := access_cases h
  · exact ⟨rfl, rfl⟩
  · exact ⟨rfl, rfl⟩

/-- Which address spaces there are after an operation. -/
theorem step_mms (h : w.step op = .ok (ret, w')) :
    (w'.next = w.next ∧ w'.mms = w.mms) ∨
    (∃ i, op = .mmDestroy i ∧ w'.next = w.next ∧ w'.mms = w.mms.erase i) ∨
    (w'.next = w.next + 1 ∧ w'.mms = insert w.next w.mms) := by
  cases op with
  | mmCreate script =>
    cases h
    exact .inr (.inr ⟨rfl, rfl⟩)
  | shmemCreate len =>
    simp only [World.step] at h
    split at h
    · cases h
      exact .inl ⟨rfl, rfl⟩
    · cases h
      exact .inl ⟨rfl, rfl⟩
  | mmMap i addr len flags =>
    obtain ⟨mm, -, h⟩ := Res.bind_eq_ok.1 h
    obtain ⟨x, -, h⟩ := Res.bind_eq_ok.1 h
    cases h
    exact .inl ⟨rfl, rfl⟩
  | mmMapShmem i addr flags shmem =>
    obtain ⟨mm, -, h⟩ := Res.bind_eq_ok.1 h
    obtain ⟨x, -, h⟩ := Res.bind_eq_ok.1 h
    cases h
    exact .inl ⟨rfl, rfl⟩
  | mmUnmap i addr len =>
    obtain ⟨mm, -, h⟩ := Res.bind_eq_ok.1 h
    obtain ⟨x, -, h⟩ := Res.bind_eq_ok.1 h
    cases h
    exact .inl ⟨rfl, rfl⟩
  | pgfault i errorCode addr =>
    obtain ⟨mm, -, h⟩ := Res.bind_eq_ok.1 h
    obtain ⟨x, -, h⟩ := Res.bind_eq_ok.1 h
    cases h
    exact .inl ⟨rfl, rfl⟩
  | dupMmap src script =>
    obtain ⟨mm, -, h⟩ := Res.bind_eq_ok.1 h
    obtain ⟨x, -, h⟩ := Res.bind_eq_ok.1 h
    cases h
    exact .inr (.inr ⟨rfl, rfl⟩)
  | exitMmap i =>
    obtain ⟨mm, -, h⟩ := Res.bind_eq_ok.1 h
    obtain ⟨x, -, h⟩ := Res.bind_eq_ok.1 h
    cases h
    exact .inl ⟨rfl, rfl⟩
  | mmDestroy i =>
    obtain ⟨mm, -, h⟩ := Res.bind_eq_ok.1 h
    obtain ⟨x, -, h⟩ := Res.bind_eq_ok.1 h
    cases h
    exact .inr (.inl ⟨i, rfl, rfl, rfl⟩)
  | read i addr =>
    obtain ⟨r, hacc⟩ := userRead_cases h
    exact .inl (access_mms hacc)
  | write i addr b =>
    obtain ⟨r, w₁, hacc, rfl | ⟨p, rfl⟩⟩ := userWrite_cases h
    · exact .inl (access_mms hacc)
    · have hmms := access_mms hacc
      exact .inl hmms
  | supply frames objects nodes =>
    cases h
    exact .inl ⟨rfl, rfl⟩
  | supplyMm i script =>
    obtain ⟨mm, -, h⟩ := Res.bind_eq_ok.1 h
    cases h
    exact .inl ⟨rfl, rfl⟩
  | scribble page contents =>
    simp only [World.step] at h
    split at h
    · cases h
    · cases h
      exact .inl ⟨rfl, rfl⟩

/-! ## Address spaces that have been left -/

/-- The last operation on the address space `i` was `exit_mmap`; the operations of a run stand with
the last one first. -/
def LastExit (i : ℕ) : List (Op × Ret) → Prop
  | [] => False
  | x :: ops => x.1 = .exitMmap i ∨ x.1.on ≠ some i ∧ LastExit i ops

/-- Every `mm_destroy` finds an address space that `exit_mmap` has left. -/
def DestroysExited : List (Op × Ret) → Prop
  | [] => True
  | x :: ops => DestroysExited ops ∧ ∀ i, x.1 = .mmDestroy i → LastExit i ops

variable {ops : List (Op × Ret)}

/-- The directory of an address space that `exit_mmap` has left is empty. -/
theorem Run.lastExit_empty (h : Run (fun w op => ¬ CutsShared w op) ops w) {i : ℕ}
    (hlast : LastExit i ops) : i < w.next ∧ ∀ k j, w.vm.slots (.dir i k, j) = Pte.zero := by
  induction h with
  | init => exact hlast.elim
  | @step ops w w' op ret run hop hstep ih =>
    have H := run.inv fun _ _ hop => hop
    have hnext : w.next ≤ w'.next := by
      rcases step_mms hstep with h | ⟨i, -, h, -⟩ | h
      · exact h.1.ge
      · exact h.ge
      · rw [h.1]
        exact Nat.le_succ _
    rcases hlast with heq | ⟨hon, hlast⟩
    · have heq' : op = .exitMmap i := heq
      subst heq'
      have hi : i ∈ w.mms := pointers_of_step hstep
      obtain ⟨vm₁, vm, hrun, -, -, hempty, -, hexit, -⟩ := H.exitMmap hi
      simp only [World.step, getMm_mem hi, hrun, Res.ok_bind] at hstep
      cases hstep
      refine ⟨H.lt i hi, fun k j => ?_⟩
      show vm.slots _ = _
      rw [hexit.slots]
      exact hempty k j
    · obtain ⟨hlt, hempty⟩ := ih hlast
      refine ⟨lt_of_lt_of_le hlt hnext, fun k j => ?_⟩
      rw [H.away hop hstep hlt hon]
      exact hempty k j

/-- The directories of address spaces that are gone are empty. -/
theorem Run.gone_empty (h : Run (fun w op => ¬ CutsShared w op) ops w)
    (hclean : DestroysExited ops) : ∀ d, d ∉ w.mms →
    ∀ k j, w.vm.slots (.dir d k, j) = Pte.zero := by
  induction h with
  | init => exact fun _ _ _ _ => rfl
  | @step ops w w' op ret run hop hstep ih =>
    have H := run.inv fun _ _ hop => hop
    have H' := (H.step_ok hop hstep).1
    have hptr := pointers_of_step hstep
    intro d hd k j
    by_cases hlt : d < w'.next
    · by_cases hdm : d ∈ w.mms
      · -- it has just been destroyed
        rcases step_mms hstep with h | ⟨i, rfl, -, h⟩ | h
        · exact absurd (h.2 ▸ hdm) hd
        · have hdi : d = i := by
            by_contra hne
            exact hd (h ▸ Finset.mem_erase.2 ⟨hne, hdm⟩)
          subst hdi
          obtain ⟨mm, vm, hrun, -, hdirs, -⟩ := H.mmDestroy hptr
          simp only [World.step, getMm_mem hptr, hrun, Res.ok_bind] at hstep
          cases hstep
          exact (hdirs d k j).trans ((run.lastExit_empty (hclean.2 d rfl)).2 k j)
        · exact absurd (h.2 ▸ Finset.mem_insert_of_mem hdm) hd
      · have hold : d < w.next := by
          rcases step_mms hstep with h | ⟨i, -, h, -⟩ | h
          · omega
          · omega
          · by_contra hge
            refine hd (h.2 ▸ Finset.mem_insert.2 (.inl ?_))
            omega
        have hon : op.on ≠ some d := by
          intro hon
          cases op with
          | mmMapShmem i addr flags shmem =>
            cases hon
            exact hdm hptr.1
          | mmCreate script => cases hon
          | shmemCreate len => cases hon
          | supply frames objects nodes => cases hon
          | scribble page contents => cases hon
          | _ =>
            cases hon
            exact hdm hptr
        rw [H.away hop hstep hold hon]
        exact ih hclean.1 d hdm k j
    · exact H'.fresh d (by omega) k j

/-! ## The counts -/

theorem Inv.isTable_of_live (H : w.Inv)
    (hgone : ∀ d, d ∉ w.mms → ∀ k j, w.vm.slots (.dir d k, j) = Pte.zero) (hmms : w.mms = ∅) {p : ℕ}
    (hp : p ∈ w.vm.frames.live) : w.vm.IsTable p := by
  rcases H.good.live p hp with h | h | ⟨⟨y, j⟩, hy⟩
  · exact absurd h (Finset.notMem_empty p)
  · exact isTable_iff.2 h
  · have hy' : (w.vm.slots (y, j)).target = some p := hy
    cases y with
    | dir d k =>
      rw [hgone d (by rw [hmms]; exact Finset.notMem_empty d)] at hy'
      cases hy'
    | node o m =>
      -- no area is left, so that the objects that are left have never been used
      have hshares : w.shares o = 0 := by
        rw [shares, hmms]
        exact Finset.sum_empty
      have hT : w.vm.tableOf (.node o m) = none := by
        cases ho : w.vm.shmem o with
        | none => exact tableOf_node_none ho m
        | some sh => rw [tableOf_node ho, H.objects.unused o sh ho hshares, if_neg List.not_mem_nil]
      rw [slots_of_none hT] at hy'
      cases hy'

/-- **Frame reference counts are exact**, in every state of every run in which no hole is cut into a
shared area. -/
theorem frame_counts (h : Run (fun w op => ¬ CutsShared w op) ops w) :
    (∀ p, ¬ w.vm.IsTable p → (w.vm.userPtes p).Finite ∧ (w.vm.shmemEntries p).Finite ∧
      w.vm.ref p = w.vm.mappings p ∧ (p ∈ w.vm.frames.live ↔ 0 < w.vm.mappings p)) ∧
    (∀ p, w.vm.IsTable p → p ∈ w.vm.frames.live ∧ w.vm.mappings p = 0) ∧
    (∀ op, ¬ CutsShared w op → Pointers w op →
      (w.step op = .error .assertion ∧ op.faults = true) ∨ ∃ r, w.step op = .ok r) ∧
    (DestroysExited ops → w.mms = ∅ → ∀ p, ¬ w.vm.IsTable p → p ∉ w.vm.frames.live) := by
  have H := h.inv fun _ _ hop => hop
  have hg := H.good
  refine ⟨?_, ?_, ?_, ?_⟩
  · intro p hp
    obtain ⟨hfin, hfin', hrefs⟩ := hg.refs_eq p
    have hT : ∀ x, w.vm.tableOf x ≠ some p := fun x hx => hp (isTable_iff.2 ⟨x, hx⟩)
    refine ⟨hfin, hfin', ?_, ?_⟩
    · rw [← hrefs]
      exact hg.ref p hT
    · have hpos : 0 < refs w.vm.holds p ↔ ∃ x, w.vm.holds x = some p := refs_pos hg.finite
      rw [← hrefs, hpos]
      constructor
      · intro hlive
        rcases hg.live p hlive with h | ⟨x, hx⟩ | h
        · exact absurd h (Finset.notMem_empty p)
        · exact absurd hx (hT x)
        · exact h
      · rintro ⟨x, hx⟩
        exact (hg.used x p hx).1
  · intro p hp
    obtain ⟨x, hx⟩ := isTable_iff.1 hp
    refine ⟨(hg.tables x p hx).1, ?_⟩
    rw [← (hg.refs_eq p).2.2]
    exact refs_eq_zero hg.finite fun y hy => (hg.used y p hy).2.2 x hx
  · intro op hcut hptr
    exact (H.step hcut hptr).imp_right fun ⟨ret, w', hrun, _⟩ => ⟨(ret, w'), hrun⟩
  · exact fun hclean hmms p hp hlive =>
      hp (H.isTable_of_live (h.gone_empty hclean) hmms hlive)

/-- An area is mapped, and its page is touched. -/
def touchOps : List (Op × Ret) :=
  [(.pgfault 0 6 0x400123, .code 0), (.mmMap 0 0x400000 0x1000 { write := true }, .code 0),
    (.supply [some 5, some 6] [] [], .code 0), (.mmCreate [some 1], .code 0)]

/-- Then the address space is left and destroyed. -/
def leaveOps : List (Op × Ret) := (.mmDestroy 0, .code 0) :: (.exitMmap 0, .code 0) :: touchOps

/-- The page 6 is mapped in between, and at the end no page is in use. -/
theorem frame_counts_exit : ∃ w₁ w, Run (fun w op => ¬ CutsShared w op) touchOps w₁ ∧
    (w₁.vm.lookup 0 0x400123).target = some 6 ∧ w₁.vm.ref 6 = 1 ∧ 6 ∈ w₁.vm.frames.live ∧
    Run (fun w op => ¬ CutsShared w op) leaveOps w ∧ w.mms = ∅ ∧
    ∀ p, ¬ w.vm.IsTable p → p ∉ w.vm.frames.live := by
  have h₀ : Run (fun w op => ¬ CutsShared w op) [] World.init := .init
  have h₁ := h₀.step id (show World.init.step (.mmCreate [some 1]) = .ok (.code 0, _) from rfl)
  have h₂ := h₁.step id
    (show World.step _ (.supply [some 5, some 6] [] []) = .ok (.code 0, _) from rfl)
  have h₃ := h₂.step id
    (show World.step _ (.mmMap 0 0x400000 0x1000 { write := true }) = .ok (.code 0, _) from rfl)
  have h₄ := h₃.step id (show World.step _ (.pgfault 0 6 0x400123) = .ok (.code 0, _) from rfl)
  have h₅ := h₄.step id (show World.step _ (.exitMmap 0) = .ok (.code 0, _) from rfl)
  have h₆ := h₅.step id (show World.step _ (.mmDestroy 0) = .ok (.code 0, _) from rfl)
  have hclean : DestroysExited leaveOps :=
    ⟨⟨⟨⟨⟨⟨trivial, nofun⟩, nofun⟩, nofun⟩, nofun⟩, nofun⟩, fun i hi => .inl (by cases hi; rfl)⟩
  exact ⟨_, _, h₄, rfl, rfl, by decide, h₆, rfl, (frame_counts h₆).2.2.2 hclean rfl⟩

end World

end Ucore
