import Ucore.Vmm.Ops

/-!
# Runs of an address space

`Mm.Reach B` describes the address spaces that the operations of `vmm.c` lead to, whatever the
backend does and whatever `kmalloc` answers.  Nothing is asked of the backend `B`: a call into it
may also stop, and an operation then stops in the same way (`Backend.Stops`).  What is shown is that
this is the only way for an operation not to return.

* `mm_structure` — the three indexes always show the same sorted areas, and no assertion of `vmm.c`
  fires;
* `rangeChecks_iff` — exactly when the checks of `mm_map` and `mm_unmap` on the range they are given
  are right: not always, because the end of the range is computed modulo `2 ^ 32`.

## Backends that stop

`Res.StopsIn P x` says that `x` returns, or stops with a fault that `P` allows.  The functions that
call the backend in one place have a lemma about it: `vmaRelease_stopsIn`, `unmapEffect_stopsIn`,
`mapShmem_stopsIn` and `unmap_stopsIn`.  For `dup_mmap` the rule `dupMmap_rule` is used with the
backend `B.hush`, which goes on where `B` stops, and `Mm.Inv.dup_hush` says that the copy is the
same as long as `B` does not stop.

`Mm.Reach.inv` is the induction on a run.

## The checks on the range

The end of a range is rounded up before it is checked.  If the sum of the start and the length wraps
around, the rounded end may be any address, and the check passes exactly if the sum lands in the
page of the start (`access_of_wrap`): then the range that is worked on is this one page, and the
call returns 0 for a range of nearly 4 gigabytes.  Without a wrap, the check on the rounded range is
a check on the range (`access_of_no_wrap`).  `user_mem_check` tests for the wrap, and the two
functions here do not.
-/

set_option autoImplicit false

namespace Ucore

variable {ε : Type} {B : Backend ε}

/-- The ways in which a function of the backend stops. -/
inductive Backend.Stops (B : Backend ε) (f : Fault) : Prop
  | unmapRange {pgdir start stop : ℕ} {e : ε} (h : B.unmapRange pgdir start stop e = .error f)
  | exitRange {pgdir start stop : ℕ} {e : ε} (h : B.exitRange pgdir start stop e = .error f)
  | copyRange {dst src start stop : ℕ} {share : Bool} {e : ε}
    (h : B.copyRange dst src start stop share e = .error f)
  | shmemLen {o : ℕ} {e : ε} (h : B.shmemLen o e = .error f)
  | shmemRefInc {o : Option ℕ} {e : ε} (h : B.shmemRefInc o e = .error f)
  | shmemRefDec {o : Option ℕ} {e : ε} (h : B.shmemRefDec o e = .error f)
  | shmemDestroy {o : Option ℕ} {e : ε} (h : B.shmemDestroy o e = .error f)

/-- The address spaces that runs lead to.  `kmalloc` stands for what happens between two calls: the
answers to the next requests are arbitrary.  A copy by `dup_mmap` counts also if it has failed
halfway. -/
inductive Mm.Reach (B : Backend ε) : Mm → Prop
  | create (pgdir : ℕ) (kmem : Pool ℕ) : Mm.Reach B (mmCreate pgdir kmem)
  | kmalloc {mm : Mm} (script : List (Option ℕ)) :
      Mm.Reach B mm → Mm.Reach B { mm with kmem := { mm.kmem with script := script } }
  | map {mm mm' : Mm} {addr len : ℕ} {flags : VmFlags} {ret : ℤ} {stored : Option ℕ} :
      Mm.Reach B mm → mmMap mm addr len flags = .ok (ret, stored, mm') → Mm.Reach B mm'
  | mapShmem {mm mm' : Mm} {addr : ℕ} {flags : VmFlags} {o : Option ℕ} {ret : ℤ} {e e' : ε} :
      Mm.Reach B mm → mmMapShmem B mm addr flags o e = .ok (ret, mm', e') → Mm.Reach B mm'
  | unmap {mm mm' : Mm} {addr len : ℕ} {ret : ℤ} {e e' : ε} :
      Mm.Reach B mm → mmUnmap B mm addr len e = .ok (ret, mm', e') → Mm.Reach B mm'
  | find {mm mm' : Mm} {addr : ℕ} {found : Option ℕ} :
      Mm.Reach B mm → findVma mm addr = .ok (found, mm') → Mm.Reach B mm'
  | dup {src dst : Mm} {pgdir : ℕ} {kmem : Pool ℕ} {ret : ℤ} {e e' : ε} :
      Mm.Reach B src → dupMmap B (mmCreate pgdir kmem) src e = .ok (ret, dst, e') → Mm.Reach B dst

variable (B) in
theorem vmaRelease_stopsIn (a : Vma) (e : ε) : (vmaRelease B a e).StopsIn B.Stops := by
  rw [vmaRelease]
  refine .ite (.bind (fun f => .shmemRefDec) fun r _ => ?_) (.ok e)
  exact .ite (fun f => .shmemDestroy) (.ok r.2)

variable (B) in
theorem unmapEffect_stopsIn (pgdir start stop : ℕ) (e : ε) (a : Vma) :
    (unmapEffect B pgdir start stop e a).StopsIn B.Stops := by
  have hrange : ∀ start stop e, (B.unmapRange pgdir start stop e).StopsIn B.Stops :=
    fun _ _ _ f => .unmapRange
  rw [unmapEffect]
  refine .ite (.ok e) (.ite (hrange _ _ e) (.ite (hrange _ _ e) (.ite (hrange _ _ e) ?_)))
  exact .bind (vmaRelease_stopsIn B a e) fun e₁ _ => hrange _ _ e₁

namespace Mm.Inv

variable {mm : Mm}

theorem kmalloc (H : mm.Inv) (script : List (Option ℕ)) :
    { mm with kmem := { mm.kmem with script := script } }.Inv :=
  ⟨H.valid, H.sorted, H.count, H.cache, H.live,
    fun tree htree => ⟨(H.tree tree htree).shape, (H.tree tree htree).live⟩⟩

/-! ## Every operation keeps the invariant, and stops only where the backend does -/

theorem map_inv (H : mm.Inv) (addr len : ℕ) (flags : VmFlags) :
    ∃ ret stored mm', mmMap mm addr len flags = .ok (ret, stored, mm') ∧ mm'.Inv := by
  rcases H.mmMap_cases addr len flags rfl rfl with ⟨-, hmap⟩ | ⟨-, -, mm', hmap, H', -⟩ |
    ⟨-, -, -, mm', hmap, H', -⟩ | ⟨-, -, v, mm', l, r, -, hmap, H', -⟩
  · exact ⟨_, _, _, hmap, H⟩
  · exact ⟨_, _, _, hmap, H'⟩
  · exact ⟨_, _, _, hmap, H'⟩
  · exact ⟨_, _, _, hmap, H'⟩

/-- The address space in a result. -/
theorem eq_of_ok {α : Type} {r r' : α} {mm' : Mm} {e e' : ε}
    (h : (.ok (r, mm, e) : Res (α × Mm × ε)) = .ok (r', mm', e')) : mm = mm' := by
  rw [Except.ok.injEq, Prod.mk.injEq, Prod.mk.injEq] at h
  exact h.2.1

/-- `mm_map_shmem` refuses an address inside of a page. -/
theorem mapShmem_of_ne {addr : ℕ} (haddr : addr % pgSize ≠ 0) (flags : VmFlags) (o : ℕ) (e : ε) :
    mmMapShmem B mm addr flags (some o) e = .ok (-eInval, mm, e) := by
  simp [mmMapShmem, haddr]

/-- A call of `mm_map_shmem` that returns keeps the invariant, whatever the backend does. -/
theorem of_mapShmem (H : mm.Inv) {mm' : Mm} {addr : ℕ} {flags : VmFlags} {o : Option ℕ} {ret : ℤ}
    {e e' : ε} (h : mmMapShmem B mm addr flags o e = .ok (ret, mm', e')) : mm'.Inv := by
  cases o with
  | none => exact eq_of_ok h ▸ H
  | some o =>
    by_cases haddr : addr % pgSize = 0
    · have h' := h
      simp only [mmMapShmem, haddr, ne_eq, not_true_eq_false, if_false] at h'
      obtain ⟨e₁, hinc, h'⟩ := Res.bind_eq_ok.1 h'
      obtain ⟨len, hlen, -⟩ := Res.bind_eq_ok.1 h'
      rcases mmMapShmem_cases B H flags haddr hinc hlen rfl rfl with
        ⟨ret, mm₁, -, H₁, -, -, hrun⟩ | ⟨mm₁, l, r, H₁, -, -, -, hrun⟩
      · rw [h] at hrun
        obtain ⟨r, -, hrun⟩ := Res.bind_eq_ok.1 hrun.symm
        exact eq_of_ok hrun ▸ H₁
      · exact eq_of_ok (hrun.symm.trans h) ▸ H₁
    · rw [mapShmem_of_ne haddr] at h
      exact eq_of_ok h ▸ H

theorem mapShmem_stopsIn (H : mm.Inv) (addr : ℕ) (flags : VmFlags) (o : Option ℕ) (e : ε) :
    (mmMapShmem B mm addr flags o e).StopsIn B.Stops := by
  cases o with
  | none => exact .ok _
  | some o =>
    by_cases haddr : addr % pgSize = 0
    · intro f hf
      have hf' := hf
      simp only [mmMapShmem, haddr, ne_eq, not_true_eq_false, if_false] at hf'
      cases hinc : B.shmemRefInc (some o) e with
      | error f' =>
        rw [hinc] at hf'
        cases hf'
        exact .shmemRefInc hinc
      | ok e₁ =>
        cases hlen : B.shmemLen o e₁ with
        | error f' =>
          rw [hinc, Res.ok_bind, hlen] at hf'
          cases hf'
          exact .shmemLen hlen
        | ok len =>
          rcases mmMapShmem_cases B H flags haddr hinc hlen rfl rfl with
            ⟨ret, mm', -, -, -, -, hrun⟩ | ⟨mm', l, r, -, -, -, -, hrun⟩
          · rw [hrun] at hf
            exact Res.StopsIn.bind (fun f => .shmemRefDec) (fun r _ => .ok _) f hf
          · rw [hrun] at hf
            cases hf
    · rw [mapShmem_of_ne haddr]
      exact .ok _

/-- A call of `mm_unmap` that returns keeps the invariant as well. -/
theorem of_unmap (H : mm.Inv) {mm' : Mm} {addr len : ℕ} {ret : ℤ} {e e' : ε}
    (h : mmUnmap B mm addr len e = .ok (ret, mm', e')) : mm'.Inv := by
  rcases H.mmUnmap_cases B addr len rfl rfl with ⟨-, hrun⟩ | ⟨-, -, -, mm₁, H₁, -, -, hrun⟩ |
    ⟨-, -, mm₁, H₁, -, -, hrun⟩
  · exact eq_of_ok ((hrun e).symm.trans h) ▸ H
  · exact eq_of_ok ((hrun e).symm.trans h) ▸ H₁
  · rw [hrun, Res.bind_eq_ok] at h
    obtain ⟨e₁, -, h⟩ := h
    exact eq_of_ok h ▸ H₁

theorem unmap_stopsIn (H : mm.Inv) (addr len : ℕ) (e : ε) :
    (mmUnmap B mm addr len e).StopsIn B.Stops := by
  rcases H.mmUnmap_cases B addr len rfl rfl with ⟨-, hrun⟩ | ⟨-, -, -, mm', -, -, -, hrun⟩ |
    ⟨-, -, mm', -, -, -, hrun⟩
  · rw [hrun]
    exact .ok _
  · rw [hrun]
    exact .ok _
  · rw [hrun]
    exact .bind (.foldlM (unmapEffect_stopsIn B mm.pgdir _ _) _ e) fun e' _ => .ok _

theorem find_inv (H : mm.Inv) (addr : ℕ) : ∃ found mm', findVma mm addr = .ok (found, mm') ∧
    mm'.Inv := by
  obtain ⟨c, hfind, Hc⟩ := H.findVma_spec addr
  exact ⟨_, _, hfind, Hc⟩

end Mm.Inv

/-! ## Copies for which the backend may stop -/

/-- The backend that goes on with the old state where `B` stops. -/
def Backend.hush (B : Backend ε) : Backend ε where
  unmapRange pgdir start stop e := B.unmapRange pgdir start stop e <|> .ok e
  exitRange pgdir start stop e := B.exitRange pgdir start stop e <|> .ok e
  copyRange dst src start stop share e := B.copyRange dst src start stop share e <|> .ok (0, e)
  shmemLen o e := B.shmemLen o e <|> .ok 0
  shmemRefInc o e := B.shmemRefInc o e <|> .ok e
  shmemRefDec o e := B.shmemRefDec o e <|> .ok (0, e)
  shmemDestroy o e := B.shmemDestroy o e <|> .ok e

theorem dupAreas_hush (src : Mm) (l : List ℕ) (dst : Mm) (e : ε) :
    (dupAreas B src l dst e).UpTo B.Stops (dupAreas B.hush src l dst e) := by
  induction l generalizing dst e with
  | nil => exact .refl _
  | cons v rest ih =>
    rw [dupAreas, dupAreas]
    rcases vmaCreate dst (src.vma v).vmStart (src.vma v).vmEnd (src.vma v).vmFlags with
      ⟨_ | nvma, dst⟩
    · exact .refl _
    · have hshare : (shareArea B (src.vma v) dst nvma e).UpTo B.Stops
          (shareArea B.hush (src.vma v) dst nvma e) := by
        rw [shareArea, shareArea]
        exact .ite (.bind (.orElse (fun f => .shmemRefInc) _) fun _ => .refl _) (.refl _)
      refine .bind hshare fun d => .bind (.refl _) fun dst' => ?_
      refine .bind (.orElse (fun f => .copyRange) _) fun r => .ite (.refl _) ?_
      exact ih dst' r.2

/-- Where the backend does not stop, the copy is made as it is with a backend that never stops. -/
theorem Mm.Inv.dup_hush {mm : Mm} (H : mm.Inv) (pgdir : ℕ) (kmem : Pool ℕ) (e : ε) :
    ∃ ret dst e', dst.Inv ∧
      (dupMmap B (mmCreate pgdir kmem) mm e).UpTo B.Stops (.ok (ret, dst, e')) := by
  obtain ⟨ret, dst, e', as, cs, hrun, H', -⟩ := dupMmap_rule B.hush H pgdir kmem
    (fun _ _ => True) (fun _ _ => True) (e := e) trivial (fun as a cs e _ _ => by
      have href : ∃ e₁, dupRef B.hush a e = .ok e₁ := by
        rw [dupRef]
        split
        · exact Res.exists_orElse ..
        · exact ⟨e, rfl⟩
      obtain ⟨e₁, href⟩ := href
      obtain ⟨⟨ret, e₂⟩, hcopy⟩ : ∃ r,
          B.hush.copyRange pgdir mm.pgdir a.vmStart a.vmEnd a.vmFlags.share e₁ = .ok r :=
        Res.exists_orElse ..
      exact ⟨e₁, ret, e₂, href, hcopy, fun _ => trivial, fun _ => trivial⟩)
  exact ⟨ret, dst, e', H', hrun ▸ dupAreas_hush _ _ _ _⟩

/-- Every step of a run keeps the invariant, so that every run does. -/
theorem Mm.Reach.inv {mm : Mm} (h : Mm.Reach B mm) : mm.Inv := by
  induction h with
  | create pgdir kmem => exact mmCreate_inv pgdir kmem
  | kmalloc script _ H => exact H.kmalloc script
  | map _ hrun H =>
    obtain ⟨ret, stored, mm', hrun', H'⟩ := H.map_inv _ _ _
    rw [hrun, Except.ok.injEq, Prod.mk.injEq, Prod.mk.injEq] at hrun'
    rwa [hrun'.2.2]
  | mapShmem _ hrun H => exact H.of_mapShmem hrun
  | unmap _ hrun H => exact H.of_unmap hrun
  | find _ hrun H =>
    obtain ⟨found, mm', hrun', H'⟩ := H.find_inv _
    rw [hrun, Except.ok.injEq, Prod.mk.injEq] at hrun'
    rwa [hrun'.2]
  | dup _ hrun H =>
    obtain ⟨ret, dst, e', H', hrun'⟩ := H.dup_hush _ _ _
    exact Mm.Inv.eq_of_ok (hrun'.le _ hrun) ▸ H'

/-! ## The structure of an address space -/

/-- **The indexes of an address space stay in step.**  The list is strictly sorted by `vm_start` and
consists of page-aligned, non-empty, pairwise disjoint ranges of user addresses, `map_count` is its
length, the in-order sequence of the tree, if there is one, is the list, and the cache is empty or
shows an area of the list.  No assertion fires in any operation, whether `kmalloc` fails or not:
`mm_map` and `find_vma` always return, and the others stop only in ways in which a function of
`pmm.c` or `shmem.c` does. -/
theorem mm_structure {mm : Mm} (h : Mm.Reach B mm) :
    mm.mmapList.Pairwise (fun v w => (mm.vma v).vmStart < (mm.vma w).vmStart) ∧
    (∀ v ∈ mm.mmapList, (mm.vma v).vmStart < (mm.vma v).vmEnd ∧
      (mm.vma v).vmStart % pgSize = 0 ∧ (mm.vma v).vmEnd % pgSize = 0 ∧
      userBase ≤ (mm.vma v).vmStart ∧ (mm.vma v).vmEnd ≤ userTop) ∧
    (∀ v ∈ mm.mmapList, ∀ w ∈ mm.mmapList, v ≠ w →
      (mm.vma v).vmEnd ≤ (mm.vma w).vmStart ∨ (mm.vma w).vmEnd ≤ (mm.vma v).vmStart) ∧
    mm.mapCount = mm.mmapList.length ∧
    (∀ tree, mm.mmapTree = some tree → ∃ t, tree.WF (vmaCompare mm.vma) mm.rbLink t ∧
      t.inorder = mm.mmapList) ∧
    (∀ v, mm.mmapCache = some v → v ∈ mm.mmapList) ∧
    (∀ addr len flags, ∃ r, mmMap mm addr len flags = .ok r) ∧
    (∀ addr, ∃ r, findVma mm addr = .ok r) ∧
    (∀ addr flags o e, (mmMapShmem B mm addr flags o e).StopsIn B.Stops) ∧
    (∀ addr len e, (mmUnmap B mm addr len e).StopsIn B.Stops) ∧
    (∀ pgdir kmem e, (dupMmap B (mmCreate pgdir kmem) mm e).StopsIn B.Stops) := by
  have H := h.inv
  refine ⟨H.starts, ?_, fun v hv w hw => H.apart hv hw, H.count,
    fun tree htree => (H.tree tree htree).shape, H.cache, ?_, ?_, H.mapShmem_stopsIn,
    H.unmap_stopsIn, ?_⟩
  · intro v hv
    have hval := H.valid v hv
    exact ⟨hval.lt, hval.start_aligned, hval.end_aligned, hval.base_le, hval.le_top⟩
  · intro addr len flags
    obtain ⟨ret, stored, mm', hrun, -⟩ := H.map_inv addr len flags
    exact ⟨_, hrun⟩
  · intro addr
    obtain ⟨found, mm', hrun, -⟩ := H.find_inv addr
    exact ⟨_, hrun⟩
  · intro pgdir kmem e
    obtain ⟨ret, dst, e', -, hrun⟩ := H.dup_hush pgdir kmem e
    exact hrun.stopsIn

/-- A backend without a state, which does nothing. -/
def idleBackend : Backend Unit where
  unmapRange _ _ _ _ := .ok ()
  exitRange _ _ _ _ := .ok ()
  copyRange _ _ _ _ _ _ := .ok (0, ())
  shmemLen _ _ := .ok 0x3000
  shmemRefInc _ _ := .ok ()
  shmemRefDec _ _ := .ok (1, ())
  shmemDestroy _ _ := .ok ()

/-- A shared area of three pages the middle one of which is unmapped. -/
theorem mm_structure_hole : ∃ mm, Mm.Reach idleBackend mm ∧ mm.areas.length = 2 ∧
    mm.mapCount = mm.mmapList.length := by
  have h₀ : Mm.Reach idleBackend (mmCreate 0 ⟨∅, [some 1, some 2]⟩) := .create _ _
  have hmap : mmMapShmem idleBackend (mmCreate 0 ⟨∅, [some 1, some 2]⟩) 0x400000 {} (some 0) () =
    .ok (0, _, ()) := rfl
  have h₁ := h₀.mapShmem hmap
  have h₂ := h₁.unmap (show mmUnmap idleBackend _ 0x401000 0x1000 () = .ok (0, _, ()) from rfl)
  exact ⟨_, h₂, rfl, (mm_structure h₂).2.2.2.1⟩

/-! ## The checks on the range -/

/-- `mm_map` keeps its promise: if it returns 0 the whole range lies in the user part, and the new
area covers it. -/
def MapSound (mm : Mm) (addr len : ℕ) (flags : VmFlags) : Prop :=
  ∀ stored mm', mmMap mm addr len flags = .ok (0, stored, mm') →
    userBase ≤ addr ∧ addr + len ≤ userTop ∧ ∃ v, stored = some v ∧ v ∈ mm'.mmapList ∧
      ∀ x, addr ≤ x → x < addr + len → (mm'.vma v).vmStart ≤ x ∧ x < (mm'.vma v).vmEnd

/-- `mm_unmap` keeps its promise: if it returns 0 the range ends in the user part, and no area
covers any address of it. -/
def UnmapSound (B : Backend ε) (mm : Mm) (addr len : ℕ) (e : ε) : Prop :=
  ∀ mm' e', mmUnmap B mm addr len e = .ok (0, mm', e') →
    addr + len ≤ userTop ∧ ∀ a ∈ mm'.areas, ∀ x, addr ≤ x → x < addr + len →
      ¬ (a.vmStart ≤ x ∧ x < a.vmEnd)

/-- The sum of a user address and a length wraps around and lands above the start of the page of the
address. -/
def WrapsIntoPage (addr len : ℕ) : Prop :=
  userBase ≤ addr ∧ addr < userTop ∧ 2 ^ 32 + roundDown addr pgSize < addr + len

theorem ret_inj {α : Type} {r s : ℤ} {x y : α} (h : (.ok (r, x) : Res (ℤ × α)) = .ok (s, y)) :
    r = s :=
  (Prod.mk.inj (Except.ok.inj h)).1

theorem le_roundUp {a : ℕ} (h : a + (pgSize - 1) < 2 ^ 32) : a ≤ roundUp a pgSize := by
  rw [roundUp, addrAdd, Nat.mod_eq_of_lt h, roundDown, pgSize] at *
  omega

/-- Without a wrap, the check on the rounded range is a check on the range. -/
theorem access_of_no_wrap {addr len : ℕ} (hsum : addr + len < 2 ^ 32)
    (h : userAccess (roundDown addr pgSize) (roundUp (addrAdd addr len) pgSize) = true) :
    userBase ≤ addr ∧ addr + len ≤ userTop ∧ roundDown addr pgSize ≤ addr ∧
      addr + len ≤ roundUp (addrAdd addr len) pgSize := by
  obtain ⟨h1, h2, h3⟩ := userAccess_iff.1 h
  have hadd : addrAdd addr len = addr + len := Nat.mod_eq_of_lt hsum
  rw [hadd] at h2 h3 ⊢
  have hlow := roundDown_le addr pgSize
  -- a sum within a page of the end of memory would be rounded up to 0
  have hup : addr + len + (pgSize - 1) < 2 ^ 32 := by
    by_contra hcon
    have hzero : roundUp (addr + len) pgSize = 0 := by
      rw [roundUp, addrAdd, roundDown, pgSize]
      rw [pgSize] at hcon
      have hmod : (addr + len + (4096 - 1)) % 2 ^ 32 = addr + len + 4095 - 2 ^ 32 := by
        omega
      rw [hmod]
      omega
    rw [hzero] at h2
    exact absurd h2 (Nat.not_lt_zero _)
  have := le_roundUp hup
  exact ⟨h1.trans hlow, this.trans h3, hlow, this⟩

/-- With a wrap, the check accepts exactly the sums that land in the page of the address, and the
range it works on is that page. -/
theorem access_of_wrap {addr len : ℕ} (haddr : addr < 2 ^ 32) (hlen : len < 2 ^ 32)
    (hsum : 2 ^ 32 ≤ addr + len) :
    (userAccess (roundDown addr pgSize) (roundUp (addrAdd addr len) pgSize) = true ↔
      WrapsIntoPage addr len) ∧
    (WrapsIntoPage addr len →
      roundUp (addrAdd addr len) pgSize = roundDown addr pgSize + pgSize) := by
  have hadd : addrAdd addr len = addr + len - 2 ^ 32 := by
    rw [addrAdd]
    omega
  have hpage : WrapsIntoPage addr len →
      roundUp (addrAdd addr len) pgSize = roundDown addr pgSize + pgSize := by
    rintro ⟨h1, h2, h3⟩
    rw [hadd, roundUp, addrAdd, roundDown]
    rw [roundDown] at h3
    simp only [roundDown, pgSize, userTop] at *
    omega
  refine ⟨⟨fun h => ?_, fun h => ?_⟩, hpage⟩
  · obtain ⟨h1, h2, h3⟩ := userAccess_iff.1 h
    rw [hadd, roundUp, addrAdd] at h2 h3
    simp only [WrapsIntoPage, roundDown, pgSize, userTop, userBase] at *
    refine ⟨?_, ?_, ?_⟩ <;> omega
  · rw [userAccess_iff, hpage h]
    obtain ⟨h1, h2, h3⟩ := h
    simp only [roundDown, pgSize, userTop, userBase] at *
    refine ⟨?_, ?_, ?_⟩ <;> omega

theorem mapSound_iff {mm : Mm} (H : mm.Inv) {addr len : ℕ} (haddr : addr < 2 ^ 32)
    (hlen : len < 2 ^ 32) (flags : VmFlags) : MapSound mm addr len flags ↔
      ¬ (WrapsIntoPage addr len ∧
        ¬ mm.Meets (roundDown addr pgSize) (roundDown addr pgSize + pgSize) ∧
        mm.kmem.take.1 ≠ none) := by
  rcases Nat.lt_or_ge (addr + len) (2 ^ 32) with hsum | hsum
  · have hno : ¬ WrapsIntoPage addr len := fun h => by
      have h3 := h.2.2
      omega
    refine iff_of_true (fun stored mm' hrun => ?_) fun h => hno h.1
    rcases H.mmMap_cases addr len flags rfl rfl with ⟨-, hmap⟩ | ⟨-, -, mm₁, hmap, -⟩ |
      ⟨-, -, -, mm₁, hmap, -⟩ | ⟨hacc, -, v, mm₁, l, r, -, hmap, -, -, -, hlist, hvma, -⟩
    · rw [hmap] at hrun
      exact absurd (ret_inj hrun) (by decide)
    · rw [hmap] at hrun
      exact absurd (ret_inj hrun) (by decide)
    · rw [hmap] at hrun
      exact absurd (ret_inj hrun) (by decide)
    · rw [hmap, Except.ok.injEq, Prod.mk.injEq, Prod.mk.injEq] at hrun
      obtain ⟨-, rfl, rfl⟩ := hrun
      obtain ⟨h1, h2, h3, h4⟩ := access_of_no_wrap hsum hacc
      refine ⟨h1, h2, v, rfl, by rw [hlist]; simp, fun x hx hx' => ?_⟩
      rw [hvma, Function.update_self]
      exact ⟨h3.trans hx, hx'.trans_le h4⟩
  · obtain ⟨hiff, hpage⟩ := access_of_wrap haddr hlen hsum
    have htop : ¬ addr + len ≤ userTop := by
      rw [userTop]
      omega
    rcases H.mmMap_cases addr len flags rfl rfl with ⟨hacc, hmap⟩ | ⟨hacc, hmeets, mm₁, hmap, -⟩ |
      ⟨hacc, -, hnone, mm₁, hmap, -⟩ | ⟨hacc, hmeets, v, mm₁, l, r, hsome, hmap, -⟩
    · refine iff_of_true (fun stored mm' hrun => ?_) fun h => ?_
      · rw [hmap] at hrun
        exact absurd (ret_inj hrun) (by decide)
      · rw [hiff.2 h.1] at hacc
        exact absurd hacc (by simp)
    · refine iff_of_true (fun stored mm' hrun => ?_) fun h => ?_
      · rw [hmap] at hrun
        exact absurd (ret_inj hrun) (by decide)
      · rw [hpage h.1] at hmeets
        exact h.2.1 hmeets
    · refine iff_of_true (fun stored mm' hrun => ?_) fun h => h.2.2 hnone
      rw [hmap] at hrun
      exact absurd (ret_inj hrun) (by decide)
    · refine iff_of_false (fun h => htop (h _ _ hmap).2.1) fun h => h ⟨hiff.1 hacc, ?_, ?_⟩
      · rwa [hpage (hiff.1 hacc)] at hmeets
      · rw [hsome]
        simp

/-- A piece of an area covers no address of the removed range. -/
theorem Vma.not_mem_pieces {start stop x : ℕ} {a b : Vma}
    (hb : b ∈ a.pieces start stop) (hx : start ≤ x) (hx' : x < stop) :
    ¬ (b.vmStart ≤ x ∧ x < b.vmEnd) := by
  rw [Vma.pieces] at hb
  split at hb
  · rw [List.mem_singleton] at hb
    subst hb
    omega
  · split at hb
    · rw [List.mem_cons, List.mem_singleton] at hb
      rcases hb with rfl | rfl
      · simp only
        omega
      · rw [Vma.resize_start, Vma.resize_end]
        omega
    · split at hb
      · rw [List.mem_singleton] at hb
        subst hb
        rw [Vma.resize_start, Vma.resize_end]
        omega
      · split at hb
        · rw [List.mem_singleton] at hb
          subst hb
          rw [Vma.resize_start, Vma.resize_end]
          omega
        · exact absurd hb List.not_mem_nil

theorem unmapSound_iff {mm : Mm} (H : mm.Inv) {addr len : ℕ} (haddr : addr < 2 ^ 32)
    (hlen : len < 2 ^ 32) {e : ε} (hret : ∃ r, mmUnmap B mm addr len e = .ok r) :
    UnmapSound B mm addr len e ↔
      ¬ (WrapsIntoPage addr len ∧ ¬ ((∃ a ∈ mm.areas,
        a.Hole (roundDown addr pgSize) (roundDown addr pgSize + pgSize)) ∧
        mm.kmem.take.1 = none)) := by
  rcases Nat.lt_or_ge (addr + len) (2 ^ 32) with hsum | hsum
  · have hno : ¬ WrapsIntoPage addr len := fun h => by
      have h3 := h.2.2
      omega
    refine iff_of_true (fun mm' e' hrun => ?_) fun h => hno h.1
    rcases H.mmUnmap_cases B addr len rfl rfl with ⟨-, hmap⟩ | ⟨-, -, -, mm₁, -, -, -, hmap⟩ |
      ⟨hacc, -, mm₁, -, -, hareas, hmap⟩
    · rw [hmap] at hrun
      exact absurd (ret_inj hrun) (by decide)
    · rw [hmap] at hrun
      exact absurd (ret_inj hrun) (by decide)
    · rw [hmap, Res.bind_eq_ok] at hrun
      obtain ⟨e₁, -, hrun⟩ := hrun
      rw [Except.ok.injEq, Prod.mk.injEq, Prod.mk.injEq] at hrun
      obtain ⟨-, rfl, -⟩ := hrun
      obtain ⟨h1, h2, h3, h4⟩ := access_of_no_wrap hsum hacc
      refine ⟨h2, fun b hb x hx hx' => ?_⟩
      rw [hareas, List.mem_flatMap] at hb
      obtain ⟨a, -, hb⟩ := hb
      exact Vma.not_mem_pieces hb (h3.trans hx) (hx'.trans_le h4)
  · obtain ⟨hiff, hpage⟩ := access_of_wrap haddr hlen hsum
    have htop : ¬ addr + len ≤ userTop := by
      rw [userTop]
      omega
    rcases H.mmUnmap_cases B addr len rfl rfl with ⟨hacc, hmap⟩ |
      ⟨hacc, hhole, hnone, mm₁, -, -, -, hmap⟩ | ⟨hacc, hnot, mm₁, -, -, -, hmap⟩
    · refine iff_of_true (fun mm' e' hrun => ?_) fun h => ?_
      · rw [hmap] at hrun
        exact absurd (ret_inj hrun) (by decide)
      · rw [hiff.2 h.1] at hacc
        exact absurd hacc (by simp)
    · refine iff_of_true (fun mm' e' hrun => ?_) fun h => ?_
      · rw [hmap] at hrun
        exact absurd (ret_inj hrun) (by decide)
      · rw [hpage h.1] at hhole
        exact h.2 ⟨hhole, hnone⟩
    · refine iff_of_false (fun h => ?_) fun h => h ⟨hiff.1 hacc, ?_⟩
      · obtain ⟨r, hrun⟩ := hret
        have hok := hrun
        rw [hmap, Res.bind_eq_ok] at hok
        obtain ⟨e', -, hok⟩ := hok
        rw [← Except.ok.inj hok] at hrun
        exact htop (h _ _ hrun).1
      · rwa [hpage (hiff.1 hacc)] at hnot

/-- **When the range checks are sound.**  `mm_map` and `mm_unmap` keep their promises on all 32-bit
arguments, except that a sum `addr + len` which wraps around and lands in the page of `addr`, above
its start, passes the check.  Then `mm_map` maps that page if it is free and `kmalloc` has an area,
and `mm_unmap`, if the functions it calls return, unmaps it unless it has to split an area and
`kmalloc` fails. -/
theorem rangeChecks_iff {mm : Mm} (h : Mm.Reach B mm) {addr len : ℕ}
    (haddr : addr < 2 ^ 32) (hlen : len < 2 ^ 32) (flags : VmFlags) (e : ε) :
    (MapSound mm addr len flags ↔
      ¬ (WrapsIntoPage addr len ∧
        ¬ mm.Meets (roundDown addr pgSize) (roundDown addr pgSize + pgSize) ∧
        mm.kmem.take.1 ≠ none)) ∧
    ((∃ r, mmUnmap B mm addr len e = .ok r) → (UnmapSound B mm addr len e ↔
      ¬ (WrapsIntoPage addr len ∧ ¬ ((∃ a ∈ mm.areas,
        a.Hole (roundDown addr pgSize) (roundDown addr pgSize + pgSize)) ∧
        mm.kmem.take.1 = none)))) :=
  ⟨mapSound_iff (h.inv) haddr hlen flags, unmapSound_iff (h.inv) haddr hlen⟩

/-- On a new address space a range that does not wrap is treated right. -/
theorem rangeChecks_new : MapSound (mmCreate 0 ⟨∅, [some 1]⟩) 0x00200000 0x1000 {} ∧
    UnmapSound idleBackend (mmCreate 0 ⟨∅, [some 1]⟩) 0x00200000 0x1000 () := by
  have h := rangeChecks_iff (B := idleBackend) (.create 0 ⟨∅, [some 1]⟩)
    (show 0x00200000 < 2 ^ 32 by decide) (show 0x1000 < 2 ^ 32 by decide) {} ()
  have hno : ¬ WrapsIntoPage 0x00200000 0x1000 := by
    simp [WrapsIntoPage, userBase, userTop, roundDown, pgSize]
  exact ⟨h.1.2 fun hw => hno hw.1, (h.2 ⟨_, rfl⟩).2 fun hw => hno hw.1⟩

/-- The last byte of a page and the largest length: the sum wraps to the byte before it, and a new
address space maps, and unmaps, the page. -/
theorem rangeChecks_wrap : ¬ MapSound (mmCreate 0 ⟨∅, [some 1]⟩) 0x00200fff 0xffffffff {} ∧
    ¬ UnmapSound idleBackend (mmCreate 0 ⟨∅, [some 1]⟩) 0x00200fff 0xffffffff () := by
  refine ⟨fun h => ?_, fun h => ?_⟩
  · have hrun : mmMap (mmCreate 0 ⟨∅, [some 1]⟩) 0x00200fff 0xffffffff {} = .ok (0, some 1, _) :=
      rfl
    exact absurd (h _ _ hrun).2.1 (by decide)
  · have hrun : mmUnmap idleBackend (mmCreate 0 ⟨∅, [some 1]⟩) 0x00200fff 0xffffffff () =
      .ok (0, _, ()) := rfl
    exact absurd (h _ _ hrun).1 (by decide)

end Ucore
