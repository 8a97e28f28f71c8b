import Ucore.Slab.Run
import Mathlib.Order.Bounds.Defs

/-!
# The layout of a slab

`init_kmem_cache` works out how many objects there are in a slab, where they begin and how large the
slab is, and the rest of `kern/mm/slab.c` trusts these numbers.  Here it is once more, with sizes of
32 bits: an operation whose result is not a `size_t` stops (`sizeT`).  For objects of at most 128
kilobytes no operation does, so this is the function of `Ucore.Slab.Defs` (`initKmemCache_spec`).

There are two kinds of objects.  With a small one, a page is always good enough, because what is
left over is less than an object and the rounding (`calculateSlabOrder_inSlab`).  With a large one,
the order grows until an eighth of the slab is an object or more, so that there are always less than
16 objects, and the control area is small (`calculateSlabOrder_offSlab`).

* `shrink_isGreatest` — the loop of `cache_estimate` ends with the largest number of objects that
  fits. It begins with what fits without the rounding, which is never too small.
* `cacheEstimate_spec` — `cache_estimate`, with what is left over.
* `calculateSlabOrder_spec` — the number of objects and the order.
* `LaidOut` — what the rest of the allocator trusts: the objects are in the slab, behind the control
  area if that is there as well, and a control area outside fits into an object of the cache that it
  is taken from.
* `initKmemCache_fits` — every cache is laid out so.
-/

set_option autoImplicit false

namespace Ucore

namespace Slab

/-! ## Sizes of 32 bits -/

/-- The `size_t` that an operation gives.  Instead of going over the range of `size_t` it stops. -/
def sizeT (x : ℤ) : Res ℕ :=
  if 0 ≤ x ∧ x ≤ 0xFFFFFFFF then .ok x.toNat else .error .assertion

/-- A division, which stops if the divisor is 0. -/
def divT (a b : ℕ) : Res ℕ := if b = 0 then .error .assertion else .ok (a / b)

/-- `ROUNDUP(a, n)`. -/
def roundUp32 (a n : ℕ) : Res ℕ := do
  let sum ← sizeT (a + n)
  let last ← sizeT (sum - 1)
  sizeT (last - last % n)

/-- `slab_mgmt_size`. -/
def slabMgmtSize32 (num align : ℕ) : Res ℕ := do
  let bufctl ← sizeT (num * sizeofBufctl)
  let size ← sizeT (sizeofSlab + bufctl)
  roundUp32 size align

/-- The loop of `cache_estimate`. -/
def shrink32 (slabSize objsize align : ℕ) : ℕ → ℕ → Res ℕ
  | 0, _ => .error .fuel
  | fuel + 1, nrObjs => do
    let mgmtSize ← slabMgmtSize32 nrObjs align
    let objs ← sizeT (nrObjs * objsize)
    let used ← sizeT (mgmtSize + objs)
    if used > slabSize then
      let nrObjs ← sizeT (nrObjs - 1)
      shrink32 slabSize objsize align fuel nrObjs
    else return nrObjs

/-- `cache_estimate`. -/
def cacheEstimate32 (order objsize align : ℕ) (offSlab : Bool) : Res (ℕ × ℕ) := do
  let slabSize ← sizeT (pgSize <<< order : ℕ)
  let (nrObjs, mgmtSize) ←
    if offSlab then do
      let nrObjs ← divT slabSize objsize
      pure (min nrObjs slabLimit, 0)
    else do
      let room ← sizeT (slabSize - sizeofSlab)
      let unit ← sizeT (objsize + sizeofBufctl)
      let nrObjs ← divT room unit
      let nrObjs ← shrink32 slabSize objsize align (nrObjs + 1) nrObjs
      let nrObjs := min nrObjs slabLimit
      let mgmtSize ← slabMgmtSize32 nrObjs align
      pure (nrObjs, mgmtSize)
  let objs ← sizeT (nrObjs * objsize)
  let rest ← sizeT (slabSize - objs)
  let remainder ← sizeT (rest - mgmtSize)
  return (remainder, nrObjs)

/-- `calculate_slab_order`, with the orders that are still to be tried. -/
def calculateSlabOrder32 (objsize align : ℕ) (offSlab : Bool) : List ℕ → Res (ℕ × ℕ × ℕ)
  | [] => .error .assertion
  | order :: rest => do
    let (remainder, num) ← cacheEstimate32 order objsize align offSlab
    if num ≠ 0 then
      if offSlab then
        let offSlabLimit ← sizeT (objsize - sizeofSlab)
        let offSlabLimit ← divT offSlabLimit sizeofBufctl
        assert (¬ num > offSlabLimit)
      let eighth ← sizeT (remainder * 8)
      let slabSize ← sizeT (pgSize <<< order : ℕ)
      if eighth ≤ slabSize then return (num, order, remainder)
      else calculateSlabOrder32 objsize align offSlab rest
    else calculateSlabOrder32 objsize align offSlab rest

/-- `init_kmem_cache`.  There is nothing in `getorder` that could overflow. -/
def initKmemCache32 (objsize align : ℕ) : Res KmemCache := do
  let objsize ← roundUp32 objsize align
  let offSlab := decide (objsize ≥ pgSize >>> 3)
  let (num, order, leftOver) ← calculateSlabOrder32 objsize align offSlab
    (List.range (kmallocMaxOrder + 1))
  assert (num > 0)
  let mgmtSize ← slabMgmtSize32 num align
  if offSlab && !decide (leftOver ≥ mgmtSize) then
    let mgmtOrder ← getorder mgmtSize
    let c ← sizeT (mgmtOrder - minSizeOrder)
    return ⟨objsize, num, 0, true, order, c⟩
  else return ⟨objsize, num, mgmtSize, false, order, 0⟩

/-! ## No operation goes over its range -/

theorem sizeT_ok {x : ℤ} {n : ℕ} (h : x = n) (hn : n ≤ 0xFFFFFFFF) : sizeT x = .ok n := by
  subst h
  rw [sizeT, if_pos (by omega), Int.toNat_natCast]

theorem divT_ok {a b : ℕ} (h : 0 < b) : divT a b = .ok (a / b) := if_neg (Nat.ne_of_gt h)

theorem roundUp_sixteen {a : ℕ} (h : a + 15 ≤ 0xFFFFFFFF) : roundUp a 16 = (a + 15) / 16 * 16 := by
  rw [roundUp, roundDown, addrAdd]
  omega

theorem roundUp32_eq {a : ℕ} (h : a + 16 ≤ 0xFFFFFFFF) : roundUp32 a 16 = .ok (roundUp a 16) := by
  have hsum : sizeT (a + (16 : ℕ)) = .ok (a + 16) := sizeT_ok rfl h
  have hlast : sizeT ((a + 16 : ℕ) - 1) = .ok (a + 15) := sizeT_ok (by omega) (by omega)
  rw [roundUp32, hsum, Res.ok_bind, hlast, Res.ok_bind, roundUp_sixteen (by omega)]
  exact sizeT_ok (by omega) (by omega)

/-- A control area takes 24 bytes and 4 bytes for each object, rounded up. -/
theorem slabMgmtSize_eq {n : ℕ} (h : n ≤ 0xFFFFFFF) :
    slabMgmtSize n 16 = (n * 4 + 39) / 16 * 16 := by
  rw [slabMgmtSize, sizeofSlab, sizeofBufctl, roundUp_sixteen (by omega)]
  omega

theorem slabMgmtSize32_eq {n : ℕ} (h : n ≤ 0xFFFFFFF) :
    slabMgmtSize32 n 16 = .ok (slabMgmtSize n 16) := by
  have hbufctl : sizeT (n * sizeofBufctl) = .ok (n * 4) := sizeT_ok rfl (by omega)
  have hsize : sizeT (sizeofSlab + (n * 4 : ℕ)) = .ok (24 + n * 4) := sizeT_ok rfl (by omega)
  rw [slabMgmtSize32, hbufctl, Res.ok_bind, hsize, Res.ok_bind]
  exact roundUp32_eq (by omega)

/-! ## The number of objects -/

/-- `n` objects fit into a slab, with the control area if it is in the slab. -/
def Fits (slabSize objsize : ℕ) (offSlab : Bool) (n : ℕ) : Prop :=
  (if offSlab then 0 else slabMgmtSize n 16) + n * objsize ≤ slabSize

section Estimate

variable {order objsize slabSize n : ℕ}

theorem slabSize_bounds (horder : order ≤ kmallocMaxOrder) :
    4096 ≤ pgSize <<< order ∧ pgSize <<< order ≤ 0x400000 := by
  have hall : ∀ k < kmallocMaxOrder + 1, 4096 ≤ pgSize <<< k ∧ pgSize <<< k ≤ 0x400000 := by decide
  exact hall order (Nat.lt_succ_of_le horder)

/-- What fits without the rounding is not too large for the operations. -/
theorem num_le (hn : n * (objsize + 4) ≤ 0x400000) : n * objsize + n * 4 ≤ 0x400000 := by
  rwa [Nat.mul_add] at hn

theorem Fits.unrounded (hobj : 0 < objsize) (hslab : slabSize ≤ 0x400000)
    (h : Fits slabSize objsize false n) : n * (objsize + 4) + 24 ≤ slabSize := by
  have hn : n ≤ n * objsize := Nat.le_mul_of_pos_right n hobj
  have hfits : slabMgmtSize n 16 + n * objsize ≤ slabSize := h
  rw [slabMgmtSize_eq (by omega)] at hfits
  rw [Nat.mul_add]
  omega

theorem shrink32_round (hslab : 32 ≤ slabSize) (hn : n * (objsize + 4) ≤ 0x400000) (fuel : ℕ) :
    shrink32 slabSize objsize 16 (fuel + 1) n =
      if slabMgmtSize n 16 + n * objsize > slabSize then shrink32 slabSize objsize 16 fuel (n - 1)
      else .ok n := by
  have hle := num_le hn
  have hmgmt := slabMgmtSize_eq (show n ≤ 0xFFFFFFF by omega)
  have hobjs : sizeT (n * objsize) = .ok (n * objsize) := sizeT_ok rfl (by omega)
  have hused : sizeT (slabMgmtSize n 16 + (n * objsize : ℕ)) =
      .ok (slabMgmtSize n 16 + n * objsize) := sizeT_ok rfl (by omega)
  rw [shrink32, slabMgmtSize32_eq (by omega), Res.ok_bind, hobjs, Res.ok_bind, hused, Res.ok_bind]
  split
  · next hbig =>
    have hpos : n ≠ 0 := by
      rintro rfl
      rw [Nat.zero_mul] at hbig
      omega
    have hdec : sizeT ((n : ℤ) - 1) = .ok (n - 1) := sizeT_ok (by omega) (by omega)
    rw [hdec, Res.ok_bind]
  · rfl

/-- The loop of `cache_estimate` with sizes of 32 bits. -/
theorem shrink32_eq (hslab : 32 ≤ slabSize) (hn : n * (objsize + 4) ≤ 0x400000) (fuel : ℕ) :
    shrink32 slabSize objsize 16 (fuel + 1) n =
      whileLoop (fun n => slabMgmtSize n 16 + n * objsize > slabSize) (fun n => .ok (n - 1)) fuel
        n := by
  induction fuel generalizing n with
  | zero =>
    rw [shrink32_round hslab hn, whileLoop]
    simp only [decide_eq_true_eq]
    rfl
  | succ fuel ih =>
    rw [shrink32_round hslab hn, whileLoop]
    simp only [decide_eq_true_eq, Res.ok_bind]
    rw [ih ((Nat.mul_le_mul_right _ (Nat.sub_le n 1)).trans hn)]

/-- The loop of `cache_estimate` ends with the largest number of objects that fits: it begins with
what fits without the rounding, and leaves out only what does not fit. -/
theorem shrink_isGreatest (hobj : 0 < objsize) (hslab : slabSize ≤ 0x400000) (h32 : 32 ≤ slabSize) :
    ∃ num, whileLoop (fun n => slabMgmtSize n 16 + n * objsize > slabSize) (fun n => .ok (n - 1))
        ((slabSize - 24) / (objsize + 4)) ((slabSize - 24) / (objsize + 4)) = .ok num ∧
      IsGreatest {n | Fits slabSize objsize false n} num := by
  refine whileLoop_spec
    (fun k n => k = n ∧ n ∈ upperBounds {n | Fits slabSize objsize false n}) ⟨rfl, ?_⟩
    (Nat.le_refl _) ?_ ?_
  · intro n hn
    have hle := Fits.unrounded hobj hslab hn
    exact (Nat.le_div_iff_mul_le (by omega)).2 (by omega)
  · rintro k n ⟨rfl, hupper⟩ hbig
    have hbig' : slabMgmtSize k 16 + k * objsize > slabSize := of_decide_eq_true hbig
    have hpos : k ≠ 0 := by
      rintro rfl
      rw [Nat.zero_mul, slabMgmtSize_eq (by omega)] at hbig'
      omega
    refine ⟨k - 1, k - 1, rfl, ⟨rfl, fun n hn => ?_⟩, by omega⟩
    have hle : n ≤ k := hupper hn
    have hne : n ≠ k := by
      rintro rfl
      have hfits : slabMgmtSize n 16 + n * objsize ≤ slabSize := hn
      omega
    omega
  · rintro k n ⟨rfl, hupper⟩ hfits
    have hfits' : ¬ slabMgmtSize k 16 + k * objsize > slabSize := of_decide_eq_false hfits
    exact ⟨Nat.le_of_not_lt hfits', hupper⟩

/-- The end of `cache_estimate`: what is left over. -/
theorem remainder32 {mgmtSize : ℕ} (hslab : slabSize ≤ 0x400000)
    (hfits : mgmtSize + n * objsize ≤ slabSize) :
    (do
      let objs ← sizeT (n * objsize)
      let rest ← sizeT (slabSize - objs)
      let remainder ← sizeT (rest - mgmtSize)
      return (remainder, n) : Res (ℕ × ℕ)) = .ok (slabSize - n * objsize - mgmtSize, n) := by
  have hobjs : sizeT (n * objsize) = .ok (n * objsize) := sizeT_ok rfl (by omega)
  have hrest : sizeT (slabSize - (n * objsize : ℕ)) = .ok (slabSize - n * objsize) :=
    sizeT_ok (by omega) (by omega)
  have hremainder : sizeT ((slabSize - n * objsize : ℕ) - mgmtSize) =
      .ok (slabSize - n * objsize - mgmtSize) := sizeT_ok (by omega) (by omega)
  rw [hobjs, Res.ok_bind, hrest, Res.ok_bind, hremainder, Res.ok_bind]
  rfl

/-- **`cache_estimate` finds the largest number of objects that fits into the slab**, and no
operation goes over its range. -/
theorem cacheEstimate_spec (horder : order ≤ kmallocMaxOrder) (hobj : 0 < objsize)
    (hmax : objsize ≤ 131072) (offSlab : Bool) :
    ∃ num remainder, cacheEstimate order objsize 16 offSlab = .ok (remainder, num) ∧
      cacheEstimate32 order objsize 16 offSlab = .ok (remainder, num) ∧
      IsGreatest {n | Fits (pgSize <<< order) objsize offSlab n} num ∧
      (if offSlab then 0 else slabMgmtSize num 16) + num * objsize + remainder =
        pgSize <<< order := by
  obtain ⟨hlow, hhigh⟩ := slabSize_bounds horder
  have hslab : sizeT (pgSize <<< order : ℕ) = .ok (pgSize <<< order) := sizeT_ok rfl (by omega)
  rw [cacheEstimate, cacheEstimate32, hslab, Res.ok_bind]
  generalize pgSize <<< order = slabSize at hlow hhigh
  have hlimit : ∀ n, n ≤ slabSize → min n slabLimit = n := fun n hn =>
    Nat.min_eq_left (hn.trans (hhigh.trans (by decide)))
  cases offSlab with
  | true =>
    have hmul : slabSize / objsize * objsize ≤ slabSize := Nat.div_mul_le_self _ _
    have hfits : 0 + slabSize / objsize * objsize ≤ slabSize := by omega
    have htail := remainder32 hhigh hfits
    refine ⟨slabSize / objsize, slabSize - slabSize / objsize * objsize, ?_, ?_, ⟨hfits, ?_⟩, ?_⟩
    · simp only [if_true, hlimit _ (Nat.div_le_self _ _), Res.pure_eq]
    · simp only [if_true, divT_ok hobj, Res.ok_bind, Res.pure_eq, hlimit _ (Nat.div_le_self _ _)]
      exact htail
    · intro n hn
      have hn' : 0 + n * objsize ≤ slabSize := hn
      exact (Nat.le_div_iff_mul_le hobj).2 (by omega)
    · simp only [if_true]
      omega
  | false =>
    obtain ⟨num, hloop, hgreatest⟩ := shrink_isGreatest hobj hhigh (by omega)
    have hfits : slabMgmtSize num 16 + num * objsize ≤ slabSize := hgreatest.1
    have hnum : num ≤ num * objsize := Nat.le_mul_of_pos_right num hobj
    have hroom : sizeT (slabSize - sizeofSlab) = .ok (slabSize - 24) :=
      sizeT_ok (by rw [sizeofSlab]; omega) (by omega)
    have hunit : sizeT (objsize + sizeofBufctl) = .ok (objsize + 4) := sizeT_ok rfl (by omega)
    have hfirst : (slabSize - 24) / (objsize + 4) * (objsize + 4) ≤ 0x400000 :=
      (Nat.div_mul_le_self _ _).trans (by omega)
    refine ⟨num, slabSize - num * objsize - slabMgmtSize num 16, ?_, ?_, hgreatest, ?_⟩
    · simp only [Bool.false_eq_true, if_false, sizeofSlab, sizeofBufctl, hloop, Res.ok_bind,
        hlimit num (by omega), Res.pure_eq]
    · simp only [Bool.false_eq_true, if_false, hroom, hunit, divT_ok (Nat.succ_pos _),
        shrink32_eq (show 32 ≤ slabSize by omega) hfirst, hloop, Res.ok_bind, Res.pure_eq,
        hlimit num (by omega), slabMgmtSize32_eq (show num ≤ 0xFFFFFFF by omega)]
      exact remainder32 hhigh hfits
    · simp only [Bool.false_eq_true, if_false]
      omega

end Estimate

/-! ## The size of the slab -/

section Order

variable {order objsize : ℕ} {offSlab : Bool} {orders : List ℕ}

theorem calculateSlabOrder32_eq (hobj : 0 < objsize) (hmax : objsize ≤ 131072)
    (hoff : offSlab = true → sizeofSlab ≤ objsize) (horders : ∀ o ∈ orders, o ≤ kmallocMaxOrder) :
    calculateSlabOrder32 objsize 16 offSlab orders =
      calculateSlabOrder objsize 16 offSlab orders := by
  induction orders with
  | nil => rfl
  | cons order rest ih =>
    rw [List.forall_mem_cons] at horders
    obtain ⟨num, remainder, hest, hest32, -, hsum⟩ :=
      cacheEstimate_spec horders.1 hobj hmax offSlab
    obtain ⟨-, hhigh⟩ := slabSize_bounds horders.1
    have height : sizeT (remainder * 8) = .ok (remainder * 8) := sizeT_ok rfl (by omega)
    have hslab : sizeT (pgSize <<< order : ℕ) = .ok (pgSize <<< order) := sizeT_ok rfl (by omega)
    rw [calculateSlabOrder32, calculateSlabOrder, hest, hest32, Res.ok_bind, Res.ok_bind]
    simp only [height, hslab, Res.ok_bind, ih horders.2]
    cases offSlab with
    | false => simp
    | true =>
      have hlimit : sizeT (objsize - sizeofSlab) = .ok (objsize - sizeofSlab) :=
        sizeT_ok (Nat.cast_sub (hoff rfl)).symm (by omega)
      simp only [if_true, hlimit, divT_ok (show 0 < sizeofBufctl by decide), Res.ok_bind]
      by_cases hmany : num > (objsize - sizeofSlab) / sizeofBufctl
      · simp [assert, hmany]
      · simp [assert, hmany]

/-- **Small objects.**  A page is enough: one more object would not fit, so less than an object and
the rounding is left over. -/
theorem calculateSlabOrder_inSlab (hobj : 0 < objsize) (hsmall : objsize ≤ 496) :
    ∃ num leftOver, calculateSlabOrder objsize 16 false (0 :: orders) = .ok (num, 0, leftOver) ∧
      0 < num ∧ num ≤ 4096 ∧ slabMgmtSize num 16 + num * objsize ≤ pgSize := by
  obtain ⟨num, remainder, hest, -, ⟨hfits, hupper⟩, hsum⟩ :=
    cacheEstimate_spec (Nat.zero_le _) hobj (by omega) false
  change slabMgmtSize num 16 + num * objsize ≤ 4096 at hfits
  change slabMgmtSize num 16 + num * objsize + remainder = 4096 at hsum
  have hnum : num ≤ num * objsize := Nat.le_mul_of_pos_right num hobj
  have hone : 1 ≤ num := by
    refine hupper ?_
    change slabMgmtSize 1 16 + 1 * objsize ≤ 4096
    rw [slabMgmtSize_eq (by omega)]
    omega
  have hmore : ¬ slabMgmtSize (num + 1) 16 + (num + 1) * objsize ≤ 4096 := fun hmore =>
    absurd (hupper hmore) (Nat.not_succ_le_self num)
  rw [slabMgmtSize_eq (by omega), Nat.add_one_mul num objsize] at hmore
  have hleft : remainder * 8 ≤ pgSize <<< 0 := by
    rw [slabMgmtSize_eq (by omega)] at hsum
    change remainder * 8 ≤ 4096
    omega
  refine ⟨num, remainder, ?_, hone, by omega, hfits⟩
  rw [calculateSlabOrder, hest, Res.ok_bind]
  simp only [Bool.false_eq_true, false_and, if_false, if_pos (Nat.ne_of_gt hone), if_pos hleft,
    Res.pure_eq]

/-- One order for large objects.  It is taken or too small, but there are not too many objects. -/
theorem calculateSlabOrder_round (horder : order ≤ kmallocMaxOrder) (hobj : 512 ≤ objsize)
    (hmax : objsize ≤ 131072) (hlow : pgSize <<< order < 16 * objsize) :
    ∃ num remainder, num ≤ 15 ∧ num * objsize + remainder = pgSize <<< order ∧
      remainder < objsize ∧ ∀ orders,
      calculateSlabOrder objsize 16 true (order :: orders) =
        if num ≠ 0 ∧ remainder * 8 ≤ pgSize <<< order then .ok (num, order, remainder)
        else calculateSlabOrder objsize 16 true orders := by
  obtain ⟨num, remainder, hest, -, ⟨-, hupper⟩, hsum⟩ :=
    cacheEstimate_spec horder (by omega) hmax true
  change 0 + num * objsize + remainder = pgSize <<< order at hsum
  have hnum : num ≤ 15 := by
    by_contra hgt
    have hmul : 16 * objsize ≤ num * objsize := Nat.mul_le_mul_right objsize (by omega)
    omega
  have hmore : ¬ 0 + (num + 1) * objsize ≤ pgSize <<< order := fun hmore =>
    absurd (hupper hmore) (Nat.not_succ_le_self num)
  rw [Nat.add_one_mul] at hmore
  have hlimit : ¬ num > (objsize - sizeofSlab) / sizeofBufctl := by
    rw [sizeofSlab, sizeofBufctl]
    omega
  refine ⟨num, remainder, hnum, by omega, by omega, fun orders => ?_⟩
  rw [calculateSlabOrder, hest, Res.ok_bind]
  by_cases hzero : num = 0
  · simp [hzero]
  · simp [hzero, hlimit]

/-- **Large objects.**  Where the order is too small, the slab is less than eight objects, so the
next one is less than 16.  The slab of order 8 is large enough for everything. -/
theorem calculateSlabOrder_offSlab (hobj : 512 ≤ objsize) (hmax : objsize ≤ 131072)
    {k : ℕ} (hk : order + k = 8) (hlow : pgSize <<< order < 16 * objsize) :
    ∃ num o leftOver,
      calculateSlabOrder objsize 16 true (List.range' order (k + 3)) = .ok (num, o, leftOver) ∧
      0 < num ∧ num ≤ 15 ∧ num * objsize + leftOver = pgSize <<< o := by
  induction k generalizing order with
  | zero =>
    obtain rfl : order = 8 := hk
    obtain ⟨num, remainder, hnum, hsum, hlt, hround⟩ :=
      calculateSlabOrder_round (by decide) hobj hmax hlow
    change num * objsize + remainder = 1048576 at hsum
    have hpos : num ≠ 0 := by
      rintro rfl
      omega
    refine ⟨num, 8, remainder, (hround _).trans (if_pos ⟨hpos, ?_⟩), Nat.pos_of_ne_zero hpos, hnum,
      hsum⟩
    change remainder * 8 ≤ 1048576
    omega
  | succ k ih =>
    have horder : order ≤ kmallocMaxOrder := by
      rw [kmallocMaxOrder]
      omega
    obtain ⟨num, remainder, hnum, hsum, hlt, hround⟩ :=
      calculateSlabOrder_round horder hobj hmax hlow
    by_cases htake : num ≠ 0 ∧ remainder * 8 ≤ pgSize <<< order
    · exact ⟨num, order, remainder, (hround _).trans (if_pos htake), Nat.pos_of_ne_zero htake.1,
        hnum, hsum⟩
    · have hnext : pgSize <<< (order + 1) < 16 * objsize := by
        rw [Nat.shiftLeft_succ]
        by_cases hzero : num = 0
        · subst hzero
          omega
        · have hlarge : ¬ remainder * 8 ≤ pgSize <<< order := fun h => htake ⟨hzero, h⟩
          omega
      obtain ⟨num', o, leftOver, hrest⟩ := ih (by omega) hnext
      exact ⟨num', o, leftOver, ((hround _).trans (if_neg htake)).trans hrest.1, hrest.2⟩

/-- The number of objects and the order are found for all objects of at most 128 kilobytes. -/
theorem calculateSlabOrder_spec (hobj : 0 < objsize) (hmod : objsize % 16 = 0)
    (hmax : objsize ≤ 131072) :
    ∃ num order leftOver,
      calculateSlabOrder objsize 16 (decide (objsize ≥ pgSize >>> 3))
        (List.range (kmallocMaxOrder + 1)) = .ok (num, order, leftOver) ∧ 0 < num ∧ num ≤ 4096 ∧
      (objsize < 512 ∧ slabMgmtSize num 16 + num * objsize ≤ pgSize <<< order ∨
        512 ≤ objsize ∧ num ≤ 15 ∧ num * objsize + leftOver = pgSize <<< order) := by
  by_cases hlarge : 512 ≤ objsize
  · obtain ⟨num, order, leftOver, hcalc, hpos, hnum, hsum⟩ :=
      @calculateSlabOrder_offSlab 0 objsize hlarge hmax 8 rfl (by change 4096 < _; omega)
    refine ⟨num, order, leftOver, ?_, hpos, by omega, .inr ⟨hlarge, hnum, hsum⟩⟩
    rw [decide_eq_true (show objsize ≥ pgSize >>> 3 from hlarge)]
    exact hcalc
  · obtain ⟨num, leftOver, hcalc, hpos, hnum, hfits⟩ :=
      @calculateSlabOrder_inSlab objsize (List.range' 1 10) hobj (by omega)
    refine ⟨num, 0, leftOver, ?_, hpos, hnum, .inl ⟨by omega, hfits⟩⟩
    rw [decide_eq_false (show ¬ objsize ≥ pgSize >>> 3 from hlarge)]
    exact hcalc

end Order

/-! ## The cache -/

/-- **The numbers of a cache can be trusted.**  The objects are in the slab, and the control area is
in front of them, or in an object of a cache that has its own control areas in its slabs. -/
structure LaidOut (c : KmemCache) (size : ℕ) : Prop where
  num_pos : 0 < c.num
  fits : c.offset + c.num * c.objsize ≤ pgSize <<< c.pageOrder
  size_le : size ≤ c.objsize
  control : sizeofSlab + c.num * sizeofBufctl ≤ slabMgmtSize c.num 16
  inSlab : c.offSlab = false → sizeofSlab + c.num * sizeofBufctl ≤ c.offset
  offSlab : c.offSlab = true → c.slabCachep < slabCacheNum ∧
    slabMgmtSize c.num 16 ≤ (slabCache c.slabCachep).objsize ∧
    (slabCache c.slabCachep).offSlab = false

section Cache

variable {size num order leftOver : ℕ}

theorem control_le (hnum : num ≤ 4096) :
    sizeofSlab + num * sizeofBufctl ≤ slabMgmtSize num 16 := by
  rw [slabMgmtSize_eq (by omega), sizeofSlab, sizeofBufctl]
  omega

/-- Small control areas go to the first three caches. -/
theorem getorder_mgmt {n : ℕ} (hn : n ≤ 96) : ∃ k, getorder n = .ok k ∧ minSizeOrder ≤ k ∧
    k - minSizeOrder < slabCacheNum ∧ n ≤ (slabCache (k - minSizeOrder)).objsize ∧
    (slabCache (k - minSizeOrder)).offSlab = false := by
  have hall : ∀ n < 97, ∃ k ∈ [5, 6, 7], getorder n = .ok k ∧ minSizeOrder ≤ k ∧
      k - minSizeOrder < slabCacheNum ∧ n ≤ (slabCache (k - minSizeOrder)).objsize ∧
      (slabCache (k - minSizeOrder)).offSlab = false := by
    decide
  obtain ⟨k, -, hk⟩ := hall n (Nat.lt_succ_of_le hn)
  exact ⟨k, hk⟩

/-- **`init_kmem_cache` lays out every cache**, and no operation goes over its range. -/
theorem initKmemCache_spec (hsize : 1 ≤ size) (hmax : size ≤ 131072) :
    ∃ c, initKmemCache32 size 16 = .ok c ∧ initKmemCache size 16 = .ok c ∧ LaidOut c size := by
  have hround32 : roundUp32 size 16 = .ok (roundUp size 16) := roundUp32_eq (by omega)
  have hround := roundUp_sixteen (show size + 15 ≤ 0xFFFFFFFF by omega)
  rw [initKmemCache, initKmemCache32, hround32, Res.ok_bind]
  generalize roundUp size 16 = objsize at hround
  obtain ⟨num, order, leftOver, hcalc, hnum, hle, hfit⟩ :=
    @calculateSlabOrder_spec objsize (by omega) (by omega) (by omega)
  have hlarge : decide (objsize ≥ pgSize >>> 3) = true → 512 ≤ objsize := of_decide_eq_true
  have hcalc32 := (calculateSlabOrder32_eq (by omega) (by omega)
    (fun hoff => (by decide : sizeofSlab ≤ 512).trans (hlarge hoff))
    (fun order horder => Nat.le_of_lt_succ (List.mem_range.1 horder))).trans hcalc
  have hmgmt32 := slabMgmtSize32_eq (show num ≤ 0xFFFFFFF by omega)
  have hcontrol := control_le hle
  simp only [hcalc, hcalc32, hmgmt32, Res.ok_bind, assert_pos (show num > 0 from hnum)]
  cases hoff : decide (objsize ≥ pgSize >>> 3) && !decide (leftOver ≥ slabMgmtSize num 16) with
  | true =>
    rw [Bool.and_eq_true] at hoff
    have hnum15 : num ≤ 15 ∧ num * objsize + leftOver = pgSize <<< order :=
      (hfit.resolve_left fun h => absurd (hlarge hoff.1) (Nat.not_le.2 h.1)).2
    have hmgmt : slabMgmtSize num 16 ≤ 96 := by
      rw [slabMgmtSize_eq (by omega)]
      omega
    obtain ⟨k, hk, hmin, hcache⟩ := getorder_mgmt hmgmt
    have hsub : sizeT (k - minSizeOrder) = .ok (k - minSizeOrder) :=
      sizeT_ok (Nat.cast_sub hmin).symm ((Nat.le_of_lt hcache.1).trans (by decide))
    refine ⟨⟨objsize, num, 0, true, order, k - minSizeOrder⟩, ?_, ?_, hnum, ?_, ?_, hcontrol,
      fun h => Bool.noConfusion h, fun _ => hcache⟩
    · simp only [if_true, hk, hsub, Res.ok_bind, Res.pure_eq]
    · simp only [if_true, hk, Res.ok_bind, Res.pure_eq]
    · change 0 + num * objsize ≤ pgSize <<< order
      omega
    · change size ≤ objsize
      omega
  | false =>
    refine ⟨⟨objsize, num, slabMgmtSize num 16, false, order, 0⟩, rfl, rfl, hnum, ?_, ?_, hcontrol,
      fun _ => hcontrol, fun h => Bool.noConfusion h⟩
    · change slabMgmtSize num 16 + num * objsize ≤ pgSize <<< order
      rcases hfit with hfit | ⟨hbig, -, hsum⟩
      · exact hfit.2
      · have hroom : leftOver ≥ slabMgmtSize num 16 := by
          rw [decide_eq_true (show objsize ≥ pgSize >>> 3 from hbig), Bool.true_and] at hoff
          simpa using hoff
        omega
    · change size ≤ objsize
      omega

/-- The caches of `slab_init`. -/
theorem slabCache_laidOut {c : ℕ} (hc : c < slabCacheNum) :
    LaidOut (slabCache c) (1 <<< (c + minSizeOrder)) := by
  have hall : ∀ c < slabCacheNum, 1 ≤ 1 <<< (c + minSizeOrder) ∧
      1 <<< (c + minSizeOrder) ≤ 131072 ∧
      initKmemCache (1 <<< (c + minSizeOrder)) 16 = .ok (slabCache c) := by
    decide +kernel
  obtain ⟨hpos, hmax, hinit⟩ := hall c hc
  obtain ⟨cache, -, hcache, hlaid⟩ := initKmemCache_spec hpos hmax
  rw [hinit] at hcache
  exact Except.ok.inj hcache ▸ hlaid

end Cache

/-- **The layout always fits.**  For objects of 1 byte up to 128 kilobytes, `init_kmem_cache` ends
without a `panic` and without an overflow, with numbers that can be trusted, and `cache_estimate`
finds the largest number of objects that fits into a slab of any order that is tried. -/
theorem initKmemCache_fits (size : ℕ) (hsize : 1 ≤ size) (hmax : size ≤ 128 * 1024) :
    (∃ c, initKmemCache32 size 16 = .ok c ∧ initKmemCache size 16 = .ok c ∧ LaidOut c size) ∧
      ∀ order ≤ kmallocMaxOrder, ∀ offSlab, ∃ num remainder,
        cacheEstimate32 order size 16 offSlab = .ok (remainder, num) ∧
        IsGreatest {n | Fits (pgSize <<< order) size offSlab n} num ∧
        (if offSlab then 0 else slabMgmtSize num 16) + num * size + remainder =
          pgSize <<< order := by
  refine ⟨initKmemCache_spec hsize hmax, fun order horder offSlab => ?_⟩
  obtain ⟨num, remainder, -, hest32, hgreatest, hsum⟩ :=
    cacheEstimate_spec horder hsize hmax offSlab
  exact ⟨num, remainder, hest32, hgreatest, hsum⟩

/-- Seven objects of 2064 bytes leave enough room in four pages for the control area, which has to
be in the slab then. -/
theorem initKmemCache_fits_seven : LaidOut ⟨2064, 7, 64, false, 2, 0⟩ 2064 := by
  obtain ⟨c, hc, -, hlaid⟩ := (initKmemCache_fits 2064 (by decide) (by decide)).1
  have heval : initKmemCache32 2064 16 = .ok ⟨2064, 7, 64, false, 2, 0⟩ := by decide +kernel
  rw [heval] at hc
  exact Except.ok.inj hc ▸ hlaid

end Slab

end Ucore
