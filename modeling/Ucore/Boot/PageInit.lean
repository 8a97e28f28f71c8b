import Ucore.Boot.Defs
import Ucore.Buddy.Run

/-!
# `page_init` frees exactly the usable memory

A page is usable if it lies in one of the regions of memory, behind the page descriptors and below
`KMEMSIZE` (`E820Entry.Holds`).  `usableRange` turns a region into the range of such pages, in spite
of the arithmetic with 32 bits, since the region has been clipped before it is rounded.  The number
of the page descriptors comes from a different loop over the map, but is large enough.  So each call
of `init_memmap` is one that the buddy allocator allows, and the result is read off its invariant.

* `usableRange_eq` — the range in terms of page numbers.  It has the pages that the region holds
  (`usableRange_some`), or there are none (`usableRange_none`).
* `holds_lt_npage` — every page that a region holds has a descriptor, as the first loop of
  `page_init` finds the end of every region that starts low enough (`le_foldMax`).
* `reservePages_eq` — at first all pages are reserved, so that none is free.
* `initRegions_spec` — the calls of `init_memmap`, by induction on the map, with the zones that have
  been added so far.  The regions do not overlap, so neither do the zones.
* `pageInit_frees_usable` — the result.
-/

set_option autoImplicit false

namespace Ucore

namespace E820Entry

/-- An address lies in the region. -/
def Has (r : E820Entry) (a : ℕ) : Prop := r.addr ≤ a ∧ a < r.addr + r.size

/-- The page `x` lies in the region, clipped to `[freemem, KMEMSIZE)`. -/
def Holds (freemem : ℕ) (r : E820Entry) (x : ℕ) : Prop :=
  r.type = e820Arm ∧ max r.addr freemem ≤ x * pgSize ∧
    (x + 1) * pgSize ≤ min (r.addr + r.size) kmemSize

theorem Holds.has {freemem x : ℕ} {r : E820Entry} (h : r.Holds freemem x) : r.Has (x * pgSize) := by
  obtain ⟨-, hlo, hhi⟩ := h
  have h1 := le_trans (le_max_left _ _) hlo
  have h2 := le_trans hhi (min_le_left _ _)
  simp only [Has, pgSize] at *
  omega

end E820Entry

section Range

variable {freemem : ℕ} {r : E820Entry}

/-- The range in terms of page numbers: since it is clipped first, 32 bits are enough. -/
theorem usableRange_eq (htype : r.type = e820Arm) (hend : r.addr + r.size < 2 ^ 64) :
    usableRange freemem r =
      if (max r.addr freemem + 4095) / 4096 < min (r.addr + r.size) kmemSize / 4096 then
        some ((max r.addr freemem + 4095) / 4096 * 4096,
          min (r.addr + r.size) kmemSize / 4096 * 4096)
      else none := by
  have hstop : r.stop = r.addr + r.size := Nat.mod_eq_of_lt hend
  have hlo : (if r.addr < freemem then freemem else r.addr) = max r.addr freemem := by
    rw [max_def]
    split_ifs <;> omega
  have hhi : (if r.addr + r.size > kmemSize then kmemSize else r.addr + r.size) =
      min (r.addr + r.size) kmemSize := by
    rw [min_def]
    split_ifs <;> omega
  have htop : min (r.addr + r.size) kmemSize ≤ kmemSize := min_le_right _ _
  simp only [usableRange, if_pos htype, hstop, hlo, hhi]
  generalize max r.addr freemem = a at *
  generalize min (r.addr + r.size) kmemSize = b at *
  by_cases hab : a < b
  · have hup : roundUp (a % 2 ^ 32) pgSize = (a + 4095) / 4096 * 4096 := by
      simp only [roundUp, roundDown, addrAdd, pgSize, kmemSize] at *
      omega
    have hdown : roundDown (b % 2 ^ 32) pgSize = b / 4096 * 4096 := by
      simp only [roundDown, pgSize, kmemSize] at *
      omega
    rw [if_pos hab, hup, hdown]
    exact if_congr (by omega) rfl rfl
  · rw [if_neg hab, if_neg (by omega)]

/-- The pages that a region holds, as a range. -/
theorem holds_iff (htype : r.type = e820Arm) (x : ℕ) : r.Holds freemem x ↔
    (max r.addr freemem + 4095) / 4096 ≤ x ∧ x < min (r.addr + r.size) kmemSize / 4096 := by
  rw [E820Entry.Holds]
  simp only [htype, true_and, pgSize]
  generalize max r.addr freemem = a
  generalize min (r.addr + r.size) kmemSize = b
  omega

/-- A region without a range of its own holds no page. -/
theorem usableRange_none (hend : r.type = e820Arm → r.addr + r.size < 2 ^ 64)
    (h : usableRange freemem r = none) (x : ℕ) : ¬ r.Holds freemem x := by
  intro hx
  rw [usableRange_eq hx.1 (hend hx.1)] at h
  rw [holds_iff hx.1] at hx
  rw [if_pos (by omega)] at h
  cases h

/-- The pages of the range are the pages that the region holds. -/
theorem usableRange_some (hend : r.type = e820Arm → r.addr + r.size < 2 ^ 64) {start stop : ℕ}
    (h : usableRange freemem r = some (start, stop)) :
    start / pgSize + (stop - start) / pgSize = stop / pgSize ∧ start / pgSize < stop / pgSize ∧
      ∀ x, start / pgSize ≤ x ∧ x < stop / pgSize ↔ r.Holds freemem x := by
  by_cases htype : r.type = e820Arm
  · rw [usableRange_eq htype (hend htype)] at h
    split at h
    · next hlt =>
      rw [Option.some.injEq, Prod.mk.injEq] at h
      obtain ⟨rfl, rfl⟩ := h
      simp only [holds_iff htype, pgSize]
      refine ⟨by omega, by omega, fun x => ?_⟩
      omega
    · cases h
  · rw [usableRange, if_neg htype] at h
    cases h

end Range

/-! ## The number of pages -/

/-- The first loop finds the end of every region that starts low enough. -/
theorem le_foldMax (map : List E820Entry) (maxpa : ℕ) :
    maxpa ≤ map.foldl (fun maxpa r =>
      if r.type = e820Arm ∧ maxpa < r.stop ∧ r.addr < kmemSize then r.stop else maxpa) maxpa ∧
    ∀ r ∈ map, r.type = e820Arm → r.addr < kmemSize → r.stop ≤ map.foldl (fun maxpa r =>
      if r.type = e820Arm ∧ maxpa < r.stop ∧ r.addr < kmemSize then r.stop else maxpa) maxpa := by
  induction map generalizing maxpa with
  | nil => exact ⟨le_rfl, fun r hr => absurd hr List.not_mem_nil⟩
  | cons q map ih =>
    rw [List.foldl_cons]
    obtain ⟨hle, hall⟩ := ih (if q.type = e820Arm ∧ maxpa < q.stop ∧ q.addr < kmemSize then q.stop
      else maxpa)
    refine ⟨le_trans ?_ hle, fun r hr htype hlow => ?_⟩
    · split
      · next h => exact h.2.1.le
      · exact le_rfl
    · rcases List.mem_cons.1 hr with rfl | hr
      · refine le_trans ?_ hle
        split
        · exact le_rfl
        · next h => exact not_lt.1 fun hlt => h ⟨htype, hlt, hlow⟩
      · exact hall r hr htype hlow

theorem maxPa_le (map : List E820Entry) : maxPa map ≤ kmemSize := by
  simp only [maxPa]
  split <;> omega

/-- Every page that some region holds has a descriptor. -/
theorem holds_lt_npage {map : List E820Entry} {r : E820Entry} (hr : r ∈ map) {freemem x : ℕ}
    (hend : r.type = e820Arm → r.addr + r.size < 2 ^ 64) (hx : r.Holds freemem x) :
    x < npageOf map := by
  obtain ⟨htype, hlo, hhi⟩ := hx
  have hstop : r.stop = r.addr + r.size := Nat.mod_eq_of_lt (hend htype)
  rw [max_le_iff] at hlo
  rw [le_min_iff] at hhi
  have hlow : r.addr < kmemSize := by
    simp only [pgSize] at *
    omega
  have hmax := (le_foldMax map 0).2 r hr htype hlow
  have hle : (x + 1) * pgSize ≤ maxPa map := by
    simp only [maxPa]
    split <;> omega
  rw [npageOf]
  simp only [pgSize] at *
  omega

/-- `page_init` marks all pages as reserved, and nothing else changes. -/
theorem reservePages_eq (npage : ℕ) (s : Buddy) : reservePages npage s = { s with
    page := fun x => if x < npage then
      { s.page x with flags := { (s.page x).flags with reserved := true } } else s.page x } := by
  induction npage with
  | zero => rfl
  | succ n ih =>
    rw [reservePages, List.range_succ, List.foldl_append, ← reservePages, ih]
    simp only [List.foldl_cons, List.foldl_nil, Buddy.setPage, lt_irrefl, if_false]
    congr 1
    funext x
    by_cases hx : x = n
    · subst hx
      rw [Function.update_self, if_pos (Nat.lt_succ_self x)]
    · rw [Function.update_of_ne hx]
      exact if_congr (by omega) rfl rfl

/-! ## The calls of `init_memmap` -/

/-- The zone that a range of addresses becomes. -/
def zoneOf (c : ℕ × ℕ) : Zone := ⟨c.1 / pgSize, (c.2 - c.1) / pgSize⟩

section Init

variable {npage freemem : ℕ}

theorem mem_zoneOf {r : E820Entry} (hend : r.type = e820Arm → r.addr + r.size < 2 ^ 64) {c : ℕ × ℕ}
    (hc : usableRange freemem r = some c) (x : ℕ) : x ∈ (zoneOf c).pages ↔ r.Holds freemem x := by
  obtain ⟨hlen, -, hiff⟩ := usableRange_some hend hc
  rw [Zone.mem_pages, zoneOf, ← hiff, hlen]

/-- **Every call is allowed**, since the regions are disjoint and below `npage`. -/
theorem initRegions_spec (l : List E820Entry) {s : Buddy} {zs : List Zone}
    (h : Buddy.Reach npage s zs ∅)
    (hend : ∀ r ∈ l, r.type = e820Arm → r.addr + r.size < 2 ^ 64)
    (hlt : ∀ r ∈ l, ∀ x, r.Holds freemem x → x < npage)
    (hdisj : l.Pairwise fun r r' => ∀ x, r.Holds freemem x → ¬ r'.Holds freemem x)
    (hzs : ∀ r ∈ l, ∀ x ∈ zonePages zs, ¬ r.Holds freemem x)
    (hmax : zs.length + (l.filterMap (usableRange freemem)).length ≤ maxZoneNum) :
    ∃ s', initRegions npage freemem l s = .ok s' ∧
      Buddy.Reach npage s' (zs ++ (l.filterMap (usableRange freemem)).map zoneOf) ∅ := by
  induction l generalizing s zs with
  | nil => exact ⟨s, rfl, by simpa using h⟩
  | cons r l ih =>
    rw [List.forall_mem_cons] at hend hlt hzs
    rw [List.pairwise_cons] at hdisj
    rw [initRegions, List.foldlM_cons]
    cases hc : usableRange freemem r with
    | none =>
      rw [List.filterMap_cons_none hc] at hmax ⊢
      exact ih h hend.2 hlt.2 hdisj.2 hzs.2 hmax
    | some c =>
      obtain ⟨start, stop⟩ := c
      rw [List.filterMap_cons_some hc] at hmax ⊢
      rw [List.length_cons] at hmax
      have hmem := mem_zoneOf hend.1 hc
      obtain ⟨hlen, hpos, hiff⟩ := usableRange_some hend.1 hc
      have hpage : pa2page npage start = .ok (start / pgSize) :=
        if_neg (not_le.2 (hlt.1 _ ((hiff _).1 ⟨le_rfl, hpos⟩)))
      have hok : Buddy.MemmapOk s zs (start / pgSize) ((stop - start) / pgSize) := by
        refine ⟨by omega, by omega, Finset.disjoint_left.2 fun x hx hz => ?_, fun x hx => ?_⟩
        · exact hzs.1 x hz ((hmem x).1 hx)
        · have hx' := (hmem x).1 hx
          exact h.inv.outside x (hlt.1 x hx') fun z hz hxz =>
            hzs.1 x (mem_zonePages.2 ⟨z, hz, hxz⟩) hx'
      obtain ⟨s₁, hinit, -⟩ := h.inv.buddyInitMemmap_spec hok.1 hok.2.1 hok.2.2.2
      obtain ⟨s', hrun, hreach⟩ := ih (h.memmap hok hinit) hend.2 hlt.2 hdisj.2
        (by
          intro q hq x hx hqx
          obtain ⟨z, hz, hxz⟩ := mem_zonePages.1 hx
          rcases List.mem_append.1 hz with hz | hz
          · exact hzs.2 q hq x (mem_zonePages.2 ⟨z, hz, hxz⟩) hqx
          · rw [List.mem_singleton.1 hz] at hxz
            exact hdisj.1 q hq x ((hmem x).1 hxz) hqx)
        (by rw [List.length_append, List.length_singleton]; omega)
      refine ⟨s', ?_, ?_⟩
      · dsimp only
        rw [hpage, Res.ok_bind, hinit]
        exact hrun
      · rw [List.map_cons, List.append_cons]
        exact hreach

end Init

/-- The page descriptors end in the address space of the kernel. -/
theorem freememOf_ok {kend : ℕ} (hbase : kernBase ≤ kend) (htop : kend ≤ kernBase + kmemSize)
    (map : List E820Entry) : ∃ freemem, freememOf kend map = .ok freemem := by
  have hmax := maxPa_le map
  have hpages : kernBase ≤ roundUp kend pgSize ∧ roundUp kend pgSize ≤ kend + pgSize := by
    simp only [roundUp, roundDown, addrAdd, pgSize, kmemSize, kernBase] at *
    omega
  have hnpage : sizeofPage * npageOf map ≤ 0x540000 := by
    simp only [sizeofPage, npageOf, pgSize, kmemSize] at *
    omega
  have hadd : addrAdd (roundUp kend pgSize) (sizeofPage * npageOf map) =
      roundUp kend pgSize + sizeofPage * npageOf map := by
    refine Nat.mod_eq_of_lt ?_
    simp only [pgSize, kmemSize, kernBase] at *
    omega
  refine ⟨_, if_neg ?_⟩
  rw [hadd]
  omega

/-- **`page_init` frees exactly the usable memory.**  If the regions of memory are disjoint, end
below 2 ^ 64, and at most `MAX_ZONE_NUM` of them have pages to offer, then no assertion fires; the
pages passed to `init_memmap` have descriptors, and none is passed twice; the free pages are those
that lie in one of the regions, clipped to `[freemem, KMEMSIZE)`, and all other pages stay
reserved. -/
theorem pageInit_frees_usable {kend : ℕ} (hbase : kernBase ≤ kend)
    (htop : kend ≤ kernBase + kmemSize) {map : List E820Entry}
    (hend : ∀ r ∈ map, r.type = e820Arm → r.addr + r.size < 2 ^ 64)
    (hdisj : map.Pairwise fun r r' => r.type = e820Arm → r'.type = e820Arm →
      ∀ a, r.Has a → ¬ r'.Has a) {s : Buddy} (hs : s.zoneNum = 0) :
    ∃ freemem, freememOf kend map = .ok freemem ∧
      ((map.filterMap (usableRange freemem)).length ≤ maxZoneNum →
        ∃ s', pageInit kend map (buddyInit s) = .ok s' ∧
          (∀ c ∈ map.filterMap (usableRange freemem), ∀ x ∈ (zoneOf c).pages, x < npageOf map) ∧
          (map.filterMap (usableRange freemem)).Pairwise
            (fun c c' => Disjoint (zoneOf c).pages (zoneOf c').pages) ∧
          (∀ x, x ∈ s'.freePages ↔ ∃ r ∈ map, r.Holds freemem x) ∧
          ∀ x < npageOf map, (s'.page x).flags.reserved = true ↔ x ∉ s'.freePages) := by
  obtain ⟨freemem, hfree⟩ := freememOf_ok hbase htop map
  refine ⟨freemem, hfree, fun hmax => ?_⟩
  have hlt : ∀ r ∈ map, ∀ x, r.Holds freemem x → x < npageOf map :=
    fun r hr x hx => holds_lt_npage hr (hend r hr) hx
  have hholds : map.Pairwise fun r r' => ∀ x, r.Holds freemem x → ¬ r'.Holds freemem x :=
    hdisj.imp fun h x hx hx' => h hx.1 hx'.1 _ hx.has hx'.has
  have hzone : ∀ c ∈ map.filterMap (usableRange freemem), ∃ r ∈ map,
      usableRange freemem r = some c ∧ ∀ x, x ∈ (zoneOf c).pages ↔ r.Holds freemem x := by
    intro c hc
    obtain ⟨r, hr, hrc⟩ := List.mem_filterMap.1 hc
    exact ⟨r, hr, hrc, mem_zoneOf (hend r hr) hrc⟩
  have hinit : Buddy.Reach (npageOf map) (reservePages (npageOf map) (buddyInit s)) [] ∅ := by
    have hcomm : reservePages (npageOf map) (buddyInit s) =
        buddyInit (reservePages (npageOf map) s) := by
      rw [reservePages_eq, reservePages_eq]
      rfl
    rw [hcomm]
    refine Buddy.Reach.init ?_ fun x hx => ?_
    · rw [reservePages_eq]
      exact hs
    · rw [reservePages_eq]
      dsimp only
      rw [if_pos hx]
  obtain ⟨s', hrun, hreach⟩ := initRegions_spec map hinit hend hlt hholds
    (fun r _ x hx => by simp [zonePages] at hx) (by rw [List.length_nil, Nat.zero_add]; exact hmax)
  rw [List.nil_append] at hreach
  have H := hreach.inv
  have hpages : ∀ x, x ∈ s'.freePages ↔ ∃ r ∈ map, r.Holds freemem x := by
    intro x
    rw [H.freePages_eq, Finset.sdiff_empty, mem_zonePages]
    constructor
    · rintro ⟨z, hz, hx⟩
      obtain ⟨c, hc, rfl⟩ := List.mem_map.1 hz
      obtain ⟨r, hr, -, hiff⟩ := hzone c hc
      exact ⟨r, hr, (hiff x).1 hx⟩
    · rintro ⟨r, hr, hx⟩
      cases hc : usableRange freemem r with
      | none => exact absurd hx (usableRange_none (hend r hr) hc x)
      | some c =>
        have hmem : c ∈ map.filterMap (usableRange freemem) := List.mem_filterMap.2 ⟨r, hr, hc⟩
        exact ⟨zoneOf c, List.mem_map_of_mem hmem, (mem_zoneOf (hend r hr) hc x).2 hx⟩
  refine ⟨s', ?_, ?_, ?_, hpages, fun x hx => ?_⟩
  · rw [pageInit, hfree]
    exact hrun
  · intro c hc x hx
    obtain ⟨r, hr, -, hiff⟩ := hzone c hc
    exact hlt r hr x ((hiff x).1 hx)
  · rw [List.pairwise_filterMap]
    refine hholds.imp_of_mem fun {r r'} hr hr' h c hc c' hc' => ?_
    refine Finset.disjoint_left.2 fun x hx hx' => ?_
    exact h x ((mem_zoneOf (hend r hr) hc x).1 hx) ((mem_zoneOf (hend r' hr') hc' x).1 hx')
  · rw [H.freePages_eq, Finset.sdiff_empty, mem_zonePages]
    constructor
    · rintro hres ⟨z, hz, hxz⟩
      rw [H.reserved_of_mem hz hxz] at hres
      cases hres
    · exact fun hnot => H.outside x hx fun z hz hxz => hnot ⟨z, hz, hxz⟩

/-- Low memory, a hole, and memory from one megabyte on that ends in the middle of a page. -/
def sampleMap : List E820Entry :=
  [⟨0, 0x9fc00, 1⟩, ⟨0x9fc00, 0x400, 2⟩, ⟨0x100000, 0x40800, 1⟩]

/-- The kernel and the page descriptors end at 0x111e00. -/
theorem pageInit_frees_usable_sample : ∃ s',
    pageInit 0xC0110000 sampleMap (buddyInit eightPages) = .ok s' ∧
    0x112 ∈ s'.freePages ∧ 0x13f ∈ s'.freePages ∧ (s'.page 0x111).flags.reserved = true := by
  have hbase : kernBase ≤ 0xC0110000 := by decide
  have hend : ∀ r ∈ sampleMap, r.type = e820Arm → r.addr + r.size < 2 ^ 64 := by decide
  have hdisj : sampleMap.Pairwise fun r r' => r.type = e820Arm → r'.type = e820Arm →
      ∀ a, r.Has a → ¬ r'.Has a := by
    simp only [sampleMap, List.pairwise_cons, List.mem_cons, List.not_mem_nil, or_false,
      forall_eq_or_imp, forall_eq, E820Entry.Has, e820Arm]
    refine ⟨⟨by omega, fun _ _ a => by omega⟩, ⟨by omega, by simp⟩⟩
  obtain ⟨freemem, hfree, hrun⟩ :=
    pageInit_frees_usable hbase (by decide) hend hdisj (s := eightPages) rfl
  obtain rfl : 0x111e00 = freemem := by
    have h : freememOf 0xC0110000 sampleMap = .ok 0x111e00 := by decide +kernel
    rw [h] at hfree
    exact Except.ok.inj hfree
  obtain ⟨s', hinit, -, -, hpages, hres⟩ := hrun (by decide +kernel)
  have hmem : (⟨0x100000, 0x40800, 1⟩ : E820Entry) ∈ sampleMap := by decide
  refine ⟨s', hinit, (hpages _).2 ⟨_, hmem, rfl, by decide, by decide⟩,
    (hpages _).2 ⟨_, hmem, rfl, by decide, by decide⟩, (hres 0x111 (by decide +kernel)).2 ?_⟩
  intro h
  obtain ⟨r, -, -, hlo, -⟩ := (hpages 0x111).1 h
  exact absurd (le_trans (le_max_right _ _) hlo) (by decide)

end Ucore
