import Ucore.Vmm.Run

/-!
# Questions about an address space

Three functions of `vmm.c` only look at the areas:

* `findVma_linear` — `find_vma` is a search through the list, whichever index it uses;
* `getUnmappedArea_highest` — `get_unmapped_area` finds the highest free range of a length;
* `userMemCheck_iff` — `user_mem_check` looks at one address in each area, and decides about all of
  them.

The first one is `Inv.findVma_spec`, with the area that is found described without a list: it is the
one with the least end above the address (`Mm.FirstAbove`).

`get_unmapped_area` slides a range of the length down from the top, to the start of each area that
it would overlap.  The invariant of the loop (`slideDown_spec`) is that no range fits above the one
at hand, and it ends when the area in front leaves enough room.  A range that fits may be given to
`mm_map` (`map_of_fits`).

`user_mem_check` goes from area to area.  A round passes the area that covers the address at hand
and goes on at its end (`checkRound_spec`), so there are fewer areas above it than before
(`above_lt`). What an area allows is the same for all of its addresses, except for a write to the
lowest page of a stack, and only a round that begins in that page touches it.
-/

set_option autoImplicit false

namespace Ucore

variable {ε : Type} {B : Backend ε} {mm : Mm}

/-! ## `find_vma` -/

/-- **The area that `find_vma` should return**: the one with the least end above the address. -/
def Mm.FirstAbove (mm : Mm) (addr : ℕ) (found : Option ℕ) : Prop :=
  (found = none ↔ ∀ v ∈ mm.mmapList, (mm.vma v).vmEnd ≤ addr) ∧
    ∀ v, found = some v → v ∈ mm.mmapList ∧ addr < (mm.vma v).vmEnd ∧
      ∀ w ∈ mm.mmapList, w ≠ v → addr < (mm.vma w).vmEnd → (mm.vma v).vmEnd < (mm.vma w).vmEnd

namespace Mm.Inv

/-- The first area of the list that ends above the address is that one. -/
theorem firstAbove (H : mm.Inv) (addr : ℕ) :
    mm.FirstAbove addr (mm.mmapList.find? (Below mm.vma addr)) := by
  refine ⟨?_, fun v hv => ?_⟩
  · rw [List.find?_eq_none]
    simp only [Below, decide_eq_true_eq, not_lt]
  · obtain ⟨hbelow, l, r, hlr, hl⟩ := List.find?_eq_some_iff_append.1 hv
    refine ⟨List.mem_of_find?_eq_some hv, of_decide_eq_true hbelow, fun w hw hne hlt => ?_⟩
    have hs := H.sorted
    rw [hlr, List.pairwise_append, List.pairwise_cons] at hs
    rw [hlr, List.mem_append, List.mem_cons] at hw
    rcases hw with hw' | rfl | hw'
    · have h1 := hl w hw'
      rw [Below, Bool.not_eq_true', decide_eq_false_iff_not] at h1
      exact absurd hlt h1
    · exact absurd rfl hne
    · have h1 := hs.2.1.1 w hw'
      have h2 := (H.valid w (by rw [hlr]; simp [hw'])).lt
      omega

end Mm.Inv

/-- **`find_vma` equals the linear search.**  In every address space that a run leads to, it returns
the area with the least end above the address.  The search through the list and the descent in the
tree, if there is one, return the same, and so does `find_vma` with any other area in the cache;
afterwards the cache is empty or shows an area of the list. -/
theorem findVma_linear (h : Mm.Reach B mm) (addr : ℕ) :
    ∃ found mm', findVma mm addr = .ok (found, mm') ∧ mm.FirstAbove addr found ∧
      (mm.mmapList.find? fun v => addr < (mm.vma v).vmEnd) = found ∧
      (∀ tree, mm.mmapTree = some tree →
        ∃ node, findVmaRb mm.fuel tree mm.vma mm.rbLink addr = .ok (node, found)) ∧
      (∀ c, (∀ v, c = some v → v ∈ mm.mmapList) → ∀ tree, tree = none ∨ tree = mm.mmapTree →
        ∃ mm'', findVma { mm with mmapCache := c, mmapTree := tree } addr = .ok (found, mm'')) ∧
      mm'.mmapList = mm.mmapList ∧ mm'.vma = mm.vma ∧
      ∀ v, mm'.mmapCache = some v → v ∈ mm'.mmapList := by
  have H := h.inv
  obtain ⟨c, hrun, Hc⟩ := H.findVma_spec addr
  refine ⟨_, _, hrun, H.firstAbove addr, rfl, ?_, ?_, rfl, rfl, Hc.cache⟩
  · intro tree htree
    obtain ⟨t, hWF, hord⟩ := (H.tree tree htree).shape
    obtain ⟨s, hs, hfound⟩ := Mm.Inv.findVmaRb_spec addr hWF.shape
      (fun v hv => (H.valid v (hord ▸ hv)).lt) (hord ▸ H.sorted)
      (show t.inorder.length ≤ mm.fuel by rw [hord]; exact Nat.le_succ _)
    rw [hord] at hfound
    exact ⟨s.1, by rw [hs, ← hfound]⟩
  · intro c' hc' tree htree
    have H' : Mm.Inv { mm with mmapCache := c', mmapTree := tree } := by
      refine ⟨H.valid, H.sorted, H.count, hc', H.live, fun tree' heq => ?_⟩
      rcases htree with rfl | rfl
      · exact absurd heq (Option.some_ne_none tree').symm
      · exact ⟨(H.tree tree' heq).shape, (H.tree tree' heq).live⟩
    obtain ⟨c'', hrun', -⟩ := H'.findVma_spec addr
    exact ⟨_, hrun'⟩

/-- Two areas, with an address in the second one. -/
theorem findVma_linear_two : ∃ mm, Mm.Reach idleBackend mm ∧ mm.mmapList = [1, 2] ∧
    ∃ mm', findVma mm 0x600123 = .ok (some 2, mm') ∧ mm.FirstAbove 0x600123 (some 2) := by
  have h₀ : Mm.Reach idleBackend (mmCreate 0 ⟨∅, [some 1, some 2]⟩) := .create _ _
  have h₁ := h₀.map (show mmMap _ 0x400000 0x2000 {} = .ok (0, some 1, _) from rfl)
  have h₂ := h₁.map (show mmMap _ 0x600000 0x1000 {} = .ok (0, some 2, _) from rfl)
  obtain ⟨found, mm', hrun, hfirst, hlist, -⟩ := findVma_linear h₂ 0x600123
  obtain rfl : some 2 = found := hlist
  exact ⟨_, h₂, rfl, mm', hrun, hfirst⟩

/-! ## `get_unmapped_area` -/

/-- The `len` addresses from `t` on are user addresses, and no area meets them. -/
def Mm.Fits (mm : Mm) (len t : ℕ) : Prop :=
  userBase ≤ t ∧ t + len ≤ userTop ∧ ¬ mm.Meets t (t + len)

namespace Mm.Inv

/-- The loop of `get_unmapped_area`, when the areas `r` lie behind and `l`, from the last one on,
are to come: no range above `start` fits. -/
theorem slideDown_spec (H : mm.Inv) {len : ℕ} (l : List ℕ) :
    ∀ (r : List ℕ) (start : ℕ), mm.mmapList = l.reverse ++ r → start + len ≤ userTop →
      (start + len) % pgSize = 0 → (∀ w ∈ r, start + len ≤ (mm.vma w).vmStart) →
      (∀ t, mm.Fits len t → t ≤ start) →
      (slideDown len mm.vma l start ≠ 0 → mm.Fits len (slideDown len mm.vma l start) ∧
        (slideDown len mm.vma l start + len) % pgSize = 0 ∧
        ∀ t, mm.Fits len t → t ≤ slideDown len mm.vma l start) ∧
      (slideDown len mm.vma l start = 0 → ∀ t, ¬ mm.Fits len t) := by
  induction l with
  | nil =>
    intro r start hlist htop hal hr hmax
    rw [slideDown]
    by_cases hbase : userBase ≤ start
    · rw [if_pos hbase]
      refine ⟨fun _ => ⟨⟨hbase, htop, ?_⟩, hal, hmax⟩, fun h => ?_⟩
      · rintro ⟨a, ha, -, hlt⟩
        obtain ⟨w, hw, rfl⟩ := List.mem_map.1 ha
        rw [hlist] at hw
        exact absurd (hr w hw) (not_le.2 hlt)
      · rw [h] at hbase
        exact absurd hbase (by decide)
    · rw [if_neg hbase]
      refine ⟨fun h => absurd rfl h, fun _ t ht => ?_⟩
      have h1 := hmax t ht
      exact hbase (ht.1.trans h1)
  | cons v rest ih =>
    intro r start hlist htop hal hr hmax
    rw [List.reverse_cons, List.append_assoc, List.singleton_append] at hlist
    have hval := H.valid v (by rw [hlist]; simp)
    have hlt := hval.lt
    have hle := hval.le_top
    have hs := H.sorted
    rw [hlist, List.pairwise_append, List.pairwise_cons] at hs
    rw [slideDown]
    by_cases hend : (mm.vma v).vmEnd ≤ start
    · rw [if_pos hend]
      have hbase := hval.base_le
      refine ⟨fun _ => ⟨⟨by omega, htop, ?_⟩, hal, hmax⟩, fun h => by omega⟩
      rintro ⟨a, ha, hstart, hstop⟩
      obtain ⟨w, hw, rfl⟩ := List.mem_map.1 ha
      rw [hlist, List.mem_append, List.mem_cons] at hw
      rcases hw with hw | rfl | hw
      · have h1 := hs.2.2 w hw v (by simp)
        omega
      · omega
      · exact absurd (hr w hw) (not_le.2 hstop)
    · rw [if_neg hend]
      have hadd : addrAdd start len = start + len := by
        rw [userTop] at htop
        exact Nat.mod_eq_of_lt (by omega)
      rw [hadd]
      by_cases hover : (mm.vma v).vmStart < start + len
      · rw [if_pos hover]
        -- a range that fits lies below the area, since none fits above
        have hbelow : ∀ t, mm.Fits len t → t + len ≤ (mm.vma v).vmStart := by
          intro t ht
          have h1 := hmax t ht
          by_contra hcon
          exact ht.2.2 ⟨mm.vma v, List.mem_map_of_mem (by rw [hlist]; simp), by omega, by omega⟩
        by_cases hlow : (mm.vma v).vmStart ≤ len
        · rw [if_pos hlow]
          refine ⟨fun h => absurd rfl h, fun _ t ht => ?_⟩
          have h1 := hbelow t ht
          have h2 := ht.1
          rw [userBase] at h2
          omega
        · rw [if_neg hlow]
          have heq : (mm.vma v).vmStart - len + len = (mm.vma v).vmStart := by omega
          refine ih (v :: r) _ hlist ?_ ?_ ?_ ?_
          · omega
          · rw [heq]
            exact hval.start_aligned
          · intro w hw
            rw [heq]
            rcases List.mem_cons.1 hw with rfl | hw
            · exact le_rfl
            · exact hlt.le.trans (hs.2.1.1 w hw)
          · intro t ht
            have h1 := hbelow t ht
            omega
      · rw [if_neg hover]
        refine ih (v :: r) start hlist htop hal ?_ hmax
        intro w hw
        rcases List.mem_cons.1 hw with rfl | hw
        · omega
        · exact hr w hw

/-- The range that `mm_map` makes of one that fits and ends at the end of a page fits. -/
theorem map_of_fits (H : mm.Inv) {len t : ℕ} (hlen : 0 < len) (ht : mm.Fits len t)
    (hal : (t + len) % pgSize = 0) (flags : VmFlags) :
    ∃ ret stored mm', mmMap mm t len flags = .ok (ret, stored, mm') ∧ ret ≠ -eInval := by
  obtain ⟨hbase, htop, hmeets⟩ := ht
  have hadd : roundUp (addrAdd t len) pgSize = t + len := by
    rw [roundUp, roundDown, addrAdd, addrAdd]
    simp only [pgSize, userTop] at *
    omega
  have hdown : roundDown t pgSize ≤ t := roundDown_le t pgSize
  have hmeets' : ¬ mm.Meets (roundDown t pgSize) (t + len) := by
    rintro ⟨a, ha, hstart, hstop⟩
    refine hmeets ⟨a, ha, ?_, hstop⟩
    have hend := (H.area_valid ha).end_aligned
    simp only [roundDown, pgSize] at *
    omega
  have hacc : userAccess (roundDown t pgSize) (t + len) = true := by
    refine userAccess_iff.2 ⟨?_, by omega, htop⟩
    simp only [roundDown, pgSize, userBase] at *
    omega
  rcases H.mmMap_cases t len flags rfl hadd.symm with ⟨hno, -⟩ | ⟨-, hno, -⟩ |
    ⟨-, -, -, mm', hrun, -⟩ | ⟨-, -, v, mm', l, r, -, hrun, -⟩
  · rw [hacc] at hno
    exact absurd hno (by decide)
  · exact absurd hno hmeets'
  · exact ⟨_, _, _, hrun, by decide⟩
  · exact ⟨_, _, _, hrun, by decide⟩

end Mm.Inv

/-- **`get_unmapped_area` finds the highest range that fits.**  If the result is not 0, the `len`
addresses from there on are user addresses that no area meets, no higher range is like that, and
`mm_map` does not find the range invalid, although it rounds it outwards.  If the result is 0, then
`len` is 0 or there is no such range. -/
theorem getUnmappedArea_highest (h : Mm.Reach B mm) (len : ℕ) :
    (getUnmappedArea mm len ≠ 0 → userBase ≤ getUnmappedArea mm len ∧
      getUnmappedArea mm len + len ≤ userTop ∧
      ¬ mm.Meets (getUnmappedArea mm len) (getUnmappedArea mm len + len) ∧
      (∀ t, userBase ≤ t → t + len ≤ userTop → ¬ mm.Meets t (t + len) →
        t ≤ getUnmappedArea mm len) ∧
      ∀ flags, ∃ ret stored mm', mmMap mm (getUnmappedArea mm len) len flags =
        .ok (ret, stored, mm') ∧ ret ≠ -eInval) ∧
    (getUnmappedArea mm len = 0 → len = 0 ∨
      ¬ ∃ t, userBase ≤ t ∧ t + len ≤ userTop ∧ ¬ mm.Meets t (t + len)) := by
  have H := h.inv
  by_cases hlen : len = 0 ∨ userTop < len
  · have hzero : getUnmappedArea mm len = 0 := if_pos hlen
    refine ⟨fun hne => absurd hzero hne, fun _ => hlen.imp_right ?_⟩
    rintro hlt ⟨t, -, htop, -⟩
    omega
  · obtain ⟨hpos, hle⟩ := not_or.1 hlen
    have heq : userTop - len + len = userTop := by omega
    have hspec := H.slideDown_spec mm.mmapList.reverse [] (userTop - len)
      (by rw [List.reverse_reverse, List.append_nil]) heq.le (by rw [heq]; decide)
      (fun w hw => absurd hw List.not_mem_nil) fun t ht => by
        have htop := ht.2.1
        omega
    rw [show slideDown len mm.vma mm.mmapList.reverse (userTop - len) = getUnmappedArea mm len from
      (if_neg hlen).symm] at hspec
    refine ⟨fun hne => ?_, fun hzero => .inr ?_⟩
    · obtain ⟨hfits, hal, hmax⟩ := hspec.1 hne
      exact ⟨hfits.1, hfits.2.1, hfits.2.2, fun t h1 h2 h3 => hmax t ⟨h1, h2, h3⟩,
        H.map_of_fits (Nat.pos_of_ne_zero hpos) hfits hal⟩
    · rintro ⟨t, h1, h2, h3⟩
      exact hspec.2 hzero t ⟨h1, h2, h3⟩

/-- The last page of the user part is taken, and the range ends below it. -/
theorem getUnmappedArea_highest_below : ∃ mm, Mm.Reach idleBackend mm ∧
    getUnmappedArea mm 0x1800 = 0xAFFFD800 ∧ ¬ mm.Meets 0xAFFFD800 0xAFFFF000 := by
  have h₀ : Mm.Reach idleBackend (mmCreate 0 ⟨∅, [some 1]⟩) := .create _ _
  obtain ⟨mm, h₁, hval⟩ : ∃ mm, Mm.Reach idleBackend mm ∧
      getUnmappedArea mm 0x1800 = 0xAFFFD800 :=
    ⟨_, h₀.map (show mmMap _ 0xAFFFF000 0x1000 {} = .ok (0, some 1, _) from rfl),
      by decide +kernel⟩
  obtain ⟨hspec, -⟩ := getUnmappedArea_highest h₁ 0x1800
  rw [hval] at hspec
  exact ⟨mm, h₁, hval, (hspec (by decide)).2.2.1⟩

/-! ## `user_mem_check` -/

/-- The area lets a user read or write at the address.  The lowest page of a stack is a guard
against writes. -/
def Vma.Lets (a : Vma) (write : Bool) (x : ℕ) : Prop :=
  a.Has x ∧ a.vmFlags.grants write = true ∧
    (write = true → a.vmFlags.stack = true → a.vmStart + pgSize ≤ x)

/-- Some area does. -/
def Mm.Lets (mm : Mm) (write : Bool) (x : ℕ) : Prop := ∃ a ∈ mm.areas, a.Lets write x

/-- The areas that end above an address, of which every round of `user_mem_check` passes one. -/
def Mm.above (mm : Mm) (addr : ℕ) : List ℕ := mm.mmapList.filter (Mm.Inv.Below mm.vma addr)

namespace Mm.Inv

/-- The area that `find_vma` returns is the only one that can cover the address. -/
theorem lets_iff (H : mm.Inv) {addr v : ℕ} {write : Bool}
    (hv : mm.mmapList.find? (Below mm.vma addr) = some v) :
    mm.Lets write addr ↔ (mm.vma v).Lets write addr := by
  obtain ⟨hmem, hlt, hleast⟩ := (H.firstAbove addr).2 v hv
  constructor
  · rintro ⟨a, ha, hlets⟩
    obtain ⟨w, hw, rfl⟩ := List.mem_map.1 ha
    by_cases heq : w = v
    · exact heq ▸ hlets
    · have h1 := hleast w hw heq hlets.1.2
      have h2 := hlets.1.1
      have h3 := (H.valid w hw).lt
      have h4 := (H.valid v hmem).lt
      rcases H.apart hw hmem heq with h | h
      · omega
      · omega
  · exact fun hlets => ⟨_, List.mem_map_of_mem hmem, hlets⟩

/-- A round that passes the area `v` leaves fewer areas. -/
theorem above_lt (H : mm.Inv) {addr v : ℕ}
    (hv : mm.mmapList.find? (Below mm.vma addr) = some v) :
    (mm.above (mm.vma v).vmEnd).length < (mm.above addr).length := by
  obtain ⟨hmem, hlt, -⟩ := (H.firstAbove addr).2 v hv
  have hsub : List.Sublist (mm.above (mm.vma v).vmEnd) (mm.above addr) := by
    refine List.monotone_filter_right _ fun w hw => ?_
    rw [Below, decide_eq_true_eq] at hw ⊢
    omega
  refine lt_of_le_of_ne hsub.length_le fun heq => ?_
  have hin : v ∈ mm.above addr := List.mem_filter.2 ⟨hmem, decide_eq_true hlt⟩
  rw [← hsub.eq_of_length heq, Mm.above, List.mem_filter, Below, decide_eq_true_eq] at hin
  exact absurd hin.2 (lt_irrefl _)

/-- A round of `user_mem_check`: it passes an area, or the address it looks at is one that may not
be accessed. -/
theorem checkRound_spec (H : mm.Inv) (write : Bool) (start : ℕ) :
    ∃ ok start' c, checkRound write (true, start, mm) = .ok (ok, start', mm.setCache c) ∧
      (mm.setCache c).Inv ∧
      ((ok = false ∧ ¬ mm.Lets write start) ∨
        (ok = true ∧ start < start' ∧ (mm.above start').length < (mm.above start).length ∧
          ∀ x, start ≤ x → x < start' → mm.Lets write x)) := by
  obtain ⟨c, hfind, Hc⟩ := H.findVma_spec start
  rw [checkRound, hfind, Res.ok_bind]
  cases hv : mm.mmapList.find? (Below mm.vma start) with
  | none =>
    refine ⟨false, start, c, rfl, Hc, .inl ⟨rfl, ?_⟩⟩
    rintro ⟨a, ha, hlets⟩
    obtain ⟨w, hw, rfl⟩ := List.mem_map.1 ha
    exact absurd hlets.1.2 (not_lt.2 ((H.firstAbove start).1.1 hv w hw))
  | some v =>
    obtain ⟨hmem, hlt, -⟩ := (H.firstAbove start).2 v hv
    have hval := H.valid v hmem
    have hadd : addrAdd (mm.vma v).vmStart pgSize = (mm.vma v).vmStart + pgSize := by
      have h1 := hval.lt
      have h2 := hval.le_top
      rw [addrAdd, pgSize]
      rw [userTop] at h2
      omega
    have hvma : (mm.setCache c).vma v = mm.vma v := rfl
    simp only [hvma, hadd]
    -- the three tests of the source, each of them about the only area that counts
    by_cases hstart : start < (mm.vma v).vmStart
    · rw [if_pos hstart]
      exact ⟨false, start, c, rfl, Hc, .inl ⟨rfl, fun h =>
        absurd ((H.lets_iff hv).1 h).1.1 (not_le.2 hstart)⟩⟩
    rw [if_neg hstart]
    by_cases hgrant : (mm.vma v).vmFlags.grants write = true
    swap
    · rw [if_pos (by rw [Bool.not_eq_true', ← Bool.not_eq_true]; exact hgrant)]
      exact ⟨false, start, c, rfl, Hc, .inl ⟨rfl, fun h =>
        hgrant ((H.lets_iff hv).1 h).2.1⟩⟩
    rw [if_neg (by rw [hgrant]; decide)]
    by_cases hguard : write = true ∧ (mm.vma v).vmFlags.stack = true ∧
        start < (mm.vma v).vmStart + pgSize
    · rw [if_pos (by simpa only [Bool.and_eq_true, decide_eq_true_eq, and_assoc] using hguard)]
      exact ⟨false, start, c, rfl, Hc, .inl ⟨rfl, fun h =>
        absurd (((H.lets_iff hv).1 h).2.2 hguard.1 hguard.2.1) (not_le.2 hguard.2.2)⟩⟩
    · rw [if_neg (by simpa only [Bool.and_eq_true, decide_eq_true_eq, and_assoc] using hguard)]
      refine ⟨true, (mm.vma v).vmEnd, c, rfl, Hc, .inr ⟨rfl, hlt, H.above_lt hv, ?_⟩⟩
      intro x hx hx'
      refine ⟨_, List.mem_map_of_mem hmem, ⟨(not_lt.1 hstart).trans hx, hx'⟩, hgrant, ?_⟩
      intro hw hs
      exact (not_lt.1 fun h => hguard ⟨hw, hs, h⟩).trans hx

end Mm.Inv

/-- **`user_mem_check` decides access to the whole range.**  It returns, and it returns 1 if and
only if the range does not wrap around, is not empty and lies in the user part, and at each single
address of it an area lets the user do what is asked for. -/
theorem userMemCheck_iff (h : Mm.Reach B mm) {addr len : ℕ} (haddr : addr < 2 ^ 32)
    (hlen : len < 2 ^ 32) (write : Bool) :
    ∃ ok mm', userMemCheck (some mm) addr len write = .ok (ok, some mm') ∧ mm'.areas = mm.areas ∧
      (ok = true ↔ addr + len < 2 ^ 32 ∧ addr < addr + len ∧ userBase ≤ addr ∧
        addr + len ≤ userTop ∧ ∀ x, addr ≤ x → x < addr + len → ∃ a ∈ mm.areas, a.Has x ∧
          a.vmFlags.grants write = true ∧
          (write = true → a.vmFlags.stack = true → a.vmStart + pgSize ≤ x)) := by
  have H := h.inv
  by_cases hacc : userAccess addr (addrAdd addr len) = true
  · have hsum : addrAdd addr len = addr + len := by
      obtain ⟨-, hlt, -⟩ := userAccess_iff.1 hacc
      rw [addrAdd] at hlt ⊢
      omega
    have hrange := userAccess_iff.1 hacc
    rw [hsum] at hrange hacc
    -- all addresses below `start` may be accessed, or else one has been found that may not
    obtain ⟨⟨ok, start, mm'⟩, hrun, hareas, hok⟩ : ∃ s, whileLoop
        (fun s : Bool × ℕ × Mm => s.1 && decide (s.2.1 < addr + len)) (checkRound write)
        (mm.mmapList.length + 1) (true, addr, mm) = .ok s ∧ s.2.2.areas = mm.areas ∧
        (s.1 = true ↔ ∀ x, addr ≤ x → x < addr + len → mm.Lets write x) := by
      refine whileLoop_spec (fun n s => (∃ c, s.2.2 = mm.setCache c ∧ (mm.setCache c).Inv) ∧
        ((s.1 = true ∧ n = (mm.above s.2.1).length + 1 ∧ addr ≤ s.2.1 ∧
            ∀ x, addr ≤ x → x < s.2.1 → mm.Lets write x) ∨
          (s.1 = false ∧ n = 0 ∧ ∃ x, addr ≤ x ∧ x < addr + len ∧ ¬ mm.Lets write x)))
        ⟨⟨mm.mmapCache, rfl, H⟩, .inl ⟨rfl, rfl, le_rfl, fun x h1 h2 => absurd h1 (not_le.2 h2)⟩⟩
        (Nat.succ_le_succ (List.length_filter_le _ _)) ?_ ?_
      · rintro n ⟨ok, start, mm'⟩ ⟨⟨c, rfl, Hc⟩, ⟨rfl, rfl, hle, hall⟩ | ⟨rfl, -, -⟩⟩ hguard
        · simp only at hle hall hguard
          rw [Bool.true_and, decide_eq_true_eq] at hguard
          obtain ⟨ok, start', c', hround, Hc', hcase⟩ := Hc.checkRound_spec write start
          rcases hcase with ⟨rfl, hno⟩ | ⟨rfl, hlt, hfewer, hnext⟩
          · exact ⟨_, 0, hround, ⟨⟨c', rfl, Hc'⟩, .inr ⟨rfl, rfl, start, hle, hguard, hno⟩⟩,
              Nat.succ_pos _⟩
          · refine ⟨_, _, hround, ⟨⟨c', rfl, Hc'⟩, .inl ⟨rfl, rfl, hle.trans hlt.le, ?_⟩⟩,
              Nat.succ_lt_succ hfewer⟩
            intro x hx hx'
            by_cases hxs : x < start
            · exact hall x hx hxs
            · exact hnext x (not_lt.1 hxs) hx'
        · exact absurd hguard (by simp)
      · rintro n ⟨ok, start, mm'⟩ ⟨⟨c, rfl, -⟩, hcase⟩ hguard
        refine ⟨rfl, ?_⟩
        rcases hcase with ⟨rfl, -, -, hall⟩ | ⟨rfl, -, x, hx, hx', hno⟩
        · simp only [Bool.true_and, decide_eq_false_iff_not, not_lt] at hguard
          exact iff_of_true rfl fun x hx hx' => hall x hx (hx'.trans_le hguard)
        · exact iff_of_false Bool.false_ne_true fun hall => hno (hall x hx hx')
    refine ⟨ok, mm', ?_, hareas, ?_⟩
    · rw [userMemCheck, hsum, hacc]
      simp only [Bool.not_true, Bool.false_eq_true, if_false, hrun, Res.ok_bind, Res.pure_eq]
    · have hwrap : addr + len < 2 ^ 32 := by
        have htop := hrange.2.2
        rw [userTop] at htop
        omega
      rw [hok]
      exact ⟨fun hall => ⟨hwrap, hrange.2.1, hrange.1, hrange.2.2, hall⟩, fun hall => hall.2.2.2.2⟩
  · refine ⟨false, mm, ?_, rfl, iff_of_false Bool.false_ne_true ?_⟩
    · rw [userMemCheck, if_pos (by rw [Bool.not_eq_true', ← Bool.not_eq_true]; exact hacc)]
    · rintro ⟨hwrap, hpos, hbase, htop, -⟩
      refine hacc (userAccess_iff.2 ?_)
      rw [addrAdd, Nat.mod_eq_of_lt hwrap]
      exact ⟨hbase, hpos, htop⟩

/-- A range in two adjacent areas, the second of which may not be written. -/
theorem userMemCheck_iff_adjacent : ∃ mm, Mm.Reach idleBackend mm ∧
    (∃ mm', userMemCheck (some mm) 0x400ffe 4 false = .ok (true, some mm')) ∧
    (∃ mm', userMemCheck (some mm) 0x400ffe 4 true = .ok (false, some mm')) ∧
    ∃ a ∈ mm.areas, a.Has 0x401001 ∧ a.vmFlags.grants false = true := by
  have h₀ : Mm.Reach idleBackend (mmCreate 0 ⟨∅, [some 1, some 2]⟩) := .create _ _
  have h₁ := h₀.map (show mmMap _ 0x400000 0x1000 { read := true, write := true } =
    .ok (0, some 1, _) from rfl)
  obtain ⟨mm, h₂, ⟨mm', hread⟩, hwrite⟩ : ∃ mm, Mm.Reach idleBackend mm ∧
      (∃ mm', userMemCheck (some mm) 0x400ffe 4 false = .ok (true, some mm')) ∧
      ∃ mm', userMemCheck (some mm) 0x400ffe 4 true = .ok (false, some mm') :=
    ⟨_, h₁.map (show mmMap _ 0x401000 0x1000 { read := true } = .ok (0, some 2, _) from rfl),
      ⟨_, rfl⟩, ⟨_, rfl⟩⟩
  obtain ⟨ok, mm₁, hrun, -, hiff⟩ := userMemCheck_iff h₂ (show 0x400ffe < 2 ^ 32 by decide)
    (show 4 < 2 ^ 32 by decide) false
  rw [hread, Except.ok.injEq, Prod.mk.injEq] at hrun
  obtain ⟨-, -, -, -, hall⟩ := hiff.1 hrun.1.symm
  obtain ⟨a, ha, hhas, hgrant, -⟩ := hall 0x401001 (by decide) (by decide)
  exact ⟨mm, h₂, ⟨mm', hread⟩, hwrite, a, ha, hhas, hgrant⟩

end Ucore
