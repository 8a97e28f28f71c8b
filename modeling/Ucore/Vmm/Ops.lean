import Ucore.Vmm.Areas
import Mathlib.Tactic.Ring

/-!
# What the operations do to the areas

The areas of an address space, in their order, are `Mm.areas`.  This file says what the operations
of `vmm.c` do to them, and in which order they call the backend; nothing else of an `Mm` matters to
the rest of the development.

* `Inv.mmMap_cases` — `mm_map` fails and leaves the areas alone, or adds one;
* `Inv.mmUnmap_cases` — `mm_unmap` replaces every area by its `Vma.pieces` and has the effect
  `unmapEffect` on the backend, area by area, from the last one to the first one;
* `Inv.mmMapShmem_cases` — `mm_map_shmem`, once it has taken a reference to the object;
* `dupMmap_rule` — a rule for `dup_mmap`: what holds of the copied areas and the backend;
* `mmDestroy_effect` — `mm_destroy` gives up the shared memory object of every area.

## `mm_unmap`

The function has a case for a hole in one area, and otherwise two loops: the first one moves the
areas that meet the range to a list of its own, and the second one goes through that list, unmaps
the range in each area and inserts what is left of it again.

* `Around` splits the areas into those before, in and behind the range, which is what the result of
  `find_vma` for the start of the range amounts to (`meets_iff`).
* `collectAreas_spec` is the first loop.  As it adds to the front, its list goes from the last area
  to the first one.
* `unmapArea_spec` is a round of the second loop, in two cases: a part of the area stays
  (`round_keep`), or nothing does (`round_drop`).
* `unmapAreas_spec` is the second loop, by induction on the list.
* `unmap_hole` is the other case.

Areas that the range does not meet are equal to their only piece (`flatMap_pieces`), so that the
result can be stated for all areas at once.

## `dup_mmap`

`dup_mmap` copies the areas from the last one on, and may fail at each of them.  Its rule takes a
property `I cs e` of the areas `cs` that have been copied and the state `e` of the backend, and asks
that each copy of an area keeps it.
-/

set_option autoImplicit false

namespace Ucore

/-- The areas of an address space, sorted by their addresses. -/
def Mm.areas (mm : Mm) : List Vma := mm.mmapList.map mm.vma

/-! ## Rounding -/

theorem roundDown_le (a n : ℕ) : roundDown a n ≤ a := Nat.sub_le _ _

theorem roundDown_mod (a n : ℕ) : roundDown a n % n = 0 := by
  rw [roundDown, Nat.sub_mod_eq_zero_of_mod_eq]
  rw [Nat.mod_mod]

theorem roundUp_mod (a n : ℕ) : roundUp a n % n = 0 := roundDown_mod _ _

theorem userAccess_iff {start stop : ℕ} : userAccess start stop = true ↔
    userBase ≤ start ∧ start < stop ∧ stop ≤ userTop := by
  rw [userAccess, Bool.and_eq_true, Bool.and_eq_true, decide_eq_true_eq, decide_eq_true_eq,
    decide_eq_true_eq, and_assoc]

/-- The range that `mm_map` and `mm_unmap` work on. -/
theorem valid_of_access {addr len : ℕ} {flags : VmFlags} {shmem : Option ℕ} {off : ℕ}
    (h : userAccess (roundDown addr pgSize) (roundUp (addrAdd addr len) pgSize) = true) :
    (⟨roundDown addr pgSize, roundUp (addrAdd addr len) pgSize, flags, shmem,
    off⟩ : Vma).Valid := by
  obtain ⟨h1, h2, h3⟩ := userAccess_iff.1 h
  exact ⟨h1, h2, h3, roundDown_mod _ _, roundUp_mod _ _⟩

/-- Some area meets the range from `start` to `stop`. -/
def Mm.Meets (mm : Mm) (start stop : ℕ) : Prop :=
  ∃ a ∈ mm.areas, start < a.vmEnd ∧ a.vmStart < stop

namespace Mm.Inv

variable {mm : Mm}

theorem area_valid (H : mm.Inv) {a : Vma} (ha : a ∈ mm.areas) : a.Valid := by
  obtain ⟨v, hv, rfl⟩ := List.mem_map.1 ha
  exact H.valid v hv

theorem areas_sorted (H : mm.Inv) : mm.areas.Pairwise fun a b => a.vmEnd ≤ b.vmStart :=
  List.pairwise_map.2 H.sorted

/-- A new object is loose. -/
theorem loose_of_take (H : mm.Inv) {v : ℕ} {kmem : Pool ℕ} (h : mm.kmem.take = (some v, kmem)) :
    { mm with kmem := kmem }.Inv ∧ { mm with kmem := kmem }.Loose v := by
  obtain ⟨hfresh, hlive⟩ := Pool.take_some h
  have hsub : ∀ q ∈ mm.kmem.live, q ∈ kmem.live := fun q hq => by
    rw [hlive]
    exact Finset.mem_insert_of_mem hq
  refine ⟨⟨H.valid, H.sorted, H.count, H.cache, fun w hw => hsub w (H.live w hw), ?_⟩, ?_, ?_, ?_⟩
  · intro tree htree
    exact ⟨(H.tree tree htree).shape, fun q hq => ⟨hsub q ((H.tree tree htree).live q hq).1,
      ((H.tree tree htree).live q hq).2⟩⟩
  · show v ∈ kmem.live
    rw [hlive]
    exact Finset.mem_insert_self _ _
  · exact fun hmem => hfresh (H.live v hmem)
  · exact fun tree htree hq => hfresh ((H.tree tree htree).live v hq).1

/-- A request that fails changes nothing. -/
theorem take_none (H : mm.Inv) {kmem : Pool ℕ} (h : mm.kmem.take = (none, kmem)) :
    { mm with kmem := kmem }.Inv := by
  have hlive : kmem.live = mm.kmem.live := Pool.take_none_live h
  refine ⟨H.valid, H.sorted, H.count, H.cache, ?_, ?_⟩
  · intro v hv
    show v ∈ kmem.live
    rw [hlive]
    exact H.live v hv
  · intro tree htree
    refine ⟨(H.tree tree htree).shape, fun q hq => ⟨?_, ((H.tree tree htree).live q hq).2⟩⟩
    show q ∈ kmem.live
    rw [hlive]
    exact ((H.tree tree htree).live q hq).1

theorem setVma_of_not_mem (H : mm.Inv) {v : ℕ} (hv : v ∉ mm.mmapList) (a : Vma) :
    (mm.setVma v a).Inv :=
  H.setVma fun h => absurd h hv

/-- The area that `find_vma` returns for the start of a range tells whether the range meets any
area: areas before it end too early, and areas behind it start too late. -/
theorem meets_iff (H : mm.Inv) {start stop : ℕ} :
    mm.Meets start stop ↔ ∃ v, mm.mmapList.find? (Below mm.vma start) = some v ∧
      (mm.vma v).vmStart < stop := by
  constructor
  · rintro ⟨a, ha, hstart, hstop⟩
    obtain ⟨w, hw, rfl⟩ := List.mem_map.1 ha
    have hsome : (mm.mmapList.find? (Below mm.vma start)).isSome := by
      rw [List.find?_isSome]
      exact ⟨w, hw, decide_eq_true hstart⟩
    obtain ⟨v, hv⟩ := Option.isSome_iff_exists.1 hsome
    refine ⟨v, hv, ?_⟩
    obtain ⟨hbelow, l, r, hlr, hl⟩ := List.find?_eq_some_iff_append.1 hv
    rw [hlr, List.mem_append, List.mem_cons] at hw
    have hs := H.starts
    rw [hlr, List.pairwise_append, List.pairwise_cons] at hs
    rcases hw with hw | rfl | hw
    · have h1 := hl w hw
      rw [Below, Bool.not_eq_true', decide_eq_false_iff_not] at h1
      exact absurd hstart h1
    · exact hstop
    · exact (hs.2.1.1 w hw).trans hstop
  · rintro ⟨v, hv, hstop⟩
    have hbelow := List.find?_some hv
    exact ⟨mm.vma v, List.mem_map_of_mem (List.mem_of_find?_eq_some hv),
      of_decide_eq_true hbelow, hstop⟩

/-- A loose area gets a range that meets no other area, and goes to its place. -/
theorem insert_area (H : mm.Inv) {v : ℕ} (hv : mm.Loose v) {a : Vma} (hval : a.Valid)
    (happart : ∀ b ∈ mm.areas, b.vmEnd ≤ a.vmStart ∨ a.vmEnd ≤ b.vmStart) :
    ∃ mm' l r, insertVmaStruct (mm.setVma v a) v = .ok mm' ∧ mm'.Inv ∧ mm.mmapList = l ++ r ∧
      mm'.mmapList = l ++ v :: r ∧ (∀ w ∈ l, (mm.vma w).vmEnd ≤ a.vmStart) ∧
      (∀ w ∈ r, a.vmEnd ≤ (mm.vma w).vmStart) ∧ Keeps (mm.setVma v a) mm' ∧
      mm'.areas = l.map mm.vma ++ a :: r.map mm.vma := by
  have hself : (mm.setVma v a).vma v = a := Function.update_self ..
  have hother : ∀ w ∈ mm.mmapList, (mm.setVma v a).vma w = mm.vma w := fun w hw =>
    Function.update_of_ne (fun h : w = v => hv.not_mem (h ▸ hw)) ..
  have hval' : ((mm.setVma v a).vma v).Valid := by
    rw [hself]
    exact hval
  obtain ⟨mm', l, r, hins, H', hlr, hlist, hl, hr, K⟩ :=
    (H.setVma_of_not_mem hv.not_mem a).insertVmaStruct_spec ⟨hv.live, hv.not_mem, hv.not_tree⟩
      hval' (fun w hw => by
        rw [hself, hother w hw]
        exact happart _ (List.mem_map_of_mem hw))
  have hlr' : mm.mmapList = l ++ r := hlr
  have hleft : ∀ w ∈ l, (mm.setVma v a).vma w = mm.vma w := fun w hw =>
    hother w (by rw [hlr']; simp [hw])
  have hright : ∀ w ∈ r, (mm.setVma v a).vma w = mm.vma w := fun w hw =>
    hother w (by rw [hlr']; simp [hw])
  refine ⟨mm', l, r, hins, H', hlr', hlist, ?_, ?_, K, ?_⟩
  · intro w hw
    have h := hl w hw
    rwa [hself, hleft w hw] at h
  · intro w hw
    have h := hr w hw
    rwa [hself, hright w hw] at h
  · rw [Mm.areas, hlist, K.vma, List.map_append, List.map_cons, hself, List.map_congr_left hleft,
      List.map_congr_left hright]

/-! ## `mm_map` -/

/-- **What `mm_map` can do.** -/
theorem mmMap_cases (H : mm.Inv) (addr len : ℕ) (flags : VmFlags) {start stop : ℕ}
    (hstart : start = roundDown addr pgSize) (hstop : stop = roundUp (addrAdd addr len) pgSize) :
    (userAccess start stop = false ∧ mmMap mm addr len flags = .ok (-eInval, none, mm)) ∨
    (userAccess start stop = true ∧ mm.Meets start stop ∧ ∃ mm',
      mmMap mm addr len flags = .ok (-eInval, none, mm') ∧ mm'.Inv ∧ mm'.areas = mm.areas ∧
      mm'.pgdir = mm.pgdir) ∨
    (userAccess start stop = true ∧ ¬ mm.Meets start stop ∧ mm.kmem.take.1 = none ∧ ∃ mm',
      mmMap mm addr len flags = .ok (-eNoMem, none, mm') ∧ mm'.Inv ∧ mm'.areas = mm.areas ∧
      mm'.pgdir = mm.pgdir) ∨
    (userAccess start stop = true ∧ ¬ mm.Meets start stop ∧ ∃ v mm' l r, mm.kmem.take.1 = some v ∧
      mmMap mm addr len flags = .ok (0, some v, mm') ∧ mm'.Inv ∧ mm'.pgdir = mm.pgdir ∧
      mm.mmapList = l ++ r ∧ mm'.mmapList = l ++ v :: r ∧ mm'.vma =
        Function.update mm.vma v ⟨start, stop, { flags with share := false }, none, 0⟩ ∧
      mm'.areas = l.map mm.vma ++ ⟨start, stop, { flags with share := false }, none, 0⟩ ::
        r.map mm.vma) := by
  obtain ⟨c, hfind, Hc⟩ := H.findVma_spec start
  rw [mmMap, ← hstart, ← hstop]
  by_cases hacc : userAccess start stop = true
  · right
    rw [hacc]
    simp only [Bool.not_true, Bool.false_eq_true, if_false, hfind, Res.ok_bind]
    by_cases hmeets : mm.Meets start stop
    · obtain ⟨v, hv, hvstop⟩ := H.meets_iff.1 hmeets
      refine .inl ⟨trivial, hmeets, mm.setCache c, ?_, Hc, rfl, rfl⟩
      have hany : decide (stop > ((mm.setCache c).vma v).vmStart) = true := decide_eq_true hvstop
      rw [hv, Option.any_some, if_pos hany]
      rfl
    · right
      have hno : (mm.mmapList.find? (Below mm.vma start)).any
          (fun v => decide (stop > ((mm.setCache c).vma v).vmStart)) = false := by
        cases hv : mm.mmapList.find? (Below mm.vma start) with
        | none => rfl
        | some v =>
          rw [Option.any_some, decide_eq_false_iff_not]
          exact fun hlt => hmeets (H.meets_iff.2 ⟨v, hv, hlt⟩)
      rw [if_neg (by rw [hno]; simp), vmaCreate]
      rcases htake : mm.kmem.take with ⟨_ | v, kmem⟩
      · refine .inl ⟨trivial, hmeets, rfl, { mm.setCache c with kmem := kmem }, ?_, ?_, rfl, rfl⟩
        · rw [show (mm.setCache c).kmem.take = (none, kmem) from htake]
          rfl
        · exact Hc.take_none htake
      · right
        obtain ⟨H₁, hloose⟩ := Hc.loose_of_take htake
        have hval : (⟨start, stop, { flags with share := false }, none, 0⟩ : Vma).Valid := by
          rw [hstart, hstop] at hacc ⊢
          exact valid_of_access hacc
        obtain ⟨mm', l, r, hins, H', hlr, hlist, -, -, K, hareas⟩ := H₁.insert_area hloose hval
          (fun b hb => by
            by_contra hcon
            push Not at hcon
            exact hmeets ⟨b, hb, hcon.1, hcon.2⟩)
        refine ⟨trivial, hmeets, v, mm', l, r, rfl, ?_, H', K.pgdir, hlr, hlist, K.vma, hareas⟩
        rw [show (mm.setCache c).kmem.take = (some v, kmem) from htake]
        simp only [hins, Res.ok_bind, Res.pure_eq]
  · left
    rw [Bool.not_eq_true] at hacc
    rw [hacc]
    exact ⟨rfl, rfl⟩

end Mm.Inv

/-! ## `mm_unmap` -/

/-- What `mm_unmap` leaves of an area when it removes the addresses from `start` to `stop`. -/
def Vma.pieces (start stop : ℕ) (a : Vma) : List Vma :=
  if a.vmEnd ≤ start ∨ stop ≤ a.vmStart then [a]
  else if a.vmStart < start ∧ stop < a.vmEnd then
    [⟨a.vmStart, start, a.vmFlags, none, 0⟩, a.resize stop a.vmEnd]
  else if a.vmStart < start then [a.resize a.vmStart start]
  else if stop < a.vmEnd then [a.resize stop a.vmEnd]
  else []

/-- What `mm_unmap` does to the backend because of one area. -/
def unmapEffect {ε : Type} (B : Backend ε) (pgdir start stop : ℕ) (e : ε) (a : Vma) : Res ε :=
  if a.vmEnd ≤ start ∨ stop ≤ a.vmStart then .ok e
  else if a.vmStart < start ∧ stop < a.vmEnd then B.unmapRange pgdir start stop e
  else if a.vmStart < start then B.unmapRange pgdir start a.vmEnd e
  else if stop < a.vmEnd then B.unmapRange pgdir a.vmStart stop e
  else do
    let e ← vmaRelease B a e
    B.unmapRange pgdir a.vmStart a.vmEnd e

/-- The removed addresses lie strictly inside of the area. -/
def Vma.Hole (start stop : ℕ) (a : Vma) : Prop := a.vmStart < start ∧ stop < a.vmEnd

/-- The address lies in the area. -/
def Vma.Has (a : Vma) (addr : ℕ) : Prop := a.vmStart ≤ addr ∧ addr < a.vmEnd

/-- The offset of an address into the object that an area shares. -/
def Vma.offset (a : Vma) (addr : ℕ) : ℕ := addrAdd (addr - a.vmStart) a.shmemOff

/-- A piece has the flags of the area and its object, unless it lies in front of a hole. -/
theorem Vma.of_mem_pieces {start stop : ℕ} {a b : Vma} (hb : b ∈ a.pieces start stop) :
    b.vmFlags = a.vmFlags ∧ (b.shmem = a.shmem ∨ a.Hole start stop) := by
  rw [Vma.pieces] at hb
  split_ifs at hb with h1 h2 h3 h4
  · rw [List.mem_singleton.1 hb]
    exact ⟨rfl, .inl rfl⟩
  · rcases List.mem_cons.1 hb with rfl | hb
    · exact ⟨rfl, .inr h2⟩
    · rw [List.mem_singleton.1 hb]
      exact ⟨rfl, .inl rfl⟩
  · rw [List.mem_singleton.1 hb]
    exact ⟨rfl, .inl rfl⟩
  · rw [List.mem_singleton.1 hb]
    exact ⟨rfl, .inl rfl⟩
  · exact absurd hb List.not_mem_nil

/-- The offsets do not change when an area gets smaller. -/
theorem Vma.offset_resize {a : Vma} (hshare : a.vmFlags.share = true) {lo hi addr : ℕ}
    (hlo : a.vmStart ≤ lo) (haddr : lo ≤ addr) : (a.resize lo hi).offset addr = a.offset addr := by
  simp only [Vma.offset, Vma.resize, hshare, if_true, addrAdd]
  omega

/-- **No address outside of the range is lost**, and in a shared area without a hole each of them
keeps its object and its offset. -/
theorem Vma.Has.piece {a : Vma} {start stop addr : ℕ} (h : a.Has addr)
    (hout : addr < start ∨ stop ≤ addr) : ∃ b ∈ a.pieces start stop, b.Has addr ∧
      b.vmFlags = a.vmFlags ∧ (¬ a.Hole start stop → b.shmem = a.shmem) ∧
      (a.vmFlags.share = true → ¬ a.Hole start stop → b.offset addr = a.offset addr) := by
  obtain ⟨h1, h2⟩ := h
  have hresize : ∀ lo hi, a.vmStart ≤ lo → lo ≤ addr → addr < hi →
      a.pieces start stop = [a.resize lo hi] → ∃ b ∈ a.pieces start stop, b.Has addr ∧
      b.vmFlags = a.vmFlags ∧ (¬ a.Hole start stop → b.shmem = a.shmem) ∧
      (a.vmFlags.share = true → ¬ a.Hole start stop → b.offset addr = a.offset addr) := by
    intro lo hi h3 h4 h5 hp
    rw [hp]
    exact ⟨_, List.mem_singleton_self _, ⟨h4, h5⟩, rfl, fun _ => rfl,
      fun hshare _ => Vma.offset_resize hshare h3 h4⟩
  by_cases hmiss : a.vmEnd ≤ start ∨ stop ≤ a.vmStart
  · rw [Vma.pieces, if_pos hmiss]
    exact ⟨a, List.mem_singleton_self a, ⟨h1, h2⟩, rfl, fun _ => rfl, fun _ _ => rfl⟩
  · by_cases hhole : a.vmStart < start ∧ stop < a.vmEnd
    · have hp : a.pieces start stop =
          [⟨a.vmStart, start, a.vmFlags, none, 0⟩, a.resize stop a.vmEnd] := by
        rw [Vma.pieces, if_neg hmiss, if_pos hhole]
      rw [hp]
      rcases hout with hout | hout
      · exact ⟨_, List.mem_cons_self .., ⟨h1, hout⟩, rfl, fun h => absurd hhole h,
          fun _ h => absurd hhole h⟩
      · exact ⟨_, List.mem_cons_of_mem _ (List.mem_singleton_self _), ⟨hout, h2⟩, rfl,
          fun h => absurd hhole h, fun _ h => absurd hhole h⟩
    · by_cases hleft : a.vmStart < start
      · refine hresize a.vmStart start le_rfl h1 (by omega) ?_
        rw [Vma.pieces, if_neg hmiss, if_neg hhole, if_pos hleft]
      · by_cases hright : stop < a.vmEnd
        · refine hresize stop a.vmEnd (by omega) (by omega) h2 ?_
          rw [Vma.pieces, if_neg hmiss, if_neg hhole, if_neg hleft, if_pos hright]
        · omega

/-- **No address is gained**, and none of the range is kept. -/
theorem Vma.Has.of_piece {a b : Vma} {start stop addr : ℕ} (hlt : start < stop)
    (hb : b ∈ a.pieces start stop) (h : b.Has addr) :
    a.Has addr ∧ (addr < start ∨ stop ≤ addr) := by
  obtain ⟨h1, h2⟩ := h
  rw [Vma.pieces] at hb
  split_ifs at hb with hmiss hhole hleft hright
  · rw [List.mem_singleton.1 hb] at h1 h2
    exact ⟨⟨h1, h2⟩, by omega⟩
  · rcases List.mem_cons.1 hb with rfl | hb
    · have h3 : addr < start := h2
      exact ⟨⟨h1, by omega⟩, .inl h3⟩
    · rw [List.mem_singleton.1 hb] at h1 h2
      have h3 : stop ≤ addr := h1
      exact ⟨⟨by omega, h2⟩, .inr h3⟩
  · rw [List.mem_singleton.1 hb] at h1 h2
    have h3 : addr < start := h2
    exact ⟨⟨h1, by omega⟩, .inl h3⟩
  · rw [List.mem_singleton.1 hb] at h1 h2
    have h3 : stop ≤ addr := h1
    exact ⟨⟨by omega, h2⟩, .inr h3⟩
  · exact absurd hb List.not_mem_nil

theorem Vma.resize_start (a : Vma) (start stop : ℕ) : (a.resize start stop).vmStart = start := rfl

theorem Vma.resize_end (a : Vma) (start stop : ℕ) : (a.resize start stop).vmEnd = stop := rfl

/-- The pieces of a valid area are valid and lie inside of it. -/
theorem Vma.Valid.resize {a : Vma} (h : a.Valid) {start stop : ℕ} (h1 : a.vmStart ≤ start)
    (h2 : start < stop) (h3 : stop ≤ a.vmEnd) (h4 : start % pgSize = 0) (h5 : stop % pgSize = 0) :
    (a.resize start stop).Valid :=
  ⟨h.base_le.trans h1, h2, h3.trans h.le_top, h4, h5⟩

theorem vmaResize_spec {mm : Mm} {v start stop : ℕ} (h1 : (mm.vma v).vmStart ≤ start)
    (h2 : start < stop) (h3 : stop ≤ (mm.vma v).vmEnd) (h4 : start % pgSize = 0)
    (h5 : stop % pgSize = 0) :
    vmaResize mm v start stop = .ok (mm.setVma v ((mm.vma v).resize start stop)) := by
  rw [vmaResize, assert_pos ⟨h4, h5⟩, Res.ok_bind, assert_pos ⟨h1, h2, h3⟩, Res.ok_bind,
    Res.pure_eq]

namespace Mm.Inv

variable {mm : Mm} {ε : Type} (B : Backend ε)

/-- The first loop of `mm_unmap` moves the areas `mid`, all of them and no others, to the list of
its own. -/
theorem collectAreas_spec (H : mm.Inv) {stop v : ℕ} {pre mid post : List ℕ}
    (hlist : mm.mmapList = pre ++ (v :: mid) ++ post)
    (hmid : ∀ u ∈ v :: mid, (mm.vma u).vmStart < stop)
    (hpost : ∀ u ∈ post, stop ≤ (mm.vma u).vmStart) :
    ∃ mm' next, collectAreas stop mm v = .ok (mm', next, (v :: mid).reverse) ∧ mm'.Inv ∧
      mm'.mmapList = pre ++ post ∧ mm'.vma = mm.vma ∧ mm'.pgdir = mm.pgdir ∧
      ∀ u ∈ v :: mid, mm'.Loose u := by
  generalize hall : v :: mid = all at hlist hmid
  have hhead : (all ++ post).head? = some v := by rw [← hall]; rfl
  suffices hloop : ∃ s, collectAreas stop mm v = .ok s ∧ s.2.2 = all.reverse ∧ s.1.Inv ∧
      s.1.mmapList = pre ++ post ∧ s.1.vma = mm.vma ∧ s.1.pgdir = mm.pgdir ∧
      ∀ u ∈ all, s.1.Loose u by
    obtain ⟨⟨mm', next, free⟩, hrun, rfl, h⟩ := hloop
    exact ⟨mm', next, hrun, h⟩
  refine whileLoop_spec (fun m s => ∃ done todo, all = done ++ todo ∧ m = todo.length ∧
    s.2.1 = (todo ++ post).head? ∧ s.2.2 = done.reverse ∧ s.1.Inv ∧
    s.1.mmapList = pre ++ todo ++ post ∧ s.1.vma = mm.vma ∧ s.1.pgdir = mm.pgdir ∧
    ∀ u ∈ done, s.1.Loose u)
    ⟨[], all, rfl, rfl, hhead.symm, rfl, H, hlist, rfl, rfl, by simp⟩ ?_ ?_ ?_
  · rw [hlist]
    simp only [List.length_append]
    omega
  · rintro m ⟨mm₁, next, free⟩ ⟨done, todo, rfl, rfl, hnext, rfl, H₁, hlist₁, hvma, hpgdir,
      hdone⟩ hc
    simp only at hnext hlist₁ hvma hpgdir hdone hc H₁ ⊢
    cases todo with
    | nil =>
      -- the next area, if there is one, starts too late
      rw [List.nil_append] at hnext
      rw [hnext, Option.any_eq_true] at hc
      obtain ⟨u, hu, hlt⟩ := hc
      rw [hvma, decide_eq_true_eq] at hlt
      exact absurd hlt (not_lt.2 (hpost u (List.mem_of_head? hu)))
    | cons u todo =>
      have hmem : u ∈ mm₁.mmapList := by
        rw [hlist₁]
        simp
      have hnd := H₁.nodup
      obtain ⟨mm₂, hrem, H₂, hlist₂, hvma₂, hpgdir₂, hkmem₂, htree₂, hloose⟩ :=
        H₁.removeVmaStruct_spec hmem
      have hshape : mm₁.mmapList = pre ++ u :: (todo ++ post) := by
        rw [hlist₁]
        simp
      have hlist₂' : mm₂.mmapList = pre ++ todo ++ post := by
        rw [hshape] at hnd hlist₂
        have hu : u ∉ pre := fun h => (List.nodup_append.1 hnd).2.2 u h u (by simp) rfl
        rw [hlist₂, List.erase_append_right _ hu, List.erase_cons_head, List.append_assoc]
      have hnext₂ : listNext mm₁.mmapList (some u) = (todo ++ post).head? := by
        rw [hshape] at hnd ⊢
        exact listNext_some hnd
      rw [hnext]
      refine ⟨(mm₂, (todo ++ post).head?, u :: done.reverse), todo.length, ?_,
        ⟨done ++ [u], todo, by simp, rfl, rfl, by simp, H₂, hlist₂', hvma₂.trans hvma,
          hpgdir₂.trans hpgdir, ?_⟩, by simp⟩
      · simp only [List.cons_append, List.head?_cons, hnext₂, hrem, Res.ok_bind, Res.pure_eq]
      · intro w hw
        rw [List.mem_append, List.mem_singleton] at hw
        rcases hw with hw | rfl
        · have hwl := hdone w hw
          refine ⟨by rw [hkmem₂]; exact hwl.live, ?_, ?_⟩
          · rw [hlist₂]
            exact fun h => hwl.not_mem (List.mem_of_mem_erase h)
          · rw [htree₂]
            exact hwl.not_tree
        · exact hloose
  · rintro m ⟨mm₁, next, free⟩ ⟨done, todo, rfl, -, hnext, rfl, H₁, hlist₁, hvma, hpgdir, hdone⟩ hc
    simp only at hnext hlist₁ hvma hpgdir hdone hc H₁ ⊢
    cases todo with
    | nil =>
      rw [List.append_nil] at hlist₁ ⊢
      exact ⟨rfl, H₁, hlist₁, hvma, hpgdir, hdone⟩
    | cons u todo =>
      rw [hnext, List.cons_append, List.head?_cons, Option.any_some, hvma,
        decide_eq_false_iff_not] at hc
      exact absurd (hmid u (by simp)) hc

/-- What one round of the second loop of `mm_unmap` has to see to: the area `u` is replaced by what
is left of it, between the areas `pre` and `R` that are on the list already. -/
structure Round (mm mm₁ : Mm) (start stop u : ℕ) (pre R K : List ℕ) : Prop where
  inv : mm₁.Inv
  list : mm₁.mmapList = pre ++ (K ++ R)
  pieces : K.map mm₁.vma = (mm.vma u).pieces start stop
  sub : K.Sublist [u]
  shrink : (mm.vma u).vmStart ≤ (mm₁.vma u).vmStart ∧ (mm₁.vma u).vmEnd ≤ (mm.vma u).vmEnd
  other : ∀ w, w ≠ u → mm₁.vma w = mm.vma w
  pgdir : mm₁.pgdir = mm.pgdir
  loose : ∀ w, w ≠ u → mm.Loose w → mm₁.Loose w

/-- A part of the area stays: it is resized and inserted again. -/
theorem round_keep (H : mm.Inv) {start stop u lo hi : ℕ} {pre R : List ℕ}
    (hlist : mm.mmapList = pre ++ R) (hu : mm.Loose u) (hval : (mm.vma u).Valid)
    (hpre : ∀ w ∈ pre, (mm.vma w).vmEnd ≤ (mm.vma u).vmStart)
    (hR : ∀ w ∈ R, (mm.vma u).vmEnd ≤ (mm.vma w).vmStart)
    (h1 : (mm.vma u).vmStart ≤ lo) (h2 : lo < hi) (h3 : hi ≤ (mm.vma u).vmEnd)
    (h4 : lo % pgSize = 0) (h5 : hi % pgSize = 0)
    (hpieces : (mm.vma u).pieces start stop = [(mm.vma u).resize lo hi]) :
    ∃ mm₁, vmaResize mm u lo hi = .ok (mm.setVma u ((mm.vma u).resize lo hi)) ∧
      insertVmaStruct (mm.setVma u ((mm.vma u).resize lo hi)) u = .ok mm₁ ∧
      Round mm mm₁ start stop u pre R [u] := by
  have hself : ((mm.setVma u ((mm.vma u).resize lo hi)).vma u) = (mm.vma u).resize lo hi :=
    Function.update_self ..
  obtain ⟨mm₁, l, r, hins, H₁, hlr, hlist₁, hl, hr, K, -⟩ :=
    H.insert_area hu (hval.resize h1 h2 h3 h4 h5) (fun b hb => by
      obtain ⟨w, hw, rfl⟩ := List.mem_map.1 hb
      rw [hlist, List.mem_append] at hw
      rw [Vma.resize_start, Vma.resize_end]
      rcases hw with hw | hw
      · exact .inl ((hpre w hw).trans h1)
      · exact .inr (h3.trans (hR w hw)))
  -- the area goes where it has come from
  have hsplit : l = pre ∧ r = R := by
    refine split_unique (P := fun w => (mm.vma w).vmEnd ≤ lo) (hlr.symm.trans hlist) hl ?_
      (fun w hw => (hpre w hw).trans h1) ?_
    · intro w hw
      have h6 : hi ≤ (mm.vma w).vmStart := hr w hw
      have h7 := (H.valid w (by rw [hlr]; simp [hw])).lt
      omega
    · intro w hw
      have h6 := hR w hw
      have h7 := (H.valid w (by rw [hlist]; simp [hw])).lt
      omega
  obtain ⟨rfl, rfl⟩ := hsplit
  refine ⟨mm₁, vmaResize_spec h1 h2 h3 h4 h5, hins, H₁, hlist₁, ?_, List.Sublist.refl _, ?_, ?_,
    K.pgdir, ?_⟩
  · rw [hpieces, List.map_singleton, K.vma, hself]
  · rw [K.vma, hself]
    exact ⟨h1, h3⟩
  · intro w hw
    rw [K.vma]
    exact Function.update_of_ne hw ..
  · intro w hw hwl
    refine K.loose ⟨hwl.live, hwl.not_mem, hwl.not_tree⟩ ?_
    rw [hlist₁]
    have h6 := hwl.not_mem
    rw [hlr] at h6
    simp only [List.mem_append, List.mem_cons, not_or] at h6 ⊢
    exact ⟨h6.1, hw, h6.2⟩

/-- Nothing of the area stays: it is destroyed. -/
theorem round_drop (H : mm.Inv) {start stop u : ℕ} {pre R : List ℕ}
    (hlist : mm.mmapList = pre ++ R) (hu : mm.Loose u)
    (hpieces : (mm.vma u).pieces start stop = []) :
    Round mm { mm with kmem := mm.kmem.give u } start stop u pre R [] := by
  refine ⟨⟨H.valid, H.sorted, H.count, H.cache, fun w hw => ?_, fun tree htree => ?_⟩, hlist,
    hpieces.symm, List.nil_sublist _, ⟨le_rfl, le_rfl⟩, fun _ _ => rfl, rfl, ?_⟩
  · refine Finset.mem_erase.2 ⟨?_, H.live w hw⟩
    rintro rfl
    exact hu.not_mem hw
  · refine ⟨(H.tree tree htree).shape, fun q hq => ⟨Finset.mem_erase.2 ⟨?_, ?_⟩, ?_⟩⟩
    · rintro rfl
      exact hu.not_tree tree htree hq
    · exact ((H.tree tree htree).live q hq).1
    · exact ((H.tree tree htree).live q hq).2
  · exact fun w hw hwl => ⟨Finset.mem_erase.2 ⟨hw, hwl.live⟩, hwl.not_mem, hwl.not_tree⟩

/-- One round of the second loop of `mm_unmap`. -/
theorem unmapArea_spec (H : mm.Inv) {start stop u : ℕ} {pre R : List ℕ}
    (hstart : start % pgSize = 0) (hstop : stop % pgSize = 0)
    (hlist : mm.mmapList = pre ++ R) (hu : mm.Loose u) (hval : (mm.vma u).Valid)
    (hmeet : start < (mm.vma u).vmEnd ∧ (mm.vma u).vmStart < stop)
    (hhole : ¬ (mm.vma u).Hole start stop)
    (hpre : ∀ w ∈ pre, (mm.vma w).vmEnd ≤ (mm.vma u).vmStart)
    (hR : ∀ w ∈ R, (mm.vma u).vmEnd ≤ (mm.vma w).vmStart) :
    ∃ mm₁ K, Round mm mm₁ start stop u pre R K ∧ ∀ e, unmapArea B start stop (mm, e) u =
      unmapEffect B mm.pgdir start stop e (mm.vma u) >>= fun e' => .ok (mm₁, e') := by
  have hmeet' : ¬ ((mm.vma u).vmEnd ≤ start ∨ stop ≤ (mm.vma u).vmStart) := by omega
  have hhole' : ¬ ((mm.vma u).vmStart < start ∧ stop < (mm.vma u).vmEnd) := hhole
  by_cases hleft : (mm.vma u).vmStart < start
  · have hpieces : (mm.vma u).pieces start stop = [(mm.vma u).resize (mm.vma u).vmStart start] := by
      rw [Vma.pieces, if_neg hmeet', if_neg hhole', if_pos hleft]
    obtain ⟨mm₁, hres, hins, hround⟩ := H.round_keep hlist hu hval hpre hR le_rfl hleft
      hmeet.1.le hval.start_aligned hstart hpieces
    refine ⟨mm₁, [u], hround, fun e => ?_⟩
    rw [unmapEffect, if_neg hmeet', if_neg hhole', if_pos hleft]
    simp only [unmapArea, if_pos hleft, hres, hins, Res.ok_bind, hround.pgdir, Res.pure_eq]
  · by_cases hright : stop < (mm.vma u).vmEnd
    · have hpieces : (mm.vma u).pieces start stop = [(mm.vma u).resize stop (mm.vma u).vmEnd] := by
        rw [Vma.pieces, if_neg hmeet', if_neg hhole', if_neg hleft, if_pos hright]
      obtain ⟨mm₁, hres, hins, hround⟩ := H.round_keep hlist hu hval hpre hR hmeet.2.le hright
        le_rfl hstop hval.end_aligned hpieces
      refine ⟨mm₁, [u], hround, fun e => ?_⟩
      rw [unmapEffect, if_neg hmeet', if_neg hhole', if_neg hleft, if_pos hright]
      simp only [unmapArea, if_neg hleft, if_pos hright, hres, hins, Res.ok_bind, hround.pgdir,
        Res.pure_eq]
    · have hpieces : (mm.vma u).pieces start stop = [] := by
        rw [Vma.pieces, if_neg hmeet', if_neg hhole', if_neg hleft, if_neg hright]
      refine ⟨_, [], H.round_drop hlist hu hpieces, fun e => ?_⟩
      rw [unmapEffect, if_neg hmeet', if_neg hhole', if_neg hleft, if_neg hright]
      simp only [unmapArea, if_neg hleft, if_neg hright, vmaDestroy, Res.pure_eq]
      cases vmaRelease B (mm.vma u) e with
      | error f => rfl
      | ok e' => rfl

/-- **The second loop of `mm_unmap`**, over areas that are sorted from the last one to the first
one, to be put between `pre` and `R`. -/
theorem unmapAreas_spec {start stop : ℕ} (hstart : start % pgSize = 0) (hstop : stop % pgSize = 0)
    {pre : List ℕ} : ∀ (us R : List ℕ) (mm : Mm), mm.Inv → mm.mmapList = pre ++ R →
    (∀ u ∈ us, mm.Loose u ∧ (mm.vma u).Valid ∧ (start < (mm.vma u).vmEnd ∧
      (mm.vma u).vmStart < stop) ∧ ¬ (mm.vma u).Hole start stop) →
    (pre ++ (us.reverse ++ R)).Pairwise (fun v w => (mm.vma v).vmEnd ≤ (mm.vma w).vmStart) →
    ∃ mm' R', mm'.Inv ∧ mm'.mmapList = pre ++ R' ∧
      R'.map mm'.vma = (us.reverse.map mm.vma).flatMap (Vma.pieces start stop) ++ R.map mm.vma ∧
      (∀ w ∈ pre, mm'.vma w = mm.vma w) ∧ mm'.pgdir = mm.pgdir ∧
      ∀ e, us.foldlM (unmapArea B start stop) (mm, e) =
        (us.map mm.vma).foldlM (unmapEffect B mm.pgdir start stop) e >>=
          fun e' => .ok (mm', e') := by
  intro us
  induction us with
  | nil =>
    intro R mm H hlist _ _
    exact ⟨mm, R, H, hlist, rfl, fun _ _ => rfl, rfl, fun e => rfl⟩
  | cons u us ih =>
    intro R mm H hlist hus hs
    obtain ⟨hu, hval, hmeet, hhole⟩ := hus u (by simp)
    have hs' := hs
    simp only [List.reverse_cons, List.append_assoc, List.singleton_append, List.pairwise_append,
      List.pairwise_cons, List.mem_append, List.mem_cons] at hs'
    obtain ⟨-, ⟨-, ⟨huR, -⟩, husR⟩, hpre⟩ := hs'
    obtain ⟨mm₁, K, round, heff⟩ := H.unmapArea_spec B hstart hstop hlist hu hval hmeet hhole
      (fun w hw => hpre w hw u (.inr (.inl rfl))) huR
    -- the remaining areas are others than `u`, because they end before it starts
    have hne : ∀ w ∈ us, w ≠ u := by
      rintro w hw rfl
      have h1 := husR w (List.mem_reverse.2 hw) w (.inl rfl)
      exact absurd hval.lt (not_lt.2 h1)
    have hpreu : ∀ w ∈ pre, w ≠ u := by
      rintro w hw rfl
      have h1 := hpre w hw w (.inr (.inl rfl))
      exact absurd hval.lt (not_lt.2 h1)
    have hRu : ∀ w ∈ R, w ≠ u := by
      rintro w hw rfl
      exact absurd hval.lt (not_lt.2 (huR w hw))
    have hshrink : ∀ w, (mm.vma w).vmStart ≤ (mm₁.vma w).vmStart ∧
        (mm₁.vma w).vmEnd ≤ (mm.vma w).vmEnd := by
      intro w
      by_cases hw : w = u
      · rw [hw]
        exact round.shrink
      · rw [round.other w hw]
        exact ⟨le_rfl, le_rfl⟩
    have hs₁ : (pre ++ (us.reverse ++ (K ++ R))).Pairwise
        fun v w => (mm₁.vma v).vmEnd ≤ (mm₁.vma w).vmStart := by
      have hsub : (pre ++ (us.reverse ++ (K ++ R))).Sublist (pre ++ ((u :: us).reverse ++ R)) := by
        rw [List.reverse_cons, List.append_assoc]
        exact ((round.sub.append_right _).append_left _).append_left _
      exact (hs.sublist hsub).imp fun {v w} h => ((hshrink v).2.trans h).trans (hshrink w).1
    have hus₁ : ∀ w ∈ us, mm₁.Loose w ∧ (mm₁.vma w).Valid ∧ (start < (mm₁.vma w).vmEnd ∧
        (mm₁.vma w).vmStart < stop) ∧ ¬ (mm₁.vma w).Hole start stop := by
      intro w hw
      obtain ⟨h1, h2, h3, h4⟩ := hus w (List.mem_cons_of_mem _ hw)
      rw [round.other w (hne w hw)]
      exact ⟨round.loose w (hne w hw) h1, h2, h3, h4⟩
    obtain ⟨mm', R', H', hlist', hR', hpre', hpgdir', hrun⟩ :=
      ih (K ++ R) mm₁ round.inv round.list hus₁ hs₁
    refine ⟨mm', R', H', hlist', ?_, ?_, hpgdir'.trans round.pgdir, fun e => ?_⟩
    · rw [hR', List.map_append, round.pieces,
        List.map_congr_left fun w hw => round.other w (hRu w hw),
        List.map_congr_left fun w hw => round.other w (hne w (List.mem_reverse.1 hw)),
        List.reverse_cons, List.map_append, List.flatMap_append]
      simp
    · intro w hw
      rw [hpre' w hw, round.other w (hpreu w hw)]
    · rw [List.foldlM_cons, heff, List.map_cons, List.foldlM_cons]
      cases unmapEffect B mm.pgdir start stop e (mm.vma u) with
      | error f => rfl
      | ok e' =>
        rw [Res.ok_bind, Res.ok_bind, Res.ok_bind, hrun, round.pgdir,
          List.map_congr_left fun w hw => round.other w (hne w hw)]

/-- Areas that the range does not meet stay as they are and have no effect. -/
theorem flatMap_pieces {start stop : ℕ} {l : List Vma}
    (h : ∀ a ∈ l, a.vmEnd ≤ start ∨ stop ≤ a.vmStart) : l.flatMap (Vma.pieces start stop) = l := by
  induction l with
  | nil => rfl
  | cons a l ih =>
    rw [List.flatMap_cons, Vma.pieces, if_pos (h a (by simp)), ih fun b hb => h b (by simp [hb])]
    rfl

theorem foldlM_unmapEffect {pgdir start stop : ℕ} {l : List Vma}
    (h : ∀ a ∈ l, a.vmEnd ≤ start ∨ stop ≤ a.vmStart) (e : ε) :
    l.foldlM (unmapEffect B pgdir start stop) e = .ok e := by
  induction l with
  | nil => rfl
  | cons a l ih =>
    rw [List.foldlM_cons, unmapEffect, if_pos (h a (by simp)), Res.ok_bind,
      ih fun b hb => h b (by simp [hb])]

/-- The areas before, in and behind a range that meets some area, the first of which is `v`. -/
structure Around (mm : Mm) (start stop v : ℕ) (pre mid post : List ℕ) : Prop where
  list : mm.mmapList = pre ++ (v :: mid) ++ post
  before : ∀ w ∈ pre, (mm.vma w).vmEnd ≤ start
  ends : ∀ w ∈ v :: mid, start < (mm.vma w).vmEnd
  starts : ∀ w ∈ mid, start < (mm.vma w).vmStart ∧ (mm.vma w).vmStart < stop
  behind : ∀ w ∈ post, stop ≤ (mm.vma w).vmStart

theorem exists_around (H : mm.Inv) {start v : ℕ} (stop : ℕ)
    (hv : mm.mmapList.find? (Below mm.vma start) = some v) :
    ∃ pre mid post, Around mm start stop v pre mid post := by
  obtain ⟨hbelow, pre, rest, hlr, hpre⟩ := List.find?_eq_some_iff_append.1 hv
  have hvend : start < (mm.vma v).vmEnd := of_decide_eq_true hbelow
  have hs := H.starts
  have hd := H.sorted
  rw [hlr, List.pairwise_append, List.pairwise_cons] at hs hd
  refine ⟨pre, rest.takeWhile fun w => (mm.vma w).vmStart < stop,
    rest.dropWhile fun w => (mm.vma w).vmStart < stop, ?_, ?_, ?_, ?_, ?_⟩
  · rw [hlr, List.append_assoc, List.cons_append, List.takeWhile_append_dropWhile]
  · intro w hw
    have h1 := hpre w hw
    rw [Below, Bool.not_eq_true', decide_eq_false_iff_not] at h1
    exact not_lt.1 h1
  · intro w hw
    rcases List.mem_cons.1 hw with rfl | hw
    · exact hvend
    · have hwr : w ∈ rest := (List.takeWhile_sublist _).mem hw
      have h1 := hd.2.1.1 w hwr
      have h2 := (H.valid w (by rw [hlr]; simp [hwr])).lt
      omega
  · intro w hw
    have hwr : w ∈ rest := (List.takeWhile_sublist _).mem hw
    have h1 := hd.2.1.1 w hwr
    have h2 := List.mem_takeWhile_imp hw
    exact ⟨hvend.trans_le h1, of_decide_eq_true h2⟩
  · intro w hw
    cases hdrop : rest.dropWhile fun w => decide ((mm.vma w).vmStart < stop) with
    | nil => simp [hdrop] at hw
    | cons x xs =>
      have hx : stop ≤ (mm.vma x).vmStart := by
        have := List.head?_dropWhile_not (fun w => decide ((mm.vma w).vmStart < stop)) rest
        rw [hdrop] at this
        simpa using this
      have hsx := hs.2.1.2.sublist (List.dropWhile_sublist fun w =>
        decide ((mm.vma w).vmStart < stop))
      rw [hdrop] at hw hsx
      rcases List.mem_cons.1 hw with rfl | hw
      · exact hx
      · exact hx.trans ((List.pairwise_cons.1 hsx).1 w hw).le

section Around

variable {start stop v : ℕ} {pre mid post : List ℕ}

theorem Around.areas (h : Around mm start stop v pre mid post) :
    mm.areas = pre.map mm.vma ++ ((v :: mid).map mm.vma ++ post.map mm.vma) := by
  rw [Mm.areas, h.list, List.append_assoc, List.map_append, List.map_append]

theorem Around.before_area (h : Around mm start stop v pre mid post) {a : Vma}
    (ha : a ∈ pre.map mm.vma) : a.vmEnd ≤ start ∨ stop ≤ a.vmStart := by
  obtain ⟨w, hw, rfl⟩ := List.mem_map.1 ha
  exact .inl (h.before w hw)

theorem Around.behind_area (h : Around mm start stop v pre mid post) {a : Vma}
    (ha : a ∈ post.map mm.vma) : a.vmEnd ≤ start ∨ stop ≤ a.vmStart := by
  obtain ⟨w, hw, rfl⟩ := List.mem_map.1 ha
  exact .inr (h.behind w hw)

/-- Only the areas in the middle are cut, -/
theorem Around.pieces (h : Around mm start stop v pre mid post) :
    mm.areas.flatMap (Vma.pieces start stop) = pre.map mm.vma ++
      (((v :: mid).map mm.vma).flatMap (Vma.pieces start stop) ++ post.map mm.vma) := by
  rw [h.areas, List.flatMap_append, List.flatMap_append, flatMap_pieces fun a => h.before_area,
    flatMap_pieces fun a => h.behind_area]

/-- and only they have an effect. -/
theorem Around.effect (h : Around mm start stop v pre mid post) (pgdir : ℕ) (e : ε) :
    mm.areas.reverse.foldlM (unmapEffect B pgdir start stop) e =
      ((v :: mid).reverse.map mm.vma).foldlM (unmapEffect B pgdir start stop) e := by
  have h1 : (post.map mm.vma).reverse.foldlM (unmapEffect B pgdir start stop) e = .ok e :=
    foldlM_unmapEffect B (fun a ha => h.behind_area (List.mem_reverse.1 ha)) e
  have h2 : ∀ e, (pre.map mm.vma).reverse.foldlM (unmapEffect B pgdir start stop) e = .ok e :=
    foldlM_unmapEffect B fun a ha => h.before_area (List.mem_reverse.1 ha)
  rw [h.areas, List.reverse_append, List.reverse_append, List.append_assoc, List.foldlM_append, h1,
    Res.ok_bind, List.foldlM_append, List.map_reverse]
  cases ((v :: mid).map mm.vma).reverse.foldlM (unmapEffect B pgdir start stop) e with
  | error f => rfl
  | ok e' => rw [Res.ok_bind, h2]

/-- If there is a hole then it is in the first area, -/
theorem Around.hole (h : Around mm start stop v pre mid post) (hlt : start < stop) {a : Vma}
    (ha : a ∈ mm.areas) (hhole : a.Hole start stop) : (mm.vma v).Hole start stop := by
  obtain ⟨h1, h2⟩ := hhole
  rw [h.areas, List.mem_append, List.mem_append, List.map_cons, List.mem_cons] at ha
  rcases ha with ha | (rfl | ha) | ha
  · obtain ⟨w, hw, rfl⟩ := List.mem_map.1 ha
    have h3 := h.before w hw
    omega
  · exact ⟨h1, h2⟩
  · obtain ⟨w, hw, rfl⟩ := List.mem_map.1 ha
    have h3 := (h.starts w hw).1
    omega
  · obtain ⟨w, hw, rfl⟩ := List.mem_map.1 ha
    have h3 := h.behind w hw
    omega

/-- and no other area meets the range. -/
theorem Around.mid_nil (h : Around mm start stop v pre mid post) (H : mm.Inv)
    (hhole : (mm.vma v).Hole start stop) : mid = [] := by
  refine List.eq_nil_iff_forall_not_mem.2 fun w hw => ?_
  have hd := H.sorted
  rw [h.list, List.append_assoc, List.pairwise_append, List.cons_append, List.pairwise_cons] at hd
  have h1 := hd.2.1.1 w (by simp [hw])
  have h2 := (h.starts w hw).2
  have h3 := hhole.2
  omega

/-- The hole of `mm_unmap`: the area is split, and its lower part becomes a new area. -/
theorem unmap_hole (H : mm.Inv) {nvma : ℕ} {kmem : Pool ℕ} (hstart : start % pgSize = 0)
    (hstop : stop % pgSize = 0) (hlt : start < stop) (h : Around mm start stop v pre [] post)
    (hhole : (mm.vma v).Hole start stop) (htake : mm.kmem.take = (some nvma, kmem)) :
    ∃ mm', (do
        let mm ← vmaResize ({ mm with kmem := kmem }.setVma nvma
          ⟨(mm.vma v).vmStart, start, (mm.vma v).vmFlags, none, 0⟩) v stop (mm.vma v).vmEnd
        insertVmaStruct mm nvma) = .ok mm' ∧ mm'.Inv ∧ mm'.pgdir = mm.pgdir ∧
      mm'.areas = mm.areas.flatMap (Vma.pieces start stop) := by
  obtain ⟨H₁, hloose⟩ := H.loose_of_take htake
  have hlist : mm.mmapList = pre ++ v :: post := by
    rw [h.list, List.append_assoc]
    rfl
  have hvmem : v ∈ mm.mmapList := by rw [hlist]; simp
  have hne : v ≠ nvma := fun h => hloose.not_mem (h ▸ hvmem)
  have hval := H.valid v hvmem
  have hd := H.sorted
  rw [hlist, List.pairwise_append, List.pairwise_cons] at hd
  obtain ⟨hh1, hh2⟩ := hhole
  generalize ha : (⟨(mm.vma v).vmStart, start, (mm.vma v).vmFlags, none, 0⟩ : Vma) = a
  have hstart_a : a.vmStart = (mm.vma v).vmStart := by rw [← ha]
  have hend_a : a.vmEnd = start := by rw [← ha]
  have hval_a : a.Valid := by
    rw [← ha]
    exact ⟨hval.base_le, hh1, (hlt.trans hh2).le.trans hval.le_top, hval.start_aligned, hstart⟩
  have hval_b := hval.resize (hh1.le.trans hlt.le) hh2 le_rfl hstop hval.end_aligned
  -- the area is resized while it is on the list, and the new one is loose
  generalize hmm₁ : ({ mm with kmem := kmem } : Mm) = mm₁ at H₁ hloose
  have hvma₁ : mm₁.vma = mm.vma := by rw [← hmm₁]
  have hlist₁ : mm₁.mmapList = mm.mmapList := by rw [← hmm₁]
  have hrecv : (mm₁.setVma nvma a).vma v = mm.vma v := by
    rw [← hvma₁]
    exact Function.update_of_ne hne ..
  have hres : vmaResize (mm₁.setVma nvma a) v stop (mm.vma v).vmEnd =
      .ok ((mm₁.setVma nvma a).setVma v ((mm.vma v).resize stop (mm.vma v).vmEnd)) := by
    rw [vmaResize_spec, hrecv]
    · rw [hrecv]
      exact hh1.le.trans hlt.le
    · exact hh2
    · rw [hrecv]
    · exact hstop
    · exact hval.end_aligned
  have hcomm : (mm₁.setVma nvma a).setVma v ((mm.vma v).resize stop (mm.vma v).vmEnd) =
      (mm₁.setVma v ((mm.vma v).resize stop (mm.vma v).vmEnd)).setVma nvma a := by
    rw [Mm.setVma, Mm.setVma, Mm.setVma, Mm.setVma]
    simp only
    rw [Function.update_comm hne.symm]
  have H₂ : (mm₁.setVma v ((mm.vma v).resize stop (mm.vma v).vmEnd)).Inv := by
    refine H₁.setVma fun _ => ⟨hval_b, ?_, ?_⟩
    · rw [hvma₁]
      exact hh1.le.trans hlt.le
    · rw [hvma₁]
      exact le_rfl
  generalize hmm₂ : mm₁.setVma v ((mm.vma v).resize stop (mm.vma v).vmEnd) = mm₂ at H₂ hcomm
  have hvma₂ : mm₂.vma = Function.update mm.vma v ((mm.vma v).resize stop (mm.vma v).vmEnd) := by
    rw [← hmm₂, ← hvma₁]
    rfl
  have hrec : ∀ w ∈ pre ++ post, mm₂.vma w = mm.vma w := by
    intro w hw
    have hnd := H.nodup
    rw [hlist] at hnd
    rw [hvma₂]
    refine Function.update_of_ne ?_ ..
    rintro rfl
    exact (List.nodup_cons.1 (List.nodup_middle.1 hnd)).1 hw
  have hrecv₂ : mm₂.vma v = (mm.vma v).resize stop (mm.vma v).vmEnd := by
    rw [hvma₂, Function.update_self]
  have hlist₂ : mm₂.mmapList = pre ++ v :: post := by
    rw [← hmm₂, ← hlist, ← hlist₁]
    rfl
  have hloose₂ : mm₂.Loose nvma := by
    rw [← hmm₂]
    exact ⟨hloose.live, hloose.not_mem, hloose.not_tree⟩
  have hpre : ∀ w ∈ pre, (mm₂.vma w).vmEnd ≤ a.vmStart := fun w hw => by
    rw [hrec w (by simp [hw]), hstart_a]
    exact hd.2.2 w hw v (by simp)
  have hpost : ∀ w ∈ v :: post, a.vmEnd ≤ (mm₂.vma w).vmStart := fun w hw => by
    rw [hend_a]
    rcases List.mem_cons.1 hw with rfl | hw
    · rw [hrecv₂]
      exact hlt.le
    · rw [hrec w (by simp [hw])]
      exact ((hlt.trans hh2).le).trans (hd.2.1.1 w hw)
  obtain ⟨mm', l, r, hins, H', hlr, -, hl, hr, K, hareas⟩ := H₂.insert_area hloose₂ hval_a
    (fun b hb => by
      obtain ⟨w, hw, rfl⟩ := List.mem_map.1 hb
      rw [hlist₂, List.mem_append] at hw
      rcases hw with hw | hw
      · exact .inl (hpre w hw)
      · exact .inr (hpost w hw))
  have hsplit : l = pre ∧ r = v :: post := by
    refine split_unique (P := fun w => (mm₂.vma w).vmEnd ≤ a.vmStart) (hlr.symm.trans hlist₂) hl ?_
      hpre ?_
    · intro w hw
      have h6 := hr w hw
      have h7 := (H₂.valid w (by rw [hlr]; simp [hw])).lt
      have h8 := hval_a.lt
      omega
    · intro w hw
      have h6 := hpost w hw
      have h7 := (H₂.valid w (by rw [hlist₂]; simp only [List.mem_append]; exact .inr hw)).lt
      have h8 := hval_a.lt
      omega
  obtain ⟨rfl, rfl⟩ := hsplit
  refine ⟨mm', ?_, H', K.pgdir.trans (by rw [← hmm₂, ← hmm₁]; rfl), ?_⟩
  · rw [hres, Res.ok_bind, hcomm, hins]
  · have hl' : l.map mm₂.vma = l.map mm.vma :=
      List.map_congr_left fun w hw => hrec w (by simp [hw])
    have hr' : post.map mm₂.vma = post.map mm.vma :=
      List.map_congr_left fun w hw => hrec w (by simp [hw])
    have hpieces : (mm.vma v).pieces start stop =
        [a, (mm.vma v).resize stop (mm.vma v).vmEnd] := by
      rw [Vma.pieces, if_neg (by omega), if_pos ⟨hh1, hh2⟩, ha]
    rw [hareas, List.map_cons, hrecv₂, hl', hr', h.pieces, List.map_singleton,
      List.flatMap_singleton, hpieces]
    rfl

/-- The other areas of `mm_unmap`: they are taken off the list, and what is left of them comes
back. -/
theorem unmap_areas (H : mm.Inv) (hstart : start % pgSize = 0) (hstop : stop % pgSize = 0)
    (hlt : start < stop) (h : Around mm start stop v pre mid post) (hv : (mm.vma v).vmStart < stop)
    (hhole : ¬ (mm.vma v).Hole start stop) :
    ∃ mm', mm'.Inv ∧ mm'.pgdir = mm.pgdir ∧ mm'.areas = mm.areas.flatMap (Vma.pieces start stop) ∧
      ∀ e, (collectAreas stop mm v >>= fun r => r.2.2.foldlM (unmapArea B start stop) (r.1, e)) =
        mm.areas.reverse.foldlM (unmapEffect B mm.pgdir start stop) e >>= fun e' =>
        .ok (mm', e') := by
  have hall : ∀ u ∈ v :: mid, (mm.vma u).vmStart < stop := by
    intro u hu
    rcases List.mem_cons.1 hu with rfl | hu
    · exact hv
    · exact (h.starts u hu).2
  obtain ⟨mm₁, next, hcol, H₁, hlist₁, hvma₁, hpgdir₁, hloose⟩ :=
    H.collectAreas_spec h.list hall h.behind
  have hus : ∀ u ∈ (v :: mid).reverse, mm₁.Loose u ∧ (mm₁.vma u).Valid ∧
      (start < (mm₁.vma u).vmEnd ∧ (mm₁.vma u).vmStart < stop) ∧ ¬ (mm₁.vma u).Hole start stop := by
    intro u hu
    rw [List.mem_reverse] at hu
    have hmem : u ∈ mm.mmapList := by
      rw [h.list]
      exact List.mem_append_left _ (List.mem_append_right _ hu)
    rw [hvma₁]
    exact ⟨hloose u hu, H.valid u hmem, ⟨h.ends u hu, hall u hu⟩,
      fun hu => hhole (h.hole hlt (List.mem_map_of_mem hmem) hu)⟩
  have hs₁ : (pre ++ ((v :: mid).reverse.reverse ++ post)).Pairwise
      fun v w => (mm₁.vma v).vmEnd ≤ (mm₁.vma w).vmStart := by
    rw [List.reverse_reverse, ← List.append_assoc, ← h.list, hvma₁]
    exact H.sorted
  obtain ⟨mm', R', H', hlist', hR', hpre', hpgdir', hrun⟩ :=
    unmapAreas_spec B hstart hstop (v :: mid).reverse post mm₁ H₁ hlist₁ hus hs₁
  refine ⟨mm', H', hpgdir'.trans hpgdir₁, ?_, fun e => ?_⟩
  · rw [Mm.areas, hlist', List.map_append, hR', List.map_congr_left hpre', hvma₁,
      List.reverse_reverse, h.pieces]
  · rw [hcol, Res.ok_bind, h.effect B, hrun, hvma₁, hpgdir₁]

end Around

/-- Only the cache differs. -/
theorem areas_setCache (c : Option ℕ) : (mm.setCache c).areas = mm.areas := rfl

/-- **What `mm_unmap` can do**, and what it does to the backend. -/
theorem mmUnmap_cases (H : mm.Inv) (addr len : ℕ) {start stop : ℕ}
    (hstart : start = roundDown addr pgSize) (hstop : stop = roundUp (addrAdd addr len) pgSize) :
    (userAccess start stop = false ∧ ∀ e, mmUnmap B mm addr len e = .ok (-eInval, mm, e)) ∨
    (userAccess start stop = true ∧ (∃ a ∈ mm.areas, a.Hole start stop) ∧
      mm.kmem.take.1 = none ∧ ∃ mm', mm'.Inv ∧ mm'.areas = mm.areas ∧ mm'.pgdir = mm.pgdir ∧
      ∀ e, mmUnmap B mm addr len e = .ok (-eNoMem, mm', e)) ∨
    (userAccess start stop = true ∧ ¬ ((∃ a ∈ mm.areas, a.Hole start stop) ∧
      mm.kmem.take.1 = none) ∧ ∃ mm', mm'.Inv ∧ mm'.pgdir = mm.pgdir ∧
      mm'.areas = mm.areas.flatMap (Vma.pieces start stop) ∧
      ∀ e, mmUnmap B mm addr len e =
        mm.areas.reverse.foldlM (unmapEffect B mm.pgdir start stop) e >>=
          fun e' => .ok (0, mm', e')) := by
  have hal : start % pgSize = 0 := by rw [hstart]; exact roundDown_mod _ _
  have hal' : stop % pgSize = 0 := by rw [hstop]; exact roundUp_mod _ _
  obtain ⟨c, hfind, Hc⟩ := H.findVma_spec start
  simp only [mmUnmap, ← hstart, ← hstop]
  by_cases hacc : userAccess start stop = true
  · right
    have hlt := (userAccess_iff.1 hacc).2.1
    simp only [hacc, Bool.not_true, Bool.false_eq_true, if_false, hfind, Res.ok_bind, Res.pure_eq]
    by_cases hmeets : mm.Meets start stop
    · obtain ⟨v, hv, hvstop⟩ := H.meets_iff.1 hmeets
      obtain ⟨pre, mid, post, h⟩ := Hc.exists_around stop hv
      have hvmem : v ∈ mm.mmapList := List.mem_of_find?_eq_some hv
      have hnot : ¬ stop ≤ ((mm.setCache c).vma v).vmStart := not_le.2 hvstop
      simp only [hv, if_neg hnot]
      by_cases hhole : ((mm.setCache c).vma v).vmStart < start ∧
        stop < ((mm.setCache c).vma v).vmEnd
      · -- the range lies strictly inside of the area
        have hex : ∃ a ∈ mm.areas, a.Hole start stop := ⟨_, List.mem_map_of_mem hvmem, hhole⟩
        obtain rfl := h.mid_nil Hc hhole
        simp only [if_pos hhole, vmaCreate]
        rcases htake : mm.kmem.take with ⟨_ | nvma, kmem⟩
        · refine .inl ⟨trivial, hex, rfl, { mm.setCache c with kmem := kmem },
            Hc.take_none htake, rfl, rfl, fun e => ?_⟩
          rw [show (mm.setCache c).kmem.take = (none, kmem) from htake]
        · obtain ⟨mm', hrun, H', hpgdir, hareas⟩ := Hc.unmap_hole hal hal' hlt h hhole htake
          refine .inr ⟨trivial, by simp, mm', H', hpgdir, hareas, fun e => ?_⟩
          obtain ⟨mm₁, hres, hins⟩ := Res.bind_eq_ok.1 hrun
          have heff : mm.areas.reverse.foldlM (unmapEffect B mm.pgdir start stop) e =
              B.unmapRange mm.pgdir start stop e := by
            rw [show mm.areas = (mm.setCache c).areas from rfl, h.effect B, List.reverse_singleton,
              List.map_singleton, List.foldlM_cons, unmapEffect, if_neg (by omega), if_pos hhole]
            cases B.unmapRange mm.pgdir start stop e with
            | error f => rfl
            | ok e' => rfl
          have hpgdir' : mm'.pgdir = mm.pgdir := hpgdir
          rw [show (mm.setCache c).kmem.take = (some nvma, kmem) from htake, heff]
          simp only [hres, hins, hpgdir', Res.ok_bind]
      · right
        simp only [if_neg hhole]
        obtain ⟨mm', H', hpgdir, hareas, hrun⟩ := Hc.unmap_areas B hal hal' hlt h hvstop hhole
        refine ⟨trivial, fun hex => ?_, mm', H', hpgdir, hareas, fun e => ?_⟩
        · obtain ⟨a, ha, hha⟩ := hex.1
          exact hhole (h.hole hlt ha hha)
        · have hrun' := congrArg (fun r => r >>= fun r : Mm × ε => Except.ok ((0 : ℤ), r.1, r.2))
            (hrun e)
          simp only [bind_assoc, Res.ok_bind] at hrun'
          exact hrun'
    · -- the range meets no area, and nothing happens
      have hout : ∀ a ∈ mm.areas, a.vmEnd ≤ start ∨ stop ≤ a.vmStart := by
        intro a ha
        by_contra hcon
        push Not at hcon
        exact hmeets ⟨a, ha, hcon.1, hcon.2⟩
      refine .inr ⟨trivial, ?_, mm.setCache c, Hc, rfl, ?_, fun e => ?_⟩
      · rintro ⟨⟨a, ha, hha⟩, -⟩
        have h1 := hha.1
        have h2 := hha.2
        have h3 := (H.area_valid ha).lt
        rcases hout a ha with h | h <;> omega
      · rw [areas_setCache, flatMap_pieces hout]
      · rw [foldlM_unmapEffect B (fun a ha => hout a (List.mem_reverse.1 ha)), Res.ok_bind]
        cases hv : mm.mmapList.find? (Below mm.vma start) with
        | none => rfl
        | some v =>
          have hle : stop ≤ ((mm.setCache c).vma v).vmStart := by
            by_contra hcon
            exact hmeets (H.meets_iff.2 ⟨v, hv, not_le.1 hcon⟩)
          simp only [if_pos hle]
  · left
    rw [Bool.not_eq_true] at hacc
    rw [hacc]
    exact ⟨rfl, fun _ => rfl⟩

end Mm.Inv

/-! ## `dup_mmap` -/

/-- The copy that `dup_mmap` makes of an area. -/
def Vma.dup (a : Vma) : Vma :=
  if a.vmFlags.share then a else ⟨a.vmStart, a.vmEnd, a.vmFlags, none, 0⟩

@[simp] theorem Vma.dup_start (a : Vma) : a.dup.vmStart = a.vmStart := by
  rw [Vma.dup]
  split <;> rfl

@[simp] theorem Vma.dup_end (a : Vma) : a.dup.vmEnd = a.vmEnd := by
  rw [Vma.dup]
  split <;> rfl

@[simp] theorem Vma.dup_flags (a : Vma) : a.dup.vmFlags = a.vmFlags := by
  rw [Vma.dup]
  split <;> rfl

theorem Vma.Valid.dup {a : Vma} (h : a.Valid) : a.dup.Valid := by
  refine ⟨?_, ?_, ?_, ?_, ?_⟩
  · rw [Vma.dup_start]
    exact h.base_le
  · rw [Vma.dup_start, Vma.dup_end]
    exact h.lt
  · rw [Vma.dup_end]
    exact h.le_top
  · rw [Vma.dup_start]
    exact h.start_aligned
  · rw [Vma.dup_end]
    exact h.end_aligned

section Dup

variable {ε : Type} (B : Backend ε)

/-- The reference that `dup_mmap` takes for the copy of a shared area. -/
def dupRef (a : Vma) (e : ε) : Res ε :=
  if a.vmFlags.share then B.shmemRefInc a.shmem e else .ok e

theorem shareArea_spec {a : Vma} {dst : Mm} {nvma : ℕ} {e e₁ : ε} (h : dupRef B a e = .ok e₁) :
    shareArea B a (dst.setVma nvma ⟨a.vmStart, a.vmEnd, a.vmFlags, none, 0⟩) nvma e =
      .ok (dst.setVma nvma a.dup, e₁) := by
  rw [dupRef] at h
  rw [shareArea, Vma.dup]
  by_cases hshare : a.vmFlags.share = true
  · rw [if_pos hshare] at h
    rw [if_pos hshare, if_pos hshare, h, Res.ok_bind, Res.pure_eq, Mm.setVma, Mm.setVma, Mm.setVma]
    simp only [Function.update_self, Function.update_idem]
  · rw [if_neg hshare, Except.ok.injEq] at h
    rw [if_neg hshare, if_neg hshare, h, Res.pure_eq]

/-- **A rule for the loop of `dup_mmap`.**  `I cs e` is what holds when the areas `cs`, the last
ones of the source, have been copied, and `J cs e` what holds after a failure of `copy_range` on the
first of `cs`.  The target gets the copies of the areas that the loop has come to. -/
theorem dupAreas_rule {src : Mm} (Hsrc : src.Inv) {pgdir : ℕ} (I J : List Vma → ε → Prop)
    (hstep : ∀ as a cs e, src.areas = as ++ a :: cs → I cs e → ∃ e₁ ret e₂,
      dupRef B a e = .ok e₁ ∧
      B.copyRange pgdir src.pgdir a.vmStart a.vmEnd a.vmFlags.share e₁ = .ok (ret, e₂) ∧
      (ret = 0 → I (a :: cs) e₂) ∧ (ret ≠ 0 → J (a :: cs) e₂)) :
    ∀ (rest done : List ℕ) (dst : Mm) (e : ε), src.mmapList = rest.reverse ++ done → dst.Inv →
      dst.pgdir = pgdir → dst.areas = (done.map src.vma).map Vma.dup → I (done.map src.vma) e →
      ∃ ret dst' e' as cs, dupAreas B src rest dst e = .ok (ret, dst', e') ∧ dst'.Inv ∧
        dst'.pgdir = pgdir ∧ src.areas = as ++ cs ∧ dst'.areas = cs.map Vma.dup ∧
        ((ret = 0 ∧ as = [] ∧ I cs e') ∨ (ret = -eNoMem ∧ (I cs e' ∨ J cs e'))) := by
  intro rest
  induction rest with
  | nil =>
    intro done dst e hlist Hdst hpgdir hareas hI
    refine ⟨0, dst, e, [], done.map src.vma, rfl, Hdst, hpgdir, ?_, hareas, .inl ⟨rfl, rfl, hI⟩⟩
    rw [Mm.areas, hlist]
    rfl
  | cons v rest ih =>
    intro done dst e hlist Hdst hpgdir hareas hI
    have hlist' : src.mmapList = rest.reverse ++ v :: done := by
      rw [hlist, List.reverse_cons, List.append_assoc, List.singleton_append]
    have hsrc : src.areas = (rest.reverse.map src.vma) ++ src.vma v :: done.map src.vma := by
      rw [Mm.areas, hlist', List.map_append, List.map_cons]
    have hval := Hsrc.valid v (by rw [hlist']; simp)
    obtain ⟨e₁, ret, e₂, href, hcopy, hok, hfail⟩ := hstep _ _ _ e hsrc hI
    rw [dupAreas]
    simp only [vmaCreate]
    rcases htake : dst.kmem.take with ⟨_ | nvma, kmem⟩
    · refine ⟨-eNoMem, { dst with kmem := kmem }, e, rest.reverse.map src.vma ++ [src.vma v],
        done.map src.vma, rfl, Hdst.take_none htake, hpgdir, ?_, hareas, .inr ⟨rfl, .inl hI⟩⟩
      rw [hsrc, List.append_assoc, List.singleton_append]
    · obtain ⟨H₁, hloose⟩ := Hdst.loose_of_take htake
      have hsorted := Hsrc.sorted
      rw [hlist', List.pairwise_append, List.pairwise_cons] at hsorted
      obtain ⟨dst', l, r, hins, H', hlr, -, hl, hr, K, hareas'⟩ :=
        H₁.insert_area hloose hval.dup (fun b hb => by
          have hb' : b ∈ dst.areas := hb
          rw [hareas, List.mem_map] at hb'
          obtain ⟨a, ha, rfl⟩ := hb'
          obtain ⟨w, hw, rfl⟩ := List.mem_map.1 ha
          rw [Vma.dup_end, Vma.dup_start, Vma.dup_end, Vma.dup_start]
          exact .inr (hsorted.2.1.1 w hw))
      -- the copy goes to the front, since everything copied before lies behind it
      have hlnil : l = [] := by
        refine List.eq_nil_iff_forall_not_mem.2 fun w hw => ?_
        have h1 := hl w hw
        have hwd : w ∈ dst.mmapList := by
          show w ∈ ({ dst with kmem := kmem } : Mm).mmapList
          rw [hlr]
          simp [hw]
        have hb : dst.vma w ∈ dst.areas := List.mem_map_of_mem hwd
        rw [hareas, List.mem_map] at hb
        obtain ⟨a, ha, hab⟩ := hb
        obtain ⟨u, hu, rfl⟩ := List.mem_map.1 ha
        have h2 := hsorted.2.1.1 u hu
        have h3 := (Hsrc.valid u (by rw [hlist']; simp [hu])).lt
        have h4 : (dst.vma w).vmEnd ≤ (src.vma v).dup.vmStart := h1
        rw [← hab, Vma.dup_end, Vma.dup_start] at h4
        have h5 := hval.lt
        omega
      subst hlnil
      have hareas₁ : dst'.areas = (src.vma v :: done.map src.vma).map Vma.dup := by
        have hr' : r.map dst.vma = dst.areas := by
          have h : dst.mmapList = r := hlr
          rw [Mm.areas, h]
        rw [hareas', List.map_nil, List.nil_append, List.map_cons, ← hareas, ← hr']
      have hpgdir' : dst'.pgdir = pgdir := K.pgdir.trans hpgdir
      simp only [shareArea_spec B href, hins, hpgdir', hcopy, Res.ok_bind]
      by_cases hret : ret = 0
      · simp only [hret, ne_eq, not_true_eq_false, if_false]
        exact ih (v :: done) dst' e₂ hlist' H' hpgdir' hareas₁ (hok hret)
      · refine ⟨-eNoMem, dst', e₂, rest.reverse.map src.vma, src.vma v :: done.map src.vma, ?_, H',
          hpgdir', hsrc, hareas₁, .inr ⟨rfl, .inr (hfail hret)⟩⟩
        simp only [ne_eq, hret, not_false_eq_true, if_true, Res.pure_eq]

/-- A new address space. -/
theorem mmCreate_inv (pgdir : ℕ) (kmem : Pool ℕ) : (mmCreate pgdir kmem).Inv := by
  refine ⟨?_, List.Pairwise.nil, rfl, ?_, ?_, ?_⟩
  · exact fun v hv => absurd hv List.not_mem_nil
  · exact fun v hv => absurd hv (by simp [mmCreate])
  · exact fun v hv => absurd hv List.not_mem_nil
  · exact fun tree htree => absurd htree (by simp [mmCreate])

/-- **The rule for `dup_mmap` into a new address space.** -/
theorem dupMmap_rule {src : Mm} (Hsrc : src.Inv) (pgdir : ℕ) (kmem : Pool ℕ)
    (I J : List Vma → ε → Prop) {e : ε} (hinit : I [] e)
    (hstep : ∀ as a cs e, src.areas = as ++ a :: cs → I cs e → ∃ e₁ ret e₂,
      dupRef B a e = .ok e₁ ∧
      B.copyRange pgdir src.pgdir a.vmStart a.vmEnd a.vmFlags.share e₁ = .ok (ret, e₂) ∧
      (ret = 0 → I (a :: cs) e₂) ∧ (ret ≠ 0 → J (a :: cs) e₂)) :
    ∃ ret dst e' as cs, dupMmap B (mmCreate pgdir kmem) src e = .ok (ret, dst, e') ∧ dst.Inv ∧
      dst.pgdir = pgdir ∧ src.areas = as ++ cs ∧ dst.areas = cs.map Vma.dup ∧
      ((ret = 0 ∧ as = [] ∧ I cs e') ∨ (ret = -eNoMem ∧ (I cs e' ∨ J cs e'))) :=
  dupAreas_rule B Hsrc I J hstep src.mmapList.reverse [] (mmCreate pgdir kmem) e (by simp)
    (mmCreate_inv pgdir kmem) rfl rfl hinit

/-! ## The other operations -/

/-- **What `mm_map_shmem` can do** once it has taken a reference to the object. -/
theorem mmMapShmem_cases {mm : Mm} (H : mm.Inv) {addr o len start stop : ℕ} (flags : VmFlags)
    {e e₁ : ε} (haddr : addr % pgSize = 0) (hinc : B.shmemRefInc (some o) e = .ok e₁)
    (hlen : B.shmemLen o e₁ = .ok len) (hstart : start = roundDown addr pgSize)
    (hstop : stop = roundUp (addrAdd addr len) pgSize) :
    (∃ ret mm', ret ≠ 0 ∧ mm'.Inv ∧ mm'.areas = mm.areas ∧ mm'.pgdir = mm.pgdir ∧
      mmMapShmem B mm addr flags (some o) e =
        B.shmemRefDec (some o) e₁ >>= fun r => .ok (ret, mm', r.2)) ∨
    (∃ mm' l r, mm'.Inv ∧ mm'.pgdir = mm.pgdir ∧ mm.areas = l ++ r ∧
      mm'.areas = l ++ ⟨start, stop, { flags with share := true }, some o, 0⟩ :: r ∧
      mmMapShmem B mm addr flags (some o) e = .ok (0, mm', e₁)) := by
  rcases H.mmMap_cases addr len flags hstart hstop with ⟨-, hmap⟩ | ⟨-, -, mm', hmap, H', ha, hp⟩ |
    ⟨-, -, -, mm', hmap, H', ha, hp⟩ |
    ⟨hacc, hmeets, v, mm', l, r, -, hmap, H', hp, hlr, hlist, hvma, ha⟩
  · refine .inl ⟨-eInval, mm, by decide, H, rfl, rfl, ?_⟩
    simp only [mmMapShmem, haddr, ne_eq, not_true_eq_false, if_false, hinc, hlen, hmap,
      Res.ok_bind, Res.pure_eq]
  · refine .inl ⟨-eInval, mm', by decide, H', ha, hp, ?_⟩
    simp only [mmMapShmem, haddr, ne_eq, not_true_eq_false, if_false, hinc, hlen, hmap,
      Res.ok_bind, Res.pure_eq]
  · refine .inl ⟨-eNoMem, mm', by decide, H', ha, hp, ?_⟩
    simp only [mmMapShmem, haddr, ne_eq, not_true_eq_false, if_false, hinc, hlen, hmap,
      Res.ok_bind, Res.pure_eq]
  · have hv : mm'.vma v = ⟨start, stop, { flags with share := false }, none, 0⟩ := by
      rw [hvma, Function.update_self]
    have hnd := H'.nodup
    rw [hlist] at hnd
    have hother : ∀ w ∈ l ++ r, w ≠ v := by
      rintro w hw rfl
      exact (List.nodup_cons.1 (List.nodup_middle.1 hnd)).1 hw
    right
    refine ⟨mm'.setVma v ⟨start, stop, { flags with share := true }, some o, 0⟩,
      l.map mm.vma, r.map mm.vma, H'.setVma fun _ => ?_, hp, ?_, ?_, ?_⟩
    · rw [hv]
      refine ⟨?_, le_rfl, le_rfl⟩
      have hval := H'.valid v (by rw [hlist]; simp)
      rw [hv] at hval
      exact ⟨hval.base_le, hval.lt, hval.le_top, hval.start_aligned, hval.end_aligned⟩
    · rw [Mm.areas, hlr, List.map_append]
    · have hsame : ∀ w ∈ l ++ r, (mm'.setVma v
          ⟨start, stop, { flags with share := true }, some o, 0⟩).vma w = mm.vma w := by
        intro w hw
        rw [Mm.setVma, hvma]
        simp only [Function.update_idem]
        exact Function.update_of_ne (hother w hw) ..
      show (mm'.mmapList).map _ = _
      rw [hlist, List.map_append, List.map_cons]
      congr 1
      · exact List.map_congr_left fun w hw => hsame w (by simp [hw])
      · congr 1
        · exact Function.update_self ..
        · exact List.map_congr_left fun w hw => hsame w (by simp [hw])
    · simp only [mmMapShmem, haddr, ne_eq, not_true_eq_false, if_false, hinc, hlen, hmap, hv,
        Res.ok_bind, Res.pure_eq]

/-- `mm_destroy` gives up the shared memory object of every area. -/
theorem mmDestroy_effect (mm : Mm) : ∃ mm' : Mm, ∀ e, mmDestroy B mm e =
    mm.areas.foldlM (fun e a => vmaRelease B a e) e >>= fun e' => .ok (mm', e') := by
  have hfold : ∀ (l : List ℕ) (mm : Mm), ∃ mm' : Mm, ∀ e, l.foldlM
      (fun s v => vmaDestroy B { s.1 with mmapList := s.1.mmapList.erase v } v s.2) (mm, e) =
        (l.map mm.vma).foldlM (fun e a => vmaRelease B a e) e >>= fun e' => .ok (mm', e') := by
    intro l
    induction l with
    | nil => exact fun mm => ⟨mm, fun e => rfl⟩
    | cons v l ih =>
      intro mm
      obtain ⟨mm', hmm'⟩ := ih { mm with
        mmapList := mm.mmapList.erase v
        kmem := mm.kmem.give v }
      refine ⟨mm', fun e => ?_⟩
      rw [List.foldlM_cons, List.map_cons, List.foldlM_cons, vmaDestroy]
      simp only
      cases vmaRelease B (mm.vma v) e with
      | error f => rfl
      | ok e' => exact hmm' e'
  obtain ⟨mm', h⟩ := hfold mm.mmapList
    { mm with kmem := mm.mmapTree.elim mm.kmem (rbTreeDestroy mm.kmem) }
  exact ⟨mm', h⟩

end Dup

end Ucore
