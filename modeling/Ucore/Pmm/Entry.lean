import Ucore.Pmm.Store

/-!
# Entries that are put into an object

`shmem_insert_entry` looks the slot for an address up, with a new page in it if it was empty, gives
that page or the old one up, and then takes a reference to the page of the new entry.  `page_insert`
does the last two steps in the other order.  The order matters if the old and the new page are one
page and the slot held the only reference to it: then `free_page` is called on a page that the slot
refers to afterwards.

`shmemInsertEntry_iff` says that this is the only case in which something goes wrong.  The slot is
named by the node that starts at the four megabytes around the address (`Vm.slotAt`), since the node
for the last four megabytes of the address space ends at 0 and covers no address.

* `EntrySet` is what the function should do: one slot changes, the reference counts change with the
  number of slots, and the frames that slots refer to are in use.
* `clearEntry_spec` and `putEntry_spec` are the two steps, and `setEntry_spec` is both.  It keeps
  `EntrySet` unless the two pages are one.
* `getShmn_at` is the search for the slot.  The page that it may put there is a new one
  (`fillEntry_frames`), hence not the one that is inserted (`Vm.Filled.target_eq`).
* `shmemInsertEntry_frees_own` is the failing call, on an entry that is inserted at its own place.
-/

set_option autoImplicit false

namespace Ucore

open Vm

/-- The node for an address. -/
def Shmem.nodeAt (sh : Shmem) (addr : ℕ) : Option Shmn :=
  sh.shmnList.find? fun m => m.start = roundDown addr (pgSize * shmnNentry)

namespace Vm

/-- The slot for an address of an object. -/
def slotAt (s : Vm) (o addr : ℕ) : Option (Owner × ℕ) :=
  ((s.shmem o).bind fun sh => sh.nodeAt addr).map fun m =>
    (.node o m, addr / pgSize % shmnNentry)

/-- The entry for an address of an object. -/
def entryAt (s : Vm) (o addr : ℕ) : Pte := (s.slotAt o addr).elim Pte.zero s.slots

/-- **The entry for an address has been set**: no other slot has changed, every reference count has
changed with the number of slots that refer to the frame, and no frame that a slot refers to has
been freed. -/
structure EntrySet (o addr : ℕ) (entry : Pte) (s s' : Vm) : Prop where
  value : s'.entryAt o addr = entry
  others : ∀ x, s'.slotAt o addr ≠ some x → s'.slots x = s.slots x
  ref : ∀ p, s'.ref p - s.ref p = (refs (s'.held s'.tableOf) p : ℤ) - refs (s.held s.tableOf) p
  kept : ∀ x p, (s'.slots x).target = some p → p ∈ s'.frames.live

end Vm

section Frames

variable {s s' : Vm}

/-- `shmn_create` leaves the reference counts alone and frees nothing. -/
theorem shmnCreate_frames {start : ℕ} {r : Option Shmn} (h : shmnCreate start s = .ok (r, s')) :
    s'.ref = s.ref ∧ s.frames.live ⊆ s'.frames.live := by
  rw [shmnCreate] at h
  obtain ⟨-, h⟩ := assert_bind_eq_ok.1 h
  rcases hpool : s.shmnPool.take with ⟨_ | a, pool⟩
  · rw [hpool] at h
    cases h
    exact ⟨rfl, Finset.Subset.refl _⟩
  · simp only [hpool, Vm.allocPage] at h
    rcases s.frames.take_cases with ⟨script, hs⟩ | ⟨p, script, -, hs⟩
    · simp only [hs] at h
      cases h
      exact ⟨rfl, Finset.Subset.refl _⟩
    · simp only [hs] at h
      cases h
      exact ⟨rfl, Finset.subset_insert p _⟩

theorem getShmn_frames {o addr : ℕ} {r : Option Shmn}
    (h : getShmn (some o) addr true s = .ok (r, s')) :
    s'.ref = s.ref ∧ s.frames.live ⊆ s'.frames.live := by
  rw [getShmn] at h
  obtain ⟨⟨q, sh⟩, -, h⟩ := Res.bind_eq_ok.1 h
  rcases hfind : findShmn sh addr with ⟨_ | m, sh'⟩
  · simp only [hfind, Bool.not_true, Bool.false_eq_true, if_false] at h
    obtain ⟨⟨_ | m, s₁⟩, hcreate, h⟩ := Res.bind_eq_ok.1 h
    · cases h
      obtain ⟨href, hlive⟩ := shmnCreate_frames hcreate
      exact ⟨href, hlive⟩
    · obtain ⟨l, -, h⟩ := Res.bind_eq_ok.1 h
      cases h
      obtain ⟨href, hlive⟩ := shmnCreate_frames hcreate
      exact ⟨href, hlive⟩
  · simp only [hfind] at h
    obtain ⟨-, h⟩ := assert_bind_eq_ok.1 h
    cases h
    exact ⟨rfl, Finset.Subset.refl _⟩

/-- The page that `shmem_get_entry` may put into a slot is a new one. -/
theorem fillEntry_frames (ptep : ℕ × ℕ) {p : ℕ} (hp : p ∈ s.frames.live) :
    (fillEntry ptep true s).ref p = s.ref p ∧ p ∈ (fillEntry ptep true s).frames.live := by
  rw [fillEntry]
  by_cases hz : s.pte ptep = Pte.zero
  · rw [if_pos ⟨hz, rfl⟩, Vm.allocPage]
    rcases s.frames.take_cases with ⟨script, hs⟩ | ⟨q, script, hq, hs⟩
    · rw [hs]
      exact ⟨rfl, hp⟩
    · rw [hs]
      have hne : p ≠ q := fun h => hq (h ▸ hp)
      exact ⟨Function.update_of_ne hne .., Finset.mem_insert_of_mem hp⟩
  · rw [if_neg fun h => hz h.1]
    exact ⟨rfl, hp⟩

/-- Giving up a reference frees the page if it was the only one. -/
theorem releasePage_frames {q : ℕ} (h : releasePage q s = .ok s') :
    (∀ p, p ≠ q → s'.ref p = s.ref p ∧ (p ∈ s.frames.live → p ∈ s'.frames.live)) ∧
    (q ∈ s.frames.live → (q ∈ s'.frames.live ↔ s.ref q ≠ 1)) := by
  rcases releasePage_cases h with ⟨hone, rfl⟩ | ⟨hone, -, rfl⟩
  · exact ⟨fun p hp => ⟨Function.update_of_ne hp .., id⟩, fun hlive => iff_of_true hlive hone⟩
  · refine ⟨fun p hp => ⟨?_, fun hlive => Finset.mem_erase.2 ⟨hp, hlive⟩⟩, fun _ => ?_⟩
    · show Function.update (Function.update s.ref q _) q 0 p = _
      rw [Function.update_of_ne hp, Function.update_of_ne hp]
    · exact iff_of_false (Finset.notMem_erase q _) fun hne => hne hone

end Frames

section Entry

variable {X : Finset ℕ} {s : Vm}

/-- The old entry is given up. -/
theorem clearEntry_spec (H : s.Good X) {x : Owner} {f : ℕ} (hx : s.tableOf x = some f) (i : ℕ) :
    ∃ s', (if s.pte (f, i) ≠ Pte.zero then shmemRemoveEntryPte (f, i) s else .ok s) = .ok s' ∧
      s'.Good X ∧ s'.slots = Function.update s.slots (x, i) Pte.zero ∧ Rest s s' ∧
      (∀ p ∈ s.frames.live, (s.slots (x, i)).target ≠ some p →
        s'.ref p = s.ref p ∧ p ∈ s'.frames.live) ∧
      ∀ p, (s.slots (x, i)).target = some p → (p ∈ s'.frames.live ↔ s.ref p ≠ 1) := by
  have hpte : s.pte (f, i) = s.slots (x, i) := Inv.pte_eq hx i
  cases hheld : (s.slots (x, i)).target with
  | none =>
    have hz : s.slots (x, i) = Pte.zero := H.absent _ hheld
    refine ⟨s, ?_, H, ?_, Rest.refl s, fun p hp _ => ⟨rfl, hp⟩, nofun⟩
    · rw [hpte, hz]
      rfl
    · rw [← hz, Function.update_eq_self]
  | some q =>
    obtain ⟨hpres, hframe⟩ := Pte.target_eq_some.1 hheld
    have hne : s.pte (f, i) ≠ Pte.zero := by
      intro hz
      rw [← hpte, hz] at hpres
      cases hpres
    obtain ⟨s', hrel, H', hslot, hrest⟩ := Inv.drop H hx hheld
    obtain ⟨hother, hself⟩ := releasePage_frames hrel
    have hrest' : Rest s (s'.setPte (f, i) Pte.zero) :=
      ⟨hrest.mem, hrest.pgdir, hrest.shmem, hrest.shmemPool⟩
    refine ⟨s'.setPte (f, i) Pte.zero, ?_, Inv.good (s := s) H' hrest', slots_of_rest hslot hrest',
      hrest', fun p hp hpq => ?_, ?_⟩
    · rw [if_pos hne, shmemRemoveEntryPte, hpte, hpres, hframe, if_pos rfl, hrel]
      rfl
    · have hne : p ≠ q := fun h => hpq (by rw [h])
      exact ⟨(hother p hne).1, (hother p hne).2 hp⟩
    · rintro p ⟨⟩
      exact hself (H.used _ q hheld).1

/-- If the reference counts are right before and after, they have changed with the number of slots.
The invariant does not say what the counts of tables are. -/
theorem Vm.Good.ref_sub {s' : Vm} (H : s.Good X) (H' : s'.Good X) (hT : s'.tableOf = s.tableOf)
    {p : ℕ} (href : ∀ x, s.tableOf x = some p → s'.ref p = s.ref p) :
    s'.ref p - s.ref p = (refs (s'.held s'.tableOf) p : ℤ) - refs (s.held s.tableOf) p := by
  by_cases hp : ∃ x, s.tableOf x = some p
  · obtain ⟨x, hx⟩ := hp
    have h0 : refs (s.held s.tableOf) p = 0 :=
      refs_eq_zero H.finite fun y hy => (H.used y p hy).2.2 x hx
    have h1 : refs (s'.held s'.tableOf) p = 0 :=
      refs_eq_zero H'.finite fun y hy => (H'.used y p hy).2.2 x (by rw [hT, hx])
    rw [href x hx, h0, h1, sub_self, sub_self]
  · rw [H'.ref p fun x hx => hp ⟨x, by rw [← hT, hx]⟩, H.ref p fun x hx => hp ⟨x, hx⟩]

/-- A frame that is in use is not the new page in a slot that was 0. -/
theorem Vm.Filled.target_eq {s' : Vm} {x : Owner × ℕ} (h : Filled x s s') (H : s.Good X)
    (H' : s'.Good X) (hT : s'.tableOf = s.tableOf) {p : ℕ} (hp : p ∈ s.frames.live)
    (hx : (s'.slots x).target = some p) : (s.slots x).target = some p := by
  rcases h with h | ⟨-, q, hq, h⟩
  · rw [← h]
    exact hx
  · obtain ⟨-, hX, htable⟩ := H'.used x p hx
    rw [h, Function.update_self, Pte.target_mk, Option.some.injEq] at hx
    subst hx
    rcases H.live q hp with hin | ⟨y, hy⟩ | ⟨y, hy⟩
    · exact absurd hin hX
    · exact absurd (hT ▸ hy) (htable y)
    · exact absurd hy (hq y)

/-- The new entry is put into a slot that is 0. -/
theorem putEntry_spec (H : s.Good X) {x : Owner} {f i : ℕ} (hx : s.tableOf x = some f)
    (hzero : s.slots (x, i) = Pte.zero) (entry : Pte) : ∃ s',
      (if entry.present then s.pageRefInc entry.frame else s).setPte (f, i) entry = s' ∧
      s'.shmem = s.shmem ∧ s'.frames = s.frames ∧
      s'.slots = Function.update s.slots (x, i) entry ∧
      ∀ p, s'.ref p - s.ref p =
        (refs (s'.held s'.tableOf) p : ℤ) - refs (s.held s.tableOf) p := by
  have hempty : s.held s.tableOf (x, i) = none := by
    show (s.slots (x, i)).target = none
    rw [hzero]
    rfl
  have hslot : (s.setPte (f, i) entry).slot s.tableOf =
      Function.update (s.slot s.tableOf) (x, i) entry := Inv.slot_setPte H hx i entry
  have hheld := held_update hslot
  cases hpres : entry.present with
  | false =>
    refine ⟨_, rfl, rfl, rfl, hslot, fun p => ?_⟩
    rw [Pte.target_eq_none.2 hpres, ← hempty, Function.update_eq_self] at hheld
    show s.ref p - s.ref p = (refs ((s.setPte (f, i) entry).held s.tableOf) p : ℤ) - _
    rw [hheld, sub_self, sub_self]
  | true =>
    refine ⟨_, rfl, rfl, rfl, hslot, fun p => ?_⟩
    rw [Pte.target_eq_some.2 ⟨hpres, rfl⟩] at hheld
    show Function.update s.ref entry.frame (s.ref entry.frame + 1) p - s.ref p =
      (refs ((s.setPte (f, i) entry).held s.tableOf) p : ℤ) - _
    rw [hheld, refs_take H.finite hempty]
    by_cases hp : p = entry.frame
    · subst hp
      rw [Function.update_self, if_pos rfl]
      push_cast
      omega
    · rw [Function.update_of_ne hp, if_neg hp, Nat.add_zero, sub_self, sub_self]

/-- **`shmem_insert_entry` once it has a slot.** -/
theorem setEntry_spec (H : s.Good X) {x : Owner} {f i : ℕ} (hx : s.tableOf x = some f)
    (hi : i < 1024) {entry : Pte}
    (hentry : entry = Pte.zero ∨ entry.present = true ∧ entry.frame ∈ s.frames.live) :
    ∃ s', setEntry (f, i) entry (fillEntry (f, i) true s) = .ok s' ∧ s'.shmem = s.shmem ∧
      s'.slots = Function.update s.slots (x, i) entry ∧
      (∀ p, s'.ref p - s.ref p =
        (refs (s'.held s'.tableOf) p : ℤ) - refs (s.held s.tableOf) p) ∧
      ((∀ y p, (s'.slots y).target = some p → p ∈ s'.frames.live) ↔
        ∀ p, entry.target = some p → (s.slots (x, i)).target = some p → s.ref p ≠ 1) := by
  obtain ⟨H₂, hrest₂, hfill⟩ := fillEntry_spec H hx hi
  have hframes := fun p (hp : p ∈ s.frames.live) => fillEntry_frames (f, i) hp
  set s₂ := fillEntry (f, i) true s with hs₂
  obtain ⟨s₃, hclear, H₃, hslots₃, hrest₃, hother, hself⟩ :=
    clearEntry_spec H₂ (x := x) (f := f) (by rw [hrest₂.tableOf]; exact hx) i
  have hrest := hrest₂.trans hrest₃
  have hslots : s₃.slots = Function.update s.slots (x, i) Pte.zero := by
    rw [hslots₃]
    rcases hfill with hfill | ⟨-, p, -, hfill⟩
    · rw [hfill]
    · rw [hfill, Function.update_idem]
  -- up to here nothing depends on the new entry
  have hsub : ∀ p, s₃.ref p - s.ref p =
      (refs (s₃.held s₃.tableOf) p : ℤ) - refs (s.held s.tableOf) p := by
    refine fun p => H.ref_sub H₃ hrest.tableOf fun y hy => ?_
    obtain ⟨href, hlive⟩ := hframes p (H.tables y p hy).1
    rw [← href]
    refine (hother p hlive fun hp => ?_).1
    exact (H₂.used _ p hp).2.2 y (by rw [hrest₂.tableOf, hy])
  have hzero : s₃.slots (x, i) = Pte.zero := by rw [hslots, Function.update_self]
  obtain ⟨s', hput, hshmem, hfr, hslot, hsub'⟩ :=
    putEntry_spec H₃ (by rw [hrest.tableOf, hx]) hzero entry
  refine ⟨s', ?_, hshmem.trans hrest.shmem, ?_, fun p => ?_, ?_⟩
  · rw [setEntry]
    by_cases hne : s₂.pte (f, i) ≠ Pte.zero
    · rw [if_pos hne] at hclear ⊢
      rw [hclear, ← hput]
      rfl
    · rw [if_neg hne] at hclear ⊢
      cases hclear
      rw [← hput]
      rfl
  · rw [hslot, hslots, Function.update_idem]
  · have h1 := hsub p
    have h2 := hsub' p
    omega
  · rw [hfr, hslot]
    constructor
    · intro hkept p hp hold
      have hne : s.slots (x, i) ≠ Pte.zero := by
        intro hz
        rw [hz] at hold
        cases hold
      have hin := hkept (x, i) p (by rw [Function.update_self]; exact hp)
      rw [← hfill.of_ne_zero hne] at hold
      rw [hself p hold, (hframes p ?_).1] at hin
      · exact hin
      · rw [hfill.of_ne_zero hne] at hold
        exact (H.used _ p hold).1
    · intro hone y p hp
      by_cases hy : y = (x, i)
      · rw [hy, Function.update_self] at hp
        have hplive : p ∈ s.frames.live := by
          rcases hentry with rfl | ⟨-, hlive⟩
          · cases hp
          · rw [← (Pte.target_eq_some.1 hp).2]
            exact hlive
        obtain ⟨href, hlive₂⟩ := hframes p hplive
        by_cases hold : (s₂.slots (x, i)).target = some p
        · rw [hself p hold, href]
          exact hone p hp (hfill.target_eq H H₂ hrest₂.tableOf hplive hold)
        · exact (hother p hlive₂ hold).2
      · rw [Function.update_of_ne hy] at hp
        exact (H₃.used y p hp).1

/-! ## The slot for an address -/

variable {o : ℕ} {sh : Shmem}

theorem Shmem.mem_of_nodeAt {addr : ℕ} {m : Shmn} (h : sh.nodeAt addr = some m) :
    m ∈ sh.shmnList ∧ m.start = roundDown addr (pgSize * shmnNentry) :=
  ⟨List.mem_of_find?_eq_some h, by simpa using List.find?_some h⟩

/-- A node with the start is the node, if there is no other one. -/
theorem Shmem.nodeAt_eq {addr : ℕ} {m : Shmn} (hm : m ∈ sh.shmnList)
    (hstart : m.start = roundDown addr (pgSize * shmnNentry))
    (huniq : ∀ m' ∈ sh.shmnList, m'.start = m.start → m' = m) : sh.nodeAt addr = some m := by
  cases hn : sh.nodeAt addr with
  | none =>
    have hnot := List.find?_eq_none.1 hn m hm
    exact absurd (decide_eq_true hstart) hnot
  | some m' =>
    obtain ⟨hm', hstart'⟩ := Shmem.mem_of_nodeAt hn
    rw [huniq m' hm' (hstart'.trans hstart.symm)]

theorem slotAt_eq (ho : s.shmem o = some sh) {addr : ℕ} {m : Shmn} (hm : sh.nodeAt addr = some m) :
    s.slotAt o addr = some (.node o m, addr / pgSize % shmnNentry) := by
  rw [slotAt, ho, Option.bind_some, hm]
  rfl

/-- The node for an address, found or made.  If it is not there, the assertion of `insert_shmn` or
the lack of memory may end the search. -/
theorem getShmn_at (H : s.Good X) (ho : s.shmem o = some sh) (hok : sh.Ok) (hs : sh.Store)
    (addr : ℕ) :
    (s.entryAt o addr = Pte.zero ∧
      ((∃ e, getShmn (some o) (roundDown addr pgSize) true s = .error e) ∨
        ∃ s', getShmn (some o) (roundDown addr pgSize) true s = .ok (none, s'))) ∨
    ∃ m s' sh', getShmn (some o) (roundDown addr pgSize) true s = .ok (some m, s') ∧ s'.Good X ∧
      s'.slots = s.slots ∧ s'.shmem o = some sh' ∧ sh'.nodeAt addr = some m ∧
      s.entryAt o addr = s.slots (.node o m, addr / pgSize % shmnNentry) := by
  set off := roundDown addr pgSize with hoff
  have hround : roundDown off (pgSize * shmnNentry) = roundDown addr (pgSize * shmnNentry) := by
    rw [hoff]
    simp only [roundDown, pgSize, shmnNentry]
    omega
  have huniq : ∀ m ∈ sh.shmnList, ∀ m' ∈ sh.shmnList, m'.start = m.start → m' = m :=
    fun m hm m' hm' => hs.eq_of_start hm' hm
  cases hn : sh.node off with
  | some m =>
    right
    obtain ⟨hm, hcov⟩ := Shmem.mem_of_node hn
    have hstart := ((hs.covers_iff hm).1 hcov).trans hround
    obtain ⟨s', sh', hget, hst, hslots, hlist, -⟩ := getShmn_find H ho hok hs off
    have hnode : sh'.node off = some m := by rw [Shmem.node, hlist]; exact hn
    have hat : sh.nodeAt addr = some m := Shmem.nodeAt_eq hm hstart (huniq m hm)
    refine ⟨m, s', sh', ?_, hst.good, hslots, ?_, ?_, ?_⟩
    · rw [hget true (.inl (by rw [hn]; exact Option.some_ne_none m)), hnode]
    · rw [hst.shmem, Function.update_self]
    · rw [Shmem.nodeAt, hlist]
      exact hat
    · rw [entryAt, slotAt_eq ho hat]
      rfl
  | none =>
    have hnew : ∀ m' ∈ sh.shmnList, m'.start ≠ roundDown addr (pgSize * shmnNentry) := by
      intro m' hm' heq
      have h1 := hs.node_eq hm' ((hs.covers_iff hm').2 (heq.trans hround.symm))
      rw [hn] at h1
      cases h1
    have hzero : s.entryAt o addr = Pte.zero := by
      have hnone : sh.nodeAt addr = none :=
        List.find?_eq_none.2 fun m' hm' h => hnew m' hm' (of_decide_eq_true h)
      rw [entryAt, slotAt, ho, Option.bind_some, hnone]
      rfl
    have hfind : findShmn sh off = (none, sh) := by
      rw [findShmn_eq hs, hn]
      rfl
    rcases makeShmn_spec H ho hfind with ⟨s', hget, -⟩ | ⟨m, hstart, -, hnot, herr, hput⟩
    · exact .inl ⟨hzero, .inr ⟨s', hget⟩⟩
    · rcases insertShmn_spec sh.shmnList m with hins | ⟨l, hins, hperm⟩
      · exact .inl ⟨hzero, .inl ⟨_, herr hins⟩⟩
      · right
        obtain ⟨s', hget, H', hslots, -, -, -, hshmem⟩ := hput l hins hperm
        rw [hround] at hstart
        refine ⟨m, s', { sh with shmnList := l }, hget, H', hslots, ?_, ?_, ?_⟩
        · rw [hshmem, Function.update_self]
        · refine Shmem.nodeAt_eq (hperm.mem_iff.2 (List.mem_cons_self ..)) hstart
            fun m' hm' heq => ?_
          exact (List.mem_cons.1 (hperm.mem_iff.1 hm')).resolve_right fun h =>
            hnew m' h (heq.trans hstart)
        · rw [hzero, slots, slot, tableOf_node ho, if_neg hnot]
          rfl

/-- What `shmem_insert_entry` does if it returns 0, and when it keeps the frames. -/
theorem shmemInsertEntry_spec (H : s.Good X) (ho : s.shmem o = some sh) (hok : sh.Ok)
    (hs : sh.Store) {addr : ℕ} (hlen : addr < sh.len) {entry : Pte}
    (hentry : entry = Pte.zero ∨ entry.present = true ∧ entry.frame ∈ s.frames.live) :
    (s.entryAt o addr = Pte.zero ∧
      ∀ s', shmemInsertEntry (some o) addr entry s ≠ .ok (0, s')) ∨
    ∃ s', shmemInsertEntry (some o) addr entry s = .ok (0, s') ∧
      (EntrySet o addr entry s s' ↔
        ∀ p, entry.target = some p → (s.entryAt o addr).target = some p → s.ref p ≠ 1) := by
  simp only [shmemInsertEntry, shmemGetEntry, getShmem_some ho, assert_pos hlen, Res.ok_bind]
  rcases getShmn_at H ho hok hs addr with ⟨hzero, ⟨e, hget⟩ | ⟨s₁, hget⟩⟩ |
    ⟨m, s₁, sh₁, hget, H₁, hslots₁, ho₁, hnode, hold⟩
  · refine .inl ⟨hzero, fun s' hrun => ?_⟩
    rw [hget] at hrun
    cases hrun
  · refine .inl ⟨hzero, fun s' hrun => ?_⟩
    rw [hget] at hrun
    cases hrun
  · right
    obtain ⟨hm, hstart⟩ := Shmem.mem_of_nodeAt hnode
    obtain ⟨href₁, hlive₁⟩ := getShmn_frames hget
    have hindex : (roundDown addr pgSize - m.start) / pgSize = addr / pgSize % shmnNentry := by
      rw [hstart]
      simp only [roundDown, pgSize, shmnNentry]
      omega
    have hheld : s₁.held s₁.tableOf = s.held s.tableOf := held_of_slot hslots₁
    obtain ⟨s', hset, hshmem, hslots, href, hkept⟩ := setEntry_spec H₁
      (show s₁.tableOf (.node o m) = some m.entry by rw [tableOf_node ho₁, if_pos hm])
      (show addr / pgSize % shmnNentry < 1024 from Nat.mod_lt _ (by decide))
      (hentry.imp_right fun h => ⟨h.1, hlive₁ h.2⟩)
    have hslot : s'.slotAt o addr = some (.node o m, addr / pgSize % shmnNentry) :=
      slotAt_eq (by rw [hshmem, ho₁]) hnode
    rw [hslots₁, ← hold, href₁] at hkept
    refine ⟨s', ?_, ?_⟩
    · simp only [hget, Res.ok_bind, Res.pure_eq, hindex, hset]
    · rw [← hkept]
      refine ⟨fun h => h.kept, fun h => ⟨?_, fun x hx => ?_, ?_, h⟩⟩
      · rw [entryAt, hslot, Option.elim_some, hslots, Function.update_self]
      · rw [hslots, Function.update_of_ne fun heq => hx (by rw [hslot, heq]), hslots₁]
      · rw [← href₁, ← hheld]
        exact href

/-- **`shmem_insert_entry` keeps the reference counts exact** except in one case: the slot held the
only reference to the frame of the new entry.  Then the frame is freed, and the slot refers to it
nevertheless.  In particular `shmem_remove_entry` is always right. -/
theorem shmemInsertEntry_iff (H : s.Good X) (ho : s.shmem o = some sh) (hok : sh.Ok)
    (hs : sh.Store) {addr : ℕ} (hlen : addr < sh.len) {entry : Pte}
    (hentry : entry = Pte.zero ∨ entry.present = true ∧ entry.frame ∈ s.frames.live) :
    ((∀ s', shmemInsertEntry (some o) addr entry s = .ok (0, s') →
        EntrySet o addr entry s s') ↔
      ¬ (entry.present = true ∧ (s.entryAt o addr).present = true ∧
        (s.entryAt o addr).frame = entry.frame ∧ s.ref entry.frame = 1)) ∧
    ∀ s', shmemRemoveEntry (some o) addr s = .ok (0, s') → EntrySet o addr Pte.zero s s' := by
  have hcond : (∀ p, entry.target = some p → (s.entryAt o addr).target = some p → s.ref p ≠ 1) ↔
      ¬ (entry.present = true ∧ (s.entryAt o addr).present = true ∧
        (s.entryAt o addr).frame = entry.frame ∧ s.ref entry.frame = 1) := by
    simp only [Pte.target_eq_some]
    constructor
    · rintro h ⟨h1, h2, h3, h4⟩
      exact h entry.frame ⟨h1, rfl⟩ ⟨h2, h3⟩ h4
    · rintro h p ⟨h1, rfl⟩ ⟨h2, h3⟩ h4
      exact h ⟨h1, h2, h3, h4⟩
  refine ⟨?_, fun s' hrun => ?_⟩
  · rcases shmemInsertEntry_spec H ho hok hs hlen hentry with ⟨hzero, hno⟩ | ⟨s', hrun, hiff⟩
    · refine iff_of_true (fun s' hrun => absurd hrun (hno s')) fun h => ?_
      rw [hzero] at h
      cases h.2.1
    · rw [← hcond, ← hiff]
      refine ⟨fun h => h s' hrun, fun h s'' hrun' => ?_⟩
      rw [hrun] at hrun'
      cases hrun'
      exact h
  · rcases shmemInsertEntry_spec H ho hok hs hlen (.inl rfl) with ⟨-, hno⟩ | ⟨s'', hrun', hiff⟩
    · exact absurd hrun (hno s')
    · rw [shmemRemoveEntry, hrun'] at hrun
      cases hrun
      exact hiff.2 nofun

end Entry

/-- An object of five megabytes without nodes, and two pages for it. -/
def sampleStore : Vm :=
  ⟨⟨∅, [some 20, some 21]⟩, fun _ => 0, fun _ _ => Pte.zero, fun _ _ => 0, fun _ _ => none,
    Function.update (fun _ => none) 7 (some ⟨[], none, 0x500000, 0⟩), ⟨{7}, []⟩, ⟨∅, [some 1]⟩⟩

/-- The same after `shmem_get_entry(shmem, 0x1000, 1)`. -/
def sampleFilled : Vm :=
  match shmemGetEntry (some 7) 0x1000 true sampleStore with
  | .ok (_, s) => s
  | .error _ => sampleStore

theorem sampleFilled_good : ∃ sh, sampleFilled.Good ∅ ∧ sampleFilled.shmem 7 = some sh ∧ sh.Ok ∧
    sh.Store ∧ sh.len = 0x500000 := by
  have ho : sampleStore.shmem 7 = some ⟨[], none, 0x500000, 0⟩ := rfl
  have hT : ∀ x, sampleStore.tableOf x = none := by
    intro x
    cases x with
    | dir d k => rfl
    | node o m =>
      by_cases h : o = 7
      · subst h
        rw [tableOf_node ho]
        rfl
      · refine tableOf_node_none ?_ m
        exact Function.update_of_ne h _ fun _ => none
  have hok : (⟨[], none, 0x500000, 0⟩ : Shmem).Ok :=
    ⟨List.nodup_nil, nofun, fun m hm => absurd hm List.not_mem_nil⟩
  have hst : (⟨[], none, 0x500000, 0⟩ : Shmem).Store :=
    ⟨fun m hm => absurd hm List.not_mem_nil, fun m hm => absurd hm List.not_mem_nil,
      List.Pairwise.nil, nofun⟩
  obtain ⟨s', sh', hget, hstored, -, -⟩ := shmemGetEntry_store
    (Good.of_empty hT (fun _ => rfl) rfl) ho hok hst (show 0x1000 < 0x500000 by decide)
    (by decide) true
  have hs' : sampleFilled = s' := by rw [sampleFilled, hget]
  rw [hs']
  exact ⟨sh', hstored.good, by rw [hstored.shmem, Function.update_self], hstored.ok, hstored.store,
    hstored.len⟩

/-- The frame 21 is put into a second slot. -/
theorem shmemInsertEntry_iff_second : ∃ s',
    shmemInsertEntry (some 7) 0x2000 ⟨21, true, ⟨false, false⟩⟩ sampleFilled = .ok (0, s') ∧
    EntrySet 7 0x2000 ⟨21, true, ⟨false, false⟩⟩ sampleFilled s' := by
  obtain ⟨sh, hgood, ho, hok, hst, hlen⟩ := sampleFilled_good
  refine ⟨_, rfl, (shmemInsertEntry_iff hgood ho hok hst (by rw [hlen]; decide)
    (.inr ⟨rfl, by decide⟩)).1.2 ?_ _ rfl⟩
  decide

/-- The entry for the address 0x1000 is inserted at its own place.  Its frame is freed, and the slot
refers to it. -/
theorem shmemInsertEntry_frees_own : ∃ sh s', sampleFilled.Good ∅ ∧ sampleFilled.shmem 7 = some sh ∧
    sh.Ok ∧ sh.Store ∧ 0x1000 < sh.len ∧
    sampleFilled.entryAt 7 0x1000 = ⟨21, true, ⟨false, false⟩⟩ ∧ 21 ∈ sampleFilled.frames.live ∧
    shmemInsertEntry (some 7) 0x1000 ⟨21, true, ⟨false, false⟩⟩ sampleFilled = .ok (0, s') ∧
    s'.entryAt 7 0x1000 = ⟨21, true, ⟨false, false⟩⟩ ∧ 21 ∉ s'.frames.live ∧
    ¬ EntrySet 7 0x1000 ⟨21, true, ⟨false, false⟩⟩ sampleFilled s' := by
  obtain ⟨sh, hgood, ho, hok, hst, hlen⟩ := sampleFilled_good
  refine ⟨sh, _, hgood, ho, hok, hst, by rw [hlen]; decide, by decide, by decide, rfl, by decide,
    by decide, fun h => ?_⟩
  exact absurd (h.kept (.node 7 ⟨1, 0, 0x400000, 20⟩, 1) 21 (by decide)) (by decide)

end Ucore
