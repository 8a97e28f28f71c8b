import Ucore.World.Inv
import Ucore.Vmm.Run

/-!
# Every operation keeps the invariant

`World.Inv.step` says of every operation that it returns, or stops at an assertion, and that it
keeps the invariant if it returns.  So no operation that is given pointers to something uses a
pointer to nothing, gives a page back twice or loops forever; and no object is destroyed too early
or too late.

## The plan

For each operation three results are put together.  `Ucore.Vmm.Ops` says what becomes of the areas,
and in which order the operation calls the functions for page tables and objects;
`Ucore.World.Effects` and `Ucore.World.Fault` say what these calls do to the memory; and one of the
lemmas `Inv.set`, `Inv.setMm`, `Inv.setVm` and `Inv.add` of `Ucore.World.Inv` says what is left to
be shown.

* `Inv.mmMap`, `Inv.mmMapShmem` — a new area.  Nothing is mapped in it, since all that is mapped
  lies in areas and it overlaps none.  For a shared one a reference to the object is taken first,
  and given back if there is no area.
* `Inv.mmUnmap` — areas are replaced by their pieces, and the entries of the range are cleared.  The
  piece in front of a hole in a shared area would have no object, and this is the case that is left
  out.
* `Inv.doPgfault` and `Inv.access` — `Faulted` is all that is used of a fault.  After a fault that
  was served the entry permits the access (`permits_of_faulted`), so that one which is made again
  does not fault again.
* `Inv.dupMmap` — a new address space with the copies of the areas, or some of them.
* `Inv.exitMmap`, `Inv.mmDestroy` — all entries of an address space are cleared, and the areas go.
* `Inv.shmemCreate`, `Inv.supply` — no address space is involved.

`Inv.step` has one case for each of them.  Whoever knows that an operation has returned also knows
that its pointers were good (`pointers_of_step`), which gives `Inv.step_ok`, and by induction on the
run `World.Run.inv`, the form in which the invariant is used from here on.
-/

set_option autoImplicit false

namespace Ucore

open Vm

namespace World

namespace Inv

variable {w : World} {i : ℕ}

/-! ## `mm_map` and `mm_map_shmem` -/

/-- An area covers nothing that another one covers. -/
theorem disjoint_insert {mm : Mm} (Hm : mm.Inv) {a : Vma} {l r : List Vma}
    (h : mm.areas = l ++ a :: r) {b : Vma} (hb : b ∈ l ++ r) {la : ℕ} (ha : a.Has la) :
    ¬ b.Has la := by
  have hs := Hm.areas_sorted
  rw [h, List.pairwise_append, List.pairwise_cons] at hs
  intro hhas
  rw [Vma.Has] at *
  rcases List.mem_append.1 hb with hb | hb
  · have h1 := hs.2.2 b hb a (List.mem_cons_self ..)
    omega
  · have h1 := hs.2.1.1 b hb
    omega

/-- `mm_map`. -/
theorem mmMap (H : w.Inv) (hi : i ∈ w.mms) (addr len : ℕ) (flags : VmFlags) :
    ∃ ret v mm, Ucore.mmMap (w.mm i) addr len flags = .ok (ret, v, mm) ∧
      ((w.set i mm w.vm).Inv ∧ Kept w (w.set i mm w.vm)) ∧
      (∀ a ∈ (w.mm i).areas, a ∈ mm.areas) ∧ ∀ a ∈ mm.areas, a ∈ (w.mm i).areas ∨
        a.vmFlags.share = false ∧ ∀ b ∈ (w.mm i).areas, ∀ la, a.Has la → ¬ b.Has la := by
  have Hi := H.mm i hi
  have hpi := H.pgdir i hi
  rcases Hi.mmMap_cases addr len flags rfl rfl with ⟨-, hmap⟩ | ⟨-, -, mm, hmap, Hm, ha, hp⟩ |
    ⟨-, -, -, mm, hmap, Hm, ha, hp⟩ | ⟨-, -, v, mm, l, r, -, hmap, Hm, hp, hlr, -, -, ha⟩
  · exact ⟨_, _, _, hmap, H.setMm hi Hi hpi (fun _ h => h) (fun _ => rfl) (H.backed i hi),
      fun _ h => h, fun _ h => .inl h⟩
  · refine ⟨_, _, _, hmap, H.setMm hi Hm (hp.trans hpi) ?_ (fun o => by rw [ha]) ?_, ?_, ?_⟩
    · exact fun a h => ha ▸ h
    · rw [ha]
      exact H.backed i hi
    · exact fun a h => ha ▸ h
    · exact fun a h => .inl (ha ▸ h)
  · refine ⟨_, _, _, hmap, H.setMm hi Hm (hp.trans hpi) ?_ (fun o => by rw [ha]) ?_, ?_, ?_⟩
    · exact fun a h => ha ▸ h
    · rw [ha]
      exact H.backed i hi
    · exact fun a h => ha ▸ h
    · exact fun a h => .inl (ha ▸ h)
  · have hold : (w.mm i).areas = l.map (w.mm i).vma ++ r.map (w.mm i).vma := by
      rw [Mm.areas, hlr, List.map_append]
    have hmem : ∀ b, b ∈ mm.areas ↔ b = _ ∨ b ∈ (w.mm i).areas := fun b => by
      rw [ha, hold, List.perm_middle.mem_iff, List.mem_cons]
    have hsub : ∀ a ∈ (w.mm i).areas, a ∈ mm.areas := fun a h => (hmem a).2 (.inr h)
    refine ⟨_, _, _, hmap, H.setMm hi Hm (hp.trans hpi) hsub (fun o => ?_) ?_, hsub, ?_⟩
    · rw [ha, hold, sharers_append, sharers_append, sharers_cons, sharers_null rfl, Nat.zero_add]
    · intro a h hshare
      rcases (hmem a).1 h with rfl | h
      · cases hshare
      · exact H.backed i hi a h hshare
    · intro a h
      rcases (hmem a).1 h with rfl | h
      · rw [hold]
        exact .inr ⟨rfl, fun b hb la hla => disjoint_insert Hm ha hb hla⟩
      · exact .inl h

/-- `mm_map_shmem`. -/
theorem mmMapShmem (H : w.Inv) (hi : i ∈ w.mms) (addr : ℕ) (flags : VmFlags) (shmem : Option ℕ)
    (hptr : ∀ o, shmem = some o → addr % pgSize = 0 → w.vm.shmem o ≠ none) :
    ∃ ret mm vm, Ucore.mmMapShmem vmBackend (w.mm i) addr flags shmem w.vm = .ok (ret, mm, vm) ∧
      ((w.set i mm vm).Inv ∧ Kept w (w.set i mm vm) ∧ SameNodes w.vm vm) ∧ SameDirs w.vm vm ∧
      ∀ a ∈ mm.areas, a ∈ (w.mm i).areas ∨
        (∀ b ∈ (w.mm i).areas, ∀ la, a.Has la → ¬ b.Has la) ∧ ∃ o sh, addr % pgSize = 0 ∧
          w.vm.shmem o = some sh ∧ a = ⟨roundDown addr pgSize, roundUp (addrAdd addr sh.len) pgSize,
            { flags with share := true }, some o, 0⟩ := by
  have Hi := H.mm i hi
  have hpi := H.pgdir i hi
  have hnodes : SameNodes w.vm w.vm := SameNodes.of_eq rfl fun _ _ _ => rfl
  have hnothing : ((w.set i (w.mm i) w.vm).Inv ∧ Kept w (w.set i (w.mm i) w.vm) ∧
      SameNodes w.vm w.vm) ∧ SameDirs w.vm w.vm ∧ ∀ a ∈ (w.mm i).areas, a ∈ (w.mm i).areas ∨
        (∀ b ∈ (w.mm i).areas, ∀ la, a.Has la → ¬ b.Has la) ∧ ∃ o sh, addr % pgSize = 0 ∧
          w.vm.shmem o = some sh ∧ a = ⟨roundDown addr pgSize, roundUp (addrAdd addr sh.len) pgSize,
            { flags with share := true }, some o, 0⟩ := by
    obtain ⟨H', hkept⟩ := H.setMm hi Hi hpi (fun _ h => h) (fun _ => rfl) (H.backed i hi)
    exact ⟨⟨H', hkept, hnodes⟩, fun _ _ _ => rfl, fun a h => .inl h⟩
  cases shmem with
  | none => exact ⟨_, _, _, rfl, hnothing⟩
  | some o =>
    by_cases haddr : addr % pgSize = 0
    · obtain ⟨sh, ho⟩ := Option.ne_none_iff_exists'.1 (hptr o rfl haddr)
      obtain ⟨vm₁, hinc, H₁, hslots, hmem, hvm₁, O₁⟩ := shmemRefInc_spec H.good H.objects ho
      have ho₁ : vm₁.shmem o = some { sh with ref := sh.ref + 1 } := by
        rw [hvm₁]
        exact Function.update_self ..
      have hlen : shmemLen o vm₁ = .ok sh.len := by
        rw [shmemLen, getShmem_some ho₁]
        rfl
      rcases mmMapShmem_cases vmBackend Hi flags haddr hinc hlen rfl rfl with
        ⟨ret, mm, -, Hm, ha, hp, hrun⟩ | ⟨mm, l, r, Hm, hp, hold, ha, hrun⟩
      · -- the reference is given back
        have hdec : vmBackend.shmemRefDec (some o) vm₁ = .ok (sh.ref + 1 - 1, w.vm) := by
          show shmemRefDec (some o) vm₁ = _
          rw [shmemRefDec, getShmem_some ho₁, Res.ok_bind, hvm₁]
          show Except.ok (sh.ref + 1 - 1, _) = _
          congr 2
          have hback : ({ sh with ref := sh.ref + 1 - 1 } : Shmem) = sh := by
            rw [add_sub_cancel_right]
          simp only [setShmem, Function.update_idem, hback, ← ho, Function.update_eq_self]
        rw [hdec] at hrun
        obtain ⟨H', hkept⟩ := H.setMm hi Hm (hp.trans hpi) (fun a h => ha ▸ h) (fun q => by rw [ha])
          (by rw [ha]; exact H.backed i hi)
        exact ⟨ret, mm, w.vm, hrun, ⟨H', hkept, hnodes⟩, fun _ _ _ => rfl, fun a h => .inl (ha ▸ h)⟩
      · have hsh : ∀ q, sharers mm.areas q = sharers (w.mm i).areas q + if q = o then 1 else 0 := by
          intro q
          rw [ha, hold, sharers_append, sharers_append, sharers_cons, ← Nat.add_assoc,
            Nat.add_right_comm]
          congr 1
          exact sharers_of_share rfl rfl q
        have hmem : ∀ b, b ∈ mm.areas ↔ b = _ ∨ b ∈ (w.mm i).areas := fun b => by
          rw [ha, hold, List.perm_middle.mem_iff, List.mem_cons]
        have hsub : ∀ a ∈ (w.mm i).areas, a ∈ mm.areas := fun a h => (hmem a).2 (.inr h)
        have hdirs : SameDirs w.vm vm₁ := fun e k j => by rw [hslots]
        refine ⟨0, mm, vm₁, hrun, ⟨H.set hi Hm (hp.trans hpi) H₁ ?_ ?_ ?_ ?_, ?_, ?_⟩, hdirs, ?_⟩
        · exact fun e _ k j => hdirs e k j
        · intro la hla
          rw [hslots] at hla
          obtain ⟨a, h, hhas⟩ := H.covered i hi la hla
          exact ⟨a, hsub a h, hhas⟩
        · simp only [hsh, ← Nat.add_assoc]
          rw [shares_eq hi] at O₁
          exact O₁
        · intro a h hshare
          rcases (hmem a).1 h with rfl | h
          · exact Option.some_ne_none o
          · exact H.backed i hi a h hshare
        · refine Kept.of_same (fun q => ?_) fun q => ?_
          · show vm₁.shmem q = none ↔ _
            rw [hvm₁, setShmem]
            by_cases hq : q = o
            · simp only [hq, Function.update_self, ho]
              exact iff_of_false (Option.some_ne_none _) (Option.some_ne_none _)
            · simp only [Function.update_of_ne hq]
          · rw [shares_set hi, shares_eq hi]
            simp only [hsh]
            omega
        · rw [hvm₁] at hslots ⊢
          exact SameNodes.setShmem ho rfl rfl rfl hslots
        · intro a h
          rcases (hmem a).1 h with rfl | h
          · rw [hold]
            exact .inr ⟨fun b hb la hla => disjoint_insert Hm ha hb hla, o, sh, haddr, ho, rfl⟩
          · exact .inl h
    · refine ⟨-eInval, w.mm i, w.vm, ?_, hnothing⟩
      show (if addr % pgSize ≠ 0 then _ else _) = _
      rw [if_pos haddr]
      rfl

/-! ## `mm_unmap` -/

/-- `mm_unmap`. -/
theorem mmUnmap (H : w.Inv) (hi : i ∈ w.mms) (addr len : ℕ)
    (hcut : ¬ CutsShared w (.mmUnmap i addr len)) {start stop : ℕ}
    (hstart : start = roundDown addr pgSize) (hstop : stop = roundUp (addrAdd addr len) pgSize) :
    ∃ ret mm vm, Ucore.mmUnmap vmBackend (w.mm i) addr len w.vm = .ok (ret, mm, vm) ∧
      ((w.set i mm vm).Inv ∧ Kept w (w.set i mm vm) ∧ SameNodes w.vm vm) ∧
      ((ret ≠ 0 ∧ mm.areas = (w.mm i).areas ∧ vm = w.vm) ∨
        (ret = 0 ∧ mm.areas = (w.mm i).areas.flatMap (Vma.pieces start stop) ∧
          Unmapped i start stop (w.mm i).areas w.vm vm ∧
          ∀ a ∈ (w.mm i).areas, a.vmFlags.share = true → ¬ a.Hole start stop)) := by
  have Hi := H.mm i hi
  have hpi := H.pgdir i hi
  rcases Hi.mmUnmap_cases vmBackend addr len hstart hstop with ⟨-, hrun⟩ |
    ⟨-, -, -, mm, Hm, ha, hp, hrun⟩ | ⟨hacc, hmem, mm, Hm, hp, ha, hrun⟩
  · obtain ⟨H', hkept⟩ := H.setMm hi Hi hpi (fun _ h => h) (fun _ => rfl) (H.backed i hi)
    exact ⟨_, _, _, hrun w.vm, ⟨H', hkept, SameNodes.of_eq rfl fun _ _ _ => rfl⟩,
      .inl ⟨by decide, rfl, rfl⟩⟩
  · obtain ⟨H', hkept⟩ := H.setMm hi Hm (hp.trans hpi) (fun a h => ha ▸ h) (fun o => by rw [ha])
      (by rw [ha]; exact H.backed i hi)
    exact ⟨_, _, _, hrun w.vm, ⟨H', hkept, SameNodes.of_eq rfl fun _ _ _ => rfl⟩,
      .inl ⟨by decide, ha, rfl⟩⟩
  · have hr : RangeOk start stop :=
      ⟨hacc, by rw [hstart]; exact roundDown_mod _ _, by rw [hstop]; exact roundUp_mod _ _⟩
    have hhole : ∀ a ∈ (w.mm i).areas, a.vmFlags.share = true → ¬ a.Hole start stop := by
      intro a h hshare hh
      refine hmem ⟨⟨a, h, hh⟩, ?_⟩
      by_contra hne
      rw [hstart, hstop] at hh hacc
      exact hcut ⟨hacc, hne, a, h, hshare, hh⟩
    have O := H.objects
    rw [shares_eq hi] at O
    have hperm : ∀ o, sharers (w.mm i).areas.reverse o = sharers (w.mm i).areas o :=
      fun o => sharers_perm (List.reverse_perm _) o
    have hperm' : ∀ o, sharers ((w.mm i).areas.reverse.flatMap (Vma.pieces start stop)) o =
        sharers mm.areas o := by
      intro o
      rw [ha]
      exact sharers_perm ((List.reverse_perm _).flatMap_right _) o
    simp only [← hperm] at O
    obtain ⟨vm, hfold, hun, O', hdrop, hnodes⟩ :=
      unmapAreas_effect i hr (w.mm i).areas.reverse H.good O
      (fun a h => Hi.area_valid (List.mem_reverse.1 h))
      (fun a h => H.backed i hi a (List.mem_reverse.1 h))
    simp only [hperm'] at O' hdrop
    simp only [hperm] at hdrop
    have hun' : Unmapped i start stop (w.mm i).areas w.vm vm :=
      ⟨hun.good, hun.mem, hun.pgdir, fun a h => hun.cleared a (List.mem_reverse.2 h),
        fun e k j hx => hun.other e k j fun a h => hx a (List.mem_reverse.1 h)⟩
    have hrun' := hrun w.vm
    rw [hpi, hfold, Res.ok_bind] at hrun'
    refine ⟨0, mm, vm, hrun', ⟨H.set hi Hm (hp.trans hpi) hun.good ?_ ?_ O' ?_, ?_, hnodes⟩,
      .inr ⟨rfl, ha, hun', hhole⟩⟩
    · intro e he k j
      refine hun'.other e k j fun a _ la _ _ _ h => he ?_
      exact dir_of_eq_userSlot h
    · -- an entry that is still there lies in a piece
      intro la hla
      have hmiss : ∀ a ∈ (w.mm i).areas, ∀ lb, start ≤ lb → lb < stop → a.Has lb →
          userSlot i la ≠ userSlot i lb := by
        intro a h lb h1 h2 h3 heq
        rw [heq, hun'.cleared a h lb h1 h2 h3] at hla
        cases hla
      have hsame := hun'.other i (pdx la) (ptx la) hmiss
      rw [show vm.slots (userSlot i la) = _ from hsame] at hla
      obtain ⟨a, h, hhas⟩ := H.covered i hi la hla
      have hout : la < start ∨ stop ≤ la := by
        by_contra hin
        rw [not_or, not_lt, not_le] at hin
        exact hmiss a h la hin.1 hin.2 hhas rfl
      obtain ⟨b, hb, hbhas, -⟩ := hhas.piece hout
      exact ⟨b, by rw [ha]; exact List.mem_flatMap.2 ⟨a, h, hb⟩, hbhas⟩
    · intro b hb hshare
      rw [ha] at hb
      obtain ⟨a, h, hb⟩ := List.mem_flatMap.1 hb
      obtain ⟨hflags, hsh⟩ := Vma.of_mem_pieces hb
      rw [hflags] at hshare
      rcases hsh with hsh | hsh
      · rw [hsh]
        exact H.backed i hi a h hshare
      · exact absurd hsh (hhole a h hshare)
    · refine Kept.of_drops ?_
      rw [shares_eq hi, shares_set hi]
      exact hdrop

/-- `mm_unmap` succeeds only on a range of user addresses. -/
theorem mmUnmap_access (H : w.Inv) (hi : i ∈ w.mms) {addr len : ℕ} {ret : ℤ} {mm : Mm} {vm : Vm}
    (h : Ucore.mmUnmap vmBackend (w.mm i) addr len w.vm = .ok (ret, mm, vm)) (hret : ret = 0) :
    roundDown addr pgSize < roundUp (addrAdd addr len) pgSize := by
  rcases (H.mm i hi).mmUnmap_cases vmBackend addr len rfl rfl with ⟨-, hrun⟩ |
    ⟨hacc, -⟩ | ⟨hacc, -⟩
  · rw [hrun] at h
    cases h
    exact absurd hret (by decide)
  · exact (userAccess_iff.1 hacc).2.1
  · exact (userAccess_iff.1 hacc).2.1

/-! ## `do_pgfault` -/

/-- Every shared area has an object. -/
theorem areas_backed (H : w.Inv) (hi : i ∈ w.mms) : ∀ a ∈ (w.mm i).areas, a.Backed w.vm := by
  intro a ha hshare
  obtain ⟨o, ho⟩ := Option.ne_none_iff_exists'.1 (H.backed i hi a ha hshare)
  have hpos : 0 < w.shares o := shares_pos hi ha hshare ho
  cases hsh : w.vm.shmem o with
  | none =>
    have h1 := H.objects.gone o hsh
    omega
  | some sh => exact ⟨o, sh, ho, hsh, H.objects.ok o sh hsh⟩

/-- A fault changes no other entry. -/
theorem faulted_dirs {a : Vma} {d addr : ℕ} {ret : ℤ} {s s' : Vm} (hf : Faulted a d addr ret s s')
    {e k j : ℕ} (hne : (Owner.dir e k, j) ≠ userSlot d addr) :
    s'.slots (.dir e k, j) = s.slots (.dir e k, j) := by
  by_cases hret : ret = 0
  · obtain ⟨p, hp, -⟩ := hf.done hret
    rw [hp, Function.update_of_ne hne]
  · exact (hf.fail hret).1 e k j

/-- A fault makes and destroys no object. -/
theorem faulted_objects {a : Vma} {addr : ℕ} {ret : ℤ} {s s' : Vm}
    (hf : Faulted a i addr ret s s') : SameObjects s s' := by
  intro o
  rcases hf.shmem with h | ⟨q, sh, sh', -, -, hq, h, -⟩
  · rw [h]
  · rw [h]
    by_cases hoq : o = q
    · rw [hoq, Function.update_self, hq]
      exact iff_of_false (Option.some_ne_none _) (Option.some_ne_none _)
    · rw [Function.update_of_ne hoq]

/-- A fault in an area does not change the numbers of sharers. -/
theorem of_faulted (H : w.Inv) (hi : i ∈ w.mms) {a : Vma} (ha : a ∈ (w.mm i).areas) {addr : ℕ}
    (hhas : a.Has addr) {mm : Mm} (Hm : mm.Inv) (hareas : mm.areas = (w.mm i).areas)
    (hp : mm.pgdir = i) {ret : ℤ} {vm : Vm} (hf : Faulted a i addr ret w.vm vm) :
    ((w.set i mm vm).Inv ∧ Kept w (w.set i mm vm)) ∧ SameBut i w.vm vm := by
  have hdirs : ∀ e k j, (Owner.dir e k, j) ≠ userSlot i addr →
      vm.slots (.dir e k, j) = w.vm.slots (.dir e k, j) := fun e k j hne => faulted_dirs hf hne
  have hbut : SameBut i w.vm vm := fun e he k j =>
    hdirs e k j fun h => he (dir_of_eq_userSlot h)
  have hsame : SameObjects w.vm vm := faulted_objects hf
  have hobj : vm.Objects w.shares := by
    rcases hf.shmem with h | ⟨q, sh, sh', hshare, haq, hq, h, hok, href, -⟩
    · exact H.objects.congr h hf.shmemPool
    · -- only the object of the area is touched, which is not unused
      have hpos : 0 < w.shares q := shares_pos hi ha hshare haq
      have O := H.objects
      refine O.update h (fun _ _ => rfl) hok ?_ (fun hzero => ?_) ?_ ?_
      · rw [href]
        exact O.ref q sh hq
      · omega
      · rw [hf.shmemPool]
        exact O.live q sh hq
      · rw [hf.shmemPool]
  refine ⟨⟨?_, ?_⟩, hbut⟩
  · refine H.set hi Hm hp hf.good hbut ?_ ?_ ?_
    · intro la hla
      rw [hareas]
      by_cases hx : userSlot i la = userSlot i addr
      · exact ⟨a, ha, hhas.page ((H.mm i hi).area_valid ha) (userSlot_inj.1 hx).2.symm⟩
      · refine H.covered i hi la ?_
        rw [← hla]
        exact congrArg Pte.present (hdirs _ _ _ hx).symm
    · rw [hareas, ← shares_eq hi]
      exact hobj
    · rw [hareas]
      exact H.backed i hi
  · refine Kept.of_same hsame fun o => ?_
    rw [shares_set hi, shares_eq hi, hareas]

/-- `do_pgfault`. -/
theorem doPgfault (H : w.Inv) (hi : i ∈ w.mms) (errorCode addr : ℕ) :
    Ucore.doPgfault (w.mm i) errorCode addr w.vm = .error .assertion ∨
    ∃ ret mm vm, Ucore.doPgfault (w.mm i) errorCode addr w.vm = .ok (ret, mm, vm) ∧
      ((w.set i mm vm).Inv ∧ Kept w (w.set i mm vm)) ∧ SameBut i w.vm vm := by
  have Hi := H.mm i hi
  have hpi := H.pgdir i hi
  rcases doPgfault_spec Hi H.good (H.areas_backed hi) errorCode addr with
    ⟨mm, Hm, ha, hp, -, hrun⟩ | ⟨a, ha, hhas,
      ⟨hrun, -⟩ | ⟨ret, mm, vm, Hm, hareas, hp, -, hrun, hf⟩⟩
  · refine .inr ⟨_, _, _, hrun, H.setMm hi Hm (hp.trans hpi) (fun a h => ha ▸ h)
      (fun o => by rw [ha]) ?_, fun _ _ _ _ => rfl⟩
    rw [ha]
    exact H.backed i hi
  · exact .inl hrun
  · rw [hpi] at hf
    exact .inr ⟨ret, mm, vm, hrun, H.of_faulted hi ha hhas Hm hareas (hp.trans hpi) hf⟩

/-- After a fault that was served the entry permits the access. -/
theorem permits_of_faulted {a : Vma} {d addr errorCode : ℕ} {write : Bool} {s s' : Vm}
    (hrun : faultIn a d errorCode addr s = .ok (0, s')) (hf : Faulted a d addr 0 s s')
    (hcode : write = true → 2 ≤ errorCode % 4) :
    (s'.slots (userSlot d addr)).permits write = true := by
  obtain ⟨p, hp, -⟩ := hf.done rfl
  have hslot : s'.slots (userSlot d addr) = ⟨p, true, ⟨a.vmFlags.write, true⟩⟩ :=
    (hp d (pdx addr) (ptx addr)).trans (Function.update_self ..)
  have hallow : faultAllowed a.vmFlags errorCode = true := by
    by_contra h
    rw [Bool.not_eq_true] at h
    simp only [faultIn, h, Bool.not_false, if_true, Except.ok.injEq, Prod.mk.injEq] at hrun
    exact absurd hrun.1 (by decide)
  rw [hslot, Pte.permits]
  cases write with
  | false => rfl
  | true =>
    have h2 := hcode rfl
    rw [faultAllowed] at hallow
    have hlt : errorCode % 4 < 4 := Nat.mod_lt _ (by decide)
    have h3 : errorCode % 4 = 2 ∨ errorCode % 4 = 3 := by omega
    rcases h3 with h3 | h3
    · rw [h3] at hallow
      exact hallow
    · rw [h3] at hallow
      exact hallow

theorem errorCode_write (e : Pte) : 2 ≤ e.errorCode true % 4 := by
  simp only [Pte.errorCode, if_true]
  split <;> decide

/-- A user access returns or stops at an assertion, and one that may be made again does not fault
again. -/
theorem access (H : w.Inv) (hi : i ∈ w.mms) (addr : ℕ) (write : Bool) :
    w.access i addr write = .error .assertion ∨
    ∃ ret w₁, w.access i addr write = .ok (ret, w₁) ∧ w₁.Inv ∧ Kept w w₁ ∧ i ∈ w₁.mms ∧
      SameBut i w.vm w₁.vm ∧ (ret = 0 → (w₁.vm.lookup (w₁.mm i).pgdir addr).permits write =
      true) := by
  simp only [World.access, getMm_mem hi, Res.ok_bind]
  by_cases hperm : (w.vm.lookup (w.mm i).pgdir addr).permits write = true
  · rw [if_pos hperm]
    exact .inr ⟨0, w, rfl, H, Kept.of_same (fun _ => Iff.rfl) fun _ => le_rfl, hi,
      fun _ _ _ _ => rfl, fun _ => hperm⟩
  · rw [if_neg hperm]
    have Hi := H.mm i hi
    have hpi := H.pgdir i hi
    set errorCode := (w.vm.lookup (w.mm i).pgdir addr).errorCode write with hcode
    rcases doPgfault_spec Hi H.good (H.areas_backed hi) errorCode addr with
      ⟨mm, Hm, ha, hp, -, hrun⟩ | ⟨a, ha, hhas, ⟨hrun, -⟩ |
        ⟨ret, mm, vm, Hm, hareas, hp, hin, hrun, hf⟩⟩
    · obtain ⟨H₁, hkept⟩ := H.setMm hi Hm (hp.trans hpi) (fun a h => ha ▸ h)
        (fun o => by rw [ha]) (by rw [ha]; exact H.backed i hi)
      refine .inr ⟨-eInval, w.set i mm w.vm, ?_, H₁, hkept, hi, fun _ _ _ _ => rfl,
        fun h => absurd h (by decide)⟩
      rw [hrun]
      rfl
    · left
      rw [hrun]
      rfl
    · rw [hpi] at hf hin
      obtain ⟨⟨H₁, hkept⟩, hbut⟩ := H.of_faulted hi ha hhas Hm hareas (hp.trans hpi) hf
      refine .inr ⟨ret, w.set i mm vm, ?_, H₁, hkept, hi, hbut, fun hret => ?_⟩
      · rw [hrun]
        rfl
      · rw [H₁.pgdir i hi]
        subst hret
        exact permits_of_faulted hin hf (fun hw => by
          rw [hcode, hw]
          exact errorCode_write _)

/-! ## `dup_mmap`, `exit_mmap` and `mm_destroy` -/

/-- `dup_mmap` into a new address space. -/
theorem dupMmap (H : w.Inv) (hi : i ∈ w.mms) (script : List (Option ℕ)) :
    ∃ ret mm vm as cs, Ucore.dupMmap vmBackend (w.newMm script) (w.mm i) w.vm = .ok (ret, mm, vm) ∧
      ((w.add mm vm).Inv ∧ Kept w (w.add mm vm) ∧ SameNodes w.vm vm) ∧ (w.mm i).areas = as ++ cs ∧
      mm.areas = cs.map Vma.dup ∧ Duped w.next i cs w.vm vm ∧
      (ret = 0 ∧ as = [] ∧ (∀ c ∈ cs, ∀ la, c.Has la →
        CopiedAt w.next i c.vmFlags.share la w.vm vm) ∨ ret = -eNoMem) := by
  have Hi := H.mm i hi
  have hpi := H.pgdir i hi
  have hne : w.next ≠ (w.mm i).pgdir := by
    rw [hpi]
    exact fun h => Nat.lt_irrefl _ (h ▸ H.lt i hi)
  have hfresh : ∀ k j, w.vm.slots (.dir w.next k, j) = Pte.zero := H.fresh w.next le_rfl
  obtain ⟨ret, mm, vm, as, cs, hrun, Hm, hp, hareas, hcopy, hdup, hsame, O, hres, hnodes⟩ :=
    dup_effect H.good H.objects Hi ⟨∅, script⟩ hne (fun a ha hshare => by
      obtain ⟨o, ho⟩ := Option.ne_none_iff_exists'.1 (H.backed i hi a ha hshare)
      exact ⟨o, ho, shares_pos hi ha hshare ho⟩) hfresh
  rw [hpi] at hdup hres
  suffices hadd : (w.add mm vm).Inv ∧ Kept w (w.add mm vm) from
    ⟨ret, mm, vm, as, cs, hrun, ⟨hadd.1, hadd.2, hnodes⟩, hareas, hcopy, hdup, hres⟩
  refine H.add Hm hp hdup.good ?_ ?_ ?_ hsame ?_
  · -- entries of the source lose at most their permission to write
    intro e he k j
    rcases hdup.source he k j with hsame | ⟨c, -, la, -, heq, -, hcopy⟩
    · rw [hsame]
    · rw [heq, hcopy, Pte.protect_target]
  · intro la hla
    by_contra hno
    have hx : ∀ c ∈ cs, ∀ lb, c.Has lb → (Owner.dir w.next (pdx la), ptx la) ≠ userSlot w.next lb ∧
        (Owner.dir w.next (pdx la), ptx la) ≠ userSlot i lb := by
      intro c hc lb hlb
      constructor
      · intro h
        have hval : c.Valid := Hi.area_valid (by rw [hareas]; exact List.mem_append_right _ hc)
        refine hno ⟨c.dup, by rw [hcopy]; exact List.mem_map_of_mem hc, ?_⟩
        have hhas := hlb.page hval (userSlot_inj.1 h).2.symm
        rw [Vma.Has, Vma.dup_start, Vma.dup_end]
        exact hhas
      · intro h
        have h1 := dir_of_eq_userSlot h
        rw [hpi] at hne
        exact hne h1
    have hsame := hdup.other _ _ _ hx
    rw [show vm.slots (userSlot w.next la) = _ from hsame, hfresh] at hla
    cases hla
  · rw [hcopy]
    exact O
  · intro b hb hshare
    rw [hcopy] at hb
    obtain ⟨c, hc, rfl⟩ := List.mem_map.1 hb
    rw [Vma.dup_flags] at hshare
    rw [Vma.dup, if_pos hshare]
    exact H.backed i hi c (by rw [hareas]; exact List.mem_append_right _ hc) hshare

/-- `exit_mmap`. -/
theorem exitMmap (H : w.Inv) (hi : i ∈ w.mms) :
    ∃ vm₁ vm, Ucore.exitMmap vmBackend (w.mm i) w.vm = .ok vm ∧
      ((w.set i (w.mm i) vm).Inv ∧ Kept w (w.set i (w.mm i) vm)) ∧ Rest w.vm vm₁ ∧
      (∀ k j, vm₁.slots (.dir i k, j) = Pte.zero) ∧
      (∀ x, (∀ k, x.1 ≠ .dir i k) → vm₁.slots x = w.vm.slots x) ∧
      Exited i (w.mm i).areas vm₁ vm ∧
      unmapAll (w.mm i) w.vm = .ok vm₁ ∧ exitAll (w.mm i) vm₁ = .ok vm := by
  have Hi := H.mm i hi
  have hpi := H.pgdir i hi
  obtain ⟨vm₁, vm, ⟨hun, hall⟩, H₁, hrest, hempty, hother, hexit⟩ := exitAreas_effect H.good Hi (by
    rw [hpi]
    exact H.covered i hi)
  rw [hpi] at hempty hother hexit
  refine ⟨vm₁, vm, ?_, ⟨H.set hi Hi hpi hexit.good ?_ ?_ ?_ (H.backed i hi), ?_⟩, hrest, hempty,
    hother, hexit, hun, hall⟩
  · rw [exitMmap_eq, hun, Res.ok_bind, hall]
  · intro e he k j
    rw [hexit.slots]
    exact hother _ fun k' h => he (Owner.dir.inj h).1
  · intro la hla
    rw [hexit.slots, userSlot, hempty] at hla
    cases hla
  · rw [← shares_eq hi]
    exact H.objects.congr (hexit.shmem.trans hrest.shmem) (hexit.shmemPool.trans hrest.shmemPool)
  · refine Kept.of_same (fun o => ?_) fun o => ?_
    · show vm.shmem o = none ↔ _
      rw [hexit.shmem, hrest.shmem]
    · rw [shares_set hi, ← shares_eq hi]

/-- `mm_destroy`. -/
theorem mmDestroy (H : w.Inv) (hi : i ∈ w.mms) : ∃ mm vm,
    Ucore.mmDestroy vmBackend (w.mm i) w.vm = .ok (mm, vm) ∧
    (({ w with mms := w.mms.erase i, vm := vm } : World).Inv ∧
      Kept w { w with mms := w.mms.erase i, vm := vm } ∧ SameNodes w.vm vm) ∧ SameDirs w.vm vm ∧
      vm.mem = w.vm.mem ∧ vm.pgdir = w.vm.pgdir := by
  obtain ⟨mm, heff⟩ := mmDestroy_effect vmBackend (w.mm i)
  have O := H.objects
  rw [shares_eq hi] at O
  obtain ⟨vm, hfold, Hg, O', hmem, hpgdir, hdirs, hdrop, hnodes⟩ :=
    releaseAreas_spec (w.mm i).areas H.good O
    (H.backed i hi)
  have hsub : ∀ j ∈ w.mms.erase i, j ∈ w.mms := fun j hj => Finset.mem_of_mem_erase hj
  refine ⟨mm, vm, ?_, ⟨⟨fun j hj => H.mm j (hsub j hj), fun j hj => H.pgdir j (hsub j hj),
    fun j hj => H.lt j (hsub j hj), Hg, ?_, ?_, O', fun j hj => H.backed j (hsub j hj)⟩, ?_,
    hnodes⟩, hdirs, hmem, hpgdir⟩
  · rw [heff, hfold]
    rfl
  · exact fun d hd k j => (hdirs d k j).trans (H.fresh d hd k j)
  · intro j hj la hla
    refine H.covered j (hsub j hj) la ?_
    rw [← hla]
    exact congrArg Pte.present (hdirs _ _ _).symm
  · refine Kept.of_drops ?_
    rw [shares_eq hi]
    exact hdrop

/-! ## `shmem_create` and the allocators -/

/-- `shmem_create`. -/
theorem shmemCreate (H : w.Inv) (len : ℕ) : ∃ o vm, Ucore.shmemCreate len w.vm = (o, vm) ∧
    (({ w with vm := vm } : World).Inv ∧ Kept w { w with vm := vm }) ∧ vm.slots = w.vm.slots := by
  rw [Ucore.shmemCreate]
  rcases htake : w.vm.shmemPool.take with ⟨_ | o, pool⟩
  · exact ⟨none, _, rfl, H.setVm (Inv.transfer H.good rfl rfl rfl) rfl rfl
      (Pool.take_none_live htake), rfl⟩
  · obtain ⟨hfresh, hlive⟩ := Pool.take_some htake
    have O := H.objects
    have ho : w.vm.shmem o = none := by
      cases h : w.vm.shmem o with
      | none => rfl
      | some sh => exact absurd (O.live o sh h) hfresh
    set vm : Vm := { w.vm with shmemPool := pool }.setShmem o (some ⟨[], none, len, 0⟩) with hvm
    have hself : vm.shmem o = some ⟨[], none, len, 0⟩ := Function.update_self ..
    have hother : ∀ q, q ≠ o → vm.shmem q = w.vm.shmem q := fun q hq => Function.update_of_ne hq ..
    have hT : vm.tableOf = w.vm.tableOf := by
      funext x
      by_cases hx : ∃ m, x = .node o m
      · obtain ⟨m, rfl⟩ := hx
        rw [tableOf_node hself, tableOf_node_none ho, if_neg List.not_mem_nil]
      · exact tableOf_setShmem_of_ne _ fun m hm => hx ⟨m, hm⟩
    have hg : vm.Good ∅ := by
      rw [Good, hT]
      exact Inv.transfer H.good rfl rfl rfl
    have hslots : vm.slots = w.vm.slots := by
      rw [slots, hT]
      rfl
    have hok : (⟨[], none, len, 0⟩ : Shmem).Ok := ⟨List.nodup_nil,
      fun m hm => absurd hm (Option.some_ne_none m).symm, fun m hm => absurd hm List.not_mem_nil⟩
    have O' : vm.Objects w.shares := by
      refine O.update rfl (fun _ _ => rfl) hok ?_ (fun _ => rfl) ?_ ?_
      · show (0 : ℤ) = (w.shares o : ℤ)
        rw [O.gone o ho]
        rfl
      · show o ∈ pool.live
        rw [hlive]
        exact Finset.mem_insert_self _ _
      · show w.vm.shmemPool.live ⊆ pool.live
        rw [hlive]
        exact Finset.subset_insert _ _
    refine ⟨some o, vm, rfl, ⟨⟨H.mm, H.pgdir, H.lt, hg, ?_, ?_, O', H.backed⟩, ?_⟩, hslots⟩
    · show ∀ d, w.next ≤ d → ∀ k j, vm.slots _ = _
      rw [hslots]
      exact H.fresh
    · show ∀ i ∈ w.mms, ∀ la, (vm.slots _).present = true → _
      rw [hslots]
      exact H.covered
    · intro q shq hq
      have hqo : q ≠ o := by
        rintro rfl
        rw [ho] at hq
        cases hq
      show vm.shmem q = none ↔ 0 < w.shares q ∧ w.shares q = 0
      rw [hother q hqo, hq]
      exact iff_of_false (Option.some_ne_none _) fun h => Nat.pos_iff_ne_zero.1 h.1 h.2

/-- What the allocators will answer does not matter. -/
theorem supply (H : w.Inv) (frames objects nodes : List (Option ℕ)) :
    ({ w with vm := { w.vm with
      frames := { w.vm.frames with script := frames }
      shmemPool := { w.vm.shmemPool with script := objects }
      shmnPool := { w.vm.shmnPool with script := nodes } } } : World).Inv ∧
    Kept w { w with vm := { w.vm with
      frames := { w.vm.frames with script := frames }
      shmemPool := { w.vm.shmemPool with script := objects }
      shmnPool := { w.vm.shmnPool with script := nodes } } } := by
  refine H.setVm ?_ rfl rfl rfl
  have Hg := H.good
  exact ⟨Hg.unique, Hg.tables, Hg.finite, Hg.index, Hg.absent, Hg.ref, Hg.used, Hg.spare, Hg.live⟩

end Inv

/-! ## All operations -/

variable {w : World} {op : Op}

/-- **Every operation keeps the invariant**, unless `mm_unmap` cuts a hole into a shared area.  It
returns, or `do_pgfault` stops at an assertion. -/
theorem Inv.step (H : w.Inv) (hcut : ¬ CutsShared w op) (hptr : Pointers w op) :
    (w.step op = .error .assertion ∧ op.faults = true) ∨
    ∃ ret w', w.step op = .ok (ret, w') ∧ w'.Inv ∧ Kept w w' := by
  cases op with
  | mmCreate script =>
    right
    obtain ⟨H', hkept⟩ := H.add (mmCreate_inv w.next ⟨∅, script⟩) rfl H.good (fun _ _ _ _ => rfl)
      (fun la hla => by rw [userSlot, H.fresh w.next le_rfl] at hla; cases hla) H.objects
      (fun _ => Iff.rfl) (fun a ha => absurd ha List.not_mem_nil)
    exact ⟨_, _, rfl, H', hkept⟩
  | shmemCreate len =>
    right
    obtain ⟨o, vm, hrun, ⟨H', hkept⟩, -⟩ := H.shmemCreate len
    simp only [World.step, hrun]
    cases o with
    | none => exact ⟨_, _, rfl, H', hkept⟩
    | some o => exact ⟨_, _, rfl, H', hkept⟩
  | mmMap i addr len flags =>
    right
    obtain ⟨ret, v, mm, hrun, ⟨H', hkept⟩, -⟩ := H.mmMap hptr addr len flags
    simp only [World.step, getMm_mem hptr, hrun, Res.ok_bind]
    exact ⟨_, _, rfl, H', hkept⟩
  | mmMapShmem i addr flags shmem =>
    right
    obtain ⟨ret, mm, vm, hrun, ⟨H', hkept, -⟩, -⟩ := H.mmMapShmem hptr.1 addr flags shmem hptr.2
    simp only [World.step, getMm_mem hptr.1, hrun, Res.ok_bind]
    exact ⟨_, _, rfl, H', hkept⟩
  | mmUnmap i addr len =>
    right
    obtain ⟨ret, mm, vm, hrun, ⟨H', hkept, -⟩, -⟩ := H.mmUnmap hptr addr len hcut rfl rfl
    simp only [World.step, getMm_mem hptr, hrun, Res.ok_bind]
    exact ⟨_, _, rfl, H', hkept⟩
  | pgfault i errorCode addr =>
    rcases H.doPgfault hptr errorCode addr with hrun | ⟨ret, mm, vm, hrun, ⟨H', hkept⟩, -⟩
    · left
      refine ⟨?_, rfl⟩
      simp only [World.step, getMm_mem hptr, hrun, Res.ok_bind]
      rfl
    · right
      simp only [World.step, getMm_mem hptr, hrun, Res.ok_bind]
      exact ⟨_, _, rfl, H', hkept⟩
  | dupMmap src script =>
    right
    obtain ⟨ret, mm, vm, as, cs, hrun, ⟨H', hkept, -⟩, -⟩ := H.dupMmap hptr script
    simp only [World.step, getMm_mem hptr, hrun, Res.ok_bind]
    exact ⟨_, _, rfl, H', hkept⟩
  | exitMmap i =>
    right
    obtain ⟨vm₁, vm, hrun, ⟨H', hkept⟩, -⟩ := H.exitMmap hptr
    simp only [World.step, getMm_mem hptr, hrun, Res.ok_bind]
    exact ⟨_, _, rfl, H', hkept⟩
  | mmDestroy i =>
    right
    obtain ⟨mm, vm, hrun, ⟨H', hkept, -⟩, -⟩ := H.mmDestroy hptr
    simp only [World.step, getMm_mem hptr, hrun, Res.ok_bind]
    exact ⟨_, _, rfl, H', hkept⟩
  | read i addr =>
    rcases H.access hptr addr false with hrun | ⟨ret, w₁, hrun, H₁, hkept, hi, -, hperm⟩
    · left
      refine ⟨?_, rfl⟩
      simp only [World.step, userRead, hrun]
      rfl
    · right
      by_cases hret : ret = 0
      · simp only [World.step, userRead, hrun, Res.ok_bind, hret, ne_eq, not_true_eq_false,
          if_false, retry, getMm_mem hi, if_pos (hperm hret), Res.pure_eq]
        exact ⟨_, _, rfl, H₁, hkept⟩
      · simp only [World.step, userRead, hrun, Res.ok_bind, ne_eq, hret, not_false_eq_true, if_true]
        exact ⟨_, _, rfl, H₁, hkept⟩
  | write i addr b =>
    rcases H.access hptr addr true with hrun | ⟨ret, w₁, hrun, H₁, hkept, hi, -, hperm⟩
    · left
      refine ⟨?_, rfl⟩
      simp only [World.step, userWrite, hrun]
      rfl
    · right
      by_cases hret : ret = 0
      · simp only [World.step, userWrite, hrun, Res.ok_bind, hret, ne_eq, not_true_eq_false,
          if_false, retry, getMm_mem hi, if_pos (hperm hret), Res.pure_eq]
        have hg : (w₁.vm.setByte (w₁.vm.lookup (w₁.mm i).pgdir addr).frame
            (addr % pgSize) b).Good ∅ :=
          Inv.transfer H₁.good rfl rfl rfl
        exact ⟨_, _, rfl, (H₁.setVm hg rfl rfl rfl).1, hkept⟩
      · simp only [World.step, userWrite, hrun, Res.ok_bind, ne_eq, hret, not_false_eq_true,
          if_true]
        exact ⟨_, _, rfl, H₁, hkept⟩
  | supply frames objects nodes =>
    right
    obtain ⟨H', hkept⟩ := H.supply frames objects nodes
    exact ⟨_, _, rfl, H', hkept⟩
  | supplyMm i script =>
    right
    obtain ⟨H', hkept⟩ := H.setMm hptr ((H.mm i hptr).kmalloc script) (H.pgdir i hptr)
      (fun _ h => h) (fun _ => rfl) (H.backed i hptr)
    simp only [World.step, getMm_mem hptr, Res.ok_bind]
    exact ⟨_, _, rfl, H', hkept⟩
  | scribble page contents =>
    right
    have hp : page ∉ w.vm.frames.live := hptr
    have hg : ({ w.vm with mem := Function.update w.vm.mem page contents } : Vm).Good ∅ :=
      Inv.transfer H.good rfl rfl rfl
    obtain ⟨H', hkept⟩ := H.setVm hg rfl rfl rfl
    simp only [World.step, if_neg hp]
    exact ⟨_, _, rfl, H', hkept⟩

/-- A read that has returned is an access. -/
theorem userRead_cases {i addr : ℕ} {ret : Ret} {w' : World}
    (h : w.userRead i addr = .ok (ret, w')) : ∃ r, w.access i addr false = .ok (r, w') := by
  obtain ⟨⟨r, w₁⟩, hacc, h⟩ := Res.bind_eq_ok.1 h
  by_cases hr : r ≠ 0
  · simp only [if_pos hr] at h
    cases h
    exact ⟨r, hacc⟩
  · simp only [if_neg hr] at h
    obtain ⟨e, -, h⟩ := Res.bind_eq_ok.1 h
    cases h
    exact ⟨r, hacc⟩

/-- A write that has returned is an access, after which a byte may be set. -/
theorem userWrite_cases {i addr : ℕ} {b : UInt8} {ret : Ret} {w' : World}
    (h : w.userWrite i addr b = .ok (ret, w')) :
    ∃ r w₁, w.access i addr true = .ok (r, w₁) ∧
      (w' = w₁ ∨ ∃ p, w' = { w₁ with vm := w₁.vm.setByte p (addr % pgSize) b }) := by
  obtain ⟨⟨r, w₁⟩, hacc, h⟩ := Res.bind_eq_ok.1 h
  by_cases hr : r ≠ 0
  · simp only [if_pos hr] at h
    cases h
    exact ⟨r, _, hacc, .inl rfl⟩
  · simp only [if_neg hr] at h
    obtain ⟨e, -, h⟩ := Res.bind_eq_ok.1 h
    cases h
    exact ⟨r, w₁, hacc, .inr ⟨e.frame, rfl⟩⟩

/-- An operation that has returned was given pointers to something. -/
theorem pointers_of_step {r : Ret × World} (h : w.step op = .ok r) : Pointers w op := by
  have hmm : ∀ {i : ℕ} {α : Type} {f : Mm → Res α} {b : α}, (w.getMm i >>= f) = .ok b →
      i ∈ w.mms := by
    intro i α f b hb
    obtain ⟨mm, hmm, -⟩ := Res.bind_eq_ok.1 hb
    exact mem_of_getMm hmm
  have haccess : ∀ {i addr : ℕ} {write : Bool} {f : ℤ × World → Res (Ret × World)}
      {b : Ret × World}, (w.access i addr write >>= f) = .ok b → i ∈ w.mms := by
    intro i addr write f b hb
    obtain ⟨x, hx, -⟩ := Res.bind_eq_ok.1 hb
    exact hmm hx
  cases op with
  | mmCreate script => trivial
  | shmemCreate len => trivial
  | mmMap i addr len flags => exact hmm h
  | mmMapShmem i addr flags shmem =>
    refine ⟨hmm h, ?_⟩
    rintro o rfl haddr ho
    obtain ⟨mm, -, h⟩ := Res.bind_eq_ok.1 h
    obtain ⟨x, hx, -⟩ := Res.bind_eq_ok.1 h
    have hinc : vmBackend.shmemRefInc (some o) w.vm = .error .memory := by
      show shmemRefInc (some o) w.vm = _
      simp only [shmemRefInc, getShmem, ho, Option.elim_none]
      rfl
    simp only [Ucore.mmMapShmem, haddr, ne_eq, not_true_eq_false, if_false, hinc] at hx
    cases hx
  | mmUnmap i addr len => exact hmm h
  | pgfault i errorCode addr => exact hmm h
  | dupMmap src script => exact hmm h
  | exitMmap i => exact hmm h
  | mmDestroy i => exact hmm h
  | read i addr => exact haccess h
  | write i addr b => exact haccess h
  | supply frames objects nodes => trivial
  | supplyMm i script => exact hmm h
  | scribble page contents =>
    intro hp
    rw [World.step, if_pos hp] at h
    cases h

/-- The same for an operation that is known to have returned. -/
theorem Inv.step_ok (H : w.Inv) (hcut : ¬ CutsShared w op) {ret : Ret} {w' : World}
    (h : w.step op = .ok (ret, w')) : w'.Inv ∧ Kept w w' := by
  rcases H.step hcut (pointers_of_step h) with ⟨herr, -⟩ | ⟨ret', w'', hrun, H', hkept⟩
  · rw [herr] at h
    cases h
  · rw [hrun, Except.ok.injEq, Prod.mk.injEq] at h
    obtain ⟨rfl, rfl⟩ := h
    exact ⟨H', hkept⟩

/-- **Every state of a run has the invariant.** -/
theorem Run.inv {ok : World → Op → Prop} (hok : ∀ w op, ok w op → ¬ CutsShared w op)
    {ops : List (Op × Ret)} (h : Run ok ops w) : w.Inv := by
  induction h with
  | init => exact Inv.init
  | step _ hop hstep ih => exact (ih.step_ok (hok _ _ hop) hstep).1

end World

end Ucore
