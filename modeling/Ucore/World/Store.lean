import Ucore.World.Step
import Ucore.Pmm.Store

/-!
# Sequences of `shmem_get_entry`

An object is created in any state of the kernel, and then entries of it are asked for in any order,
with and without creation, while the allocators may fail at any time.  `shmem_store` says that the
object is a map from pages to entries throughout: the place of an entry depends on the page only,
and an entry that is not 0 stays what it is.

* `Gets` are such sequences, with what the calls have returned.
* `Vm.Mapped` is what holds of the object throughout, and `Vm.Mapped.call` is the step: it is
  `shmemGetEntry_store` with the invariant of the frames, which says in addition that the frame in a
  new entry is one that no other entry refers to.
* `Gets.mapped` is the induction.  A place that was returned once is still the place of its address
  (`Shmem.Place`), since nodes are never taken off an object that is in use.
* `Vm.Mapped.place_iff` — two addresses have the same place exactly if they are on the same page.

The cache of the object is a part of the state here, and `shmemGetEntry_cache` has shown that it
makes no difference.
-/

set_option autoImplicit false

namespace Ucore

open Vm

/-- Calls of `shmem_get_entry` on the object `o`, with what they have returned, the last one
first. -/
inductive Gets (o : ℕ) (s : Vm) : List (ℕ × Bool × Option (ℕ × ℕ)) → Vm → Prop
  | nil : Gets o s [] s
  | call {calls : List (ℕ × Bool × Option (ℕ × ℕ))} {s₁ s₂ : Vm} {addr : ℕ} {create : Bool}
      {ret : Option (ℕ × ℕ)} (gets : Gets o s calls s₁)
      (hget : shmemGetEntry (some o) addr create s₁ = .ok (ret, s₂)) :
      Gets o s ((addr, create, ret) :: calls) s₂

/-- What holds of the object throughout. -/
structure Vm.Mapped (o len : ℕ) (sh : Shmem) (s : Vm) : Prop where
  good : s.Good ∅
  object : s.shmem o = some sh
  ok : sh.Ok
  store : sh.Store
  len : sh.len = len
  frames : ∀ m i m' i' p, (s.slots (.node o m, i)).target = some p →
    (s.slots (.node o m', i')).target = some p → m = m' ∧ i = i'

section Gets

variable {o len : ℕ} {s s' : Vm} {sh : Shmem}

/-- A new entry refers to a frame that no other entry refers to. -/
theorem Vm.Filled.frames {x : Owner × ℕ} (h : Filled x s s') {m m' : Shmn} {i i' p : ℕ}
    (hold : ∀ m i m' i' p, (s.slots (.node o m, i)).target = some p →
      (s.slots (.node o m', i')).target = some p → m = m' ∧ i = i')
    (hp : (s'.slots (.node o m, i)).target = some p)
    (hp' : (s'.slots (.node o m', i')).target = some p) : m = m' ∧ i = i' := by
  rcases h with h | ⟨-, q, hq, h⟩
  · rw [h] at hp hp'
    exact hold m i m' i' p hp hp'
  · rw [h] at hp hp'
    by_cases hx : (Owner.node o m, i) = x
    · by_cases hx' : (Owner.node o m', i') = x
      · have heq := hx.trans hx'.symm
        simp only [Prod.mk.injEq, Owner.node.injEq, true_and] at heq
        exact heq
      · rw [hx, Function.update_self] at hp
        rw [Function.update_of_ne hx'] at hp'
        cases hp
        exact absurd hp' (hq _)
    · by_cases hx' : (Owner.node o m', i') = x
      · rw [Function.update_of_ne hx] at hp
        rw [hx', Function.update_self] at hp'
        cases hp'
        exact absurd hp (hq _)
      · rw [Function.update_of_ne hx] at hp
        rw [Function.update_of_ne hx'] at hp'
        exact hold m i m' i' p hp hp'

/-- The place of the entry for an address. -/
def Shmem.Place (sh : Shmem) (addr : ℕ) (ptep : ℕ × ℕ) : Prop :=
  ∃ m ∈ sh.shmnList, m.covers addr = true ∧ ptep = (m.entry, addr / pgSize % shmnNentry)

/-- **One call.** -/
theorem Vm.Mapped.call (h : Mapped o len sh s) (hlen : len ≤ userTop) {addr : ℕ}
    (haddr : addr < len)
    (create : Bool) : ∃ ret s' sh', shmemGetEntry (some o) addr create s = .ok (ret, s') ∧
      Mapped o len sh' s' ∧ (∀ m ∈ sh.shmnList, m ∈ sh'.shmnList) ∧
      (∀ ptep, ret = some ptep → sh'.Place addr ptep) ∧
      (∀ x, s.slots x ≠ Pte.zero → s'.slots x = s.slots x) ∧
      (create = false → sh'.shmnList = sh.shmnList ∧ s'.table = s.table) := by
  obtain ⟨s', sh', hget, hst, hslots, hfind⟩ := shmemGetEntry_store h.good h.object h.ok h.store
    (by rw [h.len]; exact haddr) (by omega) create
  have hobj : s'.shmem o = some sh' := by rw [hst.shmem, Function.update_self]
  have hkeep : (∀ x, s.slots x ≠ Pte.zero → s'.slots x = s.slots x) ∧
      ∀ m i m' i' p, (s'.slots (.node o m, i)).target = some p →
        (s'.slots (.node o m', i')).target = some p → m = m' ∧ i = i' := by
    rcases hslots with hslots | ⟨-, m, -, hfill⟩
    · rw [hslots]
      exact ⟨fun _ _ => rfl, h.frames⟩
    · exact ⟨fun x hx => hfill.of_ne_zero hx,
        fun m i m' i' p hp hp' => hfill.frames h.frames hp hp'⟩
  refine ⟨_, s', sh', hget, ⟨hst.good, hobj, hst.ok, hst.store, hst.len.trans h.len, hkeep.2⟩,
    hst.nodes, ?_, hkeep.1, hfind⟩
  intro ptep hret
  obtain ⟨m, hm, rfl⟩ := Option.map_eq_some_iff.1 hret
  obtain ⟨hmem, hcov⟩ := Shmem.mem_of_node hm
  exact ⟨m, hmem, hcov, rfl⟩

/-- An address that is not below the length stops the call. -/
theorem Vm.Mapped.lt_of_get (h : Mapped o len sh s) {addr : ℕ} {create : Bool}
    {r : Option (ℕ × ℕ) × Vm} (hget : shmemGetEntry (some o) addr create s = .ok r) :
    addr < len := by
  simp only [shmemGetEntry, getShmem_some h.object, Res.ok_bind, assert] at hget
  by_contra hge
  rw [h.len, if_neg hge] at hget
  cases hget

/-- **Any sequence of calls.**  Every place that was returned is still the place of its address. -/
theorem Gets.mapped {calls : List (ℕ × Bool × Option (ℕ × ℕ))} (h : Gets o s calls s')
    (hs : Mapped o len sh s) (hlen : len ≤ userTop) : ∃ sh', Mapped o len sh' s' ∧
      (∀ m ∈ sh.shmnList, m ∈ sh'.shmnList) ∧
      (∀ addr create ptep, (addr, create, some ptep) ∈ calls → sh'.Place addr ptep) ∧
      ∀ x, s.slots x ≠ Pte.zero → s'.slots x = s.slots x := by
  induction h with
  | nil =>
    exact ⟨sh, hs, fun m hm => hm, fun a c p hmem => absurd hmem List.not_mem_nil, fun _ _ => rfl⟩
  | call gets hget ih =>
    obtain ⟨sh₁, hs₁, hnodes, hplaces, hkeep⟩ := ih
    obtain ⟨ret, s₂, sh₂, hget', hs₂, hnodes₂, hplace, hkeep₂, -⟩ :=
      hs₁.call hlen (hs₁.lt_of_get hget) _
    rw [hget, Except.ok.injEq, Prod.mk.injEq] at hget'
    obtain ⟨rfl, rfl⟩ := hget'
    refine ⟨sh₂, hs₂, fun m hm => hnodes₂ m (hnodes m hm), ?_, ?_⟩
    · intro a c p hmem
      rcases List.mem_cons.1 hmem with heq | hmem
      · cases heq
        exact hplace p rfl
      · obtain ⟨m, hm, hcov, hp⟩ := hplaces a c p hmem
        exact ⟨m, hnodes₂ m hm, hcov, hp⟩
    · intro x hx
      have h1 := hkeep x hx
      rw [hkeep₂ x (by rw [h1]; exact hx), h1]

/-- **The place of an entry depends on the page only**, and determines it. -/
theorem Vm.Mapped.place_iff (h : Mapped o len sh s) {a b : ℕ} {p q : ℕ × ℕ} (hp : sh.Place a p)
    (hq : sh.Place b q) : p = q ↔ a / pgSize = b / pgSize := by
  obtain ⟨m, hm, hcov, rfl⟩ := hp
  obtain ⟨m', hm', hcov', rfl⟩ := hq
  have h1 := (h.store.covers_iff hm).1 hcov
  have h2 := (h.store.covers_iff hm').1 hcov'
  rw [Prod.mk.injEq]
  constructor
  · rintro ⟨hentry, hindex⟩
    -- two nodes do not have one table
    have hT : s.tableOf (.node o m) = some m.entry := by rw [tableOf_node h.object, if_pos hm]
    have hT' : s.tableOf (.node o m') = some m.entry := by
      rw [tableOf_node h.object, if_pos hm', hentry]
    have heq := h.good.unique _ _ _ hT hT'
    rw [Owner.node.injEq] at heq
    rw [heq.2, h2] at h1
    simp only [roundDown, pgSize, shmnNentry] at *
    omega
  · intro hpage
    have hstart : m.start = m'.start := by
      rw [h1, h2]
      simp only [roundDown, pgSize, shmnNentry] at *
      omega
    rw [h.store.eq_of_start hm hm' hstart, hpage]
    exact ⟨rfl, rfl⟩

/-- A new object has no nodes. -/
theorem mapped_of_create {w : World} (H : w.Inv) {s₀ : Vm}
    (hcreate : shmemCreate len w.vm = (some o, s₀)) : Mapped o len ⟨[], none, len, 0⟩ s₀ := by
  obtain ⟨o', vm, hrun, ⟨H', -⟩, -⟩ := H.shmemCreate len
  rw [hcreate, Prod.mk.injEq] at hrun
  obtain ⟨rfl, rfl⟩ := hrun
  have hobj : s₀.shmem o = some ⟨[], none, len, 0⟩ := by
    rw [shmemCreate] at hcreate
    rcases htake : w.vm.shmemPool.take with ⟨_ | o', pool⟩
    · rw [htake] at hcreate
      cases hcreate
    · rw [htake] at hcreate
      cases hcreate
      exact Function.update_self ..
  refine ⟨H'.good, hobj, H'.objects.ok o _ hobj, ⟨?_, ?_, List.Pairwise.nil, ?_⟩, rfl, ?_⟩
  · exact fun m hm => absurd hm List.not_mem_nil
  · exact fun m hm => absurd hm List.not_mem_nil
  · exact fun m hm => absurd hm (Option.some_ne_none m).symm
  · intro m i m' i' p hp
    rw [slots, slot, tableOf_node hobj, if_neg List.not_mem_nil] at hp
    cases hp

/-- **A shared memory object is a map from pages to entries.**  The nodes are sorted, disjoint and
aligned.  Every call with an address below the length returns, and no other cache would have made it
return anything else; if it is not to create anything, no entry changes.  Two calls have returned
the same place exactly if their addresses lie in the same page.  An entry that is not 0 refers to a
frame that is in use and that no other entry of the object refers to, and it never changes. -/
theorem shmem_store {ops : List (Op × Ret)} {w : World}
    (hrun : World.Run (fun w op => ¬ World.CutsShared w op) ops w) {s₀ : Vm}
    (hcreate : shmemCreate len w.vm = (some o, s₀)) (hlen : len ≤ userTop)
    {calls : List (ℕ × Bool × Option (ℕ × ℕ))} (hgets : Gets o s₀ calls s) :
    ∃ sh, s.shmem o = some sh ∧ sh.len = len ∧
      sh.shmnList.Pairwise (fun m m' => m.stop ≤ m'.start) ∧
      (∀ m ∈ sh.shmnList, m.start % (pgSize * shmnNentry) = 0 ∧
        m.stop = m.start + pgSize * shmnNentry) ∧
      (∀ addr, addr < len → ∀ create, ∃ ret s',
        shmemGetEntry (some o) addr create s = .ok (ret, s') ∧
        (∀ c, (∀ m, c = some m → m ∈ sh.shmnList) → ∃ sh' c', s'.shmem o = some sh' ∧
          shmemGetEntry (some o) addr create (s.setShmem o (some { sh with shmnCache := c })) =
            .ok (ret, s'.setShmem o (some { sh' with shmnCache := c' }))) ∧
        (create = false → s'.table = s.table)) ∧
      (∀ addr create ptep, (addr, create, some ptep) ∈ calls → sh.Place addr ptep) ∧
      (∀ a c p b c' q, (a, c, some p) ∈ calls → (b, c', some q) ∈ calls →
        (p = q ↔ a / pgSize = b / pgSize)) ∧
      ∀ m ∈ sh.shmnList, ∀ i, s.pte (m.entry, i) ≠ Pte.zero →
        (s.pte (m.entry, i)).present = true ∧ 1 ≤ s.ref (s.pte (m.entry, i)).frame ∧
        (∀ m' ∈ sh.shmnList, ∀ i', s.pte (m'.entry, i') ≠ Pte.zero →
          (s.pte (m'.entry, i')).frame = (s.pte (m.entry, i)).frame →
          (m'.entry, i') = (m.entry, i)) ∧
        ∀ calls' s', Gets o s calls' s' → s'.pte (m.entry, i) = s.pte (m.entry, i) := by
  obtain ⟨sh, h, -, hplaces, -⟩ := hgets.mapped
    (mapped_of_create (hrun.inv fun _ _ hop => hop) hcreate) hlen
  have hT : ∀ m ∈ sh.shmnList, s.tableOf (.node o m) = some m.entry := by
    intro m hm
    rw [tableOf_node h.object, if_pos hm]
  have hpte : ∀ m ∈ sh.shmnList, ∀ i, s.pte (m.entry, i) = s.slots (.node o m, i) :=
    fun m hm i => Inv.pte_eq (hT m hm) i
  -- an entry is 0 or present
  have hpresent : ∀ x, s.slots x ≠ Pte.zero → (s.slots x).target = some (s.slots x).frame := by
    intro x hx
    cases htarget : (s.slots x).target with
    | none => exact absurd (h.good.absent x htarget) hx
    | some p => rw [(Pte.target_eq_some.1 htarget).2]
  refine ⟨sh, h.object, h.len, h.store.sorted, fun m hm => ⟨h.store.start m hm, h.store.stop m hm⟩,
    ?_, hplaces, ?_, ?_⟩
  · intro addr haddr create
    obtain ⟨ret, s', sh', hget, -, -, -, -, hfind⟩ := h.call hlen haddr create
    refine ⟨ret, s', hget, fun c hc => ?_, fun hcreate => (hfind hcreate).2⟩
    exact shmemGetEntry_cache h.object h.store hc addr create hget
  · intro a c p b c' q hp hq
    exact h.place_iff (hplaces a c p hp) (hplaces b c' q hq)
  · intro m hm i hne
    rw [hpte m hm] at hne ⊢
    have htarget := hpresent _ hne
    refine ⟨(Pte.target_eq_some.1 htarget).1, ?_, ?_, ?_⟩
    · rw [h.good.ref _ (h.good.used _ _ htarget).2.2]
      have hpos : 0 < refs (s.held s.tableOf) (s.slots (.node o m, i)).frame :=
        (refs_pos h.good.finite).2 ⟨_, htarget⟩
      omega
    · intro m' hm' i' hne' hframe
      rw [hpte m' hm'] at hne' hframe
      have htarget' := hpresent _ hne'
      rw [hframe] at htarget'
      obtain ⟨rfl, rfl⟩ := h.frames m' i' m i _ htarget' htarget
      rfl
    · intro calls' s' hgets'
      obtain ⟨sh', h', hnodes, -, hkeep⟩ := hgets'.mapped h hlen
      have hT' : s'.tableOf (.node o m) = some m.entry := by
        rw [tableOf_node h'.object, if_pos (hnodes m hm)]
      rw [Inv.pte_eq hT' i]
      exact hkeep _ hne

end Gets

/-- An object of five megabytes; the entries for two pages far apart are asked for, one of them
twice. -/
theorem shmem_store_two : ∃ (w : World) (s₀ s : Vm), shmemCreate 0x500000 w.vm = (some 7, s₀) ∧
    Gets 7 s₀ [(0x1234, false, some (20, 1)), (0x400000, true, some (22, 0)),
      (0x1000, true, some (20, 1))] s ∧
    ((20, 1) = (20, 1) ↔ 0x1234 / pgSize = 0x1000 / pgSize) ∧ 1 ≤ s.ref 21 := by
  let w : World := { World.init with vm := { World.init.vm with
    frames := ⟨∅, [some 20, some 21, some 22, some 23]⟩
    shmemPool := ⟨∅, [some 7]⟩
    shmnPool := ⟨∅, [some 1, some 2]⟩ } }
  have hrun : World.Run (fun w op => ¬ World.CutsShared w op) [_] w :=
    World.Run.init.step id (show World.init.step (.supply [some 20, some 21, some 22, some 23]
      [some 7] [some 1, some 2]) = .ok (.code 0, w) from rfl)
  have hcreate : shmemCreate 0x500000 w.vm = (some 7, _) := rfl
  have g₁ := (Gets.nil (o := 7)).call (show shmemGetEntry (some 7) 0x1000 true
    (shmemCreate 0x500000 w.vm).2 = .ok (some (20, 1), _) from rfl)
  have g₂ := g₁.call (show shmemGetEntry (some 7) 0x400000 true _ = .ok (some (22, 0), _) from rfl)
  have g₃ := g₂.call (show shmemGetEntry (some 7) 0x1234 false _ = .ok (some (20, 1), _) from rfl)
  obtain ⟨sh, hsh, -, -, -, -, -, hplace, hentry⟩ := shmem_store hrun hcreate (by decide) g₃
  have hsame := hplace 0x1234 false (20, 1) 0x1000 true (20, 1) (by decide) (by decide)
  have hnode : (⟨1, 0, 0x400000, 20⟩ : Shmn) ∈ sh.shmnList := by
    cases hsh
    exact List.mem_cons_self ..
  exact ⟨w, _, _, hcreate, g₃, hsame, (hentry _ hnode 1 (by decide)).2.1⟩

end Ucore
