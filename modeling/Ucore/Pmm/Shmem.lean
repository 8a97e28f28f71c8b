import Ucore.Pmm.Tables

/-!
# What the functions of `shmem.c` do to the entries

A shared memory object is a list of nodes, and each of them owns a table of entries.  The lemmas
here are the counterparts of those about `pmm.c`:

* `shmnDestroy_spec`, `shmemDestroy_spec` — the entries of an object are given up, with their
  tables;
* `shmemGetEntry_spec` — the entry for an offset, with a node and a frame for it if these are
  missing.

An object that is destroyed is taken apart node by node, and a node entry by entry, so in between a
table has no owner that the state shows.  This is what `T` in the invariant of `Ucore.Pmm.Inv` is
for. `shmem_remove_entry_pte` also clears entries that are not present, but these are 0 already, so
that it does what `page_remove_pte` does (`shmemRemoveEntryPte_eq`).

`shmem_get_entry` is followed part by part: `findShmn_spec` and `shmnCreate_spec` find a node or
make one, `insertShmn_spec` puts it on the list, `getShmn_spec` is both, and `fillEntry_spec` gives
the entry a frame.  Where a node goes on the list does not matter here; that the list is sorted is
shown in `Ucore.Pmm.Store`.
-/

set_option autoImplicit false

namespace Ucore

open Vm

/-- The invariant of a shared memory object. -/
structure Shmem.Ok (sh : Shmem) : Prop where
  nodup : sh.shmnList.Nodup
  cache : ∀ m, sh.shmnCache = some m → m ∈ sh.shmnList
  stop : ∀ m ∈ sh.shmnList, m.stop ≤ m.start + ptSize

section Shmem

variable {T : Owner → Option ℕ} {X : Finset ℕ} {s : Vm}

theorem getShmem_some {o : ℕ} {sh : Shmem} (h : s.shmem o = some sh) :
    getShmem (some o) s = .ok (o, sh) := by
  simp only [getShmem, h, Option.elim_some]

/-- The invariant is about frames, counts and tables only. -/
theorem Vm.Inv.transfer (H : s.Inv T X) {s' : Vm} (hf : s'.frames = s.frames) (hr : s'.ref = s.ref)
    (ht : s'.table = s.table) : s'.Inv T X := by
  refine H.congr ht hr ?_ ?_ ?_ ?_
  · rw [hf]
    exact H.tables
  · rw [hf]
    exact fun x p hp => ⟨(H.used x p hp).1, (H.used x p hp).2.1⟩
  · rw [hf]
    exact H.spare
  · rw [hf]
    intro p hp
    by_cases hX : p ∈ X
    · exact .inl hX
    · exact .inr ⟨hp, hX⟩

/-- The tables of an object are the entries of its nodes. -/
theorem tableOf_node {o : ℕ} {sh : Shmem} (h : s.shmem o = some sh) (m : Shmn) :
    s.tableOf (.node o m) = if m ∈ sh.shmnList then some m.entry else none := by
  simp only [tableOf, h, Option.any_some, decide_eq_true_eq]

theorem tableOf_node_none {o : ℕ} (h : s.shmem o = none) (m : Shmn) :
    s.tableOf (.node o m) = none := by
  simp only [tableOf, h, Option.any_none, Bool.false_eq_true, if_false]

/-- An assignment to an object changes the tables of its own nodes only. -/
theorem tableOf_setShmem_of_ne {o : ℕ} (v : Option Shmem) {x : Owner} (hx : ∀ m, x ≠ .node o m) :
    (s.setShmem o v).tableOf x = s.tableOf x := by
  cases x with
  | dir d k => rfl
  | node o' m =>
    have ho : o' ≠ o := fun h => hx m (by rw [h])
    simp only [tableOf, setShmem, Function.update_of_ne ho]

/-- An assignment to other fields than the list leaves the tables alone. -/
theorem tableOf_setShmem {o : ℕ} {sh sh' : Shmem} (h : s.shmem o = some sh)
    (hl : sh'.shmnList = sh.shmnList) : (s.setShmem o (some sh')).tableOf = s.tableOf := by
  funext x
  by_cases hx : ∃ m, x = .node o m
  · obtain ⟨m, rfl⟩ := hx
    have h' : (s.setShmem o (some sh')).shmem o = some sh' := Function.update_self ..
    rw [tableOf_node h', tableOf_node h, hl]
  · exact tableOf_setShmem_of_ne _ fun m hm => hx ⟨m, hm⟩

theorem Vm.Good.setShmem (H : s.Good X) {o : ℕ} {sh sh' : Shmem} (h : s.shmem o = some sh)
    (hl : sh'.shmnList = sh.shmnList) :
    (s.setShmem o (some sh')).Good X ∧ (s.setShmem o (some sh')).slots = s.slots := by
  have hT := tableOf_setShmem h hl
  constructor
  · rw [Good, hT]
    exact Inv.transfer H rfl rfl rfl
  · rw [slots, hT]
    rfl

/-! ## Giving up an object -/

/-- An entry that is not present is 0, so that this is `page_remove_pte`. -/
theorem shmemRemoveEntryPte_eq (H : s.Inv T X) {x : Owner} {f : ℕ} (hx : T x = some f) (i : ℕ) :
    shmemRemoveEntryPte (f, i) s = pageRemovePte (f, i) s := by
  rw [shmemRemoveEntryPte, pageRemovePte, Inv.pte_eq hx]
  cases hheld : s.held T (x, i) with
  | none => rw [H.absent _ hheld]; rfl
  | some p => rw [(Pte.target_eq_some.1 hheld).1]; rfl

/-- The loop of `shmn_destroy`, up to the entry `n`. -/
theorem removeEntries_spec (H : s.Inv T X) {x : Owner} {f : ℕ} (hx : T x = some f) (n : ℕ) :
    ∃ s', (List.range n).foldlM (fun s i => shmemRemoveEntryPte (f, i) s) s = .ok s' ∧ s'.Inv T X ∧
      Rest s s' ∧ (∀ i, i < n → s'.slot T (x, i) = Pte.zero) ∧
      ∀ y, (y.1 ≠ x ∨ n ≤ y.2) → s'.slot T y = s.slot T y := by
  induction n with
  | zero =>
    exact ⟨s, rfl, H, Rest.refl s, fun i hi => absurd hi (Nat.not_lt_zero i), fun _ _ => rfl⟩
  | succ n ih =>
    obtain ⟨s₁, hfold, H₁, hrest₁, hzero, hother⟩ := ih
    obtain ⟨s₂, hrem, H₂, hslot, hrest₂⟩ := pageRemovePte_spec H₁ hx n
    refine ⟨s₂, ?_, H₂, hrest₁.trans hrest₂, ?_, ?_⟩
    · rw [List.range_succ, List.foldlM_append, hfold, Res.ok_bind, List.foldlM_cons,
        shmemRemoveEntryPte_eq H₁ hx, hrem]
      rfl
    · intro i hi
      rw [hslot]
      by_cases hin : i = n
      · rw [hin, Function.update_self]
      · rw [Function.update_of_ne (fun h => hin (congrArg Prod.snd h))]
        exact hzero i (by omega)
    · intro y hy
      have hne : y ≠ (x, n) := by
        rintro rfl
        rcases hy with h | h
        · exact h rfl
        · exact absurd h (Nat.not_succ_le_self n)
      rw [hslot, Function.update_of_ne hne]
      exact hother y (hy.imp_right fun h => by omega)

/-- `shmn_destroy`. -/
theorem shmnDestroy_spec (H : s.Inv T X) {x : Owner} {m : Shmn} (hx : T x = some m.entry) :
    ∃ s', shmnDestroy m s = .ok s' ∧ s'.Inv (Function.update T x none) X ∧ Rest s s' ∧
      ∀ y, y.1 ≠ x → s'.slot (Function.update T x none) y = s.slot T y := by
  obtain ⟨s₁, hfold, H₁, hrest₁, hzero, hother⟩ := removeEntries_spec H hx shmnNentry
  have hempty : ∀ i, s₁.slot T (x, i) = Pte.zero := by
    intro i
    by_cases hi : i < shmnNentry
    · exact hzero i hi
    · refine H₁.absent _ ?_
      cases hheld : s₁.held T (x, i) with
      | none => rfl
      | some p => exact absurd (H₁.index _ p hheld) hi
  obtain ⟨s₂, hfree, H₂, hslot, -, hrest₂⟩ := H₁.dropTable hx hempty
  have hrest := hrest₁.trans hrest₂
  refine ⟨{ s₂ with shmnPool := s₂.shmnPool.give m.addr }, ?_, H₂.transfer rfl rfl rfl,
    ⟨hrest.mem, hrest.pgdir, hrest.shmem, hrest.shmemPool⟩, fun y hy => ?_⟩
  · simp only [shmnDestroy, hfold, hfree, Res.ok_bind, Res.pure_eq]
  · show s₂.slot _ y = _
    rw [hslot]
    exact hother y (.inl hy)

/-- The loop of `shmem_destroy`, which takes the nodes off the list one by one. -/
theorem destroyNodes_spec {o : ℕ} (l : List Shmn) : ∀ (s₁ : Vm) (sh₁ : Shmem), s₁.Good X →
    s₁.shmem o = some sh₁ → sh₁.shmnList = l → l.Nodup → ∃ s₂ sh₂, l.foldlM (fun s m => do
      let (o, sh) ← getShmem (some o) s
      shmnDestroy m (s.setShmem o (some { sh with shmnList := sh.shmnList.erase m }))) s₁ = .ok s₂ ∧
      s₂.Good X ∧ s₂.mem = s₁.mem ∧ s₂.pgdir = s₁.pgdir ∧
      s₂.shmem = Function.update s₁.shmem o (some sh₂) ∧ sh₂.shmnList = [] ∧
      s₂.shmemPool = s₁.shmemPool ∧
      ∀ x, (∀ m, x.1 ≠ .node o m) → s₂.slots x = s₁.slots x := by
  induction l with
  | nil =>
    intro s₁ sh₁ H₁ ho₁ hl hnd
    refine ⟨s₁, sh₁, rfl, H₁, rfl, rfl, ?_, hl, rfl, fun _ _ => rfl⟩
    rw [← ho₁, Function.update_eq_self]
  | cons m l ih =>
    intro s₁ sh₁ H₁ ho₁ hl hnd
    rw [List.nodup_cons] at hnd
    set sh' : Shmem := { sh₁ with shmnList := sh₁.shmnList.erase m } with hsh'
    have hl' : sh'.shmnList = l := by
      show sh₁.shmnList.erase m = l
      rw [hl, List.erase_cons_head]
    have ho' : (s₁.setShmem o (some sh')).shmem o = some sh' := Function.update_self ..
    have hT : (s₁.setShmem o (some sh')).tableOf = Function.update s₁.tableOf (.node o m) none := by
      funext x
      by_cases hx : ∃ m', x = .node o m'
      · obtain ⟨m', rfl⟩ := hx
        rw [tableOf_node ho', hl']
        by_cases hm : m' = m
        · rw [hm, Function.update_self, if_neg hnd.1]
        · rw [Function.update_of_ne (by simp [hm]), tableOf_node ho₁, hl]
          simp only [List.mem_cons, hm, false_or]
      · rw [Function.update_of_ne fun h => hx ⟨m, h⟩]
        exact tableOf_setShmem_of_ne _ fun m' hm => hx ⟨m', hm⟩
    have hm : s₁.tableOf (.node o m) = some m.entry := by
      rw [tableOf_node ho₁, hl, if_pos (List.mem_cons_self ..)]
    have H₁' : (s₁.setShmem o (some sh')).Inv s₁.tableOf X := Inv.transfer H₁ rfl rfl rfl
    obtain ⟨s₂, hdes, H₂, hrest, hslot⟩ := shmnDestroy_spec H₁' hm
    rw [← hT, ← hrest.tableOf] at H₂ hslot
    obtain ⟨s₃, sh₃, hfold, H₃, hmem, hpgdir, hshmem, hnil, hpool, hother⟩ :=
      ih s₂ sh' H₂ (by rw [hrest.shmem]; exact ho') hl' hnd.2
    refine ⟨s₃, sh₃, ?_, H₃, hmem.trans hrest.mem, hpgdir.trans hrest.pgdir, ?_, hnil,
      hpool.trans hrest.shmemPool, ?_⟩
    · rw [List.foldlM_cons, getShmem_some ho₁]
      simp only [Res.ok_bind, ← hsh', hdes]
      exact hfold
    · rw [hshmem, hrest.shmem]
      exact Function.update_idem ..
    · intro x hx
      rw [hother x hx]
      exact hslot x (hx m)

/-- **`shmem_destroy` gives up every entry of the object**, and its tables. -/
theorem shmemDestroy_spec (H : s.Good X) {o : ℕ} {sh : Shmem} (ho : s.shmem o = some sh)
    (hsh : sh.Ok) : ∃ s', shmemDestroy (some o) s = .ok s' ∧ s'.Good X ∧ s'.mem = s.mem ∧
      s'.pgdir = s.pgdir ∧ s'.shmem = Function.update s.shmem o none ∧
      s'.shmemPool = s.shmemPool.give o ∧
      ∀ x, (∀ m, x.1 ≠ .node o m) → s'.slots x = s.slots x := by
  obtain ⟨s₁, sh₁, hrun, H₁, hmem, hpgdir, hshmem, hnil, hpool, hother⟩ :=
    destroyNodes_spec sh.shmnList s sh H ho rfl hsh.nodup
  have ho₁ : s₁.shmem o = some sh₁ := by rw [hshmem, Function.update_self]
  have hT : (s₁.setShmem o none).tableOf = s₁.tableOf := by
    funext x
    by_cases hx : ∃ m, x = .node o m
    · obtain ⟨m, rfl⟩ := hx
      rw [tableOf_node ho₁, hnil, if_neg List.not_mem_nil]
      exact tableOf_node_none (Function.update_self ..) m
    · exact tableOf_setShmem_of_ne _ fun m hm => hx ⟨m, hm⟩
  refine ⟨{ s₁.setShmem o none with shmemPool := s₁.shmemPool.give o }, ?_, ?_, hmem, hpgdir, ?_,
    ?_, ?_⟩
  · rw [shmemDestroy, getShmem_some ho]
    simp only [Res.ok_bind]
    rw [hrun]
    rfl
  · show Inv (s₁.setShmem o none).tableOf X _
    rw [hT]
    exact Inv.transfer H₁ rfl rfl rfl
  · show Function.update s₁.shmem o none = _
    rw [hshmem, Function.update_idem]
  · show s₁.shmemPool.give o = _
    rw [hpool]
  · intro x hx
    show slot (s₁.setShmem o none).tableOf _ x = _
    rw [hT, ← hother x hx]
    rfl

/-! ## The entry for an offset -/

/-- Only the object `o` and the frames and tables differ, and its length and references are the
same. -/
structure Vm.Touch (o : ℕ) (sh : Shmem) (s s' : Vm) : Prop where
  mem : s'.mem = s.mem
  pgdir : s'.pgdir = s.pgdir
  shmemPool : s'.shmemPool = s.shmemPool
  shmem : ∃ sh', s'.shmem = Function.update s.shmem o (some sh') ∧ sh'.Ok ∧ sh'.ref = sh.ref ∧
    sh'.len = sh.len

/-- `find_shmn`. -/
theorem findShmn_spec {sh : Shmem} (hsh : sh.Ok) (addr : ℕ) : ∃ found sh',
    findShmn sh addr = (found, sh') ∧ sh'.Ok ∧ sh'.shmnList = sh.shmnList ∧ sh'.ref = sh.ref ∧
      sh'.len = sh.len ∧ (found = none → sh' = sh) ∧
      ∀ m, found = some m → m ∈ sh.shmnList ∧ m.covers addr = true := by
  have hfound : ∀ m, (sh.shmnCache.filter fun m => m.covers addr).or
      (sh.shmnList.find? fun m => m.covers addr) = some m →
      m ∈ sh.shmnList ∧ m.covers addr = true := by
    intro m hm
    rw [Option.or_eq_some_iff] at hm
    rcases hm with hm | ⟨-, hm⟩
    · rw [Option.filter_eq_some_iff] at hm
      exact ⟨hsh.cache m hm.1, hm.2⟩
    · have hcov := List.find?_some (p := fun m : Shmn => m.covers addr) hm
      exact ⟨List.mem_of_find?_eq_some hm, hcov⟩
  rw [findShmn]
  cases hf : (sh.shmnCache.filter fun m => m.covers addr).or
      (sh.shmnList.find? fun m => m.covers addr) with
  | none => exact ⟨none, sh, rfl, hsh, rfl, rfl, rfl, fun _ => rfl, nofun⟩
  | some m =>
    refine ⟨some m, { sh with shmnCache := some m }, rfl, ⟨hsh.nodup, ?_, hsh.stop⟩, rfl, rfl, rfl,
      nofun, ?_⟩
    · intro m' hm'
      rw [← Option.some.inj hm']
      exact (hfound m hf).1
    · intro m' hm'
      rw [← Option.some.inj hm']
      exact hfound m hf

/-- `insert_shmn` puts the node somewhere on the list, unless it overlaps another one. -/
theorem insertShmn_spec (l : List Shmn) (m : Shmn) :
    insertShmn l m = .error .assertion ∨ ∃ l', insertShmn l m = .ok l' ∧ l'.Perm (m :: l) := by
  have hcheck : ∀ a b, checkShmnOverlap a b = .error .assertion ∨
      checkShmnOverlap a b = .ok () := by
    intro a b
    simp only [checkShmnOverlap, assert]
    by_cases h1 : a.start < a.stop
    · by_cases h2 : a.stop ≤ b.start
      · by_cases h3 : b.start < b.stop
        · simp [h1, h2, h3]
        · simp [h1, h2, h3]
      · simp [h1, h2]
    · simp [h1]
  have helim : ∀ (c : Option Shmn) (g : Shmn → Res Unit),
      (∀ a, g a = .error .assertion ∨ g a = .ok ()) →
      c.elim (.ok ()) g = .error .assertion ∨ c.elim (.ok ()) g = .ok () := by
    intro c g hg
    cases c with
    | none => exact .inr rfl
    | some a => exact hg a
  rw [insertShmn]
  rcases helim (l.takeWhile fun m' => m'.start ≤ m.start).getLast? _ (fun a => hcheck a m)
    with h | h
  · left
    rw [h]
    rfl
  · rw [h, Res.ok_bind]
    rcases helim (l.dropWhile fun m' => m'.start ≤ m.start).head? _ (fun a => hcheck m a)
      with h' | h'
    · left
      rw [h']
      rfl
    · right
      rw [h']
      refine ⟨_, rfl, List.perm_middle.trans (List.Perm.cons m ?_)⟩
      rw [List.takeWhile_append_dropWhile]

/-- `shmn_create` makes a table that is ready to be owned by anyone. -/
theorem shmnCreate_spec (H : s.Inv T X) {start : ℕ} (hstart : start % pgSize = 0) :
    (∃ s', shmnCreate start s = .ok (none, s') ∧ s'.Inv T X ∧ s'.slot T = s.slot T ∧ Rest s s') ∨
    ∃ addr f s', shmnCreate start s =
        .ok (some ⟨addr, start, addrAdd start (pgSize * shmnNentry), f⟩, s') ∧
      f ∉ s.frames.live ∧ Rest s s' ∧ ∀ x, T x = none →
        s'.Inv (Function.update T x (some f)) X ∧
        s'.slot (Function.update T x (some f)) = s.slot T := by
  have hassert : start % pgSize * shmnNentry = 0 := by rw [hstart, Nat.zero_mul]
  simp only [shmnCreate, assert_pos hassert, Res.ok_bind]
  rcases hpool : s.shmnPool.take with ⟨_ | addr, pool⟩
  · exact .inl ⟨_, rfl, H.transfer rfl rfl rfl, rfl, rfl, rfl, rfl, rfl⟩
  · have H₁ : ({ s with shmnPool := pool } : Vm).Inv T X := H.transfer rfl rfl rfl
    simp only
    rcases H₁.allocPage with ⟨s₁, halloc, H₁, hslot, hrest⟩ | ⟨f, s₁, halloc, hf, H₁, hslot, hrest⟩
    · rw [halloc]
      exact .inl ⟨_, rfl, H₁.transfer rfl rfl rfl, hslot, hrest.mem, hrest.pgdir, hrest.shmem,
        hrest.shmemPool⟩
    · rw [halloc]
      refine .inr ⟨addr, f, _, rfl, hf, ⟨hrest.mem, hrest.pgdir, hrest.shmem, hrest.shmemPool⟩,
        fun x hx => ?_⟩
      have hframes : (s₁.zeroTable f).frames = s₁.frames := rfl
      obtain ⟨H₂, hslot₂⟩ := H₁.addTable (Finset.mem_insert_self f X) hx hframes rfl
        (fun _ _ => rfl)
      rw [Finset.erase_insert fun h => hf (H.spare f h)] at H₂
      exact ⟨H₂, hslot₂.trans hslot⟩

/-- A node is made for an offset that has none.  Where it goes on the list, and whether it may, is
the matter of `insert_shmn`. -/
theorem makeShmn_spec (H : s.Good X) {o : ℕ} {sh : Shmem} (ho : s.shmem o = some sh) {off : ℕ}
    (hfind : findShmn sh off = (none, sh)) :
    (∃ s', getShmn (some o) off true s = .ok (none, s') ∧ s'.Good X ∧ s'.slots = s.slots ∧
      Rest s s') ∨
    ∃ m, m.start = roundDown off (pgSize * shmnNentry) ∧
      m.stop = addrAdd m.start (pgSize * shmnNentry) ∧ m ∉ sh.shmnList ∧
      (insertShmn sh.shmnList m = .error .assertion →
        getShmn (some o) off true s = .error .assertion) ∧
      ∀ l, insertShmn sh.shmnList m = .ok l → l.Perm (m :: sh.shmnList) → ∃ s',
        getShmn (some o) off true s = .ok (some m, s') ∧ s'.Good X ∧ s'.slots = s.slots ∧
        s'.mem = s.mem ∧ s'.pgdir = s.pgdir ∧ s'.shmemPool = s.shmemPool ∧
        s'.shmem = Function.update s.shmem o (some { sh with shmnList := l }) := by
  have hset : s.setShmem o (some sh) = s := by
    rw [Vm.setShmem, ← ho, Function.update_eq_self]
  simp only [getShmn, getShmem_some ho, hfind, Res.ok_bind, hset, Bool.not_true, Bool.false_eq_true,
    if_false]
  set start := roundDown off (pgSize * shmnNentry) with hstart
  have hmod : start % pgSize = 0 := by
    rw [hstart]
    simp only [roundDown, pgSize, shmnNentry]
    omega
  rcases shmnCreate_spec H hmod with ⟨s₂, hcreate, H₂, hslot₂, hrest⟩ |
    ⟨a, f, s₂, hcreate, hf, hrest, hnew⟩
  · left
    refine ⟨s₂, ?_, H₂.good hrest, slots_of_rest hslot₂ hrest, hrest⟩
    simp only [hcreate, Res.ok_bind, Res.pure_eq]
  · right
    set m : Shmn := ⟨a, start, addrAdd start (pgSize * shmnNentry), f⟩ with hm
    -- the table is new, so that the node is not on the list
    have hnot : m ∉ sh.shmnList := by
      intro hmem
      have hT : s.tableOf (.node o m) = some f := by
        rw [tableOf_node ho, if_pos hmem]
      exact hf (H.tables _ f hT).1
    have hTnone : s.tableOf (.node o m) = none := by
      rw [tableOf_node ho, if_neg hnot]
    obtain ⟨H₂, hslot₂⟩ := hnew (.node o m) hTnone
    simp only [hcreate, Res.ok_bind]
    refine ⟨m, rfl, rfl, hnot, fun hins => by rw [hins]; rfl, fun l hins hperm => ?_⟩
    set s₃ := s₂.setShmem o (some { sh with shmnList := l }) with hs₃
    have ho₃ : s₃.shmem o = some { sh with shmnList := l } := Function.update_self ..
    have hT : s₃.tableOf = Function.update s.tableOf (.node o m) (some f) := by
      funext x
      by_cases hx : ∃ m', x = .node o m'
      · obtain ⟨m', rfl⟩ := hx
        rw [tableOf_node ho₃]
        simp only [hperm.mem_iff, List.mem_cons]
        by_cases hm' : m' = m
        · rw [hm', Function.update_self, if_pos (.inl rfl)]
        · rw [Function.update_of_ne (by simp [hm']), tableOf_node ho]
          simp only [hm', false_or]
      · rw [Function.update_of_ne fun h => hx ⟨m, h⟩, ← hrest.tableOf]
        exact tableOf_setShmem_of_ne _ fun m' h => hx ⟨m', h⟩
    refine ⟨s₃, ?_, ?_, ?_, hrest.mem, hrest.pgdir, hrest.shmemPool, ?_⟩
    · rw [hins]
      rfl
    · rw [Good, hT]
      exact H₂.transfer rfl rfl rfl
    · rw [slots, hT]
      exact hslot₂
    · rw [hs₃]
      simp only [Vm.setShmem, hrest.shmem]

/-- A new node keeps the invariant of the object. -/
theorem Shmem.Ok.insert {sh : Shmem} (hsh : sh.Ok) {m : Shmn} {l : List Shmn}
    (hnot : m ∉ sh.shmnList)
    (hstop : m.stop = addrAdd m.start (pgSize * shmnNentry)) (hperm : l.Perm (m :: sh.shmnList)) :
    ({ sh with shmnList := l } : Shmem).Ok := by
  refine ⟨?_, ?_, ?_⟩
  · rw [hperm.nodup_iff, List.nodup_cons]
    exact ⟨hnot, hsh.nodup⟩
  · exact fun m' h => hperm.mem_iff.2 (List.mem_cons_of_mem m (hsh.cache m' h))
  · intro m' h
    rcases List.mem_cons.1 (hperm.mem_iff.1 h) with rfl | h
    · rw [hstop]
      exact Nat.mod_le _ _
    · exact hsh.stop m' h

/-- The node for an offset, found or made. -/
theorem getShmn_spec (H : s.Good X) {o : ℕ} {sh : Shmem} (ho : s.shmem o = some sh) (hsh : sh.Ok)
    (addr : ℕ) :
    getShmn (some o) addr true s = .error .assertion ∨
    (∃ s', getShmn (some o) addr true s = .ok (none, s') ∧ s'.Good X ∧ s'.slots = s.slots ∧
      Touch o sh s s') ∨
    ∃ m s', getShmn (some o) addr true s = .ok (some m, s') ∧ s'.Good X ∧ s'.slots = s.slots ∧
      Touch o sh s s' ∧ s'.tableOf (.node o m) = some m.entry ∧
      (addr - m.start) / pgSize < 1024 := by
  obtain ⟨found, sh', hfind, hsh', hlist, href, hlen, hsame, hfound⟩ := findShmn_spec hsh addr
  cases found with
  | some m =>
    obtain ⟨H₁, hslots₁⟩ := H.setShmem ho hlist
    have ho₁ : (s.setShmem o (some sh')).shmem o = some sh' := Function.update_self ..
    have htouch : Touch o sh s (s.setShmem o (some sh')) :=
      ⟨rfl, rfl, rfl, sh', rfl, hsh', href, hlen⟩
    obtain ⟨hmem, hcov⟩ := hfound m rfl
    refine .inr (.inr ⟨m, _, ?_, H₁, hslots₁, htouch, ?_, ?_⟩)
    · simp only [getShmn, getShmem_some ho, hfind, assert_pos hcov, Res.ok_bind, Res.pure_eq]
    · rw [tableOf_node ho₁, hlist, if_pos hmem]
    · have hstop := hsh.stop m hmem
      rw [Shmn.covers, Bool.and_eq_true, decide_eq_true_eq, decide_eq_true_eq] at hcov
      simp only [ptSize, pgSize] at *
      omega
  | none =>
    rw [hsame rfl] at hfind
    rcases makeShmn_spec H ho hfind with ⟨s', hget, H', hslots, hrest⟩ |
      ⟨m, hstart, hstop, hnot, herr, hput⟩
    · right
      left
      refine ⟨s', hget, H', hslots, hrest.mem, hrest.pgdir, hrest.shmemPool, sh, ?_, hsh, rfl, rfl⟩
      rw [hrest.shmem, ← ho, Function.update_eq_self]
    · rcases insertShmn_spec sh.shmnList m with hins | ⟨l, hins, hperm⟩
      · exact .inl (herr hins)
      · right
        right
        obtain ⟨s', hget, H', hslots, hmem, hpgdir, hpool, hshmem⟩ := hput l hins hperm
        have ho' : s'.shmem o = some { sh with shmnList := l } := by
          rw [hshmem, Function.update_self]
        refine ⟨m, s', hget, H', hslots, ⟨hmem, hpgdir, hpool, _, hshmem,
          hsh.insert hnot hstop hperm, rfl, rfl⟩, ?_, ?_⟩
        · rw [tableOf_node ho', if_pos (hperm.mem_iff.2 (List.mem_cons_self ..))]
        · rw [hstart]
          simp only [roundDown, pgSize, shmnNentry]
          omega

/-- The entries are the same, but one that was 0 may refer to a new frame. -/
def Vm.Filled (x : Owner × ℕ) (s s' : Vm) : Prop :=
  s'.slots = s.slots ∨ s.slots x = Pte.zero ∧ ∃ p, (∀ y, (s.slots y).target ≠ some p) ∧
    s'.slots = Function.update s.slots x ⟨p, true, ⟨false, false⟩⟩

theorem Vm.Filled.of_ne {x y : Owner × ℕ} {s s' : Vm} (h : Filled x s s') (hy : y ≠ x) :
    s'.slots y = s.slots y := by
  rcases h with h | ⟨-, p, -, h⟩
  · rw [h]
  · rw [h, Function.update_of_ne hy]

/-- An entry that is not 0 stays what it is. -/
theorem Vm.Filled.of_ne_zero {x y : Owner × ℕ} {s s' : Vm} (h : Filled x s s')
    (hy : s.slots y ≠ Pte.zero) : s'.slots y = s.slots y := by
  rcases h with h | ⟨hzero, p, -, h⟩
  · rw [h]
  · have hne : y ≠ x := fun heq => hy (by rw [heq]; exact hzero)
    rw [h, Function.update_of_ne hne]

/-- The last part of `shmem_get_entry`. -/
theorem fillEntry_spec (H : s.Good X) {x : Owner} {f i : ℕ} (hx : s.tableOf x = some f)
    (hi : i < 1024) : (fillEntry (f, i) true s).Good X ∧ Rest s (fillEntry (f, i) true s) ∧
      Filled (x, i) s (fillEntry (f, i) true s) := by
  rw [fillEntry]
  have hpte : s.pte (f, i) = s.slots (x, i) := Inv.pte_eq hx i
  by_cases hz : s.pte (f, i) = Pte.zero
  · rw [if_pos ⟨hz, rfl⟩]
    rcases Inv.allocPage H with ⟨s₁, halloc, H₁, hslot, hrest⟩ |
      ⟨p, s₁, halloc, hfresh, H₁, hslot, hrest⟩
    · rw [halloc]
      exact ⟨H₁.good hrest, hrest, .inl (slots_of_rest hslot hrest)⟩
    · rw [halloc]
      have hheld : s₁.held s.tableOf (x, i) = none := by
        rw [held, hslot, show s.slot s.tableOf (x, i) = Pte.zero from hpte.symm.trans hz]
        rfl
      obtain ⟨H₂, hslot₂⟩ := H₁.take hx hi hheld (.inl (Finset.mem_insert_self p X)) ⟨false, false⟩
      rw [Finset.erase_insert fun h => hfresh (H.spare p h)] at H₂
      have hrest₂ : Rest s ((s₁.setPte (f, i) ⟨p, true, ⟨false, false⟩⟩).pageRefInc p) :=
        ⟨hrest.mem, hrest.pgdir, hrest.shmem, hrest.shmemPool⟩
      refine ⟨Inv.good (s := s) H₂ hrest₂, hrest₂, .inr ⟨hpte.symm.trans hz, p, ?_, ?_⟩⟩
      · exact fun y hy => hfresh (H.used y p hy).1
      · rw [hslot] at hslot₂
        exact slots_of_rest (s := s) hslot₂ hrest₂
  · rw [if_neg fun h => hz h.1]
    exact ⟨H, Rest.refl s, .inl rfl⟩

/-- **`shmem_get_entry`.**  It stops at an assertion, or finds no memory, or returns an entry of the
object. -/
theorem shmemGetEntry_spec (H : s.Good X) {o : ℕ} {sh : Shmem} (ho : s.shmem o = some sh)
    (hsh : sh.Ok) (addr : ℕ) :
    shmemGetEntry (some o) addr true s = .error .assertion ∨
    (∃ s', shmemGetEntry (some o) addr true s = .ok (none, s') ∧ s'.Good X ∧ s'.slots = s.slots ∧
      Touch o sh s s') ∨
    ∃ f i m s', shmemGetEntry (some o) addr true s = .ok (some (f, i), s') ∧ s'.Good X ∧
      Touch o sh s s' ∧ s'.tableOf (.node o m) = some f ∧
      ∀ x, x ≠ (.node o m, i) → s'.slots x = s.slots x := by
  simp only [shmemGetEntry, getShmem_some ho, Res.ok_bind]
  by_cases hlen : addr < sh.len
  · simp only [assert_pos hlen, Res.ok_bind]
    rcases getShmn_spec H ho hsh (roundDown addr pgSize)
      with hget | ⟨s₁, hget, H₁, hslots, htouch⟩ |
      ⟨m, s₁, hget, H₁, hslots, htouch, hT, hi⟩
    · left
      rw [hget]
      rfl
    · right
      left
      refine ⟨s₁, ?_, H₁, hslots, htouch⟩
      simp only [hget, Res.ok_bind, Res.pure_eq]
    · right
      right
      obtain ⟨H₂, hrest, hfill⟩ := fillEntry_spec H₁ hT hi
      refine ⟨m.entry, (roundDown addr pgSize - m.start) / pgSize, m, _, ?_, H₂,
        ⟨hrest.mem.trans htouch.mem, hrest.pgdir.trans htouch.pgdir,
          hrest.shmemPool.trans htouch.shmemPool, ?_⟩, ?_, ?_⟩
      · simp only [hget, Res.ok_bind, Res.pure_eq]
      · rw [hrest.shmem]
        exact htouch.shmem
      · rw [hrest.tableOf]
        exact hT
      · intro x hx
        rw [hfill.of_ne hx, hslots]
  · left
    rw [assert, if_neg hlen]
    rfl

end Shmem

end Ucore
