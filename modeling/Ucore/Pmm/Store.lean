import Ucore.Pmm.Shmem

/-!
# A shared memory object is a map from page offsets to entries

The nodes of an object cover four megabytes each, and are made on demand.  `Shmem.Store` says that
their list is sorted and that they are aligned, so that at most one of them covers an offset;
`Vm.shmemEntry` is the entry that it has for it.

* `findShmn_eq` — the cache makes no difference to `find_shmn`;
* `insertShmn_store` — the overlap checks of `insert_shmn` succeed;
* `shmemGetEntry_store` — `shmem_get_entry` for an offset below the length returns, and no other
  entry changes.

A node covers an offset exactly if it starts at the offset rounded down to four megabytes
(`covers_iff`), and so two nodes with one start are one node (`eq_of_start`).  A new node has a
start that no other one has, which is all that the overlap checks need.

The last section is about the cache of an object.  It only ever saves a search: two objects that
differ in it give the same results, and states that differ in it again (`shmemGetEntry_cache`).
-/

set_option autoImplicit false

namespace Ucore

open Vm

/-- **The nodes of an object are sorted, disjoint and aligned.** -/
structure Shmem.Store (sh : Shmem) : Prop where
  start : ∀ m ∈ sh.shmnList, m.start % ptSize = 0
  stop : ∀ m ∈ sh.shmnList, m.stop = m.start + ptSize
  sorted : sh.shmnList.Pairwise fun m m' => m.stop ≤ m'.start
  cache : ∀ m, sh.shmnCache = some m → m ∈ sh.shmnList

/-- The node for an offset. -/
def Shmem.node (sh : Shmem) (off : ℕ) : Option Shmn := sh.shmnList.find? fun m => m.covers off

/-- The entry for an offset. -/
def Vm.shmemEntry (s : Vm) (o off : ℕ) : Pte :=
  ((s.shmem o).bind fun sh => sh.node off).elim Pte.zero fun m =>
    s.table m.entry ((off - m.start) / pgSize)

theorem Shmn.covers_iff {m : Shmn} {off : ℕ} :
    m.covers off = true ↔ m.start ≤ off ∧ off < m.stop := by
  rw [Shmn.covers, Bool.and_eq_true, decide_eq_true_eq, decide_eq_true_eq]

theorem Shmem.mem_of_node {sh : Shmem} {off : ℕ} {m : Shmn} (h : sh.node off = some m) :
    m ∈ sh.shmnList ∧ m.covers off = true :=
  ⟨List.mem_of_find?_eq_some h, List.find?_some (p := fun m : Shmn => m.covers off) h⟩

namespace Shmem.Store

variable {sh : Shmem}

/-- Two nodes with one start are one node. -/
theorem eq_of_start (h : sh.Store) {m m' : Shmn} (hm : m ∈ sh.shmnList) (hm' : m' ∈ sh.shmnList)
    (heq : m.start = m'.start) : m = m' := by
  have hp : (sh.shmnList.map Shmn.start).Nodup := by
    refine List.pairwise_map.2 (h.sorted.imp_of_mem fun {a b} ha _ hab heq => ?_)
    have h1 := h.stop a ha
    rw [ptSize] at h1
    omega
  exact List.inj_on_of_nodup_map hp hm hm' heq

/-- **At most one node covers an offset.** -/
theorem eq_of_covers (h : sh.Store) {m m' : Shmn} (hm : m ∈ sh.shmnList) (hm' : m' ∈ sh.shmnList)
    {off : ℕ} (hc : m.covers off = true) (hc' : m'.covers off = true) : m = m' := by
  refine h.eq_of_start hm hm' ?_
  rw [Shmn.covers_iff, h.stop m hm] at hc
  rw [Shmn.covers_iff, h.stop m' hm'] at hc'
  have h1 := h.start m hm
  have h2 := h.start m' hm'
  rw [ptSize] at *
  omega

theorem node_eq (h : sh.Store) {m : Shmn} (hm : m ∈ sh.shmnList) {off : ℕ}
    (hc : m.covers off = true) : sh.node off = some m := by
  cases hn : sh.node off with
  | none =>
    have h1 := List.find?_eq_none.1 hn m hm
    exact absurd hc h1
  | some m' =>
    obtain ⟨hm', hc'⟩ := Shmem.mem_of_node hn
    rw [h.eq_of_covers hm hm' hc hc']

/-- A node covers an offset exactly if it starts at the offset rounded down to four megabytes. -/
theorem covers_iff (h : sh.Store) {m : Shmn} (hm : m ∈ sh.shmnList) {off : ℕ} :
    m.covers off = true ↔ m.start = roundDown off (pgSize * shmnNentry) := by
  rw [Shmn.covers_iff, h.stop m hm]
  have h1 := h.start m hm
  simp only [roundDown, ptSize, pgSize, shmnNentry] at *
  omega

/-- An offset and the start of its page have one node. -/
theorem node_page (h : sh.Store) {off off' : ℕ} (hpage : off / pgSize = off' / pgSize) :
    sh.node off = sh.node off' := by
  have hround : roundDown off (pgSize * shmnNentry) = roundDown off' (pgSize * shmnNentry) := by
    simp only [roundDown, pgSize, shmnNentry] at *
    omega
  have hiff : ∀ m, sh.node off = some m ↔ sh.node off' = some m := by
    intro m
    constructor
    · intro hm
      obtain ⟨hm, hc⟩ := Shmem.mem_of_node hm
      exact h.node_eq hm ((h.covers_iff hm).2 (((h.covers_iff hm).1 hc).trans hround))
    · intro hm
      obtain ⟨hm, hc⟩ := Shmem.mem_of_node hm
      exact h.node_eq hm ((h.covers_iff hm).2 (((h.covers_iff hm).1 hc).trans hround.symm))
  exact Option.ext hiff

/-- The cache may be anything that is on the list. -/
theorem setCache (h : sh.Store) {c : Option Shmn} (hc : ∀ m, c = some m → m ∈ sh.shmnList) :
    ({ sh with shmnCache := c } : Shmem).Store := ⟨h.start, h.stop, h.sorted, hc⟩

end Shmem.Store

/-! ## `find_shmn` and `insert_shmn` -/

/-- **The cache makes no difference**: `find_shmn` finds the node for the offset. -/
theorem findShmn_eq {sh : Shmem} (h : sh.Store) (off : ℕ) :
    findShmn sh off = (sh.node off, { sh with shmnCache := (sh.node off).or sh.shmnCache }) := by
  have hfound : (sh.shmnCache.filter fun m => m.covers off).or
      (sh.shmnList.find? fun m => m.covers off) = sh.node off := by
    cases hc : sh.shmnCache.filter fun m => m.covers off with
    | none => rfl
    | some m =>
      obtain ⟨hcache, hcov⟩ := Option.filter_eq_some_iff.1 hc
      exact (h.node_eq (h.cache m hcache) hcov).symm
  rw [findShmn, hfound]
  cases sh.node off with
  | none => rfl
  | some m => rfl

/-- The list is cut at the place of a new node. -/
theorem split_at_start {l : List Shmn} (hs : l.Pairwise fun m m' => m.stop ≤ m'.start)
    (hpos : ∀ m ∈ l, m.start < m.stop) (start : ℕ) :
    (∀ m ∈ l.takeWhile (fun m => m.start ≤ start), m.start ≤ start) ∧
      ∀ m ∈ l.dropWhile (fun m => m.start ≤ start), start < m.start := by
  constructor
  · intro m hm
    have h1 := List.mem_takeWhile_imp hm
    exact of_decide_eq_true h1
  · intro m hm
    induction l with
    | nil => exact absurd hm List.not_mem_nil
    | cons a l ih =>
      rw [List.pairwise_cons] at hs
      rw [List.dropWhile_cons] at hm
      by_cases ha : a.start ≤ start
      · rw [if_pos (decide_eq_true ha)] at hm
        exact ih hs.2 (fun b hb => hpos b (List.mem_cons_of_mem a hb)) hm
      · rw [if_neg (by simpa using ha)] at hm
        rcases List.mem_cons.1 hm with rfl | hm
        · omega
        · have h1 := hs.1 m hm
          have h2 := hpos a (List.mem_cons_self ..)
          omega

/-- **The overlap checks succeed** for an aligned node with a new start, and the list stays
sorted. -/
theorem insertShmn_store {sh : Shmem} (h : sh.Store) {m : Shmn} (hstart : m.start % ptSize = 0)
    (hstop : m.stop = m.start + ptSize) (hnew : ∀ m' ∈ sh.shmnList, m'.start ≠ m.start) :
    ∃ l, insertShmn sh.shmnList m = .ok l ∧ l.Perm (m :: sh.shmnList) ∧
      l.Pairwise fun a b => a.stop ≤ b.start := by
  obtain ⟨start, stop, sorted, -⟩ := h
  have hpos : ∀ a ∈ sh.shmnList, a.start < a.stop := by
    intro a ha
    have h1 := stop a ha
    rw [ptSize] at h1
    omega
  obtain ⟨hbefore, hafter⟩ := split_at_start sorted hpos m.start
  have hsplit := List.takeWhile_append_dropWhile
    (p := fun a : Shmn => decide (a.start ≤ m.start)) (l := sh.shmnList)
  rw [insertShmn]
  set before := sh.shmnList.takeWhile fun a => a.start ≤ m.start with hb
  set after := sh.shmnList.dropWhile fun a => a.start ≤ m.start with ha
  have hmem : ∀ a, a ∈ sh.shmnList ↔ a ∈ before ∨ a ∈ after := by
    intro a
    rw [← List.mem_append, hsplit]
  have hmpos : m.start < m.stop := by
    rw [hstop, ptSize]
    omega
  -- nodes are four megabytes apart
  have hlo : ∀ a ∈ before, a.stop ≤ m.start := by
    intro a ha
    have hal := (hmem a).2 (.inl ha)
    have h1 := hbefore a ha
    have h2 := hnew a hal
    have h3 := start a hal
    have h4 := stop a hal
    rw [ptSize] at *
    omega
  have hhi : ∀ a ∈ after, m.stop ≤ a.start := by
    intro a ha
    have h1 := hafter a ha
    have h3 := start a ((hmem a).2 (.inr ha))
    rw [ptSize] at *
    omega
  have hcheck : ∀ a b : Shmn, a.start < a.stop → a.stop ≤ b.start → b.start < b.stop →
      checkShmnOverlap a b = .ok () := by
    intro a b h1 h2 h3
    rw [checkShmnOverlap, assert_pos h1, assert_pos h2, assert_pos h3]
    rfl
  have h1 : before.getLast?.elim (.ok ()) (fun prev => checkShmnOverlap prev m) = .ok () := by
    cases hlast : before.getLast? with
    | none => rfl
    | some a =>
      have ha := List.mem_of_getLast? hlast
      exact hcheck a m (hpos a ((hmem a).2 (.inl ha))) (hlo a ha) hmpos
  have h2 : after.head?.elim (.ok ()) (fun next => checkShmnOverlap m next) = .ok () := by
    cases hhead : after.head? with
    | none => rfl
    | some a =>
      have ha := List.mem_of_head? hhead
      exact hcheck m a hmpos (hhi a ha) (hpos a ((hmem a).2 (.inr ha)))
  simp only [h1, h2, Res.ok_bind, Res.pure_eq]
  refine ⟨_, rfl, ?_, ?_⟩
  · refine List.perm_middle.trans (List.Perm.cons m ?_)
    rw [hsplit]
  · rw [← hsplit, List.pairwise_append] at sorted
    rw [List.pairwise_append, List.pairwise_cons]
    refine ⟨sorted.1, ⟨hhi, sorted.2.1⟩, fun a ha b hb => ?_⟩
    rcases List.mem_cons.1 hb with rfl | hb
    · exact hlo a ha
    · exact sorted.2.2 a ha b hb

/-! ## `shmem_get_entry` -/

/-- The entry for an offset lies in the slot of its node. -/
theorem shmemEntry_eq {s : Vm} {o : ℕ} {sh : Shmem} (ho : s.shmem o = some sh) (off : ℕ) :
    s.shmemEntry o off = (sh.node off).elim Pte.zero fun m =>
      s.slots (.node o m, (off - m.start) / pgSize) := by
  rw [Vm.shmemEntry, ho, Option.bind_some]
  cases hn : sh.node off with
  | none => rfl
  | some m =>
    have hT : s.tableOf (.node o m) = some m.entry := by
      rw [tableOf_node ho, if_pos (Shmem.mem_of_node hn).1]
    exact Inv.pte_eq hT _

/-- What becomes of an object and of the memory when one of its entries is asked for. -/
structure Vm.Stored (X : Finset ℕ) (o : ℕ) (sh sh' : Shmem) (s s' : Vm) : Prop where
  good : s'.Good X
  mem : s'.mem = s.mem
  pgdir : s'.pgdir = s.pgdir
  shmemPool : s'.shmemPool = s.shmemPool
  shmem : s'.shmem = Function.update s.shmem o (some sh')
  ok : sh'.Ok
  store : sh'.Store
  ref : sh'.ref = sh.ref
  len : sh'.len = sh.len
  nodes : ∀ m ∈ sh.shmnList, m ∈ sh'.shmnList

section Store

variable {X : Finset ℕ} {s : Vm} {o : ℕ} {sh : Shmem}

/-- The node for an offset, if it is not to be made. -/
theorem getShmn_find (H : s.Good X) (ho : s.shmem o = some sh) (hok : sh.Ok) (hs : sh.Store)
    (off : ℕ) : ∃ s' sh', (∀ create, sh.node off ≠ none ∨ create = false →
        getShmn (some o) off create s = .ok (sh'.node off, s')) ∧ Stored X o sh sh' s s' ∧
      s'.slots = s.slots ∧ sh'.shmnList = sh.shmnList ∧ s'.table = s.table := by
  set sh' : Shmem := { sh with shmnCache := (sh.node off).or sh.shmnCache } with hsh'
  have hcache : ∀ m, (sh.node off).or sh.shmnCache = some m → m ∈ sh.shmnList := by
    intro m hm
    rw [Option.or_eq_some_iff] at hm
    rcases hm with hm | ⟨-, hm⟩
    · exact (Shmem.mem_of_node hm).1
    · exact hs.cache m hm
  obtain ⟨H', hslots⟩ := H.setShmem ho (show sh'.shmnList = sh.shmnList from rfl)
  refine ⟨s.setShmem o (some sh'), sh', fun create hcreate => ?_, ⟨H', rfl, rfl, rfl, rfl,
    ⟨hok.nodup, hcache, hok.stop⟩, hs.setCache hcache, rfl, rfl, fun m hm => hm⟩, hslots, rfl, rfl⟩
  have hnode : sh'.node off = sh.node off := rfl
  simp only [getShmn, getShmem_some ho, findShmn_eq hs, Res.ok_bind, hnode, ← hsh']
  cases hn : sh.node off with
  | none =>
    have hc : create = false := hcreate.resolve_left fun h => h hn
    simp only [hc, Bool.not_false, if_true, Res.pure_eq]
  | some m =>
    simp only [assert_pos (Shmem.mem_of_node hn).2, Res.ok_bind, Res.pure_eq]

/-- **The node for an offset, found or made.** -/
theorem getShmn_store (H : s.Good X) (ho : s.shmem o = some sh) (hok : sh.Ok) (hs : sh.Store)
    {off : ℕ} (hoff : off < userTop) (create : Bool) : ∃ s' sh',
      getShmn (some o) off create s = .ok (sh'.node off, s') ∧ Stored X o sh sh' s s' ∧
      s'.slots = s.slots ∧ (create = false → sh'.shmnList = sh.shmnList ∧ s'.table = s.table) := by
  by_cases hfind : sh.node off ≠ none ∨ create = false
  · obtain ⟨s', sh', hget, hst, hslots, hsame⟩ := getShmn_find H ho hok hs off
    exact ⟨s', sh', hget create hfind, hst, hslots, fun _ => hsame⟩
  · rw [not_or, not_not, Bool.not_eq_false] at hfind
    obtain ⟨hnone, rfl⟩ := hfind
    have hfind : findShmn sh off = (none, sh) := by
      rw [findShmn_eq hs, hnone]
      rfl
    rcases makeShmn_spec H ho hfind with ⟨s', hget, H', hslots, hrest⟩ |
      ⟨m, hstart, hstop, hnot, -, hput⟩
    · refine ⟨s', sh, ?_, ⟨H', hrest.mem, hrest.pgdir, hrest.shmemPool, ?_, hok, hs, rfl, rfl,
        fun m hm => hm⟩, hslots, fun h => by cases h⟩
      · rw [hget, hnone]
      · rw [hrest.shmem, ← ho, Function.update_eq_self]
    · have hnew : ∀ m' ∈ sh.shmnList, m'.start ≠ m.start := by
        intro m' hm' heq
        have h1 := hs.node_eq hm' ((hs.covers_iff hm').2 (heq.trans hstart))
        rw [hnone] at h1
        cases h1
      have hstart' : m.start % ptSize = 0 := by
        rw [hstart]
        exact roundDown_mod _ _
      have hstop' : m.stop = m.start + ptSize := by
        rw [hstop, hstart]
        simp only [addrAdd, roundDown, pgSize, shmnNentry, ptSize, userTop] at *
        omega
      obtain ⟨l, hins, hperm, hsorted⟩ := insertShmn_store hs hstart' hstop' hnew
      obtain ⟨s', hget, H', hslots, hmem, hpgdir, hpool, hshmem⟩ := hput l hins hperm
      have hall : ∀ m', m' ∈ l ↔ m' = m ∨ m' ∈ sh.shmnList := fun m' =>
        hperm.mem_iff.trans List.mem_cons
      have hstore : ({ sh with shmnList := l } : Shmem).Store := by
        refine ⟨fun m' hm' => ?_, fun m' hm' => ?_, hsorted, ?_⟩
        · rcases (hall m').1 hm' with rfl | hm'
          · exact hstart'
          · exact hs.start m' hm'
        · rcases (hall m').1 hm' with rfl | hm'
          · exact hstop'
          · exact hs.stop m' hm'
        · exact fun m' hm' => (hall m').2 (.inr (hs.cache m' hm'))
      have hm : m ∈ l := (hall m).2 (.inl rfl)
      refine ⟨s', { sh with shmnList := l }, ?_, ⟨H', hmem, hpgdir, hpool, hshmem,
        hok.insert hnot hstop hperm, hstore, rfl, rfl, fun m' hm' => (hall m').2 (.inr hm')⟩,
        hslots, fun h => by cases h⟩
      rw [hget, hstore.node_eq hm ((hstore.covers_iff hm).2 hstart)]

/-- **`shmem_get_entry` for an offset below the length returns** the place of the entry for it, or
nothing if there is no memory for its node.  The only entry that may change is this one, if it is
0. -/
theorem shmemGetEntry_store (H : s.Good X) (ho : s.shmem o = some sh) (hok : sh.Ok) (hs : sh.Store)
    {off : ℕ} (hlen : off < sh.len) (hoff : off < userTop) (create : Bool) : ∃ s' sh',
      shmemGetEntry (some o) off create s =
        .ok ((sh'.node off).map fun m => (m.entry, off / pgSize % shmnNentry), s') ∧
      Stored X o sh sh' s s' ∧
      (s'.slots = s.slots ∨ create = true ∧ ∃ m, sh'.node off = some m ∧
        Filled (.node o m, off / pgSize % shmnNentry) s s') ∧
      (create = false → sh'.shmnList = sh.shmnList ∧ s'.table = s.table) := by
  have hpage : roundDown off pgSize / pgSize = off / pgSize := by
    simp only [roundDown, pgSize]
    omega
  obtain ⟨s₁, sh', hget, hst, hslots, hsame⟩ := getShmn_store H ho hok hs
    (lt_of_le_of_lt (roundDown_le off pgSize) hoff) create
  simp only [shmemGetEntry, getShmem_some ho, assert_pos hlen, hget, Res.ok_bind]
  rw [hst.store.node_page hpage]
  cases hn : sh'.node off with
  | none => exact ⟨s₁, sh', by rw [hn]; rfl, hst, .inl hslots, hsame⟩
  | some m =>
    obtain ⟨hm, hcov⟩ := Shmem.mem_of_node hn
    have hindex : (roundDown off pgSize - m.start) / pgSize = off / pgSize % shmnNentry := by
      have h1 := (hst.store.covers_iff hm).1 hcov
      simp only [roundDown, pgSize, shmnNentry] at *
      omega
    have ho₁ : s₁.shmem o = some sh' := by rw [hst.shmem, Function.update_self]
    have hT : s₁.tableOf (.node o m) = some m.entry := by rw [tableOf_node ho₁, if_pos hm]
    have hret : ((sh'.node off).map fun m => (m.entry, off / pgSize % shmnNentry)) =
        some (m.entry, off / pgSize % shmnNentry) := by
      rw [hn]
      rfl
    simp only [hindex]
    cases create with
    | false =>
      refine ⟨s₁, sh', ?_, hst, .inl hslots, hsame⟩
      rw [hret, fillEntry, if_neg fun h => by cases h.2]
      rfl
    | true =>
      obtain ⟨H₂, hrest, hfill⟩ := fillEntry_spec hst.good hT
        (show off / pgSize % shmnNentry < 1024 from Nat.mod_lt _ (by decide))
      refine ⟨_, sh', by rw [hret]; rfl, ⟨H₂, hrest.mem.trans hst.mem, hrest.pgdir.trans hst.pgdir,
        hrest.shmemPool.trans hst.shmemPool, hrest.shmem.trans hst.shmem, hst.ok, hst.store,
        hst.ref, hst.len, hst.nodes⟩, .inr ⟨rfl, m, hn, ?_⟩, fun h => by cases h⟩
      rw [Filled, hslots] at hfill
      exact hfill

/-! ## The cache -/

/-- `shmn_create` does not look at the objects. -/
theorem shmnCreate_setShmem (start : ℕ) (v : Option Shmem) : shmnCreate start (s.setShmem o v) =
    (shmnCreate start s).map fun r => (r.1, r.2.setShmem o v) := by
  have hpool : (s.setShmem o v).shmnPool = s.shmnPool := rfl
  have hframes : (s.setShmem o v).frames = s.frames := rfl
  rw [shmnCreate, shmnCreate, assert]
  split
  · simp only [Res.ok_bind, hpool]
    rcases s.shmnPool.take with ⟨_ | a, pool⟩
    · rfl
    · simp only [Vm.allocPage, hframes]
      rcases s.frames.take with ⟨_ | p, frames⟩
      · rfl
      · rfl
  · rfl

/-- Neither does the last part of `shmem_get_entry`. -/
theorem fillEntry_setShmem (ptep : ℕ × ℕ) (create : Bool) (v : Option Shmem) :
    fillEntry ptep create (s.setShmem o v) = (fillEntry ptep create s).setShmem o v := by
  have hpte : (s.setShmem o v).pte ptep = s.pte ptep := rfl
  have hframes : (s.setShmem o v).frames = s.frames := rfl
  rw [fillEntry, fillEntry, hpte]
  split
  · simp only [Vm.allocPage, hframes]
    rcases s.frames.take with ⟨_ | p, frames⟩
    · rfl
    · rfl
  · rfl

theorem setShmem_idem (v v' : Option Shmem) : (s.setShmem o v).setShmem o v' = s.setShmem o v' := by
  simp only [Vm.setShmem, Function.update_idem]

/-- `shmem_get_entry` once the cache has been looked at. -/
theorem getShmn_cache (ho : s.shmem o = some sh) (hs : sh.Store) {c : Option Shmn}
    (hc : ∀ m, c = some m → m ∈ sh.shmnList) (off : ℕ) (create : Bool) {found : Option Shmn}
    {s' : Vm}
    (h : getShmn (some o) off create s = .ok (found, s')) : ∃ sh' c', s'.shmem o = some sh' ∧
      getShmn (some o) off create (s.setShmem o (some { sh with shmnCache := c })) =
        .ok (found, s'.setShmem o (some { sh' with shmnCache := c' })) := by
  set sh₁ : Shmem := { sh with shmnCache := c } with hsh₁
  have ho₁ : (s.setShmem o (some sh₁)).shmem o = some sh₁ := Function.update_self ..
  have hs₁ : sh₁.Store := hs.setCache hc
  have hnode : sh₁.node off = sh.node off := rfl
  simp only [getShmn, getShmem_some ho, findShmn_eq hs, Res.ok_bind] at h
  simp only [getShmn, getShmem_some ho₁, findShmn_eq hs₁, Res.ok_bind, hnode, setShmem_idem]
  cases hn : sh.node off with
  | some m =>
    have hcov := (Shmem.mem_of_node hn).2
    simp only [hn, assert_pos hcov, Res.ok_bind, Res.pure_eq, Except.ok.injEq, Prod.mk.injEq] at h
    obtain ⟨rfl, rfl⟩ := h
    refine ⟨_, some m, Function.update_self .., ?_⟩
    simp only [assert_pos hcov, Res.ok_bind, Res.pure_eq, setShmem_idem]
    rfl
  | none =>
    simp only [hn] at h
    cases create with
    | false =>
      simp only [Bool.not_false, if_true, Res.pure_eq, Except.ok.injEq, Prod.mk.injEq] at h
      obtain ⟨rfl, rfl⟩ := h
      refine ⟨_, c, Function.update_self .., ?_⟩
      simp only [Bool.not_false, if_true, Res.pure_eq, setShmem_idem]
      rfl
    | true =>
      simp only [Bool.not_true, Bool.false_eq_true, if_false, shmnCreate_setShmem] at h ⊢
      cases hcreate : shmnCreate (roundDown off (pgSize * shmnNentry)) s with
      | error e =>
        rw [hcreate] at h
        cases h
      | ok r =>
        obtain ⟨_ | m, s₂⟩ := r
        · simp only [hcreate, Except.map, Res.ok_bind, Res.pure_eq, Except.ok.injEq,
            Prod.mk.injEq] at h
          obtain ⟨rfl, rfl⟩ := h
          refine ⟨_, c, Function.update_self .., ?_⟩
          simp only [Except.map, Res.ok_bind, Res.pure_eq, setShmem_idem]
          rfl
        · simp only [hcreate, Except.map, Res.ok_bind] at h
          obtain ⟨l, hins, h⟩ := Res.bind_eq_ok.1 h
          simp only [Res.pure_eq, Except.ok.injEq, Prod.mk.injEq] at h
          obtain ⟨rfl, rfl⟩ := h
          refine ⟨_, c, Function.update_self .., ?_⟩
          simp only [Except.map, Res.ok_bind, hsh₁, hins, Res.pure_eq, setShmem_idem]
          rfl

/-- **The cache never changes a result** of `shmem_get_entry`, nor anything but itself in the state
that it leaves. -/
theorem shmemGetEntry_cache (ho : s.shmem o = some sh) (hs : sh.Store) {c : Option Shmn}
    (hc : ∀ m, c = some m → m ∈ sh.shmnList) (off : ℕ) (create : Bool) {ret : Option (ℕ × ℕ)}
    {s' : Vm} (h : shmemGetEntry (some o) off create s = .ok (ret, s')) : ∃ sh' c',
      s'.shmem o = some sh' ∧
      shmemGetEntry (some o) off create (s.setShmem o (some { sh with shmnCache := c })) =
        .ok (ret, s'.setShmem o (some { sh' with shmnCache := c' })) := by
  have ho₁ : (s.setShmem o (some { sh with shmnCache := c })).shmem o =
    some { sh with shmnCache := c } := Function.update_self ..
  simp only [shmemGetEntry, getShmem_some ho, Res.ok_bind] at h
  simp only [shmemGetEntry, getShmem_some ho₁, Res.ok_bind]
  obtain ⟨u, hassert, h⟩ := Res.bind_eq_ok.1 h
  obtain ⟨⟨found, s₁⟩, hget, h⟩ := Res.bind_eq_ok.1 h
  obtain ⟨sh', c', ho', hget'⟩ := getShmn_cache ho hs hc _ create hget
  simp only [hassert, hget', Res.ok_bind]
  cases found with
  | none =>
    cases h
    exact ⟨sh', c', ho', rfl⟩
  | some m =>
    cases h
    refine ⟨sh', c', ?_, ?_⟩
    · rw [← ho', fillEntry]
      split
      · simp only [Vm.allocPage]
        rcases s₁.frames.take with ⟨_ | p, frames⟩
        · rfl
        · rfl
      · rfl
    · simp only [fillEntry_setShmem]
      rfl

end Store

end Ucore
