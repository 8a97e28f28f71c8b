import Ucore.World.Change
import Ucore.Pmm.Store

/-!
# Shared memory is coherent

An entry in a shared area refers to the frame that the object of the area has for the offset, and
every present entry has the permissions that its area allows.  `World.Coherent` states both for all
areas, and `Coherent.change` says that no change to the world breaks it.  It follows that all
mappings of one object show the same frame at the same offset (`World.shared_coherent`).

## The invariant

`Vma.Coherent i s a` is about one area `a` of the directory `i`, and has three parts: the
permissions of the present entries suit the flags of the area; the area, if it is shared, fits into
its object; and the frame of a present entry of a shared area is the one in the entry of the object.
The second part is what makes a fault in a shared area succeed: the object is asked for an offset
below its length.  It also has to be true of an object whose length is no multiple of the size of a
page (`Vma.Fits.offset_lt`).

## The plan

An area is coherent because of its own entries and those of its object.  So there are two things to
follow.

* Objects: an entry of an object that is not 0 stays what it is for as long as the object is there
  (`Vm.Persists`).  The calls that change an object at all are those of `shmem_get_entry`, and
  `Vm.Stored.persists` is about these.
* Areas: whatever an operation leaves is a piece of an area, a copy of one, a new area, or an area
  in which a fault has been served.  `Vma.Coherent.transfer` is the lemma behind all of these: an
  area is coherent if its entries come from a coherent one, by copying, or are 0.  The cases are
  `Vma.Coherent.piece`, `Vma.Coherent.copy`, `Vma.Coherent.of_empty` and `Vma.Coherent.fault`.

The fault is the only operation that makes an entry.  `faultIn_store` says that the new one refers
to the frame in the object, and that in a shared area the fault always returns.

`Coherent.change` has a case for each kind of `Change`, and `Run.coherent` is the rule
`Run.preserves` for it.
-/

set_option autoImplicit false

namespace Ucore

open Vm

/-! ## Entries that persist -/

/-- Objects that are still there keep their length, and their entries that are not 0. -/
def Vm.Persists (s s' : Vm) : Prop := ∀ o sh sh', s.shmem o = some sh → s'.shmem o = some sh' →
  sh.Store → sh'.Store ∧ sh'.len = sh.len ∧
    ∀ off p, (s.shmemEntry o off).target = some p → (s'.shmemEntry o off).target = some p

/-- The same nodes with the same entries. -/
theorem Vm.Persists.of_nodes {s s' : Vm} (h : ∀ o sh sh', s.shmem o = some sh →
    s'.shmem o = some sh' →
    sh'.shmnList = sh.shmnList ∧ sh'.shmnCache = sh.shmnCache ∧ sh'.len = sh.len ∧
    ∀ m i, s'.slots (.node o m, i) = s.slots (.node o m, i)) : s.Persists s' := by
  intro o sh sh' ho ho' hs
  obtain ⟨hlist, hcache, hlen, hslots⟩ := h o sh sh' ho ho'
  refine ⟨⟨?_, ?_, ?_, ?_⟩, hlen, fun off p hp => ?_⟩
  · rw [hlist]
    exact hs.start
  · rw [hlist]
    exact hs.stop
  · rw [hlist]
    exact hs.sorted
  · rw [hlist, hcache]
    exact hs.cache
  · have hnode : sh'.node off = sh.node off := by rw [Shmem.node, Shmem.node, hlist]
    rw [shmemEntry_eq ho] at hp
    rw [shmemEntry_eq ho', hnode]
    cases hn : sh.node off with
    | none =>
      rw [hn] at hp
      exact hp
    | some m =>
      rw [hn, Option.elim_some] at hp
      rw [Option.elim_some, hslots]
      exact hp

theorem SameNodes.persists {s s' : Vm} (h : SameNodes s s') : s.Persists s' := by
  refine .of_nodes fun o sh sh' ho ho' => ?_
  obtain ⟨sh₁, ho₁, hsame⟩ := h o sh' ho'
  rw [ho, Option.some.injEq] at ho₁
  rw [ho₁]
  exact hsame

/-- The objects stay sorted, if there are no new ones. -/
theorem Vm.Persists.store {s s' : Vm} (h : s.Persists s')
    (hstore : ∀ o sh, s.shmem o = some sh → sh.Store)
    (hold : ∀ o, s.shmem o = none → s'.shmem o = none)
    (o : ℕ) (sh' : Shmem) (ho' : s'.shmem o = some sh') : sh'.Store := by
  cases ho : s.shmem o with
  | none =>
    rw [hold o ho] at ho'
    cases ho'
  | some sh => exact (h o sh sh' ho ho' (hstore o sh ho)).1

theorem SameNodes.gone {s s' : Vm} (h : SameNodes s s') (o : ℕ) (ho : s.shmem o = none) :
    s'.shmem o = none := by
  cases ho' : s'.shmem o with
  | none => rfl
  | some sh' =>
    obtain ⟨sh, hsh, -⟩ := h o sh' ho'
    rw [ho] at hsh
    cases hsh

/-- Entries that are not 0 stay what they are when another one is asked for. -/
theorem Vm.Stored.persists {X : Finset ℕ} {o : ℕ} {sh sh' : Shmem} {s s' : Vm}
    (h : Stored X o sh sh' s s') (ho : s.shmem o = some sh)
    (hslots : ∀ x, s.slots x ≠ Pte.zero → s'.slots x = s.slots x) : s.Persists s' := by
  have hkeep : ∀ x p, (s.slots x).target = some p → s'.slots x = s.slots x := by
    intro x p hp
    refine hslots x fun hzero => ?_
    rw [hzero] at hp
    cases hp
  intro q shq shq' hq hq' hs
  by_cases hqo : q = o
  · subst hqo
    rw [ho, Option.some.injEq] at hq
    rw [h.shmem, Function.update_self, Option.some.injEq] at hq'
    subst hq
    subst hq'
    have ho' : s'.shmem q = some sh' := by rw [h.shmem, Function.update_self]
    refine ⟨h.store, h.len, fun off p hp => ?_⟩
    rw [shmemEntry_eq ho] at hp
    rw [shmemEntry_eq ho']
    cases hn : sh.node off with
    | none =>
      rw [hn] at hp
      cases hp
    | some m =>
      obtain ⟨hm, hcov⟩ := Shmem.mem_of_node hn
      rw [h.store.node_eq (h.nodes m hm) hcov, Option.elim_some]
      rw [hn, Option.elim_some] at hp
      rw [hkeep _ p hp]
      exact hp
  · rw [h.shmem, Function.update_of_ne hqo] at hq'
    rw [hq, Option.some.injEq] at hq'
    subst hq'
    have hq'' : s'.shmem q = some shq := by rw [h.shmem, Function.update_of_ne hqo, hq]
    refine ⟨hs, rfl, fun off p hp => ?_⟩
    rw [shmemEntry_eq hq] at hp
    rw [shmemEntry_eq hq'']
    cases hn : shq.node off with
    | none =>
      rw [hn] at hp
      cases hp
    | some m =>
      rw [hn, Option.elim_some] at hp
      rw [Option.elim_some, hkeep _ p hp]
      exact hp

/-- A change to page tables does not concern the objects. -/
theorem Vm.Persists.of_shmem {s s₁ s₂ : Vm} (h : s.Persists s₁) (hs : s₂.shmem = s₁.shmem)
    (hslots : ∀ o m i, s₂.slots (.node o m, i) = s₁.slots (.node o m, i)) : s.Persists s₂ := by
  intro o sh sh' ho ho' hst
  rw [hs] at ho'
  obtain ⟨h1, h2, h3⟩ := h o sh sh' ho ho' hst
  obtain ⟨-, -, h4⟩ := (SameNodes.of_eq hs hslots).persists o sh' sh' ho' (by rw [hs]; exact ho') h1
  exact ⟨h1, h2, fun off p hp => h4 off p (h3 off p hp)⟩

/-! ## Faults in shared areas -/

/-- The part of an object that an area shows lies inside of it. -/
structure Vma.Fits (len : ℕ) (a : Vma) : Prop where
  aligned : a.shmemOff % pgSize = 0
  le_top : a.shmemOff + (a.vmEnd - a.vmStart) ≤ userTop
  lt_len : a.shmemOff + (a.vmEnd - a.vmStart) < len + pgSize

/-- **The offset of a page is below the length**, whether or not that is a multiple of the size of a
page. -/
theorem Vma.Fits.offset_lt {len : ℕ} {a : Vma} (h : a.Fits len) (hval : a.Valid) {la : ℕ}
    (hla : la % pgSize = 0) (hhas : a.Has la) :
    a.offset la = la - a.vmStart + a.shmemOff ∧ a.offset la < len ∧ a.offset la < userTop := by
  obtain ⟨h1, h2, h3⟩ := h
  obtain ⟨h4, h5⟩ := hhas
  have h6 := hval.start_aligned
  have h7 := hval.end_aligned
  have hoff : a.offset la = la - a.vmStart + a.shmemOff := by
    rw [Vma.offset, addrAdd]
    refine Nat.mod_eq_of_lt ?_
    rw [userTop] at h2
    omega
  refine ⟨hoff, ?_, ?_⟩
  · rw [hoff]
    rw [pgSize] at *
    omega
  · rw [hoff]
    omega

section Fault

variable {s : Vm} {a : Vma} {o : ℕ} {sh : Shmem}

/-- **A fault on an entry that is 0, in a shared area, returns**, and a new entry refers to the
frame of the object. -/
theorem faultShared_store (H : s.Good ∅) (hshmem : a.shmem = some o) (ho : s.shmem o = some sh)
    (hok : sh.Ok) (hs : sh.Store) {d la f : ℕ} (hlen : a.offset la < sh.len)
    (htop : a.offset la < userTop) (hpde : s.pgdir d (pdx la) = some f) (ptep : ℕ × ℕ) :
    ∃ ret s', faultShared a d la ⟨a.vmFlags.write, true⟩ ptep s = .ok (ret, s') ∧ s.Persists s' ∧
      (ret = 0 → (s'.shmemEntry o (a.offset la)).target = (s'.slots (userSlot d la)).target) := by
  obtain ⟨s₁, sh', hget, hst, hslots, -⟩ := shmemGetEntry_store H ho hok hs hlen htop true
  have hkeep : s.Persists s₁ := by
    refine hst.persists ho fun x hx => ?_
    rcases hslots with hsame | ⟨-, m, -, hfill⟩
    · rw [hsame]
    · exact hfill.of_ne_zero hx
  have ho₁ : s₁.shmem o = some sh' := by rw [hst.shmem, Function.update_self]
  have hpde₁ : s₁.pgdir d (pdx la) = some f := by rw [hst.pgdir, hpde]
  have hoff : addrAdd (la - a.vmStart) a.shmemOff = a.offset la := rfl
  simp only [faultShared, hshmem, hoff, hget, Res.ok_bind]
  cases hn : sh'.node (a.offset la) with
  | none => exact ⟨-eNoMem, s₁, rfl, hkeep, fun h => absurd h (by decide)⟩
  | some m =>
    obtain ⟨hm, hcov⟩ := Shmem.mem_of_node hn
    set x := (Owner.node o m, a.offset la / pgSize % shmnNentry) with hx
    have hT : s₁.tableOf (.node o m) = some m.entry := by rw [tableOf_node ho₁, if_pos hm]
    have hpte : s₁.pte (m.entry, a.offset la / pgSize % shmnNentry) = s₁.slots x := Inv.pte_eq hT _
    simp only [Option.map_some, hpte]
    cases htarget : (s₁.slots x).target with
    | none =>
      have hz : s₁.slots x = Pte.zero := hst.good.absent x htarget
      refine ⟨-eNoMem, s₁, ?_, hkeep, fun h => absurd h (by decide)⟩
      rw [if_pos hz]
      rfl
    | some p =>
      obtain ⟨hpres, hframe⟩ := Pte.target_eq_some.1 htarget
      have hne : s₁.slots x ≠ Pte.zero := by
        intro h
        rw [h] at hpres
        cases hpres
      obtain ⟨s₂, hins, H₂, hslots₂, hgrow⟩ := pageInsert_found hst.good hpde₁ (.inr ⟨x, htarget⟩)
        ⟨a.vmFlags.write, true⟩
      have hnode : ∀ q n i, s₂.slots (.node q n, i) = s₁.slots (.node q n, i) := by
        intro q n i
        rw [hslots₂, Function.update_of_ne fun h => by cases congrArg Prod.fst h]
      refine ⟨0, s₂, ?_, hkeep.of_shmem hgrow.shmem hnode, fun _ => ?_⟩
      · rw [if_neg hne, hpres, if_pos rfl, hframe, hins]
        rfl
      · have hindex : (a.offset la - m.start) / pgSize = a.offset la / pgSize % shmnNentry := by
          have h1 := (hst.store.covers_iff hm).1 hcov
          simp only [roundDown, pgSize, shmnNentry] at *
          omega
        rw [shmemEntry_eq (by rw [hgrow.shmem]; exact ho₁), hn, Option.elim_some, hindex, hnode,
          ← hx, htarget, hslots₂, Function.update_self]
        rfl

/-- **A fault in a shared area.**  It returns if the entry is not present.  If it has returned 0,
the entry refers to the frame of the object. -/
theorem faultIn_store (H : s.Good ∅) (ha : a.vmFlags.share = true) (hshmem : a.shmem = some o)
    (ho : s.shmem o = some sh) (hok : sh.Ok) (hs : sh.Store) {addr : ℕ}
    (hlen : a.offset (roundDown addr pgSize) < sh.len)
    (htop : a.offset (roundDown addr pgSize) < userTop) (d errorCode : ℕ) :
    ((s.slots (userSlot d addr)).present = false → ∃ r, faultIn a d errorCode addr s = .ok r) ∧
    ∀ ret s', faultIn a d errorCode addr s = .ok (ret, s') → s.Persists s' ∧
      (ret = 0 → (s'.shmemEntry o (a.offset (roundDown addr pgSize))).target =
        (s'.slots (userSlot d addr)).target) := by
  have hrefl : s.Persists s := (SameNodes.of_eq rfl fun _ _ _ => rfl).persists
  rw [← userSlot_roundDown d addr, faultIn]
  by_cases hallow : faultAllowed a.vmFlags errorCode = true
  · simp only [hallow, Bool.not_true, Bool.false_eq_true, if_false]
    set la := roundDown addr pgSize with hla
    rcases getPte_spec H d la with ⟨s₁, hget, H₁, hslots, -, hrest⟩ |
      ⟨f, s₁, hget, H₁, hslots, hpde, hgrow⟩
    · rw [hget]
      refine ⟨fun _ => ⟨_, rfl⟩, ?_⟩
      rintro ret s' ⟨⟩
      exact ⟨hrefl.of_shmem hrest.shmem fun q m i => by rw [hslots], fun h => absurd h (by decide)⟩
    · rw [hget]
      have hT : s₁.tableOf (.dir d (pdx la)) = some f := hpde
      have hpte : s₁.pte (f, ptx la) = s.slots (userSlot d la) := by
        rw [← hslots]
        exact Inv.pte_eq hT _
      have hgrown : s.Persists s₁ := hrefl.of_shmem hgrow.shmem fun q m i => by rw [hslots]
      simp only [hpte]
      cases htarget : (s.slots (userSlot d la)).target with
      | none =>
        have hz : s.slots (userSlot d la) = Pte.zero := H.absent _ htarget
        simp only [if_pos hz, ha, Bool.not_true, Bool.false_eq_true, if_false]
        obtain ⟨ret, s', hrun, hkeep, hentry⟩ := faultShared_store H₁ hshmem
          (by rw [hgrow.shmem]; exact ho) hok hs hlen htop hpde (f, ptx la)
        refine ⟨fun _ => ⟨_, hrun⟩, fun ret' s'' h => ?_⟩
        rw [hrun] at h
        cases h
        refine ⟨fun q shq shq' hq hq' hst => ?_, hentry⟩
        have hq₁ : s₁.shmem q = some shq := by rw [hgrow.shmem, hq]
        obtain ⟨h1, h2, h3⟩ := hkeep q shq shq' hq₁ hq' hst
        exact ⟨h1, h2, fun off p hp => h3 off p ((hgrown q shq shq hq hq₁ hst).2.2 off p hp)⟩
      | some q =>
        -- there is no copy on write in a shared area
        obtain ⟨hpres, -⟩ := Pte.target_eq_some.1 htarget
        have hne : s.slots (userSlot d la) ≠ Pte.zero := by
          intro h
          rw [h] at hpres
          cases hpres
        have hstop : faultCow a d errorCode la ⟨a.vmFlags.write, true⟩ (f, ptx la) s₁ =
            .error .assertion := by
          simp only [faultCow, hpte, hpres, ha, Bool.not_true, Bool.and_false, Bool.false_eq_true,
            and_false, or_false, Bool.true_eq_false, assert, if_false]
          rfl
        simp only [if_neg hne, hstop]
        refine ⟨fun h => ?_, fun ret s' h => by cases h⟩
        rw [hpres] at h
        cases h
  · rw [Bool.not_eq_true] at hallow
    simp only [hallow, Bool.not_false, if_true]
    refine ⟨fun _ => ⟨_, rfl⟩, ?_⟩
    rintro ret s' ⟨⟩
    exact ⟨hrefl, fun h => absurd h (by decide)⟩

end Fault

/-! ## The invariant -/

/-- The permissions that an entry in the area `a` may have. -/
structure Perm.Suits (a : Vma) (perm : Perm) : Prop where
  user : perm.user = true
  writable : perm.writable = true → a.vmFlags.write = true
  shared : a.vmFlags.share = true → a.vmFlags.write = true → perm.writable = true

/-- The entries for the area `a` in the directory `i` are what they should be. -/
structure Vma.Coherent (i : ℕ) (s : Vm) (a : Vma) : Prop where
  perm : ∀ la, a.Has la → (s.slots (userSlot i la)).present = true →
    (s.slots (userSlot i la)).perm.Suits a
  fits : a.vmFlags.share = true → ∀ o sh, a.shmem = some o → s.shmem o = some sh → a.Fits sh.len
  shows : a.vmFlags.share = true → ∀ o, a.shmem = some o → ∀ la p, la % pgSize = 0 → a.Has la →
    (s.slots (userSlot i la)).target = some p → (s.shmemEntry o (a.offset la)).target = some p

/-- **Every area is coherent.** -/
structure World.Coherent (w : World) : Prop where
  store : ∀ o sh, w.vm.shmem o = some sh → sh.Store
  area : ∀ i ∈ w.mms, ∀ a ∈ (w.mm i).areas, a.Coherent i w.vm

theorem Perm.Suits.protect {a b : Vma} {e : Pte} (h : e.perm.Suits a) (hf : b.vmFlags = a.vmFlags)
    {share : Bool} (hshare : a.vmFlags.share = true → share = true) :
    (e.protect share).perm.Suits b := by
  cases share with
  | true =>
    refine ⟨h.user, ?_, ?_⟩
    · rw [hf]
      exact h.writable
    · rw [hf]
      exact h.shared
  | false => exact ⟨h.user, nofun, fun hb => by rw [hf] at hb; cases hshare hb⟩

section Area

variable {a b : Vma} {i j : ℕ} {s s' : Vm}

/-- The lengths of objects do not change. -/
theorem Vma.Coherent.fits_after (h : a.Coherent i s) (hp : s.Persists s')
    (hstore : ∀ o sh, s.shmem o = some sh → sh.Store) (hobj : a.Backed s)
    (hshare : a.vmFlags.share = true) {o : ℕ} {sh' : Shmem} (ho : a.shmem = some o)
    (hsh' : s'.shmem o = some sh') : a.Fits sh'.len := by
  obtain ⟨o₁, sh, ho₁, hsh, -⟩ := hobj hshare
  rw [ho, Option.some.injEq] at ho₁
  subst ho₁
  rw [(hp o sh sh' hsh hsh' (hstore o sh hsh)).2.1]
  exact h.fits hshare o sh ho hsh

/-- An entry of the object stays what it is, as long as the object is there. -/
theorem Vma.Coherent.shows_after (h : a.Coherent i s) (hp : s.Persists s')
    (hstore : ∀ o sh, s.shmem o = some sh → sh.Store) (hobj : a.Backed s)
    (hshare : a.vmFlags.share = true) {o : ℕ} (ho : a.shmem = some o) (ho' : s'.shmem o ≠ none)
    {la p : ℕ} (hpage : la % pgSize = 0) (hla : a.Has la)
    (ht : (s.slots (userSlot i la)).target = some p) :
    (s'.shmemEntry o (a.offset la)).target = some p := by
  obtain ⟨o₁, sh, ho₁, hsh, -⟩ := hobj hshare
  rw [ho, Option.some.injEq] at ho₁
  subst ho₁
  obtain ⟨sh', hsh'⟩ := Option.ne_none_iff_exists'.1 ho'
  exact (hp o sh sh' hsh hsh' (hstore o sh hsh)).2.2 _ p (h.shows hshare o ho la p hpage hla ht)

/-- The object of an area that has one. -/
theorem Vma.Backed.object (h : a.Backed s) (hshare : a.vmFlags.share = true) {o : ℕ}
    (ho : a.shmem = some o) : s.shmem o ≠ none := by
  obtain ⟨o', sh, ho', hsh, -⟩ := h hshare
  rw [ho, Option.some.injEq] at ho'
  rw [ho', hsh]
  exact Option.some_ne_none sh

/-- **An area is coherent if its entries come from a coherent one**, by copying, or are 0. -/
theorem Vma.Coherent.transfer (h : a.Coherent i s)
    (hp : s.Persists s') (hstore : ∀ o sh, s.shmem o = some sh → sh.Store)
    (hobj : a.Backed s) (hobj' : b.Backed s')
    (hf : b.vmFlags = a.vmFlags) (hhas : ∀ la, b.Has la → a.Has la)
    (hshmem : a.vmFlags.share = true → b.shmem = a.shmem)
    (hoff : a.vmFlags.share = true → ∀ la, b.Has la → b.offset la = a.offset la)
    (hfits : a.vmFlags.share = true → ∀ len, a.Fits len → b.Fits len)
    (hslots : ∀ la, b.Has la → s'.slots (userSlot j la) = Pte.zero ∨ ∃ share,
      (a.vmFlags.share = true → share = true) ∧
      s'.slots (userSlot j la) = (s.slots (userSlot i la)).protect share) : b.Coherent j s' := by
  refine ⟨fun la hla hpres => ?_, fun hshare o sh' ho hsh' => ?_,
    fun hshare o ho la p hpage hla ht => ?_⟩
  · rcases hslots la hla with hz | ⟨share, hshare, heq⟩
    · rw [hz] at hpres
      cases hpres
    · rw [heq] at hpres ⊢
      have hpres' : (s.slots (userSlot i la)).present = true := by
        cases share
        · exact hpres
        · exact hpres
      exact (h.perm la (hhas la hla) hpres').protect hf hshare
  · rw [hf] at hshare
    rw [hshmem hshare] at ho
    exact hfits hshare _ (h.fits_after hp hstore hobj hshare ho hsh')
  · have ho' := hobj'.object hshare ho
    rw [hf] at hshare
    rw [hshmem hshare] at ho
    rw [hoff hshare la hla]
    refine h.shows_after hp hstore hobj hshare ho ho' hpage (hhas la hla) ?_
    rcases hslots la hla with hz | ⟨share, -, heq⟩
    · rw [hz] at ht
      cases ht
    · rw [heq, Pte.protect_target] at ht
      exact ht

/-- The same area with the same entries. -/
theorem Vma.Coherent.keep (h : a.Coherent i s) (hp : s.Persists s')
    (hstore : ∀ o sh, s.shmem o = some sh → sh.Store) (hobj : a.Backed s) (hobj' : a.Backed s')
    (hslots : ∀ la, a.Has la → s'.slots (userSlot i la) = s.slots (userSlot i la)) :
    a.Coherent i s' :=
  h.transfer hp hstore hobj hobj' rfl (fun _ hla => hla) (fun _ => rfl) (fun _ _ _ => rfl)
    (fun _ _ hfits => hfits) fun la hla => .inr ⟨true, fun _ => rfl, hslots la hla⟩

/-- An area without entries. -/
theorem Vma.Coherent.of_empty
    (hfits : a.vmFlags.share = true → ∀ o sh, a.shmem = some o → s.shmem o = some sh →
    a.Fits sh.len)
    (hempty : ∀ la, a.Has la → (s.slots (userSlot i la)).present = false) : a.Coherent i s := by
  refine ⟨fun la hla hpres => ?_, hfits, fun _ o _ la p _ hla ht => ?_⟩
  · rw [hempty la hla] at hpres
    cases hpres
  · rw [Pte.target_eq_none.2 (hempty la hla)] at ht
    cases ht

/-- A piece of an area shows what the area shows. -/
theorem Vma.Fits.piece {start stop len : ℕ} (h : a.Fits len) (hval : a.Valid)
    (hval' : b.Valid) (hshare : a.vmFlags.share = true) (hhole : ¬ a.Hole start stop)
    (hb : b ∈ a.pieces start stop) :
    b.Fits len ∧ b.shmem = a.shmem ∧ ∀ la, b.Has la → b.offset la = a.offset la := by
  have hresize : ∀ lo hi, a.vmStart ≤ lo → hi ≤ a.vmEnd → b = a.resize lo hi →
      b.Fits len ∧ b.shmem = a.shmem ∧ ∀ la, b.Has la → b.offset la = a.offset la := by
    rintro lo hi hlo hhi rfl
    have h1 := hval'.start_aligned
    have h2 := hval'.lt
    have h3 := hval.start_aligned
    obtain ⟨h4, h5, h6⟩ := h
    rw [Vma.resize_start] at h1 h2
    rw [Vma.resize_end] at h2
    have hoff : (a.resize lo hi).shmemOff = a.shmemOff + (lo - a.vmStart) := by
      simp only [Vma.resize, hshare, if_true, addrAdd]
      refine Nat.mod_eq_of_lt ?_
      rw [userTop] at h5
      omega
    refine ⟨⟨?_, ?_, ?_⟩, rfl, fun la hla => Vma.offset_resize hshare hlo hla.1⟩
    · rw [hoff]
      rw [pgSize] at *
      omega
    · rw [hoff, Vma.resize_start, Vma.resize_end]
      omega
    · rw [hoff, Vma.resize_start, Vma.resize_end]
      omega
  rw [Vma.pieces] at hb
  split_ifs at hb with hmiss hcut hleft hright
  · rw [List.mem_singleton.1 hb]
    exact ⟨h, rfl, fun _ _ => rfl⟩
  · exact absurd hcut hhole
  · exact hresize a.vmStart start le_rfl (by omega) (List.mem_singleton.1 hb)
  · exact hresize stop a.vmEnd (by omega) le_rfl (List.mem_singleton.1 hb)
  · exact absurd hb List.not_mem_nil

/-- **A piece of a coherent area is coherent**, if its entries have not been touched. -/
theorem Vma.Coherent.piece {start stop : ℕ} (h : a.Coherent i s) (hp : s.Persists s')
    (hstore : ∀ o sh, s.shmem o = some sh → sh.Store) (hobj : a.Backed s) (hobj' : b.Backed s')
    (hval : a.Valid) (hval' : b.Valid) (hlt : start < stop)
    (hhole : a.vmFlags.share = true → ¬ a.Hole start stop) (hb : b ∈ a.pieces start stop)
    (hslots : ∀ la, b.Has la → s'.slots (userSlot i la) = s.slots (userSlot i la)) :
    b.Coherent i s' := by
  have hfits : a.vmFlags.share = true → ∀ len, a.Fits len →
      b.Fits len ∧ b.shmem = a.shmem ∧ ∀ la, b.Has la → b.offset la = a.offset la :=
    fun hshare len hf => hf.piece hval hval' hshare (hhole hshare) hb
  have hfit : a.vmFlags.share = true → ∃ len, a.Fits len := by
    intro hshare
    obtain ⟨o, sh, ho, hsh, -⟩ := hobj hshare
    exact ⟨sh.len, h.fits hshare o sh ho hsh⟩
  refine h.transfer hp hstore hobj hobj' (Vma.of_mem_pieces hb).1
    (fun la hla => (hla.of_piece hlt hb).1) (fun hshare => ?_) (fun hshare la hla => ?_)
    (fun hshare len hf => (hfits hshare len hf).1) fun la hla =>
      .inr ⟨true, fun _ => rfl, hslots la hla⟩
  · obtain ⟨len, hf⟩ := hfit hshare
    exact (hfits hshare len hf).2.1
  · obtain ⟨len, hf⟩ := hfit hshare
    exact (hfits hshare len hf).2.2 la hla

/-- **The copy of a coherent area is coherent.** -/
theorem Vma.Coherent.copy (h : a.Coherent i s) (hp : s.Persists s')
    (hstore : ∀ o sh, s.shmem o = some sh → sh.Store) (hobj : a.Backed s) (hobj' : a.dup.Backed s')
    (hslots : ∀ la, a.Has la → s'.slots (userSlot j la) = Pte.zero ∨
      s'.slots (userSlot j la) = (s.slots (userSlot i la)).protect a.vmFlags.share) :
    a.dup.Coherent j s' := by
  have hdup : a.vmFlags.share = true → a.dup = a := fun hshare => by rw [Vma.dup, if_pos hshare]
  have hhas : ∀ la, a.dup.Has la → a.Has la := by
    intro la hla
    rw [Vma.Has, Vma.dup_start, Vma.dup_end] at hla
    exact hla
  refine h.transfer hp hstore hobj hobj' (Vma.dup_flags a) hhas (fun hshare => by rw [hdup hshare])
    (fun hshare la _ => by rw [hdup hshare]) (fun hshare len hf => by rw [hdup hshare]; exact hf)
    fun la hla => ?_
  rcases hslots la (hhas la hla) with hzero | hcopy
  · exact .inl hzero
  · exact .inr ⟨a.vmFlags.share, id, hcopy⟩

/-- **An area is coherent after a fault in it has been served.** -/
theorem Vma.Coherent.fault {addr p : ℕ} (h : a.Coherent i s) (hp : s.Persists s')
    (hstore : ∀ o sh, s.shmem o = some sh → sh.Store) (hobj : a.Backed s) (hobj' : a.Backed s')
    (hnew : s'.slots (userSlot i addr) = ⟨p, true, ⟨a.vmFlags.write, true⟩⟩)
    (hother : ∀ la, userSlot i la ≠ userSlot i addr →
      s'.slots (userSlot i la) = s.slots (userSlot i la))
    (hentry : a.vmFlags.share = true → ∀ o, a.shmem = some o →
      (s'.shmemEntry o (a.offset (roundDown addr pgSize))).target =
        (s'.slots (userSlot i addr)).target) : a.Coherent i s' := by
  refine ⟨fun la hla hpres => ?_, fun hshare o sh' ho hsh' => ?_, ?_⟩
  · by_cases hx : userSlot i la = userSlot i addr
    · rw [hx, hnew]
      exact ⟨rfl, id, fun _ => id⟩
    · rw [hother la hx] at hpres ⊢
      exact h.perm la hla hpres
  · exact h.fits_after hp hstore hobj hshare ho hsh'
  · intro hshare o ho la q hpage hla ht
    by_cases hx : userSlot i la = userSlot i addr
    · have hla' : roundDown addr pgSize = la := by
        have h1 := (userSlot_inj.1 hx).2
        simp only [roundDown, pgSize] at *
        omega
      rw [← hla', hentry hshare o ho, ← hx]
      exact ht
    · rw [hother la hx] at ht
      exact h.shows_after hp hstore hobj hshare ho (hobj'.object hshare ho) hpage hla ht

end Area

/-- An object without nodes. -/
theorem Shmem.Store.of_empty {sh : Shmem} (hlist : sh.shmnList = [])
    (hcache : sh.shmnCache = none) :
    sh.Store := by
  refine ⟨?_, ?_, ?_, ?_⟩
  · rw [hlist]
    exact fun m hm => absurd hm List.not_mem_nil
  · rw [hlist]
    exact fun m hm => absurd hm List.not_mem_nil
  · rw [hlist]
    exact List.Pairwise.nil
  · rw [hcache]
    exact fun m hm => absurd hm (Option.some_ne_none m).symm

namespace World

variable {w w' : World} {i : ℕ}

/-- An operation on one address space. -/
theorem Coherent.set (C : w.Coherent) (H : w.Inv) {mm : Mm} {vm : Vm} (H' : (w.set i mm vm).Inv)
    (hp : w.vm.Persists vm) (hstore : ∀ o sh, vm.shmem o = some sh → sh.Store)
    (hbut : SameBut i w.vm vm) (hareas : ∀ a ∈ mm.areas, a.Coherent i vm) :
    (w.set i mm vm).Coherent := by
  refine ⟨hstore, fun j hj a ha => ?_⟩
  have hobj' := H'.areas_backed hj a ha
  by_cases hji : j = i
  · subst hji
    rw [set_mm_self] at ha
    exact hareas a ha
  · rw [set_mm_of_ne w hji] at ha
    exact (C.area j hj a ha).keep hp C.store (H.areas_backed hj a ha) hobj'
      fun la _ => hbut j hji _ _

/-- Only the memory changes. -/
theorem Coherent.setVm (C : w.Coherent) (H : w.Inv) {vm : Vm}
    (H' : ({ w with vm := vm } : World).Inv)
    (hp : w.vm.Persists vm) (hstore : ∀ o sh, vm.shmem o = some sh → sh.Store)
    (hslots : SameDirs w.vm vm) : ({ w with vm := vm } : World).Coherent :=
  ⟨hstore, fun j hj a ha => (C.area j hj a ha).keep hp C.store (H.areas_backed hj a ha)
    (H'.areas_backed hj a ha) fun _ _ => hslots j _ _⟩

/-- A new area lies where nothing is mapped. -/
theorem Inv.unmapped_of_new (H : w.Inv) (hi : i ∈ w.mms) {a : Vma}
    (hnew : ∀ b ∈ (w.mm i).areas, ∀ la, a.Has la → ¬ b.Has la) (la : ℕ) (hla : a.Has la) :
    (w.vm.slots (userSlot i la)).present = false := by
  by_contra hpres
  rw [Bool.not_eq_false] at hpres
  obtain ⟨b, hb, hhas⟩ := H.covered i hi la hpres
  exact hnew b hb la hla hhas

/-- `mm_map_shmem` maps the pages of the object, the last of which may be a part of one only. -/
theorem fits_of_mapShmem {addr len o : ℕ} {flags : VmFlags} (haddr : addr % pgSize = 0)
    (hval : (⟨roundDown addr pgSize, roundUp (addrAdd addr len) pgSize, flags, some o,
    0⟩ : Vma).Valid) :
    (⟨roundDown addr pgSize, roundUp (addrAdd addr len) pgSize, flags, some o,
    0⟩ : Vma).Fits len := by
  have hstart : roundDown addr pgSize = addr := by rw [roundDown, haddr, Nat.sub_zero]
  have hstop : roundUp (addrAdd addr len) pgSize ≤ addr + len + (pgSize - 1) := by
    have h1 := roundDown_le (addrAdd (addrAdd addr len) (pgSize - 1)) pgSize
    have h2 : addrAdd (addrAdd addr len) (pgSize - 1) ≤ addrAdd addr len + (pgSize - 1) :=
      Nat.mod_le _ _
    have h3 : addrAdd addr len ≤ addr + len := Nat.mod_le _ _
    rw [roundUp]
    omega
  have hle := hval.le_top
  refine ⟨rfl, ?_, ?_⟩
  · show 0 + (roundUp (addrAdd addr len) pgSize - roundDown addr pgSize) ≤ userTop
    have hle' : roundUp (addrAdd addr len) pgSize ≤ userTop := hle
    omega
  · show 0 + (roundUp (addrAdd addr len) pgSize - roundDown addr pgSize) < len + pgSize
    rw [hstart]
    rw [pgSize] at *
    omega

/-- Two areas of an address space with a common address are one area. -/
theorem Inv.area_eq (H : w.Inv) (hi : i ∈ w.mms) {a b : Vma} (ha : a ∈ (w.mm i).areas)
    (hb : b ∈ (w.mm i).areas) {la : ℕ} (hla : a.Has la) (hlb : b.Has la) : b = a := by
  obtain ⟨l, r, hlr⟩ := List.append_of_mem ha
  rw [hlr, List.mem_append, List.mem_cons] at hb
  rcases hb with hb | hb | hb
  · exact absurd hlb (Inv.disjoint_insert (H.mm i hi) hlr (List.mem_append_left _ hb) hla)
  · exact hb
  · exact absurd hlb (Inv.disjoint_insert (H.mm i hi) hlr (List.mem_append_right _ hb) hla)

/-- A fault at a page of a shared area.  The area fits into its object, so the object has an entry
for the page. -/
theorem Coherent.faultIn_shared (C : w.Coherent) (H : w.Inv) (hi : i ∈ w.mms) {a : Vma}
    (ha : a ∈ (w.mm i).areas) (hshare : a.vmFlags.share = true) {addr : ℕ} (hhas : a.Has addr)
    (errorCode : ℕ) :
    ∃ o, a.shmem = some o ∧
      ((w.vm.slots (userSlot i addr)).present = false →
        ∃ r, faultIn a i errorCode addr w.vm = .ok r) ∧
      ∀ ret vm, faultIn a i errorCode addr w.vm = .ok (ret, vm) → w.vm.Persists vm ∧
        (ret = 0 → (vm.shmemEntry o (a.offset (roundDown addr pgSize))).target =
          (vm.slots (userSlot i addr)).target) := by
  obtain ⟨o, sh, ho, hsh, hok⟩ := H.areas_backed hi a ha hshare
  have hval := (H.mm i hi).area_valid ha
  have hround : a.Has (roundDown addr pgSize) := by
    refine hhas.page hval ?_
    simp only [roundDown, pgSize]
    omega
  obtain ⟨-, hlen, htop⟩ := ((C.area i hi a ha).fits hshare o sh ho hsh).offset_lt hval
    (roundDown_mod addr pgSize) hround
  exact ⟨o, ho, faultIn_store H.good hshare ho hsh hok (C.store o sh hsh) hlen htop i errorCode⟩

/-- **What a fault in a coherent area does to the objects.** -/
theorem Coherent.faulted (C : w.Coherent) (H : w.Inv) (hi : i ∈ w.mms) {a : Vma}
    (ha : a ∈ (w.mm i).areas) {errorCode addr : ℕ} (hhas : a.Has addr) {ret : ℤ} {vm : Vm}
    (hrun : faultIn a i errorCode addr w.vm = .ok (ret, vm)) (hf : Faulted a i addr ret w.vm vm) :
    w.vm.Persists vm ∧ (ret = 0 → a.vmFlags.share = true → ∀ o, a.shmem = some o →
      (vm.shmemEntry o (a.offset (roundDown addr pgSize))).target =
        (vm.slots (userSlot i addr)).target) := by
  cases hshare : a.vmFlags.share with
  | false =>
    obtain ⟨hshmem, hslots⟩ := hf.pure hshare
    exact ⟨(SameNodes.of_eq hshmem hslots).persists, fun _ h => by cases h⟩
  | true =>
    obtain ⟨o, ho, -, hdone⟩ := C.faultIn_shared H hi ha hshare hhas errorCode
    obtain ⟨hp, hentry⟩ := hdone ret vm hrun
    refine ⟨hp, fun hret _ o' ho' => ?_⟩
    rw [ho, Option.some.injEq] at ho'
    rw [← ho']
    exact hentry hret

/-- **No change breaks coherence.** -/
theorem Coherent.change (H : w.Inv) (H' : w'.Inv) (h : Change w w') (C : w.Coherent) :
    w'.Coherent := by
  have hrefl : w.vm.Persists w.vm := (SameNodes.of_eq rfl fun _ _ _ => rfl).persists
  cases h with
  | create hareas =>
    refine ⟨C.store, fun j hj a ha => ?_⟩
    by_cases hjn : j = w.next
    · rw [hjn, add_mm_next, hareas] at ha
      exact absurd ha List.not_mem_nil
    · rw [add_mm_of_ne w hjn] at ha
      exact C.area j ((Finset.mem_insert.1 hj).resolve_left hjn) a ha
  | @object vm o sh hslots hfresh hshmem hlist hcache =>
    have hold : ∀ q shq, w.vm.shmem q = some shq → q ≠ o := by
      rintro q shq hq rfl
      rw [hfresh] at hq
      cases hq
    refine C.setVm H H' (.of_nodes fun q shq shq' hq hq' => ?_) (fun q shq hq => ?_) fun e k j => ?_
    · rw [hshmem, Function.update_of_ne (hold q shq hq), hq, Option.some.injEq] at hq'
      rw [hslots, hq']
      exact ⟨rfl, rfl, rfl, fun _ _ => rfl⟩
    · rw [hshmem] at hq
      by_cases hqo : q = o
      · rw [hqo, Function.update_self, Option.some.injEq] at hq
        rw [← hq]
        exact .of_empty hlist hcache
      · rw [Function.update_of_ne hqo] at hq
        exact C.store q shq hq
    · rw [hslots]
  | memory hslots hshmem =>
    refine C.setVm H H' (SameNodes.of_eq hshmem fun _ _ _ => by rw [hslots]).persists ?_
      fun e k j => by rw [hslots]
    rw [hshmem]
    exact C.store
  | cache hi hareas =>
    refine C.set H H' hrefl C.store (fun _ _ _ _ => rfl) ?_
    rw [hareas]
    exact C.area _ hi
  | map hi hnew =>
    refine C.set H H' hrefl C.store (fun _ _ _ _ => rfl) fun a ha => ?_
    rcases hnew a ha with ha | ⟨hshare, hnew⟩
    · exact C.area _ hi a ha
    · refine .of_empty (fun h => ?_) (H.unmapped_of_new hi hnew)
      rw [hshare] at h
      cases h
  | @mapShmem i addr flags mm vm hi hnodes hdirs Hm hnew =>
    have hp := hnodes.persists
    refine C.set H H' hp (hp.store C.store hnodes.gone) (fun e _ => hdirs e) fun a ha => ?_
    rcases hnew a ha with hold | ⟨hnew, o, sh, haddr, hsh, rfl⟩
    · exact (C.area i hi a hold).keep hp C.store (H.areas_backed hi a hold)
        (H'.areas_backed hi a (by rw [set_mm_self]; exact ha)) fun la _ => hdirs _ _ _
    · refine .of_empty (fun _ o' sh' ho' hsh' => ?_) fun la hla => ?_
      · cases ho'
        rw [(hp o sh sh' hsh hsh' (C.store o sh hsh)).2.1]
        exact fits_of_mapShmem haddr (Hm.area_valid ha)
      · have hnone := H.unmapped_of_new hi hnew la hla
        rw [userSlot, ← hdirs] at hnone
        exact hnone
  | @unmap i start stop mm vm hi hnodes hlt Hm hareas hun hhole =>
    have hp := hnodes.persists
    refine C.set H H' hp (hp.store C.store hnodes.gone) (fun e he k j => ?_) fun b hb => ?_
    · refine hun.other e k j fun a _ la _ _ _ h => he ?_
      exact dir_of_eq_userSlot h
    · have hval' := Hm.area_valid hb
      have hobj' := H'.areas_backed hi b (by rw [set_mm_self]; exact hb)
      rw [hareas] at hb
      obtain ⟨a, ha, hb⟩ := List.mem_flatMap.1 hb
      refine (C.area i hi a ha).piece hp C.store (H.areas_backed hi a ha) hobj'
        ((H.mm i hi).area_valid ha) hval' hlt (hhole a ha) hb fun la hla => ?_
      -- the entries of a piece lie outside of the range
      refine hun.other i (pdx la) (ptx la) fun c _ lb h1 h2 _ heq => ?_
      have hlb := hla.page hval' (userSlot_inj.1 (show userSlot i la = userSlot i lb from heq)).2
      have hout := (hlb.of_piece hlt hb).2
      omega
  | @fault i errorCode addr ret a mm vm hi ha hhas hareas hrun hf =>
    obtain ⟨hp, hentry⟩ := C.faulted H hi ha hhas hrun hf
    have hgone := fun o => (Inv.faulted_objects hf o).2
    refine C.set H H' hp (hp.store C.store hgone) (fun e he k j => ?_) fun b hb => ?_
    · exact Inv.faulted_dirs hf fun h => he (dir_of_eq_userSlot h)
    · have hobj' := H'.areas_backed hi b (by rw [set_mm_self]; exact hb)
      rw [hareas] at hb
      have hobj := H.areas_backed hi b hb
      have hval := (H.mm i hi).area_valid ha
      by_cases hret : ret = 0
      · have hother : ∀ la, userSlot i la ≠ userSlot i addr →
            vm.slots (userSlot i la) = w.vm.slots (userSlot i la) :=
          fun la hx => Inv.faulted_dirs hf hx
        by_cases hba : b = a
        · subst hba
          obtain ⟨p, hslots, -⟩ := hf.done hret
          have hnew : vm.slots (userSlot i addr) = ⟨p, true, ⟨b.vmFlags.write, true⟩⟩ :=
            (hslots i (pdx addr) (ptx addr)).trans (Function.update_self ..)
          exact (C.area i hi b hb).fault hp C.store hobj hobj' hnew hother (hentry hret)
        · refine (C.area i hi b hb).keep hp C.store hobj hobj' fun la hla => hother la fun hx =>
            hba ?_
          exact H.area_eq hi ha hb (hhas.page hval (userSlot_inj.1 hx).2.symm) hla
      · exact (C.area i hi b hb).keep hp C.store hobj hobj' fun la _ => (hf.fail hret).1 _ _ _
  | @dup i mm vm as cs hi hnodes hareas hcopy hdup =>
    have hp := hnodes.persists
    have hcs : ∀ c ∈ cs, c ∈ (w.mm i).areas := fun c hc => by
      rw [hareas]
      exact List.mem_append_right _ hc
    refine ⟨hp.store C.store hnodes.gone, fun j hj b hb => ?_⟩
    have hobj' := H'.areas_backed hj b hb
    by_cases hjn : j = w.next
    · -- an area of the copy
      subst hjn
      rw [add_mm_next, hcopy] at hb
      obtain ⟨c, hc, rfl⟩ := List.mem_map.1 hb
      refine (C.area i hi c (hcs c hc)).copy hp C.store (H.areas_backed hi c (hcs c hc)) hobj'
        fun la hla => ?_
      rcases hdup.copy c hc la hla with hcop | hsame
      · exact .inr hcop.1
      · exact .inl (hsame.1.trans (H.fresh w.next le_rfl _ _))
    · have hj' : j ∈ w.mms := (Finset.mem_insert.1 hj).resolve_left hjn
      rw [add_mm_of_ne w hjn] at hb
      have hobj := H.areas_backed hj' b hb
      refine (C.area j hj' b hb).transfer hp C.store hobj hobj' rfl (fun _ hla => hla)
        (fun _ => rfl)
        (fun _ _ _ => rfl) (fun _ _ hf => hf) fun la hla => .inr ?_
      -- an entry of the source loses at most its permission to write, in a private area
      rcases hdup.source hjn (pdx la) (ptx la) with hsame | ⟨c, hc, lb, hlb, heq, -, hcopied⟩
      · exact ⟨true, fun _ => rfl, hsame⟩
      · rw [← heq] at hcopied
        obtain ⟨rfl, hpage⟩ := userSlot_inj.1 (show userSlot j la = userSlot i lb from heq)
        have hbc : b = c := H.area_eq hi (hcs c hc) hb
          (hlb.page ((H.mm j hi).area_valid (hcs c hc)) hpage.symm) hla
        subst hbc
        exact ⟨b.vmFlags.share, id, hcopied⟩
  | @exit i vm hi hnodes hempty hother =>
    have hp := hnodes.persists
    refine C.set H H' hp (hp.store C.store hnodes.gone) hother fun a ha => ?_
    refine .of_empty (fun hshare o sh' ho hsh' => ?_) fun la _ => ?_
    · exact (C.area i hi a ha).fits_after hp C.store (H.areas_backed hi a ha) hshare ho hsh'
    · rw [userSlot, hempty]
      rfl
  | @destroy i vm hi hnodes hdirs =>
    have hp := hnodes.persists
    refine ⟨hp.store C.store hnodes.gone, fun j hj a ha => ?_⟩
    have hj' : j ∈ w.mms := Finset.mem_of_mem_erase hj
    exact (C.area j hj' a ha).keep hp C.store (H.areas_backed hj' a ha) (H'.areas_backed hj a ha)
      fun la _ => hdirs j _ _

theorem Coherent.init : World.init.Coherent :=
  ⟨fun _ sh h => absurd h (Option.some_ne_none sh).symm,
    fun i hi => absurd hi (Finset.notMem_empty i)⟩

/-- Every state of a run is coherent. -/
theorem Run.coherent {ok : World → Op → Prop} (hok : ∀ w op, ok w op → ¬ CutsShared w op)
    {ops : List (Op × Ret)} (h : Run ok ops w) : w.Coherent :=
  h.preserves Coherent.init (fun _ _ H H' hchange C => C.change H H' hchange) hok

/-! ## All mappings of an object -/

/-- **Shared memory is coherent.**  A present entry at a page of a shared area refers to the frame
that the object has for the offset, which is below its length, so that `shmem_get_entry` never stops
at its assertion when `do_pgfault` calls it; and any two mappings of an object show the same frame
at the same offset. -/
theorem shared_coherent {ops : List (Op × Ret)} (h : Run (fun w op => ¬ CutsShared w op) ops w) :
    (∀ i ∈ w.mms, ∀ a ∈ (w.mm i).areas, a.vmFlags.share = true → ∃ o sh, a.shmem = some o ∧
      w.vm.shmem o = some sh ∧ ∀ la, la % pgSize = 0 → a.Has la →
        la - a.vmStart + a.shmemOff < sh.len ∧
        ((w.vm.lookup i la).present = true →
          (w.vm.shmemEntry o (la - a.vmStart + a.shmemOff)).present = true ∧
          (w.vm.shmemEntry o (la - a.vmStart + a.shmemOff)).frame = (w.vm.lookup i la).frame) ∧
        ∀ ptep vm, getPte i la true w.vm = (some ptep, vm) →
          ∃ r, shmemGetEntry a.shmem (addrAdd (la - a.vmStart) a.shmemOff) true vm = .ok r) ∧
    ∀ i ∈ w.mms, ∀ j ∈ w.mms, ∀ a ∈ (w.mm i).areas, ∀ b ∈ (w.mm j).areas, a.vmFlags.share = true →
      b.vmFlags.share = true → a.shmem = b.shmem → ∀ la lb, la % pgSize = 0 → lb % pgSize = 0 →
      a.Has la → b.Has lb → la - a.vmStart + a.shmemOff = lb - b.vmStart + b.shmemOff →
      (w.vm.lookup i la).present = true → (w.vm.lookup j lb).present = true →
      (w.vm.lookup i la).frame = (w.vm.lookup j lb).frame := by
  have H := h.inv fun _ _ hop => hop
  have C := h.coherent fun _ _ hop => hop
  have hentry : ∀ i ∈ w.mms, ∀ a ∈ (w.mm i).areas, a.vmFlags.share = true → ∀ o, a.shmem = some o →
      ∀ la, la % pgSize = 0 → a.Has la → (w.vm.lookup i la).present = true →
      (w.vm.shmemEntry o (la - a.vmStart + a.shmemOff)).target = some (w.vm.lookup i la).frame := by
    intro i hi a ha hshare o ho la hpage hla hpres
    obtain ⟨sh, hsh⟩ := Option.ne_none_iff_exists'.1 ((H.areas_backed hi a ha).object hshare ho)
    obtain ⟨hoff, -⟩ := ((C.area i hi a ha).fits hshare o sh ho hsh).offset_lt
      ((H.mm i hi).area_valid ha) hpage hla
    rw [← hoff]
    exact (C.area i hi a ha).shows hshare o ho la _ hpage hla (Pte.target_eq_some.2 ⟨hpres, rfl⟩)
  constructor
  · intro i hi a ha hshare
    obtain ⟨o, sh, ho, hsh, hok⟩ := H.areas_backed hi a ha hshare
    refine ⟨o, sh, ho, hsh, fun la hpage hla => ?_⟩
    obtain ⟨hoff, hlen, htop⟩ := ((C.area i hi a ha).fits hshare o sh ho hsh).offset_lt
      ((H.mm i hi).area_valid ha) hpage hla
    refine ⟨hoff ▸ hlen, fun hpres => ?_, fun ptep vm hget => ?_⟩
    · exact Pte.target_eq_some.1 (hentry i hi a ha hshare o ho la hpage hla hpres)
    · rw [ho]
      rcases getPte_spec H.good i la with ⟨s₁, hget', -⟩ | ⟨f, s₁, hget', H₁, -, -, hgrow⟩
      · rw [hget] at hget'
        cases hget'
      · rw [hget] at hget'
        cases hget'
        obtain ⟨s', sh', hrun, -⟩ := shmemGetEntry_store H₁ (by rw [hgrow.shmem]; exact hsh) hok
          (C.store o sh hsh) hlen htop true
        exact ⟨_, hrun⟩
  · intro i hi j hj a ha b hb hsa hsb hsame la lb hpa hpb hla hlb hoff h1 h2
    obtain ⟨o, sh, ho, -⟩ := H.areas_backed hi a ha hsa
    have h3 := hentry i hi a ha hsa o ho la hpa hla h1
    have h4 := hentry j hj b hb hsb o (hsame ▸ ho) lb hpb hlb h2
    rw [hoff, h4, Option.some.injEq] at h3
    exact h3.symm

/-- An object of a page and a half is mapped by two address spaces, which touch its second page. -/
theorem shared_coherent_two : ∃ ops w, Run (fun w op => ¬ CutsShared w op) ops w ∧
    (w.vm.lookup 0 0x401000).present = true ∧ (w.vm.lookup 1 0x801000).present = true ∧
    (w.vm.lookup 0 0x401000).frame = (w.vm.lookup 1 0x801000).frame := by
  have h₀ : Run (fun w op => ¬ CutsShared w op) [] World.init := .init
  have h₁ := h₀.step id (show World.init.step (.mmCreate [some 1]) = .ok (.code 0, _) from rfl)
  have h₂ := h₁.step id (show World.step _ (.mmCreate [some 1]) = .ok (.code 0, _) from rfl)
  have h₃ := h₂.step id (show World.step _ (.supply [some 20, some 21, some 22, some 23] [some 7]
    [some 1]) = .ok (.code 0, _) from rfl)
  have h₄ := h₃.step id (show World.step _ (.shmemCreate 0x1800) = .ok (.code 7, _) from rfl)
  have h₅ := h₄.step id (show World.step _ (.mmMapShmem 0 0x400000 { write := true } (some 7)) =
    .ok (.code 0, _) from rfl)
  have h₆ := h₅.step id (show World.step _ (.mmMapShmem 1 0x800000 { read := true } (some 7)) =
    .ok (.code 0, _) from rfl)
  have h₇ := h₆.step id (show World.step _ (.pgfault 0 6 0x401234) = .ok (.code 0, _) from rfl)
  have h₈ := h₇.step id (show World.step _ (.pgfault 1 4 0x801fff) = .ok (.code 0, _) from rfl)
  refine ⟨_, _, h₈, rfl, rfl, (shared_coherent h₈).2 0 (by decide) 1 (by decide)
    ⟨0x400000, 0x402000, { write := true, share := true }, some 7, 0⟩ (by decide)
    ⟨0x800000, 0x802000, { read := true, share := true }, some 7, 0⟩ (by decide) rfl rfl rfl
    0x401000 0x801000 (by decide) (by decide) ⟨by decide, by decide⟩
      ⟨by decide, by decide⟩ rfl rfl rfl⟩

end World

end Ucore
