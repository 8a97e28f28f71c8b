import Ucore.World.Fault

/-!
# What the operations do to memory

The operations of `vmm.c` call the functions of `pmm.c` and `shmem.c` area by area.  Here the
results about these calls are put together, along the lists of areas that `Ucore.Vmm.Ops` has found
the operations to go through.

The shared memory objects are followed by `Vm.Objects n`: the reference count of an object is `n` of
it, where `n` counts shared areas.  An operation on one address space knows the areas of this one
only, so its lemma is for `fun o => m o + sharers l o` with any `m` for the areas of the others, and
says what becomes of the second summand.  An object that is new or has changed is `Objects.update`,
and one that is destroyed is `Objects.remove`; that objects are destroyed exactly when nobody shares
them any more is `Drops`.

## What is here

* `releaseAreas_spec` — `mm_destroy` gives up the objects of the areas, one after the other.
* `unmapAreas_effect` — `mm_unmap`: the entries of the range become 0, as far as they lie in one of
  the areas, which is what `Unmapped` says.  The step is `unmapEffect_spec`, for one area.
* `exitAreas_effect` — `exit_mmap`, with its two loops `unmapAll_effect` and `exitAll_effect`.  The
  second one frees the page tables that meet an area (`Exited`), and has to find them empty; the
  first one has made them so.
* `dup_effect` — `dup_mmap` into a new address space, by the rule `dupMmap_rule`.  The invariant of
  the loop is `Duped`: the entries of the areas that have been copied so far, and of no others, are
  in both directories.  The step is `dupArea_effect`.

What an operation leaves alone is said by `SameDirs`, `SameBut` and `SameNodes`, and these are
composed along with the rest.
-/

set_option autoImplicit false

namespace Ucore

open Vm

/-- The area shares the object `o`. -/
def Vma.uses (o : ℕ) (a : Vma) : Bool := a.vmFlags.share && decide (a.shmem = some o)

theorem Vma.uses_iff {o : ℕ} {a : Vma} :
    a.uses o = true ↔ a.vmFlags.share = true ∧ a.shmem = some o := by
  rw [Vma.uses, Bool.and_eq_true, decide_eq_true_eq]

/-- The number of areas of a list that share `o`. -/
def sharers (l : List Vma) (o : ℕ) : ℕ := l.countP (Vma.uses o)

/-- The shared memory objects, if `n` of an object is the number of areas that share it. -/
structure Vm.Objects (n : ℕ → ℕ) (s : Vm) : Prop where
  ok : ∀ o sh, s.shmem o = some sh → sh.Ok
  ref : ∀ o sh, s.shmem o = some sh → sh.ref = n o
  unused : ∀ o sh, s.shmem o = some sh → n o = 0 → sh.shmnList = []
  live : ∀ o sh, s.shmem o = some sh → o ∈ s.shmemPool.live
  gone : ∀ o, s.shmem o = none → n o = 0

/-- An object that an area shares is there. -/
theorem Vm.Objects.exists_of_pos {n : ℕ → ℕ} {s : Vm} (O : s.Objects n) {o : ℕ} (hpos : 0 < n o) :
    ∃ sh, s.shmem o = some sh :=
  Option.ne_none_iff_exists'.1 fun hnone => absurd (O.gone o hnone) (Nat.ne_of_gt hpos)

/-- Objects are destroyed exactly when the number of areas that share them returns to 0. -/
structure Drops (n n' : ℕ → ℕ) (s s' : Vm) : Prop where
  le : ∀ o, n' o ≤ n o
  gone : ∀ o, s.shmem o = none → s'.shmem o = none
  goes : ∀ o sh, s.shmem o = some sh → (s'.shmem o = none ↔ 0 < n o ∧ n' o = 0)

theorem Drops.trans {n n' n'' : ℕ → ℕ} {s s' s'' : Vm} (h : Drops n n' s s')
    (h' : Drops n' n'' s' s'') : Drops n n'' s s'' := by
  refine ⟨fun o => (h'.le o).trans (h.le o), fun o ho => h'.gone o (h.gone o ho), ?_⟩
  intro o sh ho
  have hle := h.le o
  have hle' := h'.le o
  cases ho' : s'.shmem o with
  | none =>
    have h1 := (h.goes o sh ho).1 ho'
    exact ⟨fun _ => ⟨h1.1, by omega⟩, fun _ => h'.gone o ho'⟩
  | some sh' =>
    have h1 : ¬ (0 < n o ∧ n' o = 0) := fun h2 => by
      have h3 := (h.goes o sh ho).2 h2
      rw [ho'] at h3
      cases h3
    rw [h'.goes o sh' ho']
    omega

theorem Drops.same {n : ℕ → ℕ} {s s' : Vm} (h : s'.shmem = s.shmem) : Drops n n s s' := by
  refine ⟨fun _ => le_rfl, fun o ho => by rw [h]; exact ho, fun o sh ho => ?_⟩
  rw [h, ho]
  refine ⟨nofun, fun h1 => ?_⟩
  omega

theorem Vm.Objects.congr {n : ℕ → ℕ} {s s' : Vm} (h : s.Objects n) (hs : s'.shmem = s.shmem)
    (hp : s'.shmemPool = s.shmemPool) : s'.Objects n := by
  obtain ⟨h1, h2, h3, h4, h5⟩ := h
  rw [← hs] at h1 h2 h3 h4 h5
  rw [← hp] at h4
  exact ⟨h1, h2, h3, h4, h5⟩

/-- **One object is new, or has changed.** -/
theorem Vm.Objects.update {n n' : ℕ → ℕ} {s s' : Vm} {o : ℕ} {sh' : Shmem} (h : s.Objects n)
    (hs : s'.shmem = Function.update s.shmem o (some sh')) (hn : ∀ q, q ≠ o → n' q = n q)
    (hok : sh'.Ok) (href : sh'.ref = n' o) (hunused : n' o = 0 → sh'.shmnList = [])
    (hlive : o ∈ s'.shmemPool.live) (hpool : s.shmemPool.live ⊆ s'.shmemPool.live) :
    s'.Objects n' := by
  have hall : ∀ q shq, s'.shmem q = some shq → q = o ∧ shq = sh' ∨ q ≠ o ∧
      s.shmem q = some shq := by
    intro q shq hq
    rw [hs] at hq
    by_cases hqo : q = o
    · rw [hqo, Function.update_self, Option.some.injEq] at hq
      exact .inl ⟨hqo, hq.symm⟩
    · rw [Function.update_of_ne hqo] at hq
      exact .inr ⟨hqo, hq⟩
  refine ⟨fun q shq hq => ?_, fun q shq hq => ?_, fun q shq hq hzero => ?_, fun q shq hq => ?_,
    fun q hq => ?_⟩
  · rcases hall q shq hq with ⟨-, rfl⟩ | ⟨-, hq⟩
    · exact hok
    · exact h.ok q shq hq
  · rcases hall q shq hq with ⟨rfl, rfl⟩ | ⟨hqo, hq⟩
    · exact href
    · rw [hn q hqo]
      exact h.ref q shq hq
  · rcases hall q shq hq with ⟨rfl, rfl⟩ | ⟨hqo, hq⟩
    · exact hunused hzero
    · exact h.unused q shq hq (hn q hqo ▸ hzero)
  · rcases hall q shq hq with ⟨rfl, -⟩ | ⟨-, hq⟩
    · exact hlive
    · exact hpool (h.live q shq hq)
  · have hqo : q ≠ o := by
      rintro rfl
      rw [hs, Function.update_self] at hq
      cases hq
    rw [hs, Function.update_of_ne hqo] at hq
    rw [hn q hqo]
    exact h.gone q hq

/-- **One object is gone.** -/
theorem Vm.Objects.remove {n n' : ℕ → ℕ} {s s' : Vm} {o : ℕ} (h : s.Objects n)
    (hs : s'.shmem = Function.update s.shmem o none) (hn : ∀ q, q ≠ o → n' q = n q) (ho : n' o = 0)
    (hpool : s'.shmemPool = s.shmemPool.give o) : s'.Objects n' := by
  have hall : ∀ q shq, s'.shmem q = some shq → q ≠ o ∧ s.shmem q = some shq := by
    intro q shq hq
    rw [hs] at hq
    by_cases hqo : q = o
    · rw [hqo, Function.update_self] at hq
      cases hq
    · rw [Function.update_of_ne hqo] at hq
      exact ⟨hqo, hq⟩
  refine ⟨fun q shq hq => ?_, fun q shq hq => ?_, fun q shq hq hzero => ?_, fun q shq hq => ?_,
    fun q hq => ?_⟩
  · exact h.ok q shq (hall q shq hq).2
  · obtain ⟨hqo, hq⟩ := hall q shq hq
    rw [hn q hqo]
    exact h.ref q shq hq
  · obtain ⟨hqo, hq⟩ := hall q shq hq
    exact h.unused q shq hq (hn q hqo ▸ hzero)
  · obtain ⟨hqo, hq⟩ := hall q shq hq
    rw [hpool]
    exact Finset.mem_erase.2 ⟨hqo, h.live q shq hq⟩
  · by_cases hqo : q = o
    · rw [hqo, ho]
    · rw [hs, Function.update_of_ne hqo] at hq
      rw [hn q hqo]
      exact h.gone q hq

/-- Only one object may go. -/
theorem Drops.one {n n' : ℕ → ℕ} {s s' : Vm} {o : ℕ} (hn : ∀ q, q ≠ o → n' q = n q)
    (hle : n' o ≤ n o)
    (hs : ∀ q, q ≠ o → s'.shmem q = s.shmem q) (ho : s.shmem o ≠ none)
    (hgoes : s'.shmem o = none ↔ 0 < n o ∧ n' o = 0) : Drops n n' s s' := by
  refine ⟨fun q => ?_, fun q hq => ?_, fun q shq hq => ?_⟩
  · by_cases hqo : q = o
    · rw [hqo]
      exact hle
    · exact (hn q hqo).le
  · by_cases hqo : q = o
    · exact absurd (hqo ▸ hq) ho
    · rw [hs q hqo]
      exact hq
  · by_cases hqo : q = o
    · rw [hqo]
      exact hgoes
    · rw [hs q hqo, hq, hn q hqo]
      exact iff_of_false (Option.some_ne_none shq) fun h => Nat.pos_iff_ne_zero.1 h.1 h.2

/-- The entries of all page tables. -/
def SameDirs (s s' : Vm) : Prop := ∀ e k i, s'.slots (.dir e k, i) = s.slots (.dir e k, i)

/-- The entries of all page tables but those of one directory. -/
def SameBut (d : ℕ) (s s' : Vm) : Prop :=
  ∀ e, e ≠ d → ∀ k i, s'.slots (.dir e k, i) = s.slots (.dir e k, i)

/-- The objects that are still there have the nodes and the entries that they had before. -/
def SameNodes (s s' : Vm) : Prop := ∀ o sh', s'.shmem o = some sh' → ∃ sh, s.shmem o = some sh ∧
  sh'.shmnList = sh.shmnList ∧ sh'.shmnCache = sh.shmnCache ∧ sh'.len = sh.len ∧
  ∀ m i, s'.slots (.node o m, i) = s.slots (.node o m, i)

theorem SameNodes.of_eq {s s' : Vm} (hs : s'.shmem = s.shmem)
    (h : ∀ o m i, s'.slots (.node o m, i) = s.slots (.node o m, i)) : SameNodes s s' :=
  fun o sh' ho => ⟨sh', by rw [← hs]; exact ho, rfl, rfl, rfl, h o⟩

theorem SameNodes.trans {s s' s'' : Vm} (h : SameNodes s s') (h' : SameNodes s' s'') :
    SameNodes s s'' := by
  intro o sh'' ho''
  obtain ⟨sh', ho', h1, h2, h3, h4⟩ := h' o sh'' ho''
  obtain ⟨sh, ho, h5, h6, h7, h8⟩ := h o sh' ho'
  exact ⟨sh, ho, h1.trans h5, h2.trans h6, h3.trans h7, fun m i => (h4 m i).trans (h8 m i)⟩

/-- Only the reference count of an object is changed. -/
theorem SameNodes.setShmem {s : Vm} {o : ℕ} {sh sh' : Shmem} (ho : s.shmem o = some sh)
    (hl : sh'.shmnList = sh.shmnList) (hc : sh'.shmnCache = sh.shmnCache) (hlen : sh'.len = sh.len)
    (hslots : (s.setShmem o (some sh')).slots = s.slots) :
    SameNodes s (s.setShmem o (some sh')) := by
  intro q shq hq
  by_cases hqo : q = o
  · rw [hqo, show (s.setShmem o (some sh')).shmem o = some sh' from Function.update_self ..,
      Option.some.injEq] at hq
    rw [hqo, ← hq]
    exact ⟨sh, ho, hl, hc, hlen, fun m i => by rw [hslots]⟩
  · rw [show (s.setShmem o (some sh')).shmem q = s.shmem q from Function.update_of_ne hqo ..] at hq
    exact ⟨shq, hq, rfl, rfl, rfl, fun m i => by rw [hslots]⟩

/-- An area that shares an object. -/
theorem sharers_of_share {a : Vma} {o : ℕ} (hshare : a.vmFlags.share = true) (ho : a.shmem = some o)
    (q : ℕ) : sharers [a] q = if q = o then 1 else 0 := by
  rw [sharers, List.countP_singleton]
  refine if_congr ?_ rfl rfl
  rw [Vma.uses_iff, ho, Option.some.injEq]
  exact ⟨fun h => h.2.symm, fun h => ⟨hshare, h.symm⟩⟩

theorem sharers_of_private {a : Vma} (hshare : ¬ a.vmFlags.share = true) (o : ℕ) :
    sharers [a] o = 0 := by
  rw [sharers, List.countP_singleton, if_neg]
  exact fun h => hshare (Vma.uses_iff.1 h).1

section Effects

variable {s : Vm} {m : ℕ → ℕ}

/-! ## Areas that are given up -/

/-- `vma_destroy` gives up the object of a shared area. -/
theorem vmaRelease_spec (H : s.Good ∅) {a : Vma} (O : s.Objects fun o => m o + sharers [a] o)
    (hback : a.vmFlags.share = true → a.shmem ≠ none) :
    ∃ s', vmaRelease vmBackend a s = .ok s' ∧ s'.Good ∅ ∧ s'.Objects m ∧ s'.mem = s.mem ∧
      s'.pgdir = s.pgdir ∧ SameDirs s s' ∧ Drops (fun o => m o + sharers [a] o) m s s' ∧
      SameNodes s s' := by
  rw [vmaRelease]
  by_cases hshare : a.vmFlags.share = true
  · obtain ⟨o, ho⟩ := Option.ne_none_iff_exists'.1 (hback hshare)
    have huse := sharers_of_share hshare ho
    have hother : ∀ q, q ≠ o → m q = m q + sharers [a] q := fun q hq => by
      rw [huse, if_neg hq, Nat.add_zero]
    have hone : sharers [a] o = 1 := by rw [huse, if_pos rfl]
    obtain ⟨sh, hsh⟩ := O.exists_of_pos (show 0 < m o + sharers [a] o by omega)
    have href : sh.ref - 1 = m o := by
      have h1 := O.ref o sh hsh
      rw [h1, hone]
      push_cast
      omega
    set sh' : Shmem := { sh with ref := sh.ref - 1 } with hsh'
    obtain ⟨H₁, hslots₁⟩ := H.setShmem hsh (show sh'.shmnList = sh.shmnList from rfl)
    have hok' : sh'.Ok := ⟨(O.ok o sh hsh).nodup, (O.ok o sh hsh).cache, (O.ok o sh hsh).stop⟩
    have hsh₁ : (s.setShmem o (some sh')).shmem o = some sh' := Function.update_self ..
    have hdec : vmBackend.shmemRefDec a.shmem s = .ok (sh.ref - 1, s.setShmem o (some sh')) := by
      show shmemRefDec a.shmem s = _
      rw [ho, shmemRefDec, getShmem_some hsh]
      rfl
    have hthere : s.shmem o ≠ none := by
      rw [hsh]
      exact Option.some_ne_none sh
    rw [if_pos hshare, hdec, Res.ok_bind]
    by_cases hz : sh.ref - 1 = 0
    · -- the last area: the object goes
      obtain ⟨s₂, hdes, H₂, hmem, hpgdir, hshmem, hpool, hslots₂⟩ := shmemDestroy_spec H₁ hsh₁ hok'
      have hm0 : m o = 0 := by omega
      have hshmem' : s₂.shmem = Function.update s.shmem o none :=
        hshmem.trans (Function.update_idem ..)
      refine ⟨s₂, ?_, H₂, O.remove hshmem' hother hm0 hpool, hmem, hpgdir, fun e k i => ?_,
        Drops.one hother (Nat.le_add_right _ _) (fun q hq => ?_) hthere ?_, fun q shq hq => ?_⟩
      · show (if sh.ref - 1 = 0 then vmBackend.shmemDestroy a.shmem _ else pure _) = _
        rw [if_pos hz, ho]
        exact hdes
      · rw [hslots₂ _ (fun m => by simp), hslots₁]
      · rw [hshmem', Function.update_of_ne hq]
      · rw [hshmem', Function.update_self]
        exact iff_of_true rfl ⟨by omega, hm0⟩
      · have hqo : q ≠ o := by
          rintro rfl
          rw [hshmem', Function.update_self] at hq
          cases hq
        rw [hshmem', Function.update_of_ne hqo] at hq
        refine ⟨shq, hq, rfl, rfl, rfl, fun n i => ?_⟩
        rw [hslots₂ _ (fun n' h => hqo (Owner.node.inj h).1), hslots₁]
    · have hm0 : m o ≠ 0 := by omega
      refine ⟨s.setShmem o (some sh'), ?_, H₁, O.update rfl hother hok' href (fun h => absurd h hm0)
        (O.live o sh hsh) (Finset.Subset.refl _), rfl, rfl, fun e k i => ?_,
        Drops.one hother (Nat.le_add_right _ _) (fun q hq => Function.update_of_ne hq ..) hthere ?_,
        SameNodes.setShmem hsh rfl rfl rfl hslots₁⟩
      · show (if sh.ref - 1 = 0 then vmBackend.shmemDestroy a.shmem _ else pure _) = _
        rw [if_neg hz]
        rfl
      · rw [hslots₁]
      · rw [hsh₁]
        exact iff_of_false (Option.some_ne_none _) fun h => hm0 h.2
  · simp only [sharers_of_private hshare, Nat.add_zero] at O ⊢
    refine ⟨s, ?_, H, O, rfl, rfl, fun _ _ _ => rfl, Drops.same rfl,
      SameNodes.of_eq rfl fun _ _ _ => rfl⟩
    rw [if_neg hshare]

theorem sharers_cons (a : Vma) (l : List Vma) (o : ℕ) :
    sharers (a :: l) o = sharers [a] o + sharers l o := by
  rw [sharers, sharers, sharers, List.countP_cons, List.countP_singleton, Nat.add_comm]

/-- The first area of a list, counted last. -/
theorem add_sharers_cons (m : ℕ → ℕ) (a : Vma) (l : List Vma) :
    (fun o => m o + sharers (a :: l) o) =
      fun o => (fun o => m o + sharers l o) o + sharers [a] o := by
  funext o
  show m o + sharers (a :: l) o = m o + sharers l o + sharers [a] o
  rw [sharers_cons]
  omega

theorem sharers_append (l l' : List Vma) (o : ℕ) :
    sharers (l ++ l') o = sharers l o + sharers l' o := List.countP_append ..

theorem sharers_perm {l l' : List Vma} (h : l.Perm l') (o : ℕ) : sharers l o = sharers l' o :=
  h.countP_eq _

/-- **`mm_destroy` gives up the objects of all areas.** -/
theorem releaseAreas_spec (l : List Vma) : ∀ {s : Vm}, s.Good ∅ →
    s.Objects (fun o => m o + sharers l o) → (∀ a ∈ l, a.vmFlags.share = true → a.shmem ≠ none) →
    ∃ s', l.foldlM (fun e a => vmaRelease vmBackend a e) s = .ok s' ∧ s'.Good ∅ ∧ s'.Objects m ∧
      s'.mem = s.mem ∧ s'.pgdir = s.pgdir ∧ SameDirs s s' ∧
      Drops (fun o => m o + sharers l o) m s s' ∧ SameNodes s s' := by
  induction l with
  | nil =>
    intro s H O _
    exact ⟨s, rfl, H, O, rfl, rfl, fun _ _ _ => rfl, Drops.same rfl,
      SameNodes.of_eq rfl fun _ _ _ => rfl⟩
  | cons a l ih =>
    intro s H O hback
    have hsum := add_sharers_cons m a l
    rw [hsum] at O
    obtain ⟨s₁, hrel, H₁, O₁, hmem₁, hpgdir₁, hslots₁, hdrop₁, hnodes₁⟩ :=
      vmaRelease_spec H O (hback a (List.mem_cons_self ..))
    obtain ⟨s₂, hfold, H₂, O₂, hmem₂, hpgdir₂, hslots₂, hdrop₂, hnodes₂⟩ :=
      ih H₁ O₁ fun b hb => hback b (List.mem_cons_of_mem a hb)
    refine ⟨s₂, ?_, H₂, O₂, hmem₂.trans hmem₁, hpgdir₂.trans hpgdir₁, ?_, ?_, hnodes₁.trans hnodes₂⟩
    · rw [List.foldlM_cons, hrel, Res.ok_bind]
      exact hfold
    · exact fun e k i => (hslots₂ e k i).trans (hslots₁ e k i)
    · rw [hsum]
      exact hdrop₁.trans hdrop₂

/-! ## `mm_unmap` -/

/-- The addresses from `start` to `stop` that lie in one of the areas have been unmapped. -/
structure Unmapped (d start stop : ℕ) (l : List Vma) (s s' : Vm) : Prop where
  good : s'.Good ∅
  mem : s'.mem = s.mem
  pgdir : s'.pgdir = s.pgdir
  cleared : ∀ a ∈ l, ∀ la, start ≤ la → la < stop → a.Has la → s'.slots (userSlot d la) = Pte.zero
  other : ∀ e k i, (∀ a ∈ l, ∀ la, start ≤ la → la < stop → a.Has la →
    (Owner.dir e k, i) ≠ userSlot d la) → s'.slots (.dir e k, i) = s.slots (.dir e k, i)

theorem sharers_singleton_congr {a b : Vma} (hf : b.vmFlags = a.vmFlags) (hs : b.shmem = a.shmem)
    (o : ℕ) : sharers [b] o = sharers [a] o := by
  rw [sharers, sharers, List.countP_singleton, List.countP_singleton, Vma.uses, Vma.uses, hf, hs]

/-- An area without an object is no sharer. -/
theorem sharers_null {a : Vma} (ha : a.shmem = none) (o : ℕ) : sharers [a] o = 0 := by
  rw [sharers, List.countP_singleton, if_neg]
  intro h
  have h1 := (Vma.uses_iff.1 h).2
  rw [ha] at h1
  cases h1

/-- A part of an area is unmapped, and the area goes on to share its object. -/
theorem unmapPart_effect (H : s.Good ∅) (d : ℕ) {start stop lo hi : ℕ} {a : Vma}
    (hr : RangeOk lo hi)
    (hpart : ∀ la, lo ≤ la ∧ la < hi ↔ start ≤ la ∧ la < stop ∧ a.Has la) :
    ∃ s', unmapRange d lo hi s = .ok s' ∧ Unmapped d start stop [a] s s' ∧ Rest s s' ∧
      SameNodes s s' := by
  obtain ⟨s', hrun, H', hrest, hclear, hother⟩ := unmapRange_spec H d hr
  refine ⟨s', hrun, ⟨H', hrest.mem, hrest.pgdir, ?_, ?_⟩, hrest, SameNodes.of_eq hrest.shmem ?_⟩
  · intro b hb la h1 h2 h3
    rw [List.mem_singleton] at hb
    subst hb
    obtain ⟨h4, h5⟩ := (hpart la).2 ⟨h1, h2, h3⟩
    exact hclear _ ⟨la, h4, h5, rfl⟩
  · intro e k i hx
    refine hother _ ?_
    rintro ⟨la, h1, h2, h3⟩
    obtain ⟨h4, h5, h6⟩ := (hpart la).1 ⟨h1, h2⟩
    exact hx a (List.mem_singleton_self a) la h4 h5 h6 h3
  · intro o n i
    refine hother _ ?_
    rintro ⟨la, -, -, h⟩
    cases congrArg Prod.fst h

/-- `mm_unmap` on one area. -/
theorem unmapEffect_spec (H : s.Good ∅) (d : ℕ) {start stop : ℕ} {a : Vma} (hval : a.Valid)
    (hr : RangeOk start stop) (O : s.Objects fun o => m o + sharers [a] o)
    (hback : a.vmFlags.share = true → a.shmem ≠ none) :
    ∃ s', unmapEffect vmBackend d start stop s a = .ok s' ∧ Unmapped d start stop [a] s s' ∧
      s'.Objects (fun o => m o + sharers (a.pieces start stop) o) ∧
      Drops (fun o => m o + sharers [a] o) (fun o => m o + sharers (a.pieces start stop) o) s s' ∧
      SameNodes s s' := by
  have hlt := hr.lt
  have hlt' := hval.lt
  have hkeep : ∀ lo hi, RangeOk lo hi →
      (∀ la, lo ≤ la ∧ la < hi ↔ start ≤ la ∧ la < stop ∧ a.Has la) →
      (∀ o, sharers (a.pieces start stop) o = sharers [a] o) →
      ∃ s', unmapRange d lo hi s = .ok s' ∧ Unmapped d start stop [a] s s' ∧
        s'.Objects (fun o => m o + sharers (a.pieces start stop) o) ∧
        Drops (fun o => m o + sharers [a] o)
          (fun o => m o + sharers (a.pieces start stop) o) s s' ∧ SameNodes s s' := by
    intro lo hi hok hpart hsame
    obtain ⟨s', hrun, hun, hrest, hnodes⟩ := unmapPart_effect H d hok hpart
    simp only [hsame]
    exact ⟨s', hrun, hun, O.congr hrest.shmem hrest.shmemPool, Drops.same hrest.shmem, hnodes⟩
  have hok : ∀ {lo hi : ℕ}, lo < hi → userBase ≤ lo → hi ≤ userTop → lo % pgSize = 0 →
      hi % pgSize = 0 → RangeOk lo hi :=
    fun h1 h2 h3 h4 h5 => ⟨userAccess_iff.2 ⟨h2, h1, h3⟩, h4, h5⟩
  rw [unmapEffect]
  by_cases hout : a.vmEnd ≤ start ∨ stop ≤ a.vmStart
  · have hp : a.pieces start stop = [a] := if_pos hout
    rw [if_pos hout, hp]
    refine ⟨s, rfl, ⟨H, rfl, rfl, ?_, fun _ _ _ _ => rfl⟩, O, Drops.same rfl,
      SameNodes.of_eq rfl fun _ _ _ => rfl⟩
    intro b hb la h1 h2 h3
    rw [List.mem_singleton] at hb
    rw [hb, Vma.Has] at h3
    omega
  · rw [if_neg hout]
    by_cases hhole : a.vmStart < start ∧ stop < a.vmEnd
    · have hp : a.pieces start stop = [⟨a.vmStart, start, a.vmFlags, none, 0⟩,
          a.resize stop a.vmEnd] := by
        rw [Vma.pieces, if_neg hout, if_pos hhole]
      rw [if_pos hhole]
      refine hkeep start stop hr (fun la => ?_) (fun o => ?_)
      · rw [Vma.Has]
        omega
      · rw [hp, sharers_cons, sharers_null rfl, Nat.zero_add]
        exact sharers_singleton_congr rfl rfl o
    · rw [if_neg hhole]
      by_cases hleft : a.vmStart < start
      · have hp : a.pieces start stop = [a.resize a.vmStart start] := by
          rw [Vma.pieces, if_neg hout, if_neg hhole, if_pos hleft]
        rw [if_pos hleft]
        refine hkeep start a.vmEnd (hok (by omega) hr.base_le hval.le_top hr.start_aligned
          hval.end_aligned) (fun la => ?_) (fun o => ?_)
        · rw [Vma.Has]
          omega
        · rw [hp]
          exact sharers_singleton_congr rfl rfl o
      · rw [if_neg hleft]
        by_cases hright : stop < a.vmEnd
        · have hp : a.pieces start stop = [a.resize stop a.vmEnd] := by
            rw [Vma.pieces, if_neg hout, if_neg hhole, if_neg hleft, if_pos hright]
          rw [if_pos hright]
          refine hkeep a.vmStart stop (hok (by omega) hval.base_le hr.le_top hval.start_aligned
            hr.stop_aligned) (fun la => ?_) (fun o => ?_)
          · rw [Vma.Has]
            omega
          · rw [hp]
            exact sharers_singleton_congr rfl rfl o
        · -- the whole area goes, with its share of the object
          have hp : a.pieces start stop = [] := by
            rw [Vma.pieces, if_neg hout, if_neg hhole, if_neg hleft, if_neg hright]
          have hzero : (fun o => m o + sharers [] o) = m := rfl
          rw [if_neg hright, hp, hzero]
          obtain ⟨s₁, hrel, H₁, O₁, hmem₁, hpgdir₁, hslots₁, hdrop₁, hnodes₁⟩ :=
            vmaRelease_spec H O hback
          have hpart : ∀ la, a.vmStart ≤ la ∧ la < a.vmEnd ↔ start ≤ la ∧ la < stop ∧ a.Has la := by
            intro la
            rw [Vma.Has]
            omega
          obtain ⟨s₂, hrun, hun, hrest, hnodes₂⟩ := unmapPart_effect H₁ d hval.rangeOk hpart
          refine ⟨s₂, ?_, ⟨hun.good, hun.mem.trans hmem₁, hun.pgdir.trans hpgdir₁, hun.cleared, ?_⟩,
            O₁.congr hrest.shmem hrest.shmemPool, hdrop₁.trans (Drops.same hrest.shmem),
            hnodes₁.trans hnodes₂⟩
          · rw [hrel, Res.ok_bind]
            exact hrun
          · exact fun e k i hx => (hun.other e k i hx).trans (hslots₁ e k i)

/-- **`mm_unmap` on all areas.** -/
theorem unmapAreas_effect (d : ℕ) {start stop : ℕ} (hr : RangeOk start stop) (l : List Vma) :
    ∀ {s : Vm} {m : ℕ → ℕ}, s.Good ∅ → s.Objects (fun o => m o + sharers l o) →
      (∀ a ∈ l, a.Valid) → (∀ a ∈ l, a.vmFlags.share = true → a.shmem ≠ none) →
      ∃ s', l.foldlM (unmapEffect vmBackend d start stop) s = .ok s' ∧
        Unmapped d start stop l s s' ∧
        s'.Objects (fun o => m o + sharers (l.flatMap (Vma.pieces start stop)) o) ∧
        Drops (fun o => m o + sharers l o)
          (fun o => m o + sharers (l.flatMap (Vma.pieces start stop)) o) s s' ∧ SameNodes s s' := by
  induction l with
  | nil =>
    intro s m H O _ _
    exact ⟨s, rfl, ⟨H, rfl, rfl, fun a ha => absurd ha List.not_mem_nil, fun _ _ _ _ => rfl⟩, O,
      Drops.same rfl, SameNodes.of_eq rfl fun _ _ _ => rfl⟩
  | cons a l ih =>
    intro s m H O hval hback
    have h0 := add_sharers_cons m a l
    have h1 : (fun o => (fun o => m o + sharers l o) o + sharers (a.pieces start stop) o) =
        fun o => (fun o => m o + sharers (a.pieces start stop) o) o + sharers l o := by
      funext o
      exact Nat.add_right_comm ..
    have h2 : (fun o => m o + sharers ((a :: l).flatMap (Vma.pieces start stop)) o) =
        fun o => (fun o => m o + sharers (a.pieces start stop) o) o +
          sharers (l.flatMap (Vma.pieces start stop)) o := by
      funext o
      show m o + _ = m o + _ + _
      rw [List.flatMap_cons, sharers_append]
      omega
    rw [h0] at O
    obtain ⟨s₁, heff, hun₁, O₁, hdrop₁, hnodes₁⟩ := unmapEffect_spec H d
      (hval a (List.mem_cons_self ..)) hr O (hback a (List.mem_cons_self ..))
    rw [h1] at O₁ hdrop₁
    obtain ⟨s₂, hfold, hun₂, O₂, hdrop₂, hnodes₂⟩ := ih hun₁.good O₁
      (fun b hb => hval b (List.mem_cons_of_mem a hb))
      (fun b hb => hback b (List.mem_cons_of_mem a hb))
    refine ⟨s₂, ?_, ⟨hun₂.good, hun₂.mem.trans hun₁.mem, hun₂.pgdir.trans hun₁.pgdir, ?_, ?_⟩, ?_,
      ?_, hnodes₁.trans hnodes₂⟩
    · rw [List.foldlM_cons, heff, Res.ok_bind]
      exact hfold
    · intro b hb la h3 h4 h5
      rcases List.mem_cons.1 hb with rfl | hb
      · -- what has been cleared stays so
        have hz := hun₁.cleared b (List.mem_singleton_self b) la h3 h4 h5
        by_cases hx : ∀ c ∈ l, ∀ lb, start ≤ lb → lb < stop → c.Has lb →
            (Owner.dir d (pdx la), ptx la) ≠ userSlot d lb
        · exact (hun₂.other d (pdx la) (ptx la) hx).trans hz
        · push Not at hx
          obtain ⟨c, hc, lb, h6, h7, h8, h9⟩ := hx
          have h9' : userSlot d la = userSlot d lb := h9
          rw [h9']
          exact hun₂.cleared c hc lb h6 h7 h8
      · exact hun₂.cleared b hb la h3 h4 h5
    · intro e k i hx
      rw [hun₂.other e k i fun c hc => hx c (List.mem_cons_of_mem a hc)]
      refine hun₁.other e k i fun c hc => ?_
      rw [List.mem_singleton] at hc
      rw [hc]
      exact hx a (List.mem_cons_self ..)
    · rw [h2]
      exact O₂
    · rw [h0, h2]
      exact hdrop₁.trans hdrop₂

/-! ## `exit_mmap` -/

/-- The first loop of `exit_mmap`. -/
theorem unmapAll_effect (d : ℕ) (l : List Vma) : ∀ {s : Vm}, s.Good ∅ → (∀ a ∈ l, a.Valid) →
    ∃ s', l.foldlM (fun e a => vmBackend.unmapRange d a.vmStart a.vmEnd e) s = .ok s' ∧
      s'.Good ∅ ∧ Rest s s' ∧
      (∀ a ∈ l, ∀ la, a.Has la → s'.slots (userSlot d la) = Pte.zero) ∧
      ∀ x, (∀ a ∈ l, ∀ la, a.Has la → x ≠ userSlot d la) → s'.slots x = s.slots x := by
  induction l with
  | nil =>
    intro s H _
    exact ⟨s, rfl, H, Rest.refl s, fun a ha => absurd ha List.not_mem_nil, fun _ _ => rfl⟩
  | cons a l ih =>
    intro s H hval
    obtain ⟨s₁, hrun, H₁, hrest₁, hclear₁, hother₁⟩ :=
      unmapRange_spec H d (hval a (List.mem_cons_self ..)).rangeOk
    obtain ⟨s₂, hfold, H₂, hrest₂, hclear₂, hother₂⟩ :=
      ih H₁ fun b hb => hval b (List.mem_cons_of_mem a hb)
    refine ⟨s₂, ?_, H₂, hrest₁.trans hrest₂, ?_, ?_⟩
    · rw [List.foldlM_cons, show vmBackend.unmapRange d a.vmStart a.vmEnd s = .ok s₁ from hrun,
        Res.ok_bind]
      exact hfold
    · intro b hb la hla
      rcases List.mem_cons.1 hb with rfl | hb
      · have hz := hclear₁ _ ⟨la, hla.1, hla.2, rfl⟩
        by_cases hx : ∀ c ∈ l, ∀ lb, c.Has lb → userSlot d la ≠ userSlot d lb
        · exact (hother₂ _ hx).trans hz
        · push Not at hx
          obtain ⟨c, hc, lb, h1, h2⟩ := hx
          rw [h2]
          exact hclear₂ c hc lb h1
      · exact hclear₂ b hb la hla
    · intro x hx
      rw [hother₂ x fun b hb => hx b (List.mem_cons_of_mem a hb)]
      refine hother₁ x ?_
      rintro ⟨la, h1, h2, h3⟩
      exact hx a (List.mem_cons_self ..) la ⟨h1, h2⟩ h3

/-- One of the areas has addresses in the page table with the number `k`. -/
def MeetsTable (l : List Vma) (k : ℕ) : Prop := ∃ a ∈ l, TableMeets a.vmStart a.vmEnd k

/-- The page tables of `d` that meet one of the areas have been freed, and they were empty. -/
structure Exited (d : ℕ) (l : List Vma) (s s' : Vm) : Prop where
  good : s'.Good ∅
  slots : s'.slots = s.slots
  mem : s'.mem = s.mem
  shmem : s'.shmem = s.shmem
  shmemPool : s'.shmemPool = s.shmemPool
  freed : ∀ k, MeetsTable l k → s'.pgdir d k = none
  other : ∀ e k, ¬ (e = d ∧ MeetsTable l k) → s'.pgdir e k = s.pgdir e k
  live : ∀ f, f ∈ s'.frames.live ↔ f ∈ s.frames.live ∧ ¬ ∃ k, MeetsTable l k ∧ s.pgdir d k = some f

/-- The second loop of `exit_mmap`. -/
theorem exitAll_effect (d : ℕ) (l : List Vma) : ∀ {s : Vm}, s.Good ∅ → (∀ a ∈ l, a.Valid) →
    (∀ k i, s.slots (.dir d k, i) = Pte.zero) →
    ∃ s', l.foldlM (fun e a => vmBackend.exitRange d a.vmStart a.vmEnd e) s = .ok s' ∧
      Exited d l s s' := by
  induction l with
  | nil =>
    intro s H _ _
    refine ⟨s, rfl, H, rfl, rfl, rfl, rfl, ?_, fun _ _ _ => rfl,
      fun f => ⟨fun h => ⟨h, ?_⟩, fun h => h.1⟩⟩
    · rintro k ⟨a, ha, -⟩
      exact absurd ha List.not_mem_nil
    · rintro ⟨k, ⟨a, ha, -⟩, -⟩
      exact absurd ha List.not_mem_nil
  | cons a l ih =>
    intro s H hval hempty
    obtain ⟨s₁, hrun, H₁, hslots₁, hmem₁, hsh₁, hpool₁, hnone₁, hsame₁, hlive₁⟩ :=
      exitRange_spec H d (hval a (List.mem_cons_self ..)).rangeOk hempty
    obtain ⟨s₂, hfold, h₂⟩ := ih H₁ (fun b hb => hval b (List.mem_cons_of_mem a hb))
      (fun k i => by rw [hslots₁]; exact hempty k i)
    have hmeets : ∀ k, MeetsTable (a :: l) k ↔ TableMeets a.vmStart a.vmEnd k ∨ MeetsTable l k := by
      intro k
      rw [MeetsTable, MeetsTable]
      simp only [List.mem_cons, exists_eq_or_imp]
    refine ⟨s₂, ?_, h₂.good, h₂.slots.trans hslots₁, h₂.mem.trans hmem₁, h₂.shmem.trans hsh₁,
      h₂.shmemPool.trans hpool₁, ?_, ?_, ?_⟩
    · rw [List.foldlM_cons, show vmBackend.exitRange d a.vmStart a.vmEnd s = .ok s₁ from hrun,
        Res.ok_bind]
      exact hfold
    · intro k hk
      by_cases hl : MeetsTable l k
      · exact h₂.freed k hl
      · rw [h₂.other d k fun h => hl h.2]
        exact hnone₁ d k ⟨rfl, ((hmeets k).1 hk).resolve_right hl⟩
    · intro e k hk
      rw [hmeets] at hk
      rw [h₂.other e k fun h => hk ⟨h.1, .inr h.2⟩]
      exact hsame₁ e k fun h => hk ⟨h.1, .inl h.2⟩
    · intro f
      rw [h₂.live f, hlive₁ f, and_assoc]
      refine and_congr_right fun _ => ⟨?_, ?_⟩
      · rintro ⟨h1, h2⟩ ⟨k, hk, hf⟩
        by_cases ha : TableMeets a.vmStart a.vmEnd k
        · exact h1 ⟨k, ha, hf⟩
        · refine h2 ⟨k, ((hmeets k).1 hk).resolve_left ha, ?_⟩
          rw [hsame₁ d k fun h => ha h.2]
          exact hf
      · intro h
        refine ⟨fun ⟨k, hk, hf⟩ => h ⟨k, (hmeets k).2 (.inl hk), hf⟩, ?_⟩
        rintro ⟨k, hk, hf⟩
        by_cases ha : TableMeets a.vmStart a.vmEnd k
        · rw [hnone₁ d k ⟨rfl, ha⟩] at hf
          cases hf
        · rw [hsame₁ d k fun h => ha h.2] at hf
          exact h ⟨k, (hmeets k).2 (.inr hk), hf⟩

/-- The first loop of `exit_mmap`. -/
def unmapAll (mm : Mm) (s : Vm) : Res Vm :=
  mm.mmapList.foldlM (fun s v => unmapRange mm.pgdir (mm.vma v).vmStart (mm.vma v).vmEnd s) s

/-- The second loop of `exit_mmap`. -/
def exitAll (mm : Mm) (s : Vm) : Res Vm :=
  mm.mmapList.foldlM (fun s v => exitRange mm.pgdir (mm.vma v).vmStart (mm.vma v).vmEnd s) s

theorem exitMmap_eq (mm : Mm) (s : Vm) : exitMmap vmBackend mm s = unmapAll mm s >>= exitAll mm :=
  rfl

/-- **`exit_mmap`**: every entry of the directory is cleared, and then the page tables that meet an
area are freed. -/
theorem exitAreas_effect (H : s.Good ∅) {mm : Mm} (Hm : mm.Inv)
    (hcov : ∀ la, (s.slots (userSlot mm.pgdir la)).present = true → ∃ a ∈ mm.areas, a.Has la) :
    ∃ s₁ s₂, (unmapAll mm s = .ok s₁ ∧ exitAll mm s₁ = .ok s₂) ∧ s₁.Good ∅ ∧ Rest s s₁ ∧
      (∀ k i, s₁.slots (.dir mm.pgdir k, i) = Pte.zero) ∧
      (∀ x, (∀ k, x.1 ≠ .dir mm.pgdir k) → s₁.slots x = s.slots x) ∧
      Exited mm.pgdir mm.areas s₁ s₂ := by
  have hval : ∀ a ∈ mm.areas, a.Valid := fun a ha => Hm.area_valid ha
  obtain ⟨s₁, hun, H₁, hrest, hclear, hother⟩ := unmapAll_effect mm.pgdir mm.areas H hval
  have hempty : ∀ k i, s₁.slots (.dir mm.pgdir k, i) = Pte.zero := by
    intro k i
    by_cases hx : ∀ a ∈ mm.areas, ∀ la, a.Has la → (Owner.dir mm.pgdir k, i) ≠ userSlot mm.pgdir la
    · rw [hother _ hx]
      cases htarget : (s.slots (.dir mm.pgdir k, i)).target with
      | none => exact H.absent _ htarget
      | some p =>
        obtain ⟨la, hla⟩ := exists_userSlot mm.pgdir k (H.index _ p htarget)
        rw [hla] at htarget
        obtain ⟨a, ha, hhas⟩ := hcov la (Pte.target_eq_some.1 htarget).1
        exact absurd hla (hx a ha la hhas)
    · push Not at hx
      obtain ⟨a, ha, la, hhas, heq⟩ := hx
      rw [heq]
      exact hclear a ha la hhas
  obtain ⟨s₂, hexit, hexited⟩ := exitAll_effect mm.pgdir mm.areas H₁ hval hempty
  rw [Mm.areas, List.foldlM_map] at hun hexit
  refine ⟨s₁, s₂, ⟨hun, hexit⟩, H₁, hrest, hempty, ?_, hexited⟩
  · intro x hx
    refine hother x fun a _ la _ h => hx (pdx la) ?_
    rw [h]
    rfl

/-! ## `dup_mmap` -/

/-- `shmem_ref_inc` for one more area that shares the object. -/
theorem shmemRefInc_spec (H : s.Good ∅) {n : ℕ → ℕ} (O : s.Objects n) {o : ℕ} {sh : Shmem}
    (ho : s.shmem o = some sh) : ∃ s', shmemRefInc (some o) s = .ok s' ∧ s'.Good ∅ ∧
      s'.slots = s.slots ∧ s'.mem = s.mem ∧
      s' = s.setShmem o (some { sh with ref := sh.ref + 1 }) ∧
      s'.Objects fun q => n q + if q = o then 1 else 0 := by
  set sh' : Shmem := { sh with ref := sh.ref + 1 } with hsh'
  obtain ⟨H₁, hslots₁⟩ := H.setShmem ho (show sh'.shmnList = sh.shmnList from rfl)
  have hok' : sh'.Ok := ⟨(O.ok o sh ho).nodup, (O.ok o sh ho).cache, (O.ok o sh ho).stop⟩
  refine ⟨s.setShmem o (some sh'), ?_, H₁, hslots₁, rfl, rfl, O.update rfl (fun q hq => ?_) hok' ?_
    (fun hzero => ?_) (O.live o sh ho) (Finset.Subset.refl _)⟩
  · rw [shmemRefInc, getShmem_some ho]
    rfl
  · rw [if_neg hq, Nat.add_zero]
  · show sh.ref + 1 = _
    rw [O.ref o sh ho, if_pos rfl]
    push_cast
    rfl
  · rw [if_pos rfl] at hzero
    omega

theorem sharers_dup (a : Vma) (o : ℕ) : sharers [a.dup] o = sharers [a] o := by
  by_cases hshare : a.vmFlags.share = true
  · rw [Vma.dup, if_pos hshare]
  · rw [sharers, sharers, List.countP_singleton, List.countP_singleton, if_neg, if_neg]
    · exact fun h => hshare (Vma.uses_iff.1 h).1
    · intro h
      have h1 := (Vma.uses_iff.1 h).1
      rw [Vma.dup_flags] at h1
      exact hshare h1

/-- The objects that exist are the same. -/
def SameObjects (s s' : Vm) : Prop := ∀ o, s'.shmem o = none ↔ s.shmem o = none

/-- The reference that the copy of an area takes. -/
theorem dupRef_spec (H : s.Good ∅) {n : ℕ → ℕ} (O : s.Objects n) {a : Vma}
    (hback : a.vmFlags.share = true → ∃ o, a.shmem = some o ∧ 0 < n o) :
    ∃ s', dupRef vmBackend a s = .ok s' ∧ s'.Good ∅ ∧ s'.slots = s.slots ∧ s'.mem = s.mem ∧
      SameObjects s s' ∧ (s'.Objects fun o => n o + sharers [a.dup] o) ∧ SameNodes s s' := by
  simp only [sharers_dup]
  by_cases hshare : a.vmFlags.share = true
  · obtain ⟨o, ho, hpos⟩ := hback hshare
    obtain ⟨sh, hsh⟩ := O.exists_of_pos hpos
    obtain ⟨s', hinc, H', hslots, hmem, hs', O'⟩ := shmemRefInc_spec H O hsh
    refine ⟨s', ?_, H', hslots, hmem, ?_, ?_, ?_⟩
    · rw [dupRef, if_pos hshare, ho]
      exact hinc
    · intro q
      rw [hs', setShmem]
      by_cases hq : q = o
      · simp only [hq, Function.update_self, hsh]
        exact iff_of_false (Option.some_ne_none _) (Option.some_ne_none _)
      · simp only [Function.update_of_ne hq]
    · simp only [sharers_of_share hshare ho]
      exact O'
    · rw [hs'] at hslots ⊢
      exact SameNodes.setShmem hsh rfl rfl rfl hslots
  · refine ⟨s, ?_, H, rfl, rfl, fun _ => Iff.rfl, ?_, SameNodes.of_eq rfl fun _ _ _ => rfl⟩
    · rw [dupRef, if_neg hshare]
    · simp only [sharers_of_private hshare, Nat.add_zero]
      exact O

/-- The entry of an address has been copied from one directory to the other. -/
def CopiedAt (dst src : ℕ) (share : Bool) (la : ℕ) (s s' : Vm) : Prop :=
  s'.slots (userSlot dst la) = (s.slots (userSlot src la)).protect share ∧
  s'.slots (userSlot src la) = (s.slots (userSlot src la)).protect share

/-- Entries of the areas `cs`, and of nothing else, have been copied. -/
structure Duped (dst src : ℕ) (cs : List Vma) (s s' : Vm) : Prop where
  good : s'.Good ∅
  mem : s'.mem = s.mem
  copy : ∀ c ∈ cs, ∀ la, c.Has la → CopiedAt dst src c.vmFlags.share la s s' ∨
    s'.slots (userSlot dst la) = s.slots (userSlot dst la) ∧
    s'.slots (userSlot src la) = s.slots (userSlot src la)
  other : ∀ e k i, (∀ c ∈ cs, ∀ la, c.Has la → (Owner.dir e k, i) ≠ userSlot dst la ∧
    (Owner.dir e k, i) ≠ userSlot src la) → s'.slots (.dir e k, i) = s.slots (.dir e k, i)

/-- An entry of another directory is the same, or the one that was copied. -/
theorem Duped.source {dst src : ℕ} {cs : List Vma} {s s' : Vm} (hdup : Duped dst src cs s s')
    {e : ℕ} (he : e ≠ dst) (k j : ℕ) :
    s'.slots (.dir e k, j) = s.slots (.dir e k, j) ∨ ∃ c ∈ cs, ∃ la, c.Has la ∧
      (Owner.dir e k, j) = userSlot src la ∧ CopiedAt dst src c.vmFlags.share la s s' := by
  by_cases hx : ∀ c ∈ cs, ∀ la, c.Has la → (Owner.dir e k, j) ≠ userSlot dst la ∧
      (Owner.dir e k, j) ≠ userSlot src la
  · exact .inl (hdup.other e k j hx)
  · push Not at hx
    obtain ⟨c, hc, la, hla, hx⟩ := hx
    have heq := hx fun h => he (dir_of_eq_userSlot h)
    rcases hdup.copy c hc la hla with hcopy | ⟨-, hsame⟩
    · exact .inr ⟨c, hc, la, hla, heq, hcopy⟩
    · rw [heq]
      exact .inl hsame

/-- An area has all addresses of a page or none. -/
theorem Vma.Has.page {a : Vma} (hval : a.Valid) {la lb : ℕ} (h : a.Has la)
    (hpage : la / pgSize = lb / pgSize) : a.Has lb := by
  have h1 := hval.start_aligned
  have h2 := hval.end_aligned
  rw [Vma.Has] at *
  simp only [pgSize] at *
  omega

/-- `copy_range` on one area, after the areas `cs` behind it. -/
theorem dupArea_effect {dst src : ℕ} (hne : dst ≠ src) {a : Vma} {cs : List Vma} (hval : a.Valid)
    (hvals : ∀ c ∈ cs, c.Valid) (hdisj : ∀ c ∈ cs, a.vmEnd ≤ c.vmStart)
    (hfresh : ∀ k i, s.slots (.dir dst k, i) = Pte.zero) {e : Vm} (hdup : Duped dst src cs s e)
    (hfull : ∀ c ∈ cs, ∀ la, c.Has la → CopiedAt dst src c.vmFlags.share la s e) :
    ∃ ret e', copyRange dst src a.vmStart a.vmEnd a.vmFlags.share e = .ok (ret, e') ∧ Grow e e' ∧
      Duped dst src (a :: cs) s e' ∧ (ret = 0 → ∀ c ∈ a :: cs, ∀ la, c.Has la →
        CopiedAt dst src c.vmFlags.share la s e') ∧ SameNodes e e' := by
  -- the entries of `a` have not been touched
  have hfar : ∀ c ∈ cs, ∀ la lb d d', a.Has la → c.Has lb → userSlot d la ≠ userSlot d' lb := by
    intro c hc la lb d d' hla hlb h
    have h1 := Vma.Has.page (hvals c hc) hlb (userSlot_inj.1 h).2.symm
    have h2 := hdisj c hc
    rw [Vma.Has] at *
    omega
  have hsame : ∀ d la, a.Has la → e.slots (userSlot d la) = s.slots (userSlot d la) :=
    fun d la hla => hdup.other _ _ _ fun c hc lb hlb =>
      ⟨hfar c hc la lb _ _ hla hlb, hfar c hc la lb _ _ hla hlb⟩
  have hzero : ∀ la, a.vmStart ≤ la → la < a.vmEnd → e.slots (userSlot dst la) = Pte.zero := by
    intro la h1 h2
    rw [hsame dst la ⟨h1, h2⟩]
    exact hfresh _ _
  obtain ⟨ret, e', cur, hrun, He', hgrow, hle, hcur, hret, hcopied⟩ :=
    copyRange_spec hdup.good a.vmFlags.share hne hval.rangeOk hzero
  have hin : ∀ d x, InRange d a.vmStart cur x → ∃ la, a.Has la ∧ x = userSlot d la := by
    rintro d x ⟨la, h1, h2, h3⟩
    exact ⟨la, ⟨h1, by omega⟩, h3⟩
  have hnot : ∀ c ∈ cs, ∀ lb, c.Has lb → ∀ d d', ¬ InRange d a.vmStart cur (userSlot d' lb) := by
    intro c hc lb hlb d d' h
    obtain ⟨la, hla, heq⟩ := hin d _ h
    exact hfar c hc la lb _ _ hla hlb heq.symm
  have hkeep : ∀ c ∈ cs, ∀ la, c.Has la → ∀ d, e'.slots (userSlot d la) = e.slots (userSlot d la) :=
    fun c hc la hla d => hcopied.other _ (hnot c hc la hla _ _) (hnot c hc la hla _ _)
  have hdone : ∀ la, a.vmStart ≤ la → la < cur → CopiedAt dst src a.vmFlags.share la s e' := by
    intro la h1 h2
    obtain ⟨h3, h4⟩ := hcopied.copy la h1 h2
    rw [hsame src la ⟨h1, by omega⟩] at h3 h4
    exact ⟨h3, h4⟩
  refine ⟨ret, e', hrun, hgrow, ⟨He', hgrow.mem.trans hdup.mem, ?_, ?_⟩, ?_,
    SameNodes.of_eq hgrow.shmem ?_⟩
  · intro c hc la hla
    rcases List.mem_cons.1 hc with rfl | hc
    · by_cases hx : InRange dst c.vmStart cur (userSlot dst la)
      · left
        obtain ⟨lb, h1, h2, h3⟩ := hx
        have hpage := (userSlot_inj.1 h3).2
        have heq : ∀ d, userSlot d la = userSlot d lb := fun d => userSlot_inj.2 ⟨rfl, hpage⟩
        rw [CopiedAt, heq, heq]
        exact hdone lb h1 h2
      · right
        have hx' : ∀ d, ¬ InRange d c.vmStart cur (userSlot d la) := by
          rintro d ⟨lb, h1, h2, h3⟩
          exact hx ⟨lb, h1, h2, userSlot_inj.2 ⟨rfl, (userSlot_inj.1 h3).2⟩⟩
        have hcross : ∀ d d', d ≠ d' → ¬ InRange d c.vmStart cur (userSlot d' la) := by
          rintro d d' hd ⟨lb, -, -, h3⟩
          exact hd (userSlot_inj.1 h3).1.symm
        rw [hcopied.other _ (hx' dst) (hcross src dst (Ne.symm hne)),
          hcopied.other _ (hcross dst src hne) (hx' src)]
        exact ⟨hsame dst la hla, hsame src la hla⟩
    · left
      rw [CopiedAt, hkeep c hc la hla dst, hkeep c hc la hla src]
      exact hfull c hc la hla
  · intro d k i hx
    rw [hcopied.other]
    · exact hdup.other d k i fun c hc => hx c (List.mem_cons_of_mem a hc)
    · intro h
      obtain ⟨la, hla, heq⟩ := hin _ _ h
      exact (hx a (List.mem_cons_self ..) la hla).1 heq
    · intro h
      obtain ⟨la, hla, heq⟩ := hin _ _ h
      exact (hx a (List.mem_cons_self ..) la hla).2 heq
  · intro hr c hc la hla
    rcases List.mem_cons.1 hc with rfl | hc
    · refine hdone la hla.1 ?_
      rcases hret with ⟨-, h⟩ | h
      · rw [h]
        exact hla.2
      · rw [hr] at h
        exact absurd h (by decide)
    · rw [CopiedAt, hkeep c hc la hla dst, hkeep c hc la hla src]
      exact hfull c hc la hla
  · intro o n i
    refine hcopied.other _ ?_ ?_
    · rintro ⟨la, -, -, h⟩
      cases congrArg Prod.fst h
    · rintro ⟨la, -, -, h⟩
      cases congrArg Prod.fst h

/-- **`dup_mmap` into a new address space.** -/
theorem dup_effect (H : s.Good ∅) {n : ℕ → ℕ} (O : s.Objects n) {src : Mm} (Hsrc : src.Inv)
    {dst : ℕ} (kmem : Pool ℕ) (hne : dst ≠ src.pgdir)
    (hback : ∀ a ∈ src.areas, a.vmFlags.share = true → ∃ o, a.shmem = some o ∧ 0 < n o)
    (hfresh : ∀ k i, s.slots (.dir dst k, i) = Pte.zero) :
    ∃ ret mm' s' as cs, dupMmap vmBackend (mmCreate dst kmem) src s = .ok (ret, mm', s') ∧ mm'.Inv ∧
      mm'.pgdir = dst ∧ src.areas = as ++ cs ∧ mm'.areas = cs.map Vma.dup ∧
      Duped dst src.pgdir cs s s' ∧ SameObjects s s' ∧
      s'.Objects (fun o => n o + sharers (cs.map Vma.dup) o) ∧
      (ret = 0 ∧ as = [] ∧ (∀ c ∈ cs, ∀ la, c.Has la →
        CopiedAt dst src.pgdir c.vmFlags.share la s s') ∨ ret = -eNoMem) ∧ SameNodes s s' := by
  set J : List Vma → Vm → Prop := fun cs e => Duped dst src.pgdir cs s e ∧ SameObjects s e ∧
    e.Objects (fun o => n o + sharers (cs.map Vma.dup) o) ∧ SameNodes s e with hJ
  set I : List Vma → Vm → Prop := fun cs e => J cs e ∧ ∀ c ∈ cs, ∀ la, c.Has la →
    CopiedAt dst src.pgdir c.vmFlags.share la s e with hI
  have hinit : I [] s := by
    refine ⟨⟨⟨H, rfl, ?_, fun _ _ _ _ => rfl⟩, fun _ => Iff.rfl, O,
      SameNodes.of_eq rfl fun _ _ _ => rfl⟩, ?_⟩
    · exact fun c hc => absurd hc List.not_mem_nil
    · exact fun c hc => absurd hc List.not_mem_nil
  obtain ⟨ret, mm', s', as, cs, hrun, Hmm', hpgdir, hareas, hcopy, hres⟩ :=
    dupMmap_rule vmBackend Hsrc dst kmem I J hinit (by
      rintro as a cs e hsrc ⟨⟨hdup, hsame, Oe, hnodes⟩, hfull⟩
      have hmem : a ∈ src.areas := by
        rw [hsrc]
        simp
      have hsorted := Hsrc.areas_sorted
      rw [hsrc, List.pairwise_append, List.pairwise_cons] at hsorted
      obtain ⟨e₁, href, H₁, hslots₁, hmem₁, hsame₁, O₁, hnodes₁⟩ :=
          dupRef_spec hdup.good Oe (a := a) (by
        intro hshare
        obtain ⟨o, ho, hpos⟩ := hback a hmem hshare
        exact ⟨o, ho, Nat.add_pos_left hpos _⟩)
      have hdup₁ : Duped dst src.pgdir cs s e₁ := by
        refine ⟨H₁, hmem₁.trans hdup.mem, ?_, ?_⟩
        · simp only [CopiedAt, hslots₁]
          exact hdup.copy
        · rw [hslots₁]
          exact hdup.other
      obtain ⟨ret, e₂, hcopy, hgrow, hdup₂, hfull₂, hnodes₂⟩ :=
        dupArea_effect hne (Hsrc.area_valid hmem)
        (fun c hc => Hsrc.area_valid (by rw [hsrc]; simp [hc])) hsorted.2.1.1 hfresh hdup₁ (by
          simp only [CopiedAt, hslots₁]
          exact hfull)
      have hJ₂ : J (a :: cs) e₂ := by
        refine ⟨hdup₂, fun o => ?_, ?_, hnodes.trans (hnodes₁.trans hnodes₂)⟩
        · rw [hgrow.shmem, hsame₁ o]
          exact hsame o
        · have hsum : (fun o => n o + sharers ((a :: cs).map Vma.dup) o) =
              fun o => (fun o => n o + sharers (cs.map Vma.dup) o) o + sharers [a.dup] o := by
            funext o
            show n o + _ = n o + _ + _
            rw [List.map_cons, sharers_cons]
            omega
          rw [hsum]
          exact O₁.congr hgrow.shmem hgrow.shmemPool
      exact ⟨e₁, ret, e₂, href, hcopy, fun hr => ⟨hJ₂, hfull₂ hr⟩, fun _ => hJ₂⟩)
  refine ⟨ret, mm', s', as, cs, hrun, Hmm', hpgdir, hareas, hcopy, ?_⟩
  rcases hres with ⟨h1, h2, ⟨h3, h4, h5, h6⟩, h7⟩ | ⟨h1, ⟨⟨h3, h4, h5, h6⟩, -⟩ | ⟨h3, h4, h5, h6⟩⟩
  · exact ⟨h3, h4, h5, .inl ⟨h1, h2, h7⟩, h6⟩
  · exact ⟨h3, h4, h5, .inr h1, h6⟩
  · exact ⟨h3, h4, h5, .inr h1, h6⟩

end Effects

end Ucore
