import Ucore.Pmm.Defs
import Ucore.Lib.Refs

/-!
# Who refers to a frame

Every table of entries belongs to one entry of a page directory or to one node of a shared memory
object, its `Owner`.  `T` says which frame an owner has; for the state as a whole this is
`Vm.tableOf`, but while an owner is being made or taken apart it is not, which is why the lemmas
here are about any `T`.  An index into the table of an owner is a slot, and the entries in the slots
are the only thing that refers to frames of user data.

`Vm.Inv T X` says that the reference counts are the numbers of slots that refer to a frame, and that
a frame is in use exactly if it is one of the tables, is referred to, or is one of the frames `X`
that the code at hand has just asked for and not used yet.

Each of the steps that the functions of `pmm.c` and `shmem.c` are made of keeps this invariant:

* `Inv.allocPage` and `Inv.freePage` — a frame is one of `X`, or is no longer;
* `Inv.addTable` and `Inv.dropTable` — a frame of `X` with all entries 0 becomes the table of an
  owner, and a table that is empty goes;
* `Inv.take` and `Inv.drop` — an entry that is 0 gets a reference, and one that is present loses it,
  with the frame if that was the last reference;
* `Inv.setPerm` — an entry gets other permissions.

How the numbers of references change is the matter of `Ucore.Lib.Refs`, where the slots are the
holders.  That a slot is changed by changing one entry of one table is `slot_setPte`: nobody else
has that table.
-/

set_option autoImplicit false

namespace Ucore

/-- What a table of entries belongs to. -/
inductive Owner where
  | dir (pgdir k : ℕ)
  | node (o : ℕ) (shmn : Shmn)
  deriving DecidableEq

/-- The frame that a present entry refers to. -/
def Pte.target (e : Pte) : Option ℕ := if e.present then some e.frame else none

@[simp] theorem Pte.target_zero : Pte.zero.target = none := rfl

@[simp] theorem Pte.target_mk (p : ℕ) (perm : Perm) : (⟨p, true, perm⟩ : Pte).target = some p := rfl

theorem Pte.target_eq_some {e : Pte} {p : ℕ} :
    e.target = some p ↔ e.present = true ∧ e.frame = p := by
  rw [Pte.target]
  split <;> simp_all

theorem Pte.target_eq_none {e : Pte} : e.target = none ↔ e.present = false := by
  rw [Pte.target]
  split <;> simp_all

namespace Vm

/-- The tables of a state. -/
def tableOf (s : Vm) : Owner → Option ℕ
  | .dir d k => s.pgdir d k
  | .node o m => if (s.shmem o).any (fun sh => m ∈ sh.shmnList) then some m.entry else none

/-- The entry in a slot. -/
def slot (T : Owner → Option ℕ) (s : Vm) (x : Owner × ℕ) : Pte :=
  (T x.1).elim Pte.zero fun f => s.table f x.2

/-- The frame that a slot refers to. -/
def held (T : Owner → Option ℕ) (s : Vm) (x : Owner × ℕ) : Option ℕ := (s.slot T x).target

/-- **The reference counts are right.** -/
structure Inv (T : Owner → Option ℕ) (X : Finset ℕ) (s : Vm) : Prop where
  /-- A table has one owner. -/
  unique : ∀ x y f, T x = some f → T y = some f → x = y
  tables : ∀ x f, T x = some f → f ∈ s.frames.live ∧ f ∉ X
  finite : FinitelyHeld (s.held T)
  index : ∀ x p, s.held T x = some p → x.2 < 1024
  absent : ∀ x, s.held T x = none → s.slot T x = Pte.zero
  ref : ∀ p, (∀ x, T x ≠ some p) → s.ref p = refs (s.held T) p
  used : ∀ x p, s.held T x = some p → p ∈ s.frames.live ∧ p ∉ X ∧ ∀ y, T y ≠ some p
  spare : ∀ p ∈ X, p ∈ s.frames.live
  live : ∀ p ∈ s.frames.live, p ∈ X ∨ (∃ x, T x = some p) ∨ ∃ x, s.held T x = some p

/-- Only frames and tables differ. -/
structure Rest (s s' : Vm) : Prop where
  mem : s'.mem = s.mem
  pgdir : s'.pgdir = s.pgdir
  shmem : s'.shmem = s.shmem
  shmemPool : s'.shmemPool = s.shmemPool

theorem Rest.refl (s : Vm) : Rest s s := ⟨rfl, rfl, rfl, rfl⟩

theorem Rest.trans {s s' s'' : Vm} (h : Rest s s') (h' : Rest s' s'') : Rest s s'' :=
  ⟨h'.mem.trans h.mem, h'.pgdir.trans h.pgdir, h'.shmem.trans h.shmem,
    h'.shmemPool.trans h.shmemPool⟩

theorem tableOf_congr {s s' : Vm} (hp : s'.pgdir = s.pgdir) (hs : s'.shmem = s.shmem) :
    s'.tableOf = s.tableOf := by
  funext x
  cases x with
  | dir d k => rw [tableOf, tableOf, hp]
  | node o m => rw [tableOf, tableOf, hs]

theorem Rest.tableOf {s s' : Vm} (h : Rest s s') : s'.tableOf = s.tableOf :=
  tableOf_congr h.pgdir h.shmem

variable {T : Owner → Option ℕ} {X : Finset ℕ} {s : Vm}

theorem held_of_slot {s' : Vm} {T' : Owner → Option ℕ} (h : s'.slot T' = s.slot T) :
    s'.held T' = s.held T := by
  funext x
  rw [held, held, h]

theorem held_update {s' : Vm} {x : Owner × ℕ} {v : Pte}
    (h : s'.slot T = Function.update (s.slot T) x v) :
    s'.held T = Function.update (s.held T) x v.target := by
  funext y
  rw [held, h]
  by_cases hy : y = x
  · rw [hy, Function.update_self, Function.update_self]
  · rw [Function.update_of_ne hy, Function.update_of_ne hy, held]

namespace Inv

/-- A slot is changed by changing the entry in the table, since nobody else has the table. -/
theorem slot_setPte (H : s.Inv T X) {x : Owner} {f : ℕ} (hx : T x = some f) (i : ℕ) (v : Pte) :
    (s.setPte (f, i) v).slot T = Function.update (s.slot T) (x, i) v := by
  funext ⟨y, j⟩
  rw [slot]
  by_cases hy : y = x
  · subst hy
    simp only [hx, Option.elim_some, setPte, Function.update_self]
    by_cases hj : j = i
    · rw [hj, Function.update_self, Function.update_self]
    · rw [Function.update_of_ne hj, Function.update_of_ne (fun h => hj (congrArg Prod.snd h)), slot]
      simp only [hx, Option.elim_some]
  · rw [Function.update_of_ne (fun h => hy (congrArg Prod.fst h)), slot]
    cases hT : T y with
    | none => rfl
    | some g =>
      have hg : g ≠ f := fun h => hy (H.unique y x f (hT.trans (congrArg some h)) hx)
      simp only [Option.elim_some, setPte, Function.update_of_ne hg]

theorem pte_eq {x : Owner} {f : ℕ} (hx : T x = some f) (i : ℕ) :
    s.pte (f, i) = s.slot T (x, i) := by
  rw [slot, hx]
  rfl

/-- Nothing of the invariant but the set of live frames changes. -/
theorem congr (H : s.Inv T X) {s' : Vm} {X' : Finset ℕ} (htable : s'.table = s.table)
    (href : s'.ref = s.ref)
    (htables : ∀ x f, T x = some f → f ∈ s'.frames.live ∧ f ∉ X')
    (hused : ∀ x p, s.held T x = some p → p ∈ s'.frames.live ∧ p ∉ X')
    (hspare : ∀ p ∈ X', p ∈ s'.frames.live)
    (hlive : ∀ p ∈ s'.frames.live, p ∈ X' ∨ p ∈ s.frames.live ∧ p ∉ X) : s'.Inv T X' := by
  have hslot : s'.slot T = s.slot T := by
    funext x
    rw [slot, slot, htable]
  have hheld := held_of_slot hslot
  refine ⟨H.unique, htables, ?_, ?_, ?_, ?_, ?_, hspare, ?_⟩
  · rw [hheld]
    exact H.finite
  · rw [hheld]
    exact H.index
  · rw [hheld, hslot]
    exact H.absent
  · rw [hheld, href]
    exact H.ref
  · rw [hheld]
    exact fun x p hp => ⟨(hused x p hp).1, (hused x p hp).2, (H.used x p hp).2.2⟩
  · intro p hp
    rw [hheld]
    rcases hlive p hp with h | ⟨h, hX⟩
    · exact .inl h
    · exact (H.live p h).imp_left fun h => absurd h hX

/-- `alloc_page`. -/
theorem allocPage (H : s.Inv T X) :
    (∃ s', s.allocPage = (none, s') ∧ s'.Inv T X ∧ s'.slot T = s.slot T ∧ Rest s s') ∨
    ∃ p s', s.allocPage = (some p, s') ∧ p ∉ s.frames.live ∧ s'.Inv T (insert p X) ∧
      s'.slot T = s.slot T ∧ Rest s s' := by
  rw [Vm.allocPage]
  rcases s.frames.take_cases with ⟨l, hl⟩ | ⟨p, l, hp, hl⟩
  · rw [hl]
    refine .inl ⟨_, rfl, H.congr rfl rfl H.tables ?_ H.spare ?_, rfl, rfl, rfl, rfl, rfl⟩
    · exact fun x q hq => ⟨(H.used x q hq).1, (H.used x q hq).2.1⟩
    · intro q hq
      by_cases hX : q ∈ X
      · exact .inl hX
      · exact .inr ⟨hq, hX⟩
  · rw [hl]
    refine .inr ⟨p, _, rfl, hp, H.congr rfl rfl ?_ ?_ ?_ ?_, rfl, rfl, rfl, rfl, rfl⟩
    · intro x f hf
      have hlive := H.tables x f hf
      refine ⟨Finset.mem_insert_of_mem hlive.1, fun h => ?_⟩
      rcases Finset.mem_insert.1 h with rfl | h
      · exact hp hlive.1
      · exact hlive.2 h
    · intro x q hq
      have hlive := H.used x q hq
      refine ⟨Finset.mem_insert_of_mem hlive.1, fun h => ?_⟩
      rcases Finset.mem_insert.1 h with rfl | h
      · exact hp hlive.1
      · exact hlive.2.1 h
    · intro q hq
      rcases Finset.mem_insert.1 hq with rfl | h
      · exact Finset.mem_insert_self _ _
      · exact Finset.mem_insert_of_mem (H.spare q h)
    · intro q hq
      rcases Finset.mem_insert.1 hq with rfl | h
      · exact .inl (Finset.mem_insert_self _ _)
      · by_cases hX : q ∈ X
        · exact .inl (Finset.mem_insert_of_mem hX)
        · exact .inr ⟨h, hX⟩

/-- A frame that is not in use as anything has no references. -/
theorem ref_spare (H : s.Inv T X) {p : ℕ} (hp : p ∈ X) : s.ref p = 0 := by
  have hT : ∀ x, T x ≠ some p := fun x hx => (H.tables x p hx).2 hp
  rw [H.ref p hT, refs_eq_zero H.finite fun x hx => (H.used x p hx).2.1 hp]
  rfl

/-- `free_page` on a frame that has not been used. -/
theorem freePage (H : s.Inv T X) {p : ℕ} (hp : p ∈ X) : ∃ s', s.freePage p = .ok s' ∧
    s'.Inv T (X.erase p) ∧ s'.slot T = s.slot T ∧ Rest s s' := by
  have hne : ∀ q, q ∉ X → q ≠ p := fun q hq h => hq (h ▸ hp)
  refine ⟨_, if_pos (H.spare p hp), H.congr rfl ?_ ?_ ?_ ?_ ?_, rfl, rfl, rfl, rfl, rfl⟩
  · show Function.update s.ref p 0 = s.ref
    rw [← H.ref_spare hp, Function.update_eq_self]
  · intro x f hf
    have hlive := H.tables x f hf
    exact ⟨Finset.mem_erase.2 ⟨hne f hlive.2, hlive.1⟩,
      fun h => hlive.2 (Finset.mem_of_mem_erase h)⟩
  · intro x q hq
    have hlive := H.used x q hq
    exact ⟨Finset.mem_erase.2 ⟨hne q hlive.2.1, hlive.1⟩,
      fun h => hlive.2.1 (Finset.mem_of_mem_erase h)⟩
  · exact fun q hq => Finset.mem_erase.2
      ⟨Finset.ne_of_mem_erase hq, H.spare q (Finset.mem_of_mem_erase hq)⟩
  · intro q hq
    obtain ⟨hqp, hlive⟩ := Finset.mem_erase.1 hq
    by_cases hX : q ∈ X
    · exact .inl (Finset.mem_erase.2 ⟨hqp, hX⟩)
    · exact .inr ⟨hlive, hX⟩

/-! ## Tables -/

theorem update_eq_some {x y : Owner} {f g : ℕ} (hx : T x = none) :
    Function.update T x (some f) y = some g ↔ y = x ∧ g = f ∨ T y = some g := by
  by_cases hy : y = x
  · subst hy
    simp [hx, eq_comm]
  · simp [hy]

/-- A table that no one has yet may be added. -/
theorem unique_update (hu : ∀ x y f, T x = some f → T y = some f → x = y) {x : Owner} {f : ℕ}
    (hx : T x = none) (hold : ∀ y g, T y = some g → g ≠ f) (y z : Owner) (g : ℕ)
    (hy : Function.update T x (some f) y = some g) (hz : Function.update T x (some f) z = some g) :
    y = z := by
  rcases (update_eq_some hx).1 hy with ⟨rfl, rfl⟩ | hy'
  · rcases (update_eq_some hx).1 hz with ⟨rfl, -⟩ | hz'
    · rfl
    · exact absurd rfl (hold z g hz')
  · rcases (update_eq_some hx).1 hz with ⟨rfl, rfl⟩ | hz'
    · exact absurd rfl (hold y g hy')
    · exact hu y z g hy' hz'

/-- The slots of a table that is added are 0, as they were without it. -/
theorem slot_update {x : Owner} {f : ℕ} (hx : T x = none) (hold : ∀ y g, T y = some g → g ≠ f)
    {s s' : Vm} (htable : s'.table = Function.update s.table f fun _ => Pte.zero) :
    s'.slot (Function.update T x (some f)) = s.slot T := by
  funext ⟨y, i⟩
  rw [slot, slot, htable]
  by_cases hy : y = x
  · subst hy
    simp only [Function.update_self, Option.elim_some, hx, Option.elim_none]
  · simp only [Function.update_of_ne hy]
    cases hT : T y with
    | none => rfl
    | some g => simp only [Option.elim_some, Function.update_of_ne (hold y g hT)]

/-- An owner gets a table: a frame that was to spare, with all entries 0. -/
theorem addTable (H : s.Inv T X) {x : Owner} {f : ℕ} (hf : f ∈ X) (hx : T x = none) {s' : Vm}
    (hframes : s'.frames = s.frames)
    (htable : s'.table = Function.update s.table f fun _ => Pte.zero)
    (href : ∀ p, p ≠ f → s'.ref p = s.ref p) :
    s'.Inv (Function.update T x (some f)) (X.erase f) ∧
      s'.slot (Function.update T x (some f)) = s.slot T := by
  have hold : ∀ y g, T y = some g → g ≠ f := fun y g hy h => (H.tables y g hy).2 (h ▸ hf)
  have hslot : s'.slot (Function.update T x (some f)) = s.slot T := slot_update hx hold htable
  have hheld := held_of_slot hslot
  refine ⟨⟨unique_update H.unique hx hold, ?_, ?_, ?_, ?_, ?_, ?_, ?_, ?_⟩, hslot⟩
  · intro y g hy
    rw [hframes]
    rcases (update_eq_some hx).1 hy with ⟨-, rfl⟩ | hy'
    · exact ⟨H.spare g hf, Finset.notMem_erase g X⟩
    · exact ⟨(H.tables y g hy').1, fun h => (H.tables y g hy').2 (Finset.mem_of_mem_erase h)⟩
  · rw [hheld]
    exact H.finite
  · rw [hheld]
    exact H.index
  · rw [hheld, hslot]
    exact H.absent
  · intro p hp
    have hpf : p ≠ f := fun h => hp x ((update_eq_some hx).2 (.inl ⟨rfl, h⟩))
    rw [hheld, href p hpf]
    exact H.ref p fun y hy => hp y ((update_eq_some hx).2 (.inr hy))
  · intro y p hp
    rw [hheld] at hp
    obtain ⟨h1, h2, h3⟩ := H.used y p hp
    rw [hframes]
    refine ⟨h1, fun h => h2 (Finset.mem_of_mem_erase h), fun z hz => ?_⟩
    rcases (update_eq_some hx).1 hz with ⟨-, rfl⟩ | hz'
    · exact h2 hf
    · exact h3 z hz'
  · intro p hp
    rw [hframes]
    exact H.spare p (Finset.mem_of_mem_erase hp)
  · intro p hp
    rw [hframes] at hp
    rw [hheld]
    by_cases hpf : p = f
    · exact .inr (.inl ⟨x, (update_eq_some hx).2 (.inl ⟨rfl, hpf⟩)⟩)
    · rcases H.live p hp with h | ⟨y, hy⟩ | h
      · exact .inl (Finset.mem_erase.2 ⟨hpf, h⟩)
      · exact .inr (.inl ⟨y, (update_eq_some hx).2 (.inr hy)⟩)
      · exact .inr (.inr h)

/-- `free_page` on a table that is empty takes it away from its owner. -/
theorem dropTable (H : s.Inv T X) {x : Owner} {f : ℕ} (hx : T x = some f)
    (hempty : ∀ i, s.slot T (x, i) = Pte.zero) : ∃ s', s.freePage f = .ok s' ∧
    s'.Inv (Function.update T x none) X ∧ s'.slot (Function.update T x none) = s.slot T ∧
    s'.frames.live = s.frames.live.erase f ∧ Rest s s' := by
  have hother : ∀ y g, T y = some g → y ≠ x → g ≠ f :=
    fun y g hy hne h => hne (H.unique y x f (h ▸ hy) hx)
  set s' : Vm := { s.setPageRef f 0 with frames := s.frames.give f } with hs'
  have hslot : s'.slot (Function.update T x none) = s.slot T := by
    funext ⟨y, i⟩
    rw [slot]
    by_cases hy : y = x
    · subst hy
      rw [hempty i, Function.update_self]
      rfl
    · simp only [Function.update_of_ne hy]
      rfl
  have hheld := held_of_slot hslot
  have hT' : ∀ y g, Function.update T x none y = some g ↔ T y = some g ∧ g ≠ f := by
    intro y g
    by_cases hy : y = x
    · subst hy
      rw [Function.update_self]
      refine ⟨fun h => absurd h (Option.some_ne_none g).symm, fun ⟨h, hne⟩ => ?_⟩
      rw [hx, Option.some.injEq] at h
      exact absurd h.symm hne
    · rw [Function.update_of_ne hy]
      exact ⟨fun h => ⟨h, hother y g h hy⟩, fun h => h.1⟩
  have hlive : ∀ p, p ∈ s'.frames.live ↔ p ≠ f ∧ p ∈ s.frames.live := fun p => Finset.mem_erase
  have hfT : ∀ y p, s.held T y = some p → p ≠ f := fun y p hp h => (H.used y p hp).2.2 x (h ▸ hx)
  refine ⟨s', if_pos (H.tables x f hx).1, ⟨?_, ?_, ?_, ?_, ?_, ?_, ?_, ?_, ?_⟩, hslot, rfl, rfl,
    rfl, rfl, rfl⟩
  · exact fun y z g hy hz => H.unique y z g ((hT' y g).1 hy).1 ((hT' z g).1 hz).1
  · intro y g hy
    obtain ⟨hy', hne⟩ := (hT' y g).1 hy
    exact ⟨(hlive g).2 ⟨hne, (H.tables y g hy').1⟩, (H.tables y g hy').2⟩
  · rw [hheld]
    exact H.finite
  · rw [hheld]
    exact H.index
  · rw [hheld, hslot]
    exact H.absent
  · intro p hp
    rw [hheld]
    show Function.update s.ref f 0 p = _
    by_cases hpf : p = f
    · subst hpf
      rw [Function.update_self, refs_eq_zero H.finite fun y hy => hfT y p hy rfl]
      rfl
    · rw [Function.update_of_ne hpf]
      exact H.ref p fun y hy => hp y ((hT' y p).2 ⟨hy, hpf⟩)
  · intro y p hp
    rw [hheld] at hp
    obtain ⟨h1, h2, h3⟩ := H.used y p hp
    exact ⟨(hlive p).2 ⟨hfT y p hp, h1⟩, h2, fun z hz => h3 z ((hT' z p).1 hz).1⟩
  · exact fun p hp => (hlive p).2 ⟨fun h => (H.tables x f hx).2 (h ▸ hp), H.spare p hp⟩
  · intro p hp
    obtain ⟨hpf, hp'⟩ := (hlive p).1 hp
    rw [hheld]
    rcases H.live p hp' with h | ⟨y, hy⟩ | h
    · exact .inl h
    · exact .inr (.inl ⟨y, (hT' y p).2 ⟨hy, hpf⟩⟩)
    · exact .inr (.inr h)

/-! ## Entries -/

/-- An entry that is present stops referring to its frame, which is freed if that was the last
reference. -/
theorem drop (H : s.Inv T X) {x : Owner} {f i p : ℕ} (hx : T x = some f)
    (hp : s.held T (x, i) = some p) : ∃ s', releasePage p s = .ok s' ∧
    (s'.setPte (f, i) Pte.zero).Inv T X ∧
    (s'.setPte (f, i) Pte.zero).slot T = Function.update (s.slot T) (x, i) Pte.zero ∧
    Rest s s' := by
  obtain ⟨hlive, hX, hT⟩ := H.used _ p hp
  have hrefs := refs_drop H.finite hp
  set h' := Function.update (s.held T) (x, i) none with hh'
  have hrefp : s.ref p - 1 = refs h' p := by
    rw [H.ref p hT, hrefs p, if_pos rfl]
    push_cast
    omega
  -- whether or not the frame is freed, its count is the new number of references
  have key : ∃ s', releasePage p s = .ok s' ∧ s'.table = s.table ∧
      s'.ref = Function.update s.ref p (refs h' p) ∧
      (∀ q, q ∈ s'.frames.live ↔ q ∈ s.frames.live ∧ (q = p → 0 < refs h' p)) ∧ Rest s s' := by
    rw [releasePage]
    by_cases hzero : (s.pageRefDec p).ref p = 0
    · have hz : refs h' p = 0 := by
        rw [pageRefDec, setPageRef] at hzero
        simp only [Function.update_self] at hzero
        omega
      refine ⟨{ (s.pageRefDec p).setPageRef p 0 with frames := s.frames.give p }, ?_, rfl, ?_, ?_,
        rfl, rfl, rfl, rfl⟩
      · simp only [if_pos hzero]
        exact if_pos hlive
      · show Function.update (Function.update s.ref p _) p 0 = _
        rw [Function.update_idem, hz]
        rfl
      · intro q
        rw [hz]
        simp only [Pool.give_live, Finset.mem_erase, lt_irrefl]
        exact and_comm
    · have hz : 0 < refs h' p := by
        rw [pageRefDec, setPageRef] at hzero
        simp only [Function.update_self] at hzero
        omega
      refine ⟨s.pageRefDec p, ?_, rfl, ?_, fun q => ⟨fun h => ⟨h, fun _ => hz⟩, fun h => h.1⟩, rfl,
        rfl, rfl, rfl⟩
      · simp only [if_neg hzero]
      · rw [pageRefDec, hrefp]
        rfl
  obtain ⟨s', hrel, htable, href, hlive', hrest⟩ := key
  have hslot : (s'.setPte (f, i) Pte.zero).slot T = Function.update (s.slot T) (x, i) Pte.zero := by
    rw [← H.slot_setPte hx i Pte.zero]
    funext y
    rw [slot, slot, setPte, setPte, htable]
  have hheld : (s'.setPte (f, i) Pte.zero).held T = h' := held_update hslot
  have hfin : FinitelyHeld h' := H.finite.update (x, i) none
  have hsub : ∀ y q, h' y = some q → s.held T y = some q := by
    intro y q hq
    rw [hh'] at hq
    by_cases hy : y = (x, i)
    · rw [hy, Function.update_self] at hq
      exact absurd hq (Option.some_ne_none q).symm
    · rwa [Function.update_of_ne hy] at hq
  refine ⟨s', hrel, ⟨H.unique, ?_, ?_, ?_, ?_, ?_, ?_, ?_, ?_⟩, hslot, hrest⟩
  · intro y g hy
    exact ⟨(hlive' g).2 ⟨(H.tables y g hy).1, fun h => absurd (h ▸ hy) (hT y)⟩, (H.tables y g hy).2⟩
  · rw [hheld]
    exact hfin
  · rw [hheld]
    exact fun y q hq => H.index y q (hsub y q hq)
  · rw [hheld, hslot]
    intro y hy
    by_cases hyx : y = (x, i)
    · rw [hyx, Function.update_self]
    · rw [Function.update_of_ne hyx]
      rw [hh', Function.update_of_ne hyx] at hy
      exact H.absent y hy
  · intro q hq
    rw [hheld]
    show s'.ref q = _
    rw [href]
    by_cases hqp : q = p
    · rw [hqp, Function.update_self]
    · rw [Function.update_of_ne hqp, H.ref q hq, hrefs q, if_neg hqp, Nat.add_zero]
  · intro y q hq
    rw [hheld] at hq
    obtain ⟨h1, h2, h3⟩ := H.used y q (hsub y q hq)
    exact ⟨(hlive' q).2 ⟨h1, fun h => (refs_pos hfin).2 ⟨y, h ▸ hq⟩⟩, h2, h3⟩
  · intro q hq
    exact (hlive' q).2 ⟨H.spare q hq, fun h => absurd (h ▸ hq) hX⟩
  · intro q hq
    obtain ⟨h1, h2⟩ := (hlive' q).1 hq
    rw [hheld]
    rcases H.live q h1 with h | h | ⟨y, hy⟩
    · exact .inl h
    · exact .inr (.inl h)
    · right
      right
      by_cases hqp : q = p
      · rw [hqp]
        exact (refs_pos hfin).1 (h2 hqp)
      · refine ⟨y, ?_⟩
        rw [hh', Function.update_of_ne]
        · exact hy
        · rintro rfl
          rw [hp, Option.some.injEq] at hy
          exact hqp hy.symm

/-- An entry that is 0 gets a reference to a frame that was to spare, or is in use already. -/
theorem take (H : s.Inv T X) {x : Owner} {f i p : ℕ} (hx : T x = some f) (hi : i < 1024)
    (hzero : s.held T (x, i) = none) (hp : p ∈ X ∨ ∃ y, s.held T y = some p) (perm : Perm) :
    ((s.pageRefInc p).setPte (f, i) ⟨p, true, perm⟩).Inv T (X.erase p) ∧
    ((s.pageRefInc p).setPte (f, i) ⟨p, true, perm⟩).slot T =
      Function.update (s.slot T) (x, i) ⟨p, true, perm⟩ := by
  have hslot : ((s.pageRefInc p).setPte (f, i) ⟨p, true, perm⟩).slot T =
      Function.update (s.slot T) (x, i) ⟨p, true, perm⟩ := H.slot_setPte hx i _
  have hheld := held_update hslot
  have hpT : p ∈ s.frames.live ∧ ∀ y, T y ≠ some p := by
    rcases hp with hp | ⟨y, hy⟩
    · exact ⟨H.spare p hp, fun y hy => (H.tables y p hy).2 hp⟩
    · exact ⟨(H.used y p hy).1, (H.used y p hy).2.2⟩
  have hcases : ∀ y q, ((s.pageRefInc p).setPte (f, i) ⟨p, true, perm⟩).held T y = some q →
      y = (x, i) ∧ q = p ∨ s.held T y = some q := by
    intro y q hq
    rw [hheld, Pte.target_mk] at hq
    by_cases hy : y = (x, i)
    · rw [hy, Function.update_self, Option.some.injEq] at hq
      exact .inl ⟨hy, hq.symm⟩
    · rw [Function.update_of_ne hy] at hq
      exact .inr hq
  refine ⟨⟨H.unique, ?_, ?_, ?_, ?_, ?_, ?_, ?_, ?_⟩, hslot⟩
  · exact fun y g hy => ⟨(H.tables y g hy).1,
      fun h => (H.tables y g hy).2 (Finset.mem_of_mem_erase h)⟩
  · rw [hheld]
    exact H.finite.update _ _
  · intro y q hq
    rcases hcases y q hq with ⟨rfl, -⟩ | hq
    · exact hi
    · exact H.index y q hq
  · intro y hy
    rw [hslot]
    rw [hheld] at hy
    by_cases hyx : y = (x, i)
    · rw [hyx, Function.update_self] at hy
      exact absurd hy (Option.some_ne_none p)
    · rw [Function.update_of_ne hyx] at hy ⊢
      exact H.absent y hy
  · intro q hq
    rw [hheld, Pte.target_mk, refs_take H.finite hzero p q]
    show Function.update s.ref p (s.ref p + 1) q = _
    by_cases hqp : q = p
    · rw [hqp, Function.update_self, if_pos rfl, H.ref p hpT.2]
      push_cast
      rfl
    · rw [Function.update_of_ne hqp, if_neg hqp, H.ref q hq, Nat.add_zero]
  · intro y q hq
    rcases hcases y q hq with ⟨-, rfl⟩ | hq
    · exact ⟨hpT.1, Finset.notMem_erase q X, hpT.2⟩
    · obtain ⟨h1, h2, h3⟩ := H.used y q hq
      exact ⟨h1, fun h => h2 (Finset.mem_of_mem_erase h), h3⟩
  · exact fun q hq => H.spare q (Finset.mem_of_mem_erase hq)
  · intro q hq
    rw [hheld, Pte.target_mk]
    by_cases hqp : q = p
    · exact .inr (.inr ⟨(x, i), by rw [Function.update_self, hqp]⟩)
    · rcases H.live q hq with h | h | ⟨y, hy⟩
      · exact .inl (Finset.mem_erase.2 ⟨hqp, h⟩)
      · exact .inr (.inl h)
      · refine .inr (.inr ⟨y, ?_⟩)
        rw [Function.update_of_ne]
        · exact hy
        · rintro rfl
          rw [hzero] at hy
          exact absurd hy (Option.some_ne_none q).symm

/-- An entry that is present gets other permissions. -/
theorem setPerm (H : s.Inv T X) {x : Owner} {f i p : ℕ} (hx : T x = some f)
    (hp : s.held T (x, i) = some p) (perm : Perm) :
    (s.setPte (f, i) ⟨p, true, perm⟩).Inv T X ∧
    (s.setPte (f, i) ⟨p, true, perm⟩).slot T =
      Function.update (s.slot T) (x, i) ⟨p, true, perm⟩ := by
  have hslot := H.slot_setPte hx i ⟨p, true, perm⟩
  have hheld : (s.setPte (f, i) ⟨p, true, perm⟩).held T = s.held T := by
    rw [held_update hslot, Pte.target_mk, ← hp, Function.update_eq_self]
  refine ⟨⟨H.unique, H.tables, ?_, ?_, ?_, ?_, ?_, H.spare, ?_⟩, hslot⟩
  · rw [hheld]
    exact H.finite
  · rw [hheld]
    exact H.index
  · rw [hheld, hslot]
    intro y hy
    rw [Function.update_of_ne]
    · exact H.absent y hy
    · rintro rfl
      rw [hp] at hy
      exact absurd hy (Option.some_ne_none p)
  · rw [hheld]
    exact H.ref
  · rw [hheld]
    exact H.used
  · rw [hheld]
    exact H.live

end Inv

end Vm

end Ucore
