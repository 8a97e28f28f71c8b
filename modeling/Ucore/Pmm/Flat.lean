import Ucore.Pmm.Sim

/-!
# Page tables are a flat map

The flat map has no page tables: it says which page has been inserted at a page of a directory, and
with which permissions.  `Phys.pageTable_flat` says that after any sequence of operations on user
addresses the functions on words answer as the flat map does, that the reference count of a page is
the number of its mappings, and that an operation that has failed has changed nothing.

## The specification

The flat map is computed from the operations and their results alone (`Flat.of`): an operation sets
at most one place (`Op.sets`), to a value that its arguments or its result name (`Op.value`), and an
operation that has failed sets nothing.  What an operation is allowed to be is `Valid`: a user
address of a page directory, permission bits only, and a page that is in use and belongs to nobody
else.

## The proof

* `Agrees` says that the entries are those of the flat map, and `step_spec` is one operation, with
  one case for each, by the lemmas of `Ucore.Pmm.Sim`.
* `Run.sound` is the induction.  It is done for an arbitrary view of the permission bits.
* `word_eq_of_views` — a word is known if it is known in every view, so the entry that `get_pte`
  finds is the one of the flat map, bit by bit.
* `refs_eq_places` — the number of slots that refer to a page is the number of places of the flat
  map that have it.
-/

set_option autoImplicit false

namespace Ucore

open Vm Word

/-- The page that is mapped at a page of a directory, and its permissions. -/
abbrev Flat (npage : ℕ) : Type := Fin npage → ℕ → Option (Fin npage × Word)

namespace Phys

variable {npage : ℕ}

/-! ## Runs -/

/-- The operations.  A page that is to be inserted comes from `alloc_page`, and what `alloc_page`
will answer can be changed at any time. -/
inductive Op (npage : ℕ) where
  | supply (script : List (Option (Fin npage)))
  | allocPage
  | getPte (pgdir : Fin npage) (la : Word) (create : Bool)
  | pageInsert (pgdir page : Fin npage) (la perm : Word)
  | pageRemove (pgdir : Fin npage) (la : Word)
  | pgdirAllocPage (pgdir : Fin npage) (la perm : Word)

/-- What an operation returns. -/
inductive Ret (npage : ℕ) where
  | code (n : ℤ)
  | page (p : Option (Fin npage))
  | ptep (p : Option (Fin npage × ℕ))

/-- An error. -/
def Ret.failed : Ret npage → Bool
  | .code n => n ≠ 0
  | .page p => p.isNone
  | .ptep p => p.isNone

/-- One operation. -/
def step (s : Phys npage) : Op npage → Res (Ret npage × Phys npage)
  | .supply script => .ok (.code 0, { s with frames := { s.frames with script := script } })
  | .allocPage => .ok (.page s.allocPage.1, s.allocPage.2)
  | .getPte pgdir la create => do
    let (ptep, s) ← getPte pgdir la create s
    return (.ptep ptep, s)
  | .pageInsert pgdir page la perm => do
    let (ret, s) ← pageInsert pgdir page la perm s
    return (.code ret, s)
  | .pageRemove pgdir la => do
    let s ← pageRemove pgdir la s
    return (.code 0, s)
  | .pgdirAllocPage pgdir la perm => do
    let (page, s) ← pgdirAllocPage pgdir la perm s
    return (.page page, s)

/-- The page of a directory at which an operation sets the entry. -/
def Op.sets : Op npage → Option (Fin npage × ℕ)
  | .pageInsert d _ la _ | .pageRemove d la | .pgdirAllocPage d la _ => some (d, la.toNat / pgSize)
  | .supply _ | .allocPage | .getPte _ _ _ => none

/-- What is mapped there, if the operation has succeeded. -/
def Op.value : Op npage → Ret npage → Option (Fin npage × Word)
  | .pageInsert _ page _ perm, _ => some (page, perm)
  | .pgdirAllocPage _ _ perm, .page p => p.map fun p => (p, perm)
  | _, _ => none

/-- The flat map after an operation. -/
def Flat.after (m : Flat npage) (op : Op npage) (ret : Ret npage) : Flat npage :=
  if ret.failed then m
  else op.sets.elim m fun x => Function.update m x.1 (Function.update (m x.1) x.2 (op.value ret))

theorem Flat.after_of_ne {m : Flat npage} {op : Op npage} {ret : Ret npage} {d : Fin npage} {pg : ℕ}
    (h : op.sets ≠ some (d, pg)) : Flat.after m op ret d pg = m d pg := by
  rw [Flat.after]
  split_ifs
  · rfl
  · cases hsets : op.sets with
    | none => rfl
    | some x =>
      rw [Option.elim_some]
      by_cases hd : d = x.1
      · have hpg : pg ≠ x.2 := fun hpg => h (by rw [hsets, hd, hpg])
        rw [hd, Function.update_self, Function.update_of_ne hpg]
      · rw [Function.update_of_ne hd]

/-- **The flat map of a sequence of operations** and their results, the last one first. -/
def Flat.of : List (Op npage × Ret npage) → Flat npage
  | [] => fun _ _ => none
  | (op, ret) :: ops => Flat.after (Flat.of ops) op ret

/-- A user address. -/
def UserAddr (la : Word) : Prop := userBase ≤ la.toNat ∧ la.toNat < userTop

/-- A page in use that belongs neither to the kernel nor to a page directory. -/
def DataPage (L : Layout npage) (s : Phys npage) (p : Fin npage) : Prop :=
  p ∈ s.frames.live ∧ p ∉ L.kernel ∧
  ∀ d ∈ L.dirs, ∀ k < userPdes, present (s.word d k) = true → ppn (s.word d k) ≠ p

/-- The arguments of an operation are what they should be: a page directory, a user address,
permission bits and a data page. -/
def Valid (L : Layout npage) (s : Phys npage) : Op npage → Prop
  | .supply _ | .allocPage => True
  | .getPte d la _ | .pageRemove d la => d ∈ L.dirs ∧ UserAddr la
  | .pageInsert d page la perm => d ∈ L.dirs ∧ UserAddr la ∧ PermBits perm ∧ DataPage L s page
  | .pgdirAllocPage d la perm => d ∈ L.dirs ∧ UserAddr la ∧ PermBits perm

/-- No user entry of a directory is present, and there are no references to pages of users. -/
structure Start (L : Layout npage) (s : Phys npage) : Prop where
  kernel : L.kernel ⊆ s.frames.live
  ref : ∀ p, p ∉ L.kernel → s.ref p = 0
  absent : ∀ d ∈ L.dirs, ∀ k < userPdes, present (s.word d k) = false

/-- The sequences of operations, with what they have returned, the last one first. -/
inductive Run (L : Layout npage) (start : Phys npage) :
    List (Op npage × Ret npage) → Phys npage → Prop
  | start : Run L start [] start
  | step {ops : List (Op npage × Ret npage)} {s s' : Phys npage} {op : Op npage} {ret : Ret npage}
      (run : Run L start ops s) (hvalid : Valid L s op) (hstep : s.step op = .ok (ret, s')) :
      Run L start ((op, ret) :: ops) s'

/-! ## The flat map and the entries -/

variable {L : Layout npage} {v : View} {X : Finset ℕ} {s s' : Phys npage} {m : Flat npage}

/-- The entry for what is mapped at a page. -/
def Flat.pte (v : View) (x : Option (Fin npage × Word)) : Pte :=
  x.elim Pte.zero fun x => shown v x.1 x.2

/-- **The entries are those of the flat map.** -/
def Agrees (L : Layout npage) (v : View) (m : Flat npage) (s : Phys npage) : Prop :=
  ∀ (d : Fin npage) (pg : ℕ), (s.vm L v).slots (userSlot d (pg * pgSize)) = Flat.pte v (m d pg)

theorem Agrees.congr (h : Agrees L v m s) (hslots : (s'.vm L v).slots = (s.vm L v).slots) :
    Agrees L v m s' := by
  intro d pg
  rw [hslots]
  exact h d pg

/-- One entry is set. -/
theorem Agrees.update (h : Agrees L v m s) {d : Fin npage} {la : ℕ} {x : Option (Fin npage × Word)}
    (hslots : (s'.vm L v).slots =
      Function.update (s.vm L v).slots (userSlot d la) (Flat.pte v x)) :
    Agrees L v (Function.update m d (Function.update (m d) (la / pgSize) x)) s' := by
  intro e pg
  rw [hslots]
  by_cases hself : e = d ∧ pg = la / pgSize
  · obtain ⟨rfl, rfl⟩ := hself
    have hslot : userSlot e (la / pgSize * pgSize) = userSlot e la :=
      userSlot_inj.2 ⟨rfl, Nat.mul_div_left _ (by decide)⟩
    rw [hslot, Function.update_self, Function.update_self, Function.update_self]
  · have hslot : userSlot e (pg * pgSize) ≠ userSlot d la := by
      intro heq
      obtain ⟨h1, h2⟩ := userSlot_inj.1 heq
      rw [Nat.mul_div_left _ (by decide)] at h2
      exact hself ⟨Fin.ext h1, h2⟩
    rw [Function.update_of_ne hslot, h e pg]
    by_cases he : e = d
    · subst he
      rw [Function.update_self, Function.update_of_ne fun h => hself ⟨rfl, h⟩]
    · rw [Function.update_of_ne he]

theorem UserAddr.pdx_lt {la : Word} (h : UserAddr la) : Word.pdx la < userPdes := by
  have hlt := h.2
  rw [Word.pdx_eq]
  simp only [Ucore.pdx, userPdes, userTop, ptSize] at *
  omega

/-- A data page is to spare, or is mapped. -/
theorem DataPage.cases {p : Fin npage} (h : DataPage L s p) (H : Sound L v X s) :
    (∀ x, (s.vm L v).tableOf x ≠ some (p : ℕ)) ∧
    ((p : ℕ) ∈ X ∨ ∃ y, ((s.vm L v).slots y).target = some (p : ℕ)) := by
  obtain ⟨hlive, -, hdirs⟩ := h
  have htable : ∀ x, (s.vm L v).tableOf x ≠ some (p : ℕ) := by
    intro x hx
    cases x with
    | node o shmn => cases hx
    | dir d k =>
      have hx' : lift (pgdirAt L s.word) (fun _ => none) d k = some (p : ℕ) := hx
      by_cases hd : d < npage
      · rw [lift, dif_pos hd, pgdirAt] at hx'
        split_ifs at hx' with hpde
        · exact hdirs _ hpde.1 k hpde.2.1 hpde.2.2 (Option.some.inj hx')
      · rw [lift, dif_neg hd] at hx'
        cases hx'
  refine ⟨htable, ?_⟩
  rcases H.good.live p (mem_vm_live.2 ⟨p, hlive, rfl⟩) with hX | ⟨x, hx⟩ | hheld
  · exact .inl hX
  · exact absurd hx (htable x)
  · exact .inr hheld

/-- **One operation.** -/
theorem step_spec (H : Sound L v X s) (A : Agrees L v m s) {op : Op npage} (hvalid : Valid L s op) :
    ∃ ret s' X', s.step op = .ok (ret, s') ∧ Sound L v X' s' ∧ Agrees L v (Flat.after m op ret) s' ∧
      (ret.failed = true → Same s s') := by
  cases op with
  | supply script =>
    refine ⟨.code 0, _, X, rfl, ⟨?_, H.kernel⟩, A.congr rfl, fun h => by cases h⟩
    exact H.good.congr rfl rfl H.good.tables
      (fun x p hp => ⟨(H.good.used x p hp).1, (H.good.used x p hp).2.1⟩) H.good.spare
      fun p hp => or_iff_not_imp_left.2 fun hX => ⟨hp, hX⟩
  | allocPage =>
    rcases allocPage_cases H with ⟨s', halloc, H', hslots, hsame⟩ |
      ⟨p, s', halloc, -, H', hslots, -⟩
    · refine ⟨.page none, s', X, ?_, H', A.congr hslots, fun _ => hsame⟩
      rw [step, halloc]
    · refine ⟨.page (some p), s', _, ?_, H', A.congr hslots, fun h => by cases h⟩
      rw [step, halloc]
  | getPte d la create =>
    obtain ⟨hd, hla⟩ := hvalid
    cases create with
    | false =>
      rcases getPte_found H hd hla.pdx_lt with ⟨hget, -⟩ | ⟨f, hget, -⟩
      · refine ⟨.ptep none, s, X, ?_, H, A, fun _ => ⟨rfl, rfl, rfl⟩⟩
        simp only [step, hget, Res.ok_bind, Res.pure_eq]
      · refine ⟨.ptep (some (f, Word.ptx la)), s, X, ?_, H, A, fun _ => ⟨rfl, rfl, rfl⟩⟩
        simp only [step, hget, Res.ok_bind, Res.pure_eq]
    | true =>
      rcases getPte_cases H hd hla.pdx_lt with ⟨s', hget, H', hslots, hsame⟩ |
        ⟨f, s', hget, -, H', hslots, -⟩
      · refine ⟨.ptep none, s', X, ?_, H', A.congr hslots, fun _ => hsame⟩
        simp only [step, hget, Res.ok_bind, Res.pure_eq]
      · refine ⟨.ptep (some (f, Word.ptx la)), s', X, ?_, H', A.congr hslots, fun h => by cases h⟩
        simp only [step, hget, Res.ok_bind, Res.pure_eq]
  | pageInsert d page la perm =>
    obtain ⟨hd, hla, hperm, hpage⟩ := hvalid
    rcases pageInsert_cases H hd hla.pdx_lt hpage.2.1 (hpage.cases H).2 hperm with
      ⟨s', hins, H', hslots, hsame⟩ | ⟨s', hins, H', hslots⟩
    · refine ⟨.code (-eNoMem), s', X, ?_, H', A.congr hslots, fun _ => hsame⟩
      simp only [step, hins, Res.ok_bind, Res.pure_eq]
    · refine ⟨.code 0, s', _, ?_, H', A.update (x := some (page, perm)) hslots, fun h => by cases h⟩
      simp only [step, hins, Res.ok_bind, Res.pure_eq]
  | pageRemove d la =>
    obtain ⟨hd, hla⟩ := hvalid
    obtain ⟨s', hrem, H', hslots⟩ := pageRemove_cases H hd hla.pdx_lt
    refine ⟨.code 0, s', X, ?_, H', A.update (x := none) hslots, fun h => by cases h⟩
    simp only [step, hrem, Res.ok_bind, Res.pure_eq]
  | pgdirAllocPage d la perm =>
    obtain ⟨hd, hla, hperm⟩ := hvalid
    rcases pgdirAllocPage_cases H hd hla.pdx_lt hperm with ⟨s', hins, H', hslots, hsame⟩ |
      ⟨p, s', hins, -, H', hslots⟩
    · refine ⟨.page none, s', X, ?_, H', A.congr hslots, fun _ => hsame⟩
      simp only [step, hins, Res.ok_bind, Res.pure_eq]
    · refine ⟨.page (some p), s', X, ?_, H', A.update (x := some (p, perm)) hslots,
        fun h => by cases h⟩
      simp only [step, hins, Res.ok_bind, Res.pure_eq]

/-- The start. -/
theorem Start.sound {start : Phys npage} (h : Start L start) (v : View) :
    Sound L v (start.frames.live.map Fin.valEmbedding) start ∧ Agrees L v (Flat.of []) start := by
  have hpgdir : ∀ d k, (start.vm L v).pgdir d k = none := by
    intro d k
    show lift (pgdirAt L start.word) (fun _ => none) d k = none
    by_cases hd : d < npage
    · rw [lift, dif_pos hd, pgdirAt, if_neg]
      rintro ⟨h1, h2, h3⟩
      rw [h.absent _ h1 k h2] at h3
      cases h3
    · rw [lift, dif_neg hd]
  have htable : ∀ x, (start.vm L v).tableOf x = none := by
    intro x
    cases x with
    | dir d k => exact hpgdir d k
    | node o shmn => rfl
  have hslot : ∀ x, (start.vm L v).slot (start.vm L v).tableOf x = Pte.zero := by
    intro x
    rw [Vm.slot, htable]
    rfl
  have hheld : ∀ x, (start.vm L v).held (start.vm L v).tableOf x = none := by
    intro x
    rw [Vm.held, hslot]
    rfl
  have hno : ∀ {x : Owner × ℕ} {p : ℕ} {q : Prop},
      (start.vm L v).held (start.vm L v).tableOf x = some p → q := by
    intro x p q hx
    rw [hheld] at hx
    cases hx
  have hfin : FinitelyHeld ((start.vm L v).held (start.vm L v).tableOf) := by
    refine Set.finite_empty.subset fun x hx => hx (hheld x)
  refine ⟨⟨⟨?_, ?_, hfin, ?_, fun x _ => hslot x, ?_, ?_, fun p hp => hp, fun p hp => .inl hp⟩,
    ?_⟩, ?_⟩
  · intro x y f hx
    rw [htable] at hx
    cases hx
  · intro x f hx
    rw [htable] at hx
    cases hx
  · exact fun x p hp => hno hp
  · intro p _
    rw [refs_eq_zero hfin fun x hx => hno hx]
    show lift (refAt L start.ref) 0 p = 0
    by_cases hp : p < npage
    · rw [lift, dif_pos hp, refAt]
      split_ifs with hK
      · rfl
      · exact h.ref _ hK
    · rw [lift, dif_neg hp]
  · exact fun x p hp => hno hp
  · exact fun p hp => Finset.mem_map_of_mem _ (h.kernel hp)
  · exact fun d pg => hslot _

/-- **Every run**, in every view. -/
theorem Run.sound {start : Phys npage} (hstart : Start L start) {ops : List (Op npage × Ret npage)}
    (h : Run L start ops s) (v : View) : ∃ X, Sound L v X s ∧ Agrees L v (Flat.of ops) s := by
  induction h with
  | start => exact ⟨_, hstart.sound v⟩
  | step _ hvalid hstep ih =>
    obtain ⟨X, H, A⟩ := ih
    obtain ⟨ret, s', X', hstep', H', A', -⟩ := step_spec H A hvalid
    rw [hstep, Except.ok.injEq, Prod.mk.injEq] at hstep'
    obtain ⟨rfl, rfl⟩ := hstep'
    exact ⟨X', H', A'⟩

/-! ## What the functions answer -/

/-- `*get_pte(pgdir, la, 0)`, or 0 if there is no page table. -/
def entry (pgdir : Fin npage) (la : Word) (s : Phys npage) : Res Word := do
  match ← getPte pgdir la false s with
  | (none, _) => return 0
  | (some ptep, s) => return s.word ptep.1 ptep.2

/-- The view of one bit. -/
def View.bit (b : ℕ) : View := ⟨fun w => ⟨BitVec.getLsbD w b, BitVec.getLsbD w b⟩, by simp⟩

/-- The word for what is mapped at a page. -/
def Flat.word (x : Option (Fin npage × Word)) : Word :=
  x.elim 0 fun x => page2pa x.1 ||| pteP ||| x.2

/-- A word is known if it is known in every view. -/
theorem word_eq_of_views {w : Word} {x : Option (Fin npage × Word)}
    (h : ∀ v : View, v.pte w = Flat.pte v x) : w = Flat.word x := by
  refine BitVec.eq_of_getLsbD_eq fun b _ => ?_
  have hbit := congrArg (fun e => e.perm.writable) (h (View.bit b))
  cases x with
  | none =>
    refine hbit.trans ?_
    show false = BitVec.getLsbD 0#32 b
    rw [BitVec.getLsbD_zero]
  | some x => exact hbit

/-- `get_page`, and the entry. -/
theorem getPage_spec (H : Sound L v X s) (hall : ∀ v, Agrees L v m s) {d : Fin npage}
    (hd : d ∈ L.dirs)
    {la : Word} (hla : UserAddr la) :
    entry d la s = .ok (Flat.word (m d (la.toNat / pgSize))) ∧
    ∃ ptep, getPage d la s = .ok ((m d (la.toNat / pgSize)).map Prod.fst, ptep) := by
  have hslot : ∀ v : View, (s.vm L v).slots (userSlot d la.toNat) =
      Flat.pte v (m d (la.toNat / pgSize)) := by
    intro v
    rw [← hall v d (la.toNat / pgSize)]
    exact congrArg _ (userSlot_inj.2 ⟨rfl, (Nat.mul_div_left _ (by decide)).symm⟩)
  rcases getPte_found H hd hla.pdx_lt with ⟨hget, htable⟩ | ⟨f, hget, hf, htable⟩
  · -- without a page table nothing is mapped
    have hnone : m d (la.toNat / pgSize) = none := by
      have hzero := hslot v
      rw [Vm.slots, Vm.slot, userSlot, htable] at hzero
      cases hm : m d (la.toNat / pgSize) with
      | none => rfl
      | some x =>
        rw [hm] at hzero
        cases congrArg Pte.present hzero
    rw [hnone, entry, getPage, hget]
    exact ⟨rfl, none, rfl⟩
  · have hpte : ∀ v : View, v.pte (s.word f (Word.ptx la)) = Flat.pte v
        (m d (la.toNat / pgSize)) := by
      intro v'
      have htable' : (s.vm L v').tableOf (.dir d (Ucore.pdx la.toNat)) = some (f : ℕ) := htable
      rw [← hslot v', Vm.slots, userSlot, ← Vm.Inv.pte_eq htable', ← Word.ptx_eq, vm_pte hf]
    refine ⟨?_, some (f, Word.ptx la), ?_⟩
    · simp only [entry, hget, Res.ok_bind, ← word_eq_of_views hpte]
      rfl
    · have hpres : present (s.word f (Word.ptx la)) = (m d (la.toNat / pgSize)).isSome := by
        refine (congrArg Pte.present (hpte v)).trans ?_
        cases m d (la.toNat / pgSize) with
        | none => rfl
        | some x => rfl
      simp only [getPage, hget, Res.ok_bind, hpres]
      cases hm : m d (la.toNat / pgSize) with
      | none => rfl
      | some x =>
        have hppn : ppn (s.word f (Word.ptx la)) = x.1 := by
          have h := congrArg Pte.frame (hpte v)
          rw [hm] at h
          exact h
        simp only [Option.isSome_some, if_true, pa2page_eq_ok.2 hppn, Res.ok_bind, Option.map_some]
        rfl

/-- The places at which a page is mapped. -/
def Flat.places (m : Flat npage) (p : Fin npage) : Set (Fin npage × ℕ) :=
  {x | ∃ perm, m x.1 x.2 = some (p, perm)}

/-- **The number of mappings is the number of entries.** -/
theorem refs_eq_places (H : Sound L v X s) (A : Agrees L v m s) (p : Fin npage) :
    (Flat.places m p).Finite ∧
      refs ((s.vm L v).held (s.vm L v).tableOf) p = (Flat.places m p).ncard := by
  set φ : Fin npage × ℕ → Owner × ℕ := fun x => userSlot x.1 (x.2 * pgSize) with hφ
  have hinj : Function.Injective φ := by
    rintro ⟨d, pg⟩ ⟨e, pg'⟩ heq
    obtain ⟨h1, h2⟩ := userSlot_inj.1 heq
    simp only [Nat.mul_div_left _ (show 0 < pgSize by decide)] at h2
    exact Prod.ext (Fin.ext h1) h2
  have hmapped : ∀ x, (s.vm L v).held (s.vm L v).tableOf (φ x) = some (p : ℕ) ↔
      x ∈ Flat.places m p := by
    rintro ⟨d, pg⟩
    show ((s.vm L v).slots (userSlot d (pg * pgSize))).target = _ ↔ ∃ perm, m d pg = some (p, perm)
    rw [A d pg]
    cases m d pg with
    | none =>
      exact iff_of_false (fun h => by cases h) fun ⟨perm, h⟩ => by cases h
    | some y =>
      show some (y.1 : ℕ) = some (p : ℕ) ↔ _
      rw [Option.some.injEq, ← Fin.ext_iff]
      refine ⟨fun h => ⟨y.2, by rw [← h]⟩, ?_⟩
      rintro ⟨perm, h⟩
      rw [Option.some.injEq] at h
      rw [h]
  have himage : holders ((s.vm L v).held (s.vm L v).tableOf) (p : ℕ) = φ '' Flat.places m p := by
    ext y
    constructor
    · intro hy
      obtain ⟨x, j⟩ := y
      have hheld : (s.vm L v).held (s.vm L v).tableOf (x, j) = some (p : ℕ) := hy
      cases x with
      | node o shmn => cases hheld
      | dir d k =>
        have hd : d < npage := by
          by_contra hd
          have hnone : (s.vm L v).tableOf (.dir d k) = none := by
            show lift (pgdirAt L s.word) (fun _ => none) d k = none
            rw [lift, dif_neg hd]
          rw [Vm.held, Vm.slot, hnone] at hheld
          cases hheld
        obtain ⟨la, hla⟩ := exists_userSlot d k (H.good.index _ _ hheld)
        have hslot : φ (⟨d, hd⟩, la / pgSize) = (Owner.dir d k, j) := by
          rw [hla]
          exact userSlot_inj.2 ⟨rfl, Nat.mul_div_left _ (by decide)⟩
        refine ⟨(⟨d, hd⟩, la / pgSize), (hmapped _).1 ?_, hslot⟩
        rw [hslot]
        exact hheld
    · rintro ⟨x, hx, rfl⟩
      exact (hmapped x).2 hx
  have hfin := H.good.finite.holders (p : ℕ)
  rw [himage] at hfin
  refine ⟨hfin.of_finite_image hinj.injOn, ?_⟩
  rw [refs, himage, Set.ncard_image_of_injective _ hinj]

/-- A page that is mapped is a data page. -/
theorem dataPage_of_mapped (H : Sound L v X s) (A : Agrees L v m s) {d p : Fin npage} {pg : ℕ}
    {perm : Word} (h : m d pg = some (p, perm)) : DataPage L s p := by
  have hheld : (s.vm L v).held (s.vm L v).tableOf (userSlot d (pg * pgSize)) = some (p : ℕ) := by
    show ((s.vm L v).slots (userSlot d (pg * pgSize))).target = _
    rw [A d pg, h]
    rfl
  obtain ⟨hlive, hX, htable⟩ := H.good.used _ _ hheld
  obtain ⟨q, hq, heq⟩ := mem_vm_live.1 hlive
  refine ⟨Fin.ext heq ▸ hq, fun hK => hX (H.kernel p hK), fun e he k hk hpres hppn => ?_⟩
  refine htable (.dir e k) ?_
  show (s.vm L v).pgdir e k = _
  rw [vm_pgdir, pgdirAt, if_pos ⟨he, hk, hpres⟩, hppn]

/-- Only permission bits are inserted. -/
theorem Run.permBits {start : Phys npage} {ops : List (Op npage × Ret npage)}
    (h : Run L start ops s)
    {d p : Fin npage} {pg : ℕ} {perm : Word} (hm : Flat.of ops d pg = some (p, perm)) :
    PermBits perm := by
  induction h with
  | start => cases hm
  | @step ops s s' op ret _ hvalid _ ih =>
    rw [Flat.of, Flat.after] at hm
    by_cases hfail : ret.failed = true
    · rw [if_pos hfail] at hm
      exact ih hm
    · rw [if_neg hfail] at hm
      -- the operation has set this entry, or has not
      have hset : ∀ x : Fin npage × ℕ, op.sets = some x → op.value ret = some (p, perm) ∨
          Flat.of ops d pg = some (p, perm) := by
        intro x hx
        rw [hx, Option.elim_some] at hm
        by_cases hd : d = x.1
        · rw [hd, Function.update_self] at hm
          by_cases hpg : pg = x.2
          · rw [hpg, Function.update_self] at hm
            exact .inl hm
          · rw [Function.update_of_ne hpg, ← hd] at hm
            exact .inr hm
        · rw [Function.update_of_ne hd] at hm
          exact .inr hm
      cases op with
      | supply script => exact ih hm
      | allocPage => exact ih hm
      | getPte e la create => exact ih hm
      | pageInsert e page la perm' =>
        rcases hset _ rfl with hval | hold
        · cases hval
          exact hvalid.2.2.1
        · exact ih hold
      | pageRemove e la =>
        rcases hset _ rfl with hval | hold
        · cases hval
        · exact ih hold
      | pgdirAllocPage e la perm' =>
        rcases hset _ rfl with hval | hold
        · cases ret with
          | page q =>
            obtain ⟨r, -, heq⟩ := Option.map_eq_some_iff.1 hval
            cases heq
            exact hvalid.2.2
          | code n => cases hval
          | ptep q => cases hval
        · exact ih hold

/-- **The two-level page table is a flat map.**  After any sequence of operations, with `alloc_page`
handing out any frames that are not in use or failing, `get_page` returns the page that has been
inserted last at the page of the address, and the entry has the permission bits of that insertion; a
page that is mapped is counted as often as it is mapped.  Every operation that comes next returns,
changes the entry of no other page and of no other directory, and if it fails, it has changed
nothing. -/
theorem pageTable_flat {L : Layout npage} {start s : Phys npage} (hstart : Start L start)
    {ops : List (Op npage × Ret npage)} (h : Run L start ops s) :
    (∀ d ∈ L.dirs, ∀ la, UserAddr la →
      (∃ ptep, getPage d la s = .ok ((Flat.of ops d (la.toNat / pgSize)).map Prod.fst, ptep)) ∧
      entry d la s = .ok (Flat.word (Flat.of ops d (la.toNat / pgSize)))) ∧
    (∀ d pg p perm, Flat.of ops d pg = some (p, perm) →
      pteFlags (Flat.word (Flat.of ops d pg)) = pteP ||| perm ∧ DataPage L s p) ∧
    (∀ p, DataPage L s p → (Flat.places (Flat.of ops) p).Finite ∧
      s.ref p = (Flat.places (Flat.of ops) p).ncard) ∧
    (∀ op, Valid L s op → ∃ ret s', s.step op = .ok (ret, s') ∧
      (∀ d ∈ L.dirs, ∀ la, UserAddr la → op.sets ≠ some (d, la.toNat / pgSize) →
        entry d la s' = entry d la s ∧
        (getPage d la s').map Prod.fst = (getPage d la s).map Prod.fst) ∧
      (ret.failed = true → Same s s')) := by
  have hall : ∀ v, Agrees L v (Flat.of ops) s := fun v => by
    obtain ⟨X, -, A⟩ := h.sound hstart v
    exact A
  obtain ⟨X, H, A⟩ := h.sound hstart (View.bit 0)
  refine ⟨fun d hd la hla => (getPage_spec H hall hd hla).symm, ?_, ?_, ?_⟩
  · intro d pg p perm hm
    refine ⟨?_, dataPage_of_mapped H A hm⟩
    rw [hm, Flat.word, Option.elim_some, BitVec.or_assoc]
    exact pteFlags_entry (PermBits.or rfl (h.permBits hm))
  · intro p hp
    obtain ⟨hfin, hrefs⟩ := refs_eq_places H A p
    refine ⟨hfin, ?_⟩
    rw [← vm_ref (v := View.bit 0) hp.2.1, H.good.ref p (hp.cases H).1, hrefs]
  · intro op hvalid
    obtain ⟨ret, s', X', hstep, H', -, hsame⟩ := step_spec H A hvalid
    refine ⟨ret, s', hstep, fun d hd la hla hne => ?_, hsame⟩
    have h' := h.step hvalid hstep
    have hall' : ∀ v, Agrees L v (Flat.of ((op, ret) :: ops)) s' := fun v => by
      obtain ⟨X, -, A⟩ := h'.sound hstart v
      exact A
    have hsame : Flat.of ((op, ret) :: ops) d (la.toNat / pgSize) =
        Flat.of ops d (la.toNat / pgSize) := Flat.after_of_ne hne
    obtain ⟨hentry, ptep, hpage⟩ := getPage_spec H hall hd hla
    obtain ⟨hentry', ptep', hpage'⟩ := getPage_spec H' hall' hd hla
    rw [hentry, hentry', hpage, hpage', hsame]
    exact ⟨rfl, rfl⟩

/-- One directory, in the first of eight frames. -/
def oneDir : Layout 8 := ⟨{0}, {0}, Finset.Subset.refl _, by decide⟩

/-- Only the directory is in use, and it is empty. -/
def oneDirStart : Phys 8 := ⟨⟨{0}, [some 3, some 5, some 6]⟩, fun _ => 0, fun _ _ => 0⟩

/-- A page is inserted with `PTE_U | PTE_W`, another one is allocated for the next address, and the
first one is removed. -/
theorem pageTable_flat_insert : ∃ ops s, Run oneDir oneDirStart ops s ∧
    (∃ ptep, getPage 0 0x401123#32 s = .ok (some 6, ptep)) ∧
    entry 0 0x401123#32 s = .ok 0x6007#32 ∧ entry 0 0x400123#32 s = .ok 0#32 ∧ s.ref 6 = 1 ∧
    3 ∉ s.frames.live := by
  have hstart : Start oneDir oneDirStart :=
    ⟨Finset.Subset.refl _, fun _ _ => rfl, fun _ _ _ _ => show present 0#32 = false by decide⟩
  have h₀ : Run oneDir oneDirStart [] oneDirStart := .start
  have habsent : present 0#32 ≠ true := by decide
  have h₁ := h₀.step (show Valid oneDir _ .allocPage from trivial)
    (show step _ .allocPage = .ok (.page (some 3), _) from rfl)
  have h₂ := h₁.step (show Valid oneDir _ (.pageInsert 0 3 0x400000#32 6#32) from
    ⟨by decide, ⟨by decide, by decide⟩, rfl, by decide, by decide,
      fun _ _ _ _ h => absurd h habsent⟩)
    (show step _ (.pageInsert 0 3 0x400000#32 6#32) = .ok (.code 0, _) from rfl)
  have h₃ := h₂.step (show Valid oneDir _ (.pgdirAllocPage 0 0x401000#32 6#32) from
    ⟨by decide, ⟨by decide, by decide⟩, rfl⟩)
    (show step _ (.pgdirAllocPage 0 0x401000#32 6#32) = .ok (.page (some 6), _) from rfl)
  have h₄ := h₃.step (show Valid oneDir _ (.pageRemove 0 0x400000#32) from
    ⟨by decide, ⟨by decide, by decide⟩⟩)
    (show step _ (.pageRemove 0 0x400000#32) = .ok (.code 0, _) from rfl)
  obtain ⟨hget, -⟩ := pageTable_flat hstart h₄
  obtain ⟨hpage, hentry⟩ := hget 0 (by decide) 0x401123#32 ⟨by decide, by decide⟩
  obtain ⟨-, hentry'⟩ := hget 0 (by decide) 0x400123#32 ⟨by decide, by decide⟩
  exact ⟨_, _, h₄, hpage, hentry, hentry', rfl, by decide⟩

end Phys

end Ucore
