import Ucore.Pmm.Word
import Ucore.Pmm.Tables

/-!
# Words and entries

`Phys.vm` shows the words of physical memory as the entries of `Ucore.Pmm.Defs`, and each function
on words does what the function on entries does: `getPte_sim`, `pageRemovePte_sim` and
`insertPte_sim`.  So what `Ucore.Pmm.Tables` says of the functions on entries holds of the functions
on words, which is what the lemmas of the last section are for.

How the permission bits are shown is a parameter, the `View`.  As the functions do not look at the
permissions, what holds in every view holds of every bit.

* `Layout` names the page directories and the other frames that belong to the kernel itself.  These
  show no entries at all.
* The lemmas with the names `vm_pte`, `vm_setPde`, `vm_allocPage` and so on say what is shown after
  an assignment to memory or a call of the allocator.
* `Sound` is the invariant of `Ucore.Pmm.Inv` for what is shown.  From it come the conditions under
  which a word can be taken apart: the frame of an entry exists and is none of the kernel's
  (`Sound.points`), and a page table is a frame in use (`Sound.table`).
* `getPte_cases`, `pageInsert_cases`, `pageRemove_cases`, `allocPage_cases` and
  `pgdirAllocPage_cases` say what the functions do, in terms of what is shown.
-/

set_option autoImplicit false

namespace Ucore

open Vm Word

/-- The number of page directory entries below `USERTOP`. -/
def userPdes : ℕ := userTop / ptSize

/-- The page directories, and all frames that are in use by the kernel itself. -/
structure Layout (npage : ℕ) where
  dirs : Finset (Fin npage)
  kernel : Finset (Fin npage)
  sub : dirs ⊆ kernel
  /-- The machine has no more than `KMEMSIZE` of memory. -/
  bound : npage ≤ 0x38000000 / pgSize

theorem Layout.le {npage : ℕ} (L : Layout npage) : npage ≤ 2 ^ 20 := by
  have h := L.bound
  simp only [pgSize] at h
  omega

/-- What is shown of the permission bits. -/
structure View where
  perm : Word → Perm
  zero : perm 0 = ⟨false, false⟩

namespace Phys

variable {npage : ℕ}

/-! ## Words as entries -/

/-- A function on frames, on all numbers. -/
def lift {α : Type} (f : Fin npage → α) (z : α) (p : ℕ) : α := if h : p < npage then f ⟨p, h⟩ else z

theorem lift_val {α : Type} (f : Fin npage → α) (z : α) (page : Fin npage) :
    lift f z page = f page :=
  dif_pos page.isLt

theorem lift_update {α : Type} (f : Fin npage → α) (z : α) (page : Fin npage) (v : α) :
    lift (Function.update f page v) z = Function.update (lift f z) page v := by
  funext p
  by_cases hp : p = page
  · rw [hp, lift_val, Function.update_self, Function.update_self]
  · rw [Function.update_of_ne hp, lift, lift]
    by_cases h : p < npage
    · rw [dif_pos h, dif_pos h, Function.update_of_ne]
      exact fun heq => hp (congrArg Fin.val heq)
    · rw [dif_neg h, dif_neg h]

end Phys

/-- An entry. -/
def View.pte (v : View) (w : Word) : Pte := ⟨ppn w, present w, v.perm w⟩

theorem View.pte_zero (v : View) : v.pte 0 = Pte.zero := by
  rw [View.pte, v.zero]
  rfl

namespace Phys

variable {npage : ℕ} (L : Layout npage) (v : View)

/-- The reference count of a frame. -/
def refAt (ref : Fin npage → ℤ) (p : Fin npage) : ℤ := if p ∈ L.kernel then 0 else ref p

/-- The entries in a frame. -/
def tableAt (word : Fin npage → ℕ → Word) (f : Fin npage) (i : ℕ) : Pte :=
  if f ∈ L.kernel then Pte.zero else v.pte (word f i)

/-- The page tables of a directory. -/
def pgdirAt (word : Fin npage → ℕ → Word) (d : Fin npage) (k : ℕ) : Option ℕ :=
  if d ∈ L.dirs ∧ k < userPdes ∧ present (word d k) = true then some (ppn (word d k)) else none

/-- **Physical memory as seen by `Ucore.Pmm.Defs`.**  Frames of the kernel have no user entries in
them, and their counts are nobody's business. -/
def vm (s : Phys npage) : Vm where
  frames := ⟨s.frames.live.map Fin.valEmbedding, s.frames.script.map (Option.map Fin.val)⟩
  ref := lift (refAt L s.ref) 0
  table := lift (tableAt L v s.word) fun _ => Pte.zero
  mem := fun _ _ => 0
  pgdir := lift (pgdirAt L s.word) fun _ => none
  shmem := fun _ => none
  shmemPool := ⟨∅, []⟩
  shmnPool := ⟨∅, []⟩

variable {L v} {s : Phys npage} {page f : Fin npage}

theorem vm_ref (hp : page ∉ L.kernel) : (s.vm L v).ref page = s.ref page := by
  show lift (refAt L s.ref) 0 page = _
  rw [lift_val, refAt, if_neg hp]

theorem vm_table (f : Fin npage) : (s.vm L v).table f = tableAt L v s.word f := lift_val ..

theorem vm_pgdir (d : Fin npage) : (s.vm L v).pgdir d = pgdirAt L s.word d := lift_val ..

/-- An entry of a page table. -/
theorem vm_pte (hf : f ∉ L.kernel) (i : ℕ) : (s.vm L v).pte (f, i) = v.pte (s.word f i) := by
  show (s.vm L v).table f i = _
  rw [vm_table, tableAt, if_neg hf]

theorem vm_setPageRef (hp : page ∉ L.kernel) (n : ℤ) :
    (s.setPageRef page n).vm L v = (s.vm L v).setPageRef page n := by
  have href : refAt L (Function.update s.ref page n) = Function.update (refAt L s.ref) page n := by
    funext p
    rw [refAt]
    by_cases h : p = page
    · rw [h, if_neg hp, Function.update_self, Function.update_self]
    · rw [Function.update_of_ne h, Function.update_of_ne h, refAt]
  rw [setPageRef, vm, href, lift_update]
  rfl

/-- Words that are not in a frame of the kernel. -/
theorem vm_word (hf : f ∉ L.kernel) (w : ℕ → Word) :
    ({ s with word := Function.update s.word f w } : Phys npage).vm L v =
      { s.vm L v with table := Function.update (s.vm L v).table f fun i => v.pte (w i) } := by
  have htable : tableAt L v (Function.update s.word f w) =
      Function.update (tableAt L v s.word) f fun i => v.pte (w i) := by
    funext g i
    rw [tableAt]
    by_cases h : g = f
    · rw [h, if_neg hf, Function.update_self, Function.update_self]
    · rw [Function.update_of_ne h, Function.update_of_ne h, tableAt]
  have hdir : pgdirAt L (Function.update s.word f w) = pgdirAt L s.word := by
    funext d k
    rw [pgdirAt, pgdirAt]
    by_cases h : d = f
    · rw [if_neg fun hd => hf (L.sub (h ▸ hd.1)), if_neg fun hd => hf (L.sub (h ▸ hd.1))]
    · rw [Function.update_of_ne h]
  rw [vm, htable, hdir, lift_update]
  rfl

theorem vm_setWord (hf : f ∉ L.kernel) (i : ℕ) (w : Word) :
    (s.setWord (f, i) w).vm L v = (s.vm L v).setPte (f, i) (v.pte w) := by
  have hrow : (fun j => v.pte (Function.update (s.word f) i w j)) =
      Function.update ((s.vm L v).table f) i (v.pte w) := by
    funext j
    by_cases h : j = i
    · rw [h, Function.update_self, Function.update_self]
    · rw [Function.update_of_ne h, Function.update_of_ne h]
      exact (vm_pte hf j).symm
  rw [setWord, vm_word hf, hrow]
  rfl

theorem vm_clear (hf : f ∉ L.kernel) : (s.clear f).vm L v = (s.vm L v).zeroTable f := by
  rw [clear, vm_word hf, v.pte_zero]
  rfl

/-- An entry of a page directory. -/
theorem vm_setPde {d : Fin npage} (hd : d ∈ L.dirs) {k : ℕ} (hk : k < userPdes) {w : Word}
    (hw : present w = true) :
    (s.setWord (d, k) w).vm L v = (s.vm L v).setPde d k (some (ppn w)) := by
  set word := Function.update s.word d (Function.update (s.word d) k w) with hword
  have htable : tableAt L v word = tableAt L v s.word := by
    funext g i
    rw [tableAt, tableAt]
    by_cases h : g = d
    · rw [h, if_pos (L.sub hd), if_pos (L.sub hd)]
    · rw [hword, Function.update_of_ne h]
  have hdir : pgdirAt L word =
      Function.update (pgdirAt L s.word) d (Function.update (pgdirAt L s.word d) k
        (some (ppn w))) := by
    funext e l
    rw [pgdirAt, hword]
    by_cases h : e = d
    · rw [h, Function.update_self, Function.update_self]
      by_cases hl : l = k
      · rw [hl, Function.update_self, Function.update_self, if_pos ⟨hd, hk, hw⟩]
      · rw [Function.update_of_ne hl, Function.update_of_ne hl, pgdirAt]
    · rw [Function.update_of_ne h, Function.update_of_ne h, pgdirAt]
  show vm L v { s with word := word } = _
  rw [vm, htable, hdir, lift_update, ← vm_pgdir (v := v)]
  rfl

/-- `alloc_page`. -/
theorem vm_allocPage : (s.vm L v).allocPage =
    (s.allocPage.1.map Fin.val, s.allocPage.2.vm L v) := by
  have htake : (s.vm L v).frames.take = (s.frames.take.1.map Fin.val,
      ⟨s.frames.take.2.live.map Fin.valEmbedding,
        s.frames.take.2.script.map (Option.map Fin.val)⟩) := by
    obtain ⟨⟨live, script⟩, ref, word⟩ := s
    show Pool.take ⟨live.map Fin.valEmbedding, script.map (Option.map Fin.val)⟩ = _
    cases script with
    | nil => rfl
    | cons a rest =>
      cases a with
      | none => rfl
      | some p =>
        by_cases hp : p ∈ live
        · have hp' : (p : ℕ) ∈ live.map Fin.valEmbedding := Finset.mem_map_of_mem _ hp
          simp only [Pool.take, List.map_cons, Option.map_some, if_pos hp, if_pos hp',
            Option.map_none]
        · have hp' : (p : ℕ) ∉ live.map Fin.valEmbedding := by
            rw [show (p : ℕ) = Fin.valEmbedding p from rfl, Finset.mem_map']
            exact hp
          simp only [Pool.take, List.map_cons, Option.map_some, if_neg hp, if_neg hp',
            Finset.map_insert, Fin.valEmbedding_apply]
  rw [Vm.allocPage, htake]
  rfl

/-- `free_page`. -/
theorem vm_freePage (hp : page ∉ L.kernel) :
    (s.vm L v).freePage page = (s.freePage page).map (vm L v) := by
  have hlive : (page : ℕ) ∈ (s.vm L v).frames.live ↔ page ∈ s.frames.live := by
    show Fin.valEmbedding page ∈ s.frames.live.map Fin.valEmbedding ↔ _
    rw [Finset.mem_map']
  rw [Vm.freePage, Phys.freePage]
  by_cases h : page ∈ s.frames.live
  · rw [if_pos (hlive.2 h), if_pos h, ← vm_setPageRef hp]
    refine congrArg Except.ok ?_
    simp only [vm, Pool.give, setPageRef, Finset.map_erase, Fin.valEmbedding_apply]
  · rw [if_neg fun h' => h (hlive.1 h'), if_neg h]
    rfl

/-- `page_ref_inc`. -/
theorem vm_pageRefInc (hp : page ∉ L.kernel) :
    (s.vm L v).pageRefInc page = (s.setPageRef page (s.ref page + 1)).vm L v := by
  rw [vm_setPageRef hp, Vm.pageRefInc, vm_ref hp]

/-- `page_ref_dec`. -/
theorem vm_pageRefDec (hp : page ∉ L.kernel) :
    (s.vm L v).pageRefDec page = (s.setPageRef page (s.ref page - 1)).vm L v := by
  rw [vm_setPageRef hp, Vm.pageRefDec, vm_ref hp]

theorem vm_releasePage (hp : page ∉ L.kernel) :
    Ucore.releasePage page (s.vm L v) = (releasePage page s).map (vm L v) := by
  rw [Ucore.releasePage, releasePage, vm_pageRefDec hp, vm_ref hp, vm_freePage hp]
  split_ifs
  · rfl
  · rfl

/-! ## The functions -/

theorem pa2page_eq_ok {w : Word} : pa2page w = .ok page ↔ ppn w = page := by
  rw [pa2page]
  by_cases h : ppn w < npage
  · rw [dif_pos h, Except.ok.injEq, Fin.ext_iff]
  · rw [dif_neg h]
    exact iff_of_false (fun heq => by cases heq) fun heq => h (heq ▸ page.isLt)

theorem pte2page_eq_ok {w : Word} (hw : present w = true) (h : ppn w = page) :
    pte2page w = .ok page := by
  rw [pte2page, hw, assert_pos rfl, Res.ok_bind, pa2page_eq_ok, ppn_pteAddr]
  exact h

/-- What `page_insert` writes has the frame that it is given. -/
theorem ppn_insert (L : Layout npage) {perm : Word} (hperm : PermBits perm) :
    ppn (page2pa page ||| pteP ||| perm) = page := by
  rw [BitVec.or_assoc]
  exact ppn_entry L.le (PermBits.or rfl hperm)

/-- The frame of an entry exists, and is not one of the kernel. -/
def Points (L : Layout npage) (w : Word) : Prop :=
  present w = true → ∃ p : Fin npage, p ∉ L.kernel ∧ ppn w = p

/-- `page_remove_pte`. -/
theorem pageRemovePte_sim (hf : f ∉ L.kernel) {i : ℕ} (hent : Points L (s.word f i)) :
    Ucore.pageRemovePte (f, i) (s.vm L v) = (pageRemovePte (f, i) s).map (vm L v) := by
  rw [Ucore.pageRemovePte, pageRemovePte, vm_pte hf]
  by_cases hw : present (s.word f i) = true
  · obtain ⟨p, hp, hppn⟩ := hent hw
    rw [if_pos hw, if_pos (show (v.pte (s.word f i)).present = true from hw),
      pte2page_eq_ok hw hppn,
      show (v.pte (s.word f i)).frame = p from hppn, vm_releasePage hp, Res.ok_bind]
    cases releasePage p s with
    | error e => rfl
    | ok s' =>
      refine congrArg Except.ok ?_
      rw [vm_setWord hf, v.pte_zero]
  · rw [if_neg hw, if_neg (show ¬ (v.pte (s.word f i)).present = true from hw)]
    rfl

/-- `page_insert` once it has an entry. -/
theorem insertPte_sim (hf : f ∉ L.kernel) (hp : page ∉ L.kernel) {i : ℕ}
    (hent : Points L (s.word f i))
    {perm : Word} (hperm : PermBits perm) :
    Ucore.insertPte page (v.perm (page2pa page ||| pteP ||| perm)) (f, i) (s.vm L v) =
      (insertPte page perm (f, i) s).map (vm L v) := by
  have hset : ∀ s₂ : Phys npage, (s₂.vm L v).setPte (f, i)
      ⟨page, true, v.perm (page2pa page ||| pteP ||| perm)⟩ =
      (s₂.setWord (f, i) (page2pa page ||| pteP ||| perm)).vm L v := by
    intro s₂
    rw [vm_setWord hf, View.pte, entry_present, ppn_insert L hperm]
  have hent₁ : Points L ((s.setPageRef page (s.ref page + 1)).word f i) := hent
  simp only [Ucore.insertPte, insertPte, vm_pageRefInc hp, vm_pte hf]
  generalize s.setPageRef page (s.ref page + 1) = s₁ at hent₁
  by_cases hw : present (s₁.word f i) = true
  · obtain ⟨q, hq, hppn⟩ := hent₁ hw
    have hframe : (v.pte (s₁.word f i)).frame = page ↔ q = page := by
      rw [show (v.pte (s₁.word f i)).frame = q from hppn, Fin.ext_iff]
    simp only [if_pos hw, if_pos (show (v.pte (s₁.word f i)).present = true from hw),
      pte2page_eq_ok hw hppn, Res.ok_bind]
    by_cases hqp : q = page
    · rw [if_pos (hframe.2 hqp), if_pos hqp, vm_pageRefDec hp]
      exact congrArg Except.ok (hset _)
    · rw [if_neg fun h => hqp (hframe.1 h), if_neg hqp, pageRemovePte_sim hf hent₁]
      cases pageRemovePte (f, i) s₁ with
      | error e => rfl
      | ok s₂ => exact congrArg Except.ok (hset s₂)
  · rw [if_neg hw, if_neg (show ¬ (v.pte (s₁.word f i)).present = true from hw)]
    exact congrArg Except.ok (hset s₁)

/-- **The invariant of `Ucore.Pmm.Inv`**, for what physical memory shows.  The frames of the kernel
are in use, but not as pages or page tables of users. -/
structure Sound (L : Layout npage) (v : View) (X : Finset ℕ) (s : Phys npage) : Prop where
  good : (s.vm L v).Good X
  kernel : ∀ p ∈ L.kernel, (p : ℕ) ∈ X

variable {X : Finset ℕ} {d : Fin npage}

theorem mem_vm_live {p : ℕ} :
    p ∈ (s.vm L v).frames.live ↔ ∃ q : Fin npage, q ∈ s.frames.live ∧ (q : ℕ) = p :=
  Finset.mem_map

theorem Sound.kernel_live (H : Sound L v X s) : L.kernel ⊆ s.frames.live := by
  intro p hp
  obtain ⟨q, hq, heq⟩ := mem_vm_live.1 (H.good.spare p (H.kernel p hp))
  rwa [← Fin.ext heq]

/-- Frames in use that are not to spare. -/
theorem Sound.frame (H : Sound L v X s) {p : ℕ} (hlive : p ∈ (s.vm L v).frames.live) (hX : p ∉ X) :
    ∃ q : Fin npage, q ∉ L.kernel ∧ p = q := by
  obtain ⟨q, -, rfl⟩ := mem_vm_live.1 hlive
  exact ⟨q, fun h => hX (H.kernel q h), rfl⟩

/-- The page table of a directory entry that is present. -/
theorem Sound.table (H : Sound L v X s) (hd : d ∈ L.dirs) {k : ℕ} (hk : k < userPdes)
    (hw : present (s.word d k) = true) : ∃ f : Fin npage, f ∉ L.kernel ∧ ppn (s.word d k) = f := by
  have htable : (s.vm L v).tableOf (.dir d k) = some (ppn (s.word d k)) := by
    show (s.vm L v).pgdir d k = _
    rw [vm_pgdir, pgdirAt, if_pos ⟨hd, hk, hw⟩]
  obtain ⟨hlive, hX⟩ := H.good.tables _ _ htable
  exact H.frame hlive hX

/-- The entries of page tables. -/
theorem Sound.points (H : Sound L v X s) {x : Owner} (hf : f ∉ L.kernel)
    (hx : (s.vm L v).tableOf x = some (f : ℕ)) (i : ℕ) : Points L (s.word f i) := by
  intro hw
  have hheld : (s.vm L v).held (s.vm L v).tableOf (x, i) = some (ppn (s.word f i)) := by
    rw [Vm.held, ← Vm.Inv.pte_eq hx, vm_pte hf]
    exact Pte.target_eq_some.2 ⟨hw, rfl⟩
  obtain ⟨hlive, hX, -⟩ := H.good.used _ _ hheld
  exact H.frame hlive hX

theorem ppn_page2pa (L : Layout npage) : ppn (page2pa page) = page := by
  have h : ppn (page2pa page ||| 0#32) = page := ppn_entry L.le rfl
  rwa [BitVec.or_zero] at h

/-- `get_pte`. -/
theorem getPte_sim (H : Sound L v X s) (hd : d ∈ L.dirs) {la : Word} (hla : Word.pdx la < userPdes)
    (create : Bool) : ∃ r s', getPte d la create s = .ok (r, s') ∧
    Ucore.getPte d la.toNat create (s.vm L v) = (r.map fun x => ((x.1 : ℕ), x.2), s'.vm L v) ∧
    (∀ x, r = some x → x.1 ∉ L.kernel) ∧
    (r = none → s'.frames.live = s.frames.live ∧ s'.ref = s.ref ∧ s'.word = s.word) := by
  simp only [getPte, Ucore.getPte, ← Word.pdx_eq, ← Word.ptx_eq, vm_pgdir, pgdirAt]
  by_cases hw : present (s.word d (Word.pdx la)) = true
  · obtain ⟨f, hf, hppn⟩ := H.table hd hla hw
    have hpage : pa2page (pteAddr (s.word d (Word.pdx la))) = .ok f := by
      rw [pa2page_eq_ok, ppn_pteAddr, hppn]
    refine ⟨some (f, Word.ptx la), s, ?_, ?_, ?_, fun h => by cases h⟩
    · simp only [if_pos hw, Res.ok_bind, Bool.not_true, Bool.false_eq_true, if_false, hpage]
      rfl
    · rw [if_pos ⟨hd, hla, hw⟩, hppn]
      rfl
    · rintro x hx
      cases hx
      exact hf
  · rw [if_neg hw, if_neg fun h => hw h.2.2, makeTable]
    cases create with
    | false => exact ⟨none, s, rfl, rfl, fun x hx => (by cases hx), fun _ => ⟨rfl, rfl, rfl⟩⟩
    | true =>
      simp only [Bool.not_true, Bool.false_eq_true, if_false, vm_allocPage]
      rw [allocPage]
      rcases htake : s.frames.take with ⟨_ | f, frames⟩
      · exact ⟨none, { s with frames := frames }, rfl, rfl, fun x hx => (by cases hx),
          fun _ => ⟨Pool.take_none_live htake, rfl, rfl⟩⟩
      · have hf : f ∉ L.kernel := fun h => (Pool.take_some htake).1 (H.kernel_live h)
        set pde := page2pa f ||| pteU ||| pteW ||| pteP with hpde
        have hpde' : pde = page2pa f ||| (pteU ||| pteW ||| pteP) := by
          rw [hpde, BitVec.or_assoc, BitVec.or_assoc, BitVec.or_assoc]
        have hppn : ppn pde = f := by
          rw [hpde']
          exact ppn_entry L.le rfl
        have hpres : present pde = true := by
          rw [present_eq, hpde', BitVec.getLsbD_or]
          exact Bool.or_true _
        set s₁ : Phys npage := { s with frames := frames } with hs₁
        refine ⟨some (f, Word.ptx la), ((s₁.setPageRef f 1).clear f).setWord (d, Word.pdx la) pde,
          ?_, ?_, ?_, fun h => by cases h⟩
        · have hread : (((s₁.setPageRef f 1).clear f).setWord (d, Word.pdx la) pde).word d
              (Word.pdx la) = pde := by
            simp only [setWord, Function.update_self]
          have hpage : pa2page (pteAddr pde) = .ok f := by rw [pa2page_eq_ok, ppn_pteAddr, hppn]
          have hpa : pa2page (page2pa f) = .ok f := by rw [pa2page_eq_ok, ppn_page2pa L]
          simp only [hpa, Res.ok_bind, Res.pure_eq, ← hpde, Bool.not_true, Bool.false_eq_true,
            if_false]
          rw [← hs₁, hread, hpage]
          rfl
        · simp only [Option.map_some]
          rw [vm_setPde hd hla hpres, vm_clear hf, vm_setPageRef hf, hppn]
        · rintro x hx
          cases hx
          exact hf

/-! ## What the functions do -/

theorem map_eq_ok {α β : Type} {g : α → β} {x : Res α} {y : β} (h : Except.map g x = .ok y) :
    ∃ a, x = .ok a ∧ g a = y := by
  cases x with
  | error e => cases h
  | ok a => exact ⟨a, rfl, Except.ok.inj h⟩

/-- Nothing but what `alloc_page` will answer. -/
def Same (s s' : Phys npage) : Prop :=
  s'.frames.live = s.frames.live ∧ s'.ref = s.ref ∧ s'.word = s.word

/-- `get_pte` finds a page table or makes one, unless there is no memory for it. -/
theorem getPte_cases (H : Sound L v X s) (hd : d ∈ L.dirs) {la : Word}
    (hla : Word.pdx la < userPdes) :
    (∃ s', getPte d la true s = .ok (none, s') ∧ Sound L v X s' ∧
      (s'.vm L v).slots = (s.vm L v).slots ∧ Same s s') ∨
    ∃ f s', getPte d la true s = .ok (some (f, Word.ptx la), s') ∧ f ∉ L.kernel ∧ Sound L v X s' ∧
      (s'.vm L v).slots = (s.vm L v).slots ∧
      (s'.vm L v).tableOf (.dir d (Ucore.pdx la.toNat)) = some (f : ℕ) := by
  obtain ⟨r, s', hrun, hsim, hf, hsame⟩ := getPte_sim H hd hla true
  rcases getPte_spec H.good d la.toNat with ⟨s₁, hget, H₁, hslots, -⟩ |
    ⟨g, s₁, hget, H₁, hslots, hpde, -⟩
  · rw [hsim, Prod.mk.injEq, Option.map_eq_none_iff] at hget
    obtain ⟨rfl, rfl⟩ := hget
    exact .inl ⟨s', hrun, ⟨H₁, H.kernel⟩, hslots, hsame rfl⟩
  · rw [hsim, Prod.mk.injEq, Option.map_eq_some_iff] at hget
    obtain ⟨⟨⟨f, i⟩, rfl, hpair⟩, rfl⟩ := hget
    rw [Prod.mk.injEq] at hpair
    obtain ⟨rfl, rfl⟩ := hpair
    rw [← Word.ptx_eq] at hrun
    exact .inr ⟨f, s', hrun, hf _ rfl, ⟨H₁, H.kernel⟩, hslots, hpde⟩

/-- What `page_insert` writes, as an entry. -/
def shown (v : View) (page : Fin npage) (perm : Word) : Pte :=
  ⟨page, true, v.perm (page2pa page ||| pteP ||| perm)⟩

/-- `page_insert`. -/
theorem pageInsert_cases (H : Sound L v X s) (hd : d ∈ L.dirs) {la perm : Word}
    (hla : Word.pdx la < userPdes) (hp : page ∉ L.kernel)
    (hpage : (page : ℕ) ∈ X ∨ ∃ y, ((s.vm L v).slots y).target = some (page : ℕ))
    (hperm : PermBits perm) :
    (∃ s', pageInsert d page la perm s = .ok (-eNoMem, s') ∧ Sound L v X s' ∧
      (s'.vm L v).slots = (s.vm L v).slots ∧ Same s s') ∨
    ∃ s', pageInsert d page la perm s = .ok (0, s') ∧ Sound L v (X.erase page) s' ∧
      (s'.vm L v).slots =
        Function.update (s.vm L v).slots (userSlot d la.toNat) (shown v page perm) := by
  rw [pageInsert]
  rcases getPte_cases H hd hla with ⟨s₁, hget, H₁, hslots, hsame⟩ |
    ⟨f, s₁, hget, hf, H₁, hslots, htable⟩
  · rw [hget]
    exact .inl ⟨s₁, rfl, H₁, hslots, hsame⟩
  · right
    have hpage₁ : (page : ℕ) ∈ X ∨
        ∃ y, (s₁.vm L v).held (s₁.vm L v).tableOf y = some (page : ℕ) := by
      refine hpage.imp_right ?_
      rintro ⟨y, hy⟩
      rw [← hslots] at hy
      exact ⟨y, hy⟩
    obtain ⟨s₂, hins, H₂, hslot, hrest⟩ := insertPte_spec H₁.good htable
      (Ucore.ptx_lt la.toNat) hpage₁ (v.perm (page2pa page ||| pteP ||| perm))
    rw [← Word.ptx_eq, insertPte_sim hf hp (H₁.points hf htable _) hperm] at hins
    obtain ⟨s', hins', rfl⟩ := map_eq_ok hins
    refine ⟨s', ?_, ⟨H₂.good hrest, fun p hpK => ?_⟩, ?_⟩
    · simp only [hget, Res.ok_bind, hins', Res.pure_eq]
    · exact Finset.mem_erase.2 ⟨fun h => hp (Fin.ext h ▸ hpK), H.kernel p hpK⟩
    · rw [slots_of_rest hslot hrest, ← hslots]
      rfl

/-- `get_pte` without `create`. -/
theorem getPte_found (H : Sound L v X s) (hd : d ∈ L.dirs) {la : Word}
    (hla : Word.pdx la < userPdes) :
    (getPte d la false s = .ok (none, s) ∧
      (s.vm L v).tableOf (.dir d (Ucore.pdx la.toNat)) = none) ∨
    ∃ f, getPte d la false s = .ok (some (f, Word.ptx la), s) ∧ f ∉ L.kernel ∧
      (s.vm L v).tableOf (.dir d (Ucore.pdx la.toNat)) = some (f : ℕ) := by
  have htable : (s.vm L v).tableOf (.dir d (Ucore.pdx la.toNat)) =
      pgdirAt L s.word d (Word.pdx la) := by
    rw [Word.pdx_eq]
    exact congrFun (vm_pgdir d) _
  rw [htable, getPte, pgdirAt]
  by_cases hw : present (s.word d (Word.pdx la)) = true
  · right
    obtain ⟨f, hf, hppn⟩ := H.table hd hla hw
    have hpage : pa2page (pteAddr (s.word d (Word.pdx la))) = .ok f := by
      rw [pa2page_eq_ok, ppn_pteAddr, hppn]
    refine ⟨f, ?_, hf, by rw [if_pos ⟨hd, hla, hw⟩, hppn]⟩
    simp only [if_pos hw, Res.ok_bind, Bool.not_true, Bool.false_eq_true, if_false, hpage]
    rfl
  · rw [if_neg hw, if_neg fun h => hw h.2.2]
    exact .inl ⟨rfl, rfl⟩

/-- `page_remove`. -/
theorem pageRemove_cases (H : Sound L v X s) (hd : d ∈ L.dirs) {la : Word}
    (hla : Word.pdx la < userPdes) : ∃ s', pageRemove d la s = .ok s' ∧ Sound L v X s' ∧
      (s'.vm L v).slots = Function.update (s.vm L v).slots (userSlot d la.toNat) Pte.zero := by
  rw [pageRemove]
  rcases getPte_found H hd hla with ⟨hget, htable⟩ | ⟨f, hget, hf, htable⟩
  · have hzero : (s.vm L v).slots (userSlot d la.toNat) = Pte.zero := by
      rw [Vm.slots, Vm.slot, userSlot, htable]
      rfl
    refine ⟨s, by rw [hget]; rfl, H, ?_⟩
    rw [← hzero, Function.update_eq_self]
  · obtain ⟨s₁, hrem, H₁, hslot, hrest⟩ := pageRemovePte_spec H.good htable (Ucore.ptx la.toNat)
    rw [← Word.ptx_eq, pageRemovePte_sim hf (H.points hf htable _)] at hrem
    obtain ⟨s', hrem', rfl⟩ := map_eq_ok hrem
    refine ⟨s', ?_, ⟨H₁.good hrest, H.kernel⟩, slots_of_rest hslot hrest⟩
    rw [hget]
    exact hrem'

/-- `alloc_page`. -/
theorem allocPage_cases (H : Sound L v X s) :
    (∃ s', s.allocPage = (none, s') ∧ Sound L v X s' ∧ (s'.vm L v).slots = (s.vm L v).slots ∧
      Same s s') ∨
    ∃ p s', s.allocPage = (some p, s') ∧ p ∉ s.frames.live ∧ Sound L v (insert (p : ℕ) X) s' ∧
      (s'.vm L v).slots = (s.vm L v).slots ∧ s'.frames.live = insert p s.frames.live ∧
      s'.ref = s.ref ∧ s'.word = s.word := by
  have hspec := Inv.allocPage H.good
  rw [vm_allocPage] at hspec
  rw [allocPage] at hspec ⊢
  rcases htake : s.frames.take with ⟨_ | p, frames⟩
  · rw [htake] at hspec
    rcases hspec with ⟨s₁, halloc, H₁, hslot, hrest⟩ | ⟨q, s₁, halloc, -⟩
    · cases halloc
      exact .inl ⟨_, rfl, ⟨H₁.good hrest, H.kernel⟩, slots_of_rest hslot hrest,
        Pool.take_none_live htake, rfl, rfl⟩
    · cases halloc
  · rw [htake] at hspec
    obtain ⟨hp, hlive⟩ := Pool.take_some htake
    rcases hspec with ⟨s₁, halloc, -⟩ | ⟨q, s₁, halloc, -, H₁, hslot, hrest⟩
    · cases halloc
    · cases halloc
      exact .inr ⟨p, _, rfl, hp, ⟨H₁.good hrest,
        fun q hq => Finset.mem_insert_of_mem (H.kernel q hq)⟩,
        slots_of_rest hslot hrest, hlive, rfl, rfl⟩

/-- `pgdir_alloc_page`. -/
theorem pgdirAllocPage_cases (H : Sound L v X s) (hd : d ∈ L.dirs) {la perm : Word}
    (hla : Word.pdx la < userPdes) (hperm : PermBits perm) :
    (∃ s', pgdirAllocPage d la perm s = .ok (none, s') ∧ Sound L v X s' ∧
      (s'.vm L v).slots = (s.vm L v).slots ∧ Same s s') ∨
    ∃ p s', pgdirAllocPage d la perm s = .ok (some p, s') ∧ p ∉ s.frames.live ∧ Sound L v X s' ∧
      (s'.vm L v).slots = Function.update (s.vm L v).slots (userSlot d la.toNat)
        (shown v p perm) := by
  rw [pgdirAllocPage]
  rcases allocPage_cases H with ⟨s₁, halloc, H₁, hslots, hsame⟩ |
    ⟨p, s₁, halloc, hfresh, H₁, hslots, hlive₁, href₁, hword₁⟩
  · rw [halloc]
    exact .inl ⟨s₁, rfl, H₁, hslots, hsame⟩
  · rw [halloc]
    have hp : p ∉ L.kernel := fun h => hfresh (H.kernel_live h)
    have hpX : (p : ℕ) ∉ X := by
      intro h
      obtain ⟨q, hq, heq⟩ := mem_vm_live.1 (H.good.spare p h)
      exact hfresh (Fin.ext heq ▸ hq)
    rcases pageInsert_cases H₁ hd hla hp (.inl (Finset.mem_insert_self _ _)) hperm with
      ⟨s₂, hins, H₂, hslots₂, hsame₂⟩ | ⟨s₂, hins, H₂, hslots₂⟩
    · left
      obtain ⟨hlive₂, href₂, hword₂⟩ := hsame₂
      obtain ⟨s₃, hfree, H₃, hslot₃, hrest₃⟩ :=
        Inv.freePage H₂.good (Finset.mem_insert_self (p : ℕ) X)
      rw [Finset.erase_insert hpX] at H₃
      rw [vm_freePage hp] at hfree
      obtain ⟨s', hfree', rfl⟩ := map_eq_ok hfree
      have href : s₂.ref p = 0 := by
        rw [← vm_ref (v := v) hp]
        exact Inv.ref_spare H₂.good (Finset.mem_insert_self _ _)
      refine ⟨s', ?_, ⟨H₃.good hrest₃, H.kernel⟩, ?_, ?_⟩
      · have hne : -eNoMem ≠ 0 := by decide
        simp only [hins, Res.ok_bind, if_pos hne, hfree', Res.pure_eq]
      · rw [slots_of_rest hslot₃ hrest₃]
        exact hslots₂.trans hslots
      · rw [freePage, hlive₂, hlive₁, if_pos (Finset.mem_insert_self p _)] at hfree'
        cases hfree'
        refine ⟨?_, ?_, hword₂.trans hword₁⟩
        · show s₂.frames.live.erase p = _
          rw [hlive₂, hlive₁, Finset.erase_insert hfresh]
        · show Function.update s₂.ref p 0 = s.ref
          rw [← href, Function.update_eq_self, href₂, href₁]
    · right
      rw [Finset.erase_insert hpX] at H₂
      refine ⟨p, s₂, ?_, hfresh, H₂, ?_⟩
      · simp only [hins, Res.ok_bind, ne_eq, not_true_eq_false, if_false, Res.pure_eq]
      · rw [hslots₂, hslots]

end Phys

end Ucore
