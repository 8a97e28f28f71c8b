import Ucore.Lib.Links
import Ucore.Lib.Ring
import Ucore.ListEntry.Defs

/-!
# Lists are sequences

A memory holds a family of circular sequences if the entries of each of them are linked and no entry
is in two of them (`ListMem.Holds`).  The functions of `include/list.h` only change the links next
to an element, so they change one sequence, in the way that `ListStep` says, and leave the others
alone (`ListStep.holds`).  A sequence is a `Cycle`: the head of a list is an entry like the others,
and a list may be read from any of them on.

* `Holds.update` is the frame rule: one list becomes another, and all other lists stay, as long as
  the new one has no entry of theirs.
* `Holds.listAddBetween`, `Holds.listAddAfter`, `Holds.listAddBefore`, `Holds.listDel`,
  `Holds.listDelInit` and `Holds.listInit` are the functions, by the rules `Links.insert` and
  `Links.remove` of `Ucore.Lib.Links`.
* `ListStep` says what a call does to the sequences, and when it is allowed: an element that comes
  in is in no list before.
* `ListRun` are sequences of calls, and `lists_are_sequences` is the result for these.

The last section is about lists with a head that is known.  It connects a memory with the lists of
`Ucore.Lib.Ring`, which the other modules use in the place of pointers.
-/

set_option autoImplicit false

namespace Ucore

variable {ι α : Type}

namespace ListMem

/-! ## Assignments -/

section Assign

variable [DecidableEq α] (m : ListMem α) (e a b x : α)

@[simp] theorem setNext_listNext :
    (m.setNext a b).listNext x = if x = a then b else m.listNext x := by
  rw [listNext, setNext, Function.update_apply]
  split <;> rfl

@[simp] theorem setNext_listPrev : (m.setNext a b).listPrev x = m.listPrev x := by
  rw [listPrev, setNext, Function.update_apply]
  split
  · next h => rw [h, listPrev]
  · rfl

@[simp] theorem setPrev_listPrev :
    (m.setPrev a b).listPrev x = if x = a then b else m.listPrev x := by
  rw [listPrev, setPrev, Function.update_apply]
  split <;> rfl

@[simp] theorem setPrev_listNext : (m.setPrev a b).listNext x = m.listNext x := by
  rw [listNext, setPrev, Function.update_apply]
  split
  · next h => rw [h, listNext]
  · rfl

theorem listAddBetween_listNext : (m.listAddBetween e a b).listNext x =
    if x = e then b else if x = a then e else m.listNext x := by
  simp [listAddBetween]

theorem listAddBetween_listPrev : (m.listAddBetween e a b).listPrev x =
    if x = e then a else if x = b then e else m.listPrev x := by
  simp [listAddBetween]

theorem listDelBetween_listNext :
    (m.listDelBetween a b).listNext x = if x = a then b else m.listNext x := by
  simp [listDelBetween]

theorem listDelBetween_listPrev :
    (m.listDelBetween a b).listPrev x = if x = b then a else m.listPrev x := by
  simp [listDelBetween]

end Assign

/-! ## Families of lists -/

/-- The entries of a circular sequence are linked in this order. -/
def Linked (m : ListMem α) (s : Cycle α) : Prop := s.Chain (Links m.listNext m.listPrev)

/-- **The memory holds these lists**, and no others that matter. -/
structure Holds (m : ListMem α) (ls : ι → Cycle α) : Prop where
  nodup : ∀ i, (ls i).Nodup
  linked : ∀ i, m.Linked (ls i)
  apart : ∀ i j x, x ∈ ls i → x ∈ ls j → i = j

/-- The links of an entry stay as they are. -/
def SameLinks (m m' : ListMem α) (x : α) : Prop :=
  m'.listNext x = m.listNext x ∧ m'.listPrev x = m.listPrev x

section Holds

variable {m m' : ListMem α} {ls : ι → Cycle α} {i : ι} {s : Cycle α} {p e : α} {r : List α}

/-- What holds of the list at `i`, in terms of its elements. -/
theorem Holds.of_eq (h : m.Holds ls) {l : List α} (hi : ls i = ↑l) : l.Nodup ∧ m.Linked ↑l := by
  rw [← Cycle.nodup_coe_iff, ← hi]
  exact ⟨h.nodup i, h.linked i⟩

/-- What is in one list is in no other. -/
theorem Holds.ne_of_mem (h : m.Holds ls) {j : ι} {x y : α} (hj : j ≠ i) (hx : x ∈ ls j)
    (hy : y ∈ ls i) : x ≠ y := fun heq => hj (h.apart j i x hx (heq ▸ hy))

/-- `list_empty` says whether the head is alone. -/
theorem Holds.listEmpty_iff [DecidableEq α] (h : m.Holds ls) (hi : ls i = ↑(p :: r)) :
    m.listEmpty p = true ↔ r = [] := by
  obtain ⟨hnd, hlinked⟩ := h.of_eq hi
  rw [List.nodup_cons] at hnd
  obtain ⟨t, ht, -⟩ := Links.next_eq hlinked
  have hempty : m.listEmpty p = true ↔ m.listNext p = p := decide_eq_true_iff
  rw [hempty]
  cases r with
  | nil => exact ⟨fun _ => rfl, fun _ => (List.cons.inj ht).1.symm⟩
  | cons q r =>
    have hq : q = m.listNext p := (List.cons.inj ht).1
    constructor
    · intro heq
      rw [hq, heq] at hnd
      exact absurd List.mem_cons_self hnd.1
    · intro hnil
      cases hnil

variable [DecidableEq ι]

/-- One list becomes another, which has no entry of the lists that stay. -/
theorem Holds.update (h : m.Holds ls) (hnd : s.Nodup) (hs : m'.Linked s)
    (hnot : ∀ j, j ≠ i → ∀ x ∈ ls j, x ∉ s) (hkeep : ∀ j, j ≠ i → ∀ x ∈ ls j, SameLinks m m' x) :
    m'.Holds (Function.update ls i s) := by
  refine ⟨fun j => ?_, fun j => ?_, fun j k x hj hk => ?_⟩
  · by_cases hj : j = i
    · subst hj
      rwa [Function.update_self]
    · rw [Function.update_of_ne hj]
      exact h.nodup j
  · by_cases hj : j = i
    · subst hj
      rwa [Function.update_self]
    · rw [Function.update_of_ne hj]
      exact Links.congr (h.linked j) (fun x hx => (hkeep j hj x hx).1)
        fun x hx => (hkeep j hj x hx).2
  · by_cases hji : j = i <;> by_cases hki : k = i
    · rw [hji, hki]
    · subst hji
      rw [Function.update_self] at hj
      rw [Function.update_of_ne hki] at hk
      exact absurd hj (hnot k hki x hk)
    · subst hki
      rw [Function.update_self] at hk
      rw [Function.update_of_ne hji] at hj
      exact absurd hk (hnot j hji x hj)
    · rw [Function.update_of_ne hji] at hj
      rw [Function.update_of_ne hki] at hk
      exact h.apart j k x hj hk

variable [DecidableEq α]

/-- `list_init`, on an entry that is in no other list. -/
theorem Holds.listInit (h : m.Holds ls) (hnew : ∀ j, j ≠ i → e ∉ ls j) :
    (m.listInit e).Holds (Function.update ls i ↑[e]) := by
  have hne : ∀ j, j ≠ i → ∀ x ∈ ls j, x ≠ e := fun j hj x hx heq => hnew j hj (heq ▸ hx)
  refine h.update (Cycle.nodup_coe_iff.2 (List.nodup_singleton e)) ?_ ?_ ?_
  · rw [Linked, Cycle.chain_singleton]
    constructor <;> simp [ListMem.listInit]
  · intro j hj x hx
    rw [Cycle.mem_coe_iff, List.mem_singleton]
    exact hne j hj x hx
  · intro j hj x hx
    constructor <;> simp [ListMem.listInit, hne j hj x hx]

/-- `__list_add`, behind an element of a list. -/
theorem Holds.listAddBetween (h : m.Holds ls) (hi : ls i = ↑(p :: r)) (hnew : ∀ j, e ∉ ls j) :
    (m.listAddBetween e p (m.listNext p)).Holds (Function.update ls i ↑(p :: e :: r)) := by
  obtain ⟨hnd, hlinked⟩ := h.of_eq hi
  have he : e ∉ p :: r := by
    rw [← Cycle.mem_coe_iff, ← hi]
    exact hnew i
  have hnext : m.listNext p ∈ p :: r := Links.next_mem hlinked
  have hpe : p ≠ e := fun heq => he (heq ▸ List.mem_cons_self)
  have hqe : m.listNext p ≠ e := fun heq => he (heq ▸ hnext)
  have hne : ∀ j, j ≠ i → ∀ x ∈ ls j, x ≠ e ∧ ∀ y ∈ p :: r, x ≠ y := fun j hj x hx =>
    ⟨fun heq => hnew j (heq ▸ hx), fun y hy =>
      h.ne_of_mem hj hx (by rwa [hi, Cycle.mem_coe_iff])⟩
  refine h.update ?_ (Links.insert hlinked hnd he ?_ ?_ ?_ ?_) ?_ ?_
  · rw [Cycle.nodup_coe_iff]
    exact ((List.Perm.swap p e r).nodup_iff).1 (List.nodup_cons.2 ⟨he, hnd⟩)
  · constructor <;> simp [listAddBetween_listNext, listAddBetween_listPrev, hpe]
  · constructor <;> simp [listAddBetween_listNext, listAddBetween_listPrev, hqe]
  · intro x hxp hxe
    rw [listAddBetween_listNext, if_neg hxe, if_neg hxp]
  · intro y hyq hye
    rw [listAddBetween_listPrev, if_neg hye, if_neg hyq]
  · intro j hj x hx hmem
    obtain ⟨hxe, hxr⟩ := hne j hj x hx
    rw [Cycle.mem_coe_iff, (List.Perm.swap p e r).symm.mem_iff, List.mem_cons] at hmem
    rcases hmem with hmem | hmem
    · exact hxe hmem
    · exact hxr x hmem rfl
  · intro j hj x hx
    obtain ⟨hxe, hxr⟩ := hne j hj x hx
    rw [SameLinks, listAddBetween_listNext, listAddBetween_listPrev, if_neg hxe, if_neg hxe,
      if_neg (hxr p List.mem_cons_self), if_neg (hxr _ hnext)]
    exact ⟨rfl, rfl⟩

/-- `list_add_after`, and `list_add`. -/
theorem Holds.listAddAfter (h : m.Holds ls) (hi : ls i = ↑(p :: r)) (hnew : ∀ j, e ∉ ls j) :
    (m.listAddAfter p e).Holds (Function.update ls i ↑(p :: e :: r)) := h.listAddBetween hi hnew

/-- `list_add_before`: the element in front of `p` is the last one of the sequence from `p` on. -/
theorem Holds.listAddBefore (h : m.Holds ls) (hi : ls i = ↑(p :: r)) (hnew : ∀ j, e ∉ ls j) :
    (m.listAddBefore p e).Holds (Function.update ls i ↑(e :: p :: r)) := by
  obtain ⟨-, hlinked⟩ := h.of_eq hi
  obtain ⟨t, ht, hback⟩ := Links.prev_eq hlinked
  have hi' : ls i = ↑(m.listPrev p :: t) := by rw [hi, ht, Cycle.coe_cons_eq_coe_append]
  have hadd := h.listAddBetween hi' hnew
  rw [hback, Cycle.coe_cons_eq_coe_append, List.cons_append, ← ht] at hadd
  exact hadd

/-- `list_del`. -/
theorem Holds.listDel (h : m.Holds ls) (hi : ls i = ↑(p :: r)) :
    (m.listDel p).Holds (Function.update ls i ↑r) := by
  obtain ⟨hnd, hlinked⟩ := h.of_eq hi
  have hne : ∀ j, j ≠ i → ∀ x ∈ ls j, ∀ y ∈ p :: r, x ≠ y := fun j hj x hx y hy =>
    h.ne_of_mem hj hx (by rwa [hi, Cycle.mem_coe_iff])
  refine h.update ?_ (Links.remove hlinked hnd ?_ ?_ ?_) ?_ ?_
  · rw [Cycle.nodup_coe_iff]
    exact (List.nodup_cons.1 hnd).2
  · constructor
    · exact (m.listDelBetween_listNext _ _ _).trans (if_pos rfl)
    · exact (m.listDelBetween_listPrev _ _ _).trans (if_pos rfl)
  · intro x hx
    exact (m.listDelBetween_listNext _ _ _).trans (if_neg hx)
  · intro y hy
    exact (m.listDelBetween_listPrev _ _ _).trans (if_neg hy)
  · intro j hj x hx hmem
    exact hne j hj x hx x (List.mem_cons_of_mem p (Cycle.mem_coe_iff.1 hmem)) rfl
  · intro j hj x hx
    constructor
    · exact (m.listDelBetween_listNext _ _ _).trans
        (if_neg (hne j hj x hx _ (Links.prev_mem hlinked)))
    · exact (m.listDelBetween_listPrev _ _ _).trans
        (if_neg (hne j hj x hx _ (Links.next_mem hlinked)))

/-- `list_del_init`: once it has gone, the element is in no list. -/
theorem Holds.listDelInit (h : m.Holds ls) (hi : ls i = ↑(p :: r)) (k : ι) :
    (m.listDelInit p).Holds (Function.update (Function.update ls i ↑r) k ↑[p]) := by
  refine (h.listDel hi).listInit fun j _ => ?_
  by_cases hj : j = i
  · subst hj
    rw [Function.update_self, Cycle.mem_coe_iff]
    exact (List.nodup_cons.1 (h.of_eq hi).1).1
  · rw [Function.update_of_ne hj]
    intro hp
    exact h.ne_of_mem hj hp (by rw [hi, Cycle.mem_coe_iff]; exact List.mem_cons_self) rfl

end Holds

end ListMem

/-! ## Calls -/

/-- A call of one of the functions. -/
inductive ListOp (α : Type)
  | init (elm : α)
  | add (listelm elm : α)
  | addAfter (listelm elm : α)
  | addBefore (listelm elm : α)
  | del (listelm : α)
  | delInit (listelm : α)
  deriving DecidableEq, Repr

/-- The entry at which a call finds its list. -/
def ListOp.place : ListOp α → α
  | init elm => elm
  | add listelm _ => listelm
  | addAfter listelm _ => listelm
  | addBefore listelm _ => listelm
  | del listelm => listelm
  | delInit listelm => listelm

/-- What a call does to the memory. -/
def ListOp.run [DecidableEq α] (m : ListMem α) : ListOp α → ListMem α
  | init elm => m.listInit elm
  | add listelm elm => m.listAdd listelm elm
  | addAfter listelm elm => m.listAddAfter listelm elm
  | addBefore listelm elm => m.listAddBefore listelm elm
  | del listelm => m.listDel listelm
  | delInit listelm => m.listDelInit listelm

/-- **What a call does to the sequences.**  An element that comes in is in no list before.
`list_init` is for such an element too, or for one that is alone. -/
inductive ListStep [DecidableEq ι] (ls : ι → Cycle α) : ListOp α → (ι → Cycle α) → Prop
  | init {i : ι} {e : α} (hi : ls i = Cycle.nil ∨ ls i = ↑[e]) (hnew : ∀ j, j ≠ i → e ∉ ls j) :
      ListStep ls (.init e) (Function.update ls i ↑[e])
  | add {i : ι} {p e : α} {l r : List α} (hi : ls i = ↑(l ++ p :: r)) (hnew : ∀ j, e ∉ ls j) :
      ListStep ls (.add p e) (Function.update ls i ↑(l ++ p :: e :: r))
  | addAfter {i : ι} {p e : α} {l r : List α} (hi : ls i = ↑(l ++ p :: r)) (hnew : ∀ j, e ∉ ls j) :
      ListStep ls (.addAfter p e) (Function.update ls i ↑(l ++ p :: e :: r))
  | addBefore {i : ι} {p e : α} {l r : List α} (hi : ls i = ↑(l ++ p :: r)) (hnew : ∀ j, e ∉ ls j) :
      ListStep ls (.addBefore p e) (Function.update ls i ↑(l ++ e :: p :: r))
  | del {i : ι} {p : α} {l r : List α} (hi : ls i = ↑(l ++ p :: r)) :
      ListStep ls (.del p) (Function.update ls i ↑(l ++ r))
  | delInit {i k : ι} {p : α} {l r : List α} (hi : ls i = ↑(l ++ p :: r))
      (hk : Function.update ls i ↑(l ++ r) k = Cycle.nil) :
      ListStep ls (.delInit p) (Function.update (Function.update ls i ↑(l ++ r)) k ↑[p])

/-- One call after the other. -/
inductive ListRun [DecidableEq ι] : (ι → Cycle α) → List (ListOp α) → (ι → Cycle α) → Prop
  | nil (ls : ι → Cycle α) : ListRun ls [] ls
  | cons {ls ls₁ ls' : ι → Cycle α} {op : ListOp α} {ops : List (ListOp α)}
      (h : ListStep ls op ls₁) (hrun : ListRun ls₁ ops ls') : ListRun ls (op :: ops) ls'

section Run

variable {m : ListMem α} {ls ls' : ι → Cycle α} {op : ListOp α} {ops : List (ListOp α)}

/-- A sequence that is read from one of its elements on. -/
theorem coe_split (l r : List α) (p : α) : (↑(l ++ p :: r) : Cycle α) = ↑(p :: (r ++ l)) :=
  Cycle.coe_eq_coe.2 List.isRotated_append

variable [DecidableEq ι]

/-- **A call does to the memory what it does to the sequences.** -/
theorem ListStep.holds [DecidableEq α] (hstep : ListStep ls op ls') (h : m.Holds ls) :
    (op.run m).Holds ls' := by
  cases hstep with
  | init _ hnew => exact h.listInit hnew
  | add hi hnew =>
    rw [coe_split] at hi ⊢
    exact h.listAddAfter hi hnew
  | addAfter hi hnew =>
    rw [coe_split] at hi ⊢
    exact h.listAddAfter hi hnew
  | addBefore hi hnew =>
    rw [coe_split] at hi
    rw [coe_split, List.cons_append]
    exact h.listAddBefore hi hnew
  | del hi =>
    rw [coe_split] at hi
    rw [Cycle.coe_eq_coe.2 List.isRotated_append]
    exact h.listDel hi
  | delInit hi _ =>
    rw [coe_split] at hi
    rw [Cycle.coe_eq_coe.2 List.isRotated_append]
    exact h.listDelInit hi _

/-- A call leaves the lists alone that it is not about. -/
theorem ListStep.other (hstep : ListStep ls op ls') {j : ι} (hj : ls j ≠ Cycle.nil)
    (hplace : op.place ∉ ls j) : ls' j = ls j := by
  have hne : ∀ {i : ι} {p : α} {l r : List α}, ls i = ↑(l ++ p :: r) → p ∉ ls j → j ≠ i := by
    rintro i p l r hi hp rfl
    exact hp (by simp [hi])
  cases hstep with
  | init hi _ =>
    refine Function.update_of_ne ?_ _ _
    rintro rfl
    rcases hi with hi | hi
    · exact hj hi
    · exact hplace (by simp [hi, ListOp.place])
  | add hi _ => exact Function.update_of_ne (hne hi hplace) _ _
  | addAfter hi _ => exact Function.update_of_ne (hne hi hplace) _ _
  | addBefore hi _ => exact Function.update_of_ne (hne hi hplace) _ _
  | del hi => exact Function.update_of_ne (hne hi hplace) _ _
  | delInit hi hk =>
    have hji := hne hi hplace
    rw [Function.update_of_ne, Function.update_of_ne hji]
    rintro rfl
    rw [Function.update_of_ne hji] at hk
    exact hj hk

theorem ListRun.holds [DecidableEq α] (hrun : ListRun ls ops ls') (h : m.Holds ls) :
    (ops.foldl ListOp.run m).Holds ls' := by
  induction hrun generalizing m with
  | nil ls => exact h
  | cons hstep _ ih => exact ih (hstep.holds h)

theorem ListRun.other (hrun : ListRun ls ops ls') {j : ι} (hj : ls j ≠ Cycle.nil)
    (hplace : ∀ op ∈ ops, op.place ∉ ls j) : ls' j = ls j := by
  induction hrun with
  | nil ls => rfl
  | cons hstep _ ih =>
    rw [List.forall_mem_cons] at hplace
    have heq := hstep.other hj hplace.1
    rw [← heq] at hj hplace
    exact (ih hj hplace.2).trans heq

/-- **Circular lists are sequences.**  Whatever calls are made, the memory holds the sequences that
the calls make, the links of every element lead back to it, and going around a list from any element
gives the others in their order, or in the opposite order.  A list that no call is about stays as it
is. -/
theorem lists_are_sequences [DecidableEq α] (h : m.Holds ls) (hrun : ListRun ls ops ls') :
    let m' := ops.foldl ListOp.run m
    m'.Holds ls' ∧
      (∀ i, ∀ x ∈ ls' i, m'.listPrev (m'.listNext x) = x ∧ m'.listNext (m'.listPrev x) = x) ∧
      (∀ i, ls i ≠ Cycle.nil → (∀ op ∈ ops, op.place ∉ ls i) → ls' i = ls i) ∧
      ∀ i p (l r : List α) fuel, ls' i = ↑(l ++ p :: r) → (r ++ l).length < fuel →
        walk m'.listNext p fuel p = .ok (r ++ l) ∧
          walk m'.listPrev p fuel p = .ok (r ++ l).reverse := by
  have h' := hrun.holds h
  refine ⟨h', fun i x hx => Links.inverse (h'.linked i) hx, fun i => hrun.other, ?_⟩
  intro i p l r fuel hi hfuel
  rw [coe_split] at hi
  obtain ⟨hnd, hlinked⟩ := h'.of_eq hi
  exact Links.walk_both hlinked hnd hfuel

/-- An entry comes back out of the middle of a list, and the others close up. -/
theorem lists_are_sequences_of_five :
    let ops : List (ListOp ℕ) := [.init 0, .addAfter 0 1, .addBefore 0 2, .add 0 3, .delInit 1]
    let m' := ops.foldl ListOp.run fun _ => ⟨0, 0⟩
    walk m'.listNext 0 3 0 = .ok [3, 2] ∧ walk m'.listPrev 0 3 0 = .ok [2, 3] := by
  let ls : ℕ → Cycle ℕ := fun _ => Cycle.nil
  have h : ListMem.Holds (fun _ => ⟨0, 0⟩) ls :=
    ⟨fun _ => Cycle.nodup_nil, fun _ => Cycle.Chain.nil _,
      fun _ _ x hx => absurd hx (Cycle.notMem_nil x)⟩
  have hnew : ∀ (s : Cycle ℕ) (e : ℕ), e ∉ s → ∀ j, e ∉ Function.update ls 0 s j := by
    intro s e he j
    rw [Function.update_apply]
    split
    · exact he
    · exact Cycle.notMem_nil e
  have h₁ := @ListStep.init ℕ ℕ _ ls 0 0 (.inl rfl) fun _ _ => Cycle.notMem_nil 0
  have h₂ := @ListStep.addAfter ℕ ℕ _ (Function.update ls 0 ↑[0]) 0 0 1 [] []
    (Function.update_self ..) (hnew _ 1 (by simp))
  have h₃ := @ListStep.addBefore ℕ ℕ _ (Function.update ls 0 ↑[0, 1]) 0 0 2 [] [1]
    (Function.update_self ..) (hnew _ 2 (by simp))
  have h₄ := @ListStep.add ℕ ℕ _ (Function.update ls 0 ↑[2, 0, 1]) 0 0 3 [2] [1]
    (Function.update_self ..) (hnew _ 3 (by simp))
  have h₅ := @ListStep.delInit ℕ ℕ _ (Function.update ls 0 ↑[2, 0, 3, 1]) 0 1 1 [2, 0, 3] []
    (Function.update_self ..) rfl
  rw [Function.update_idem] at h₂ h₃ h₄ h₅
  have hrun := ListRun.cons h₁ (.cons h₂ (.cons h₃ (.cons h₄ (.cons h₅ (.nil _)))))
  exact (lists_are_sequences h hrun).2.2.2 0 0 [2] [3] 3 rfl (by decide)

end Run

/-! ## Lists with a head

The list of the processes and the lists of memory areas are written as what is behind their head,
and the head is `none` (`listNext` and `listAddAfter` of `Ucore.Lib.Ring`).  Here it is an entry
`hd`, and the functions do the same. -/

section Head

variable {m : ListMem ℕ} {ls : ι → Cycle ℕ} {i : ι} {hd e : ℕ} {l : List ℕ} {c : Option ℕ}

/-- A place is the last of what is in front of it, the head included. -/
theorem Place.split (hc : Place l c) (hd : ℕ) :
    ∃ l₁ l₂ t, l = l₁ ++ l₂ ∧ c = l₁.getLast? ∧ hd :: l₁ = t ++ [c.getD hd] := by
  cases c with
  | none => exact ⟨[], l, [], rfl, rfl, rfl⟩
  | some x =>
    obtain ⟨a, b, rfl⟩ := List.append_of_mem (hc x rfl)
    exact ⟨a ++ [x], b, hd :: a, by simp, by simp, rfl⟩

theorem ListMem.Holds.listNext_head (h : m.Holds ls) (hi : ls i = ↑(hd :: l)) (hc : Place l c) :
    m.listNext (c.getD hd) = (Ucore.listNext l c).getD hd := by
  obtain ⟨hnd, hlinked⟩ := h.of_eq hi
  rw [List.nodup_cons] at hnd
  obtain ⟨l₁, l₂, t, rfl, hlast, ht⟩ := hc.split hd
  rw [hlast, listNext_getLast? hnd.2, ← hlast]
  rw [ListMem.Linked, Cycle.chain_coe_cons, List.append_assoc, ← List.cons_append, ht,
    List.append_assoc, List.singleton_append] at hlinked
  cases l₂ with
  | nil => exact (List.isChain_append_cons_cons.1 hlinked).2.1.1
  | cons y l₂ => exact (List.isChain_append_cons_cons.1 hlinked).2.1.1

theorem ListMem.Holds.listAddAfter_head [DecidableEq ι] (h : m.Holds ls)
    (hi : ls i = ↑(hd :: l)) (hc : Place l c) (hnew : ∀ j, e ∉ ls j) :
    (m.listAddAfter (c.getD hd) e).Holds
      (Function.update ls i ↑(hd :: Ucore.listAddAfter l c e)) := by
  have hnd := List.nodup_cons.1 (h.of_eq hi).1
  obtain ⟨l₁, l₂, t, rfl, hlast, ht⟩ := hc.split hd
  have hi' : ls i = ↑(t ++ c.getD hd :: l₂) := by
    rw [hi, ← List.cons_append, ht, List.append_assoc, List.singleton_append]
  have hseq : hd :: Ucore.listAddAfter (l₁ ++ l₂) c e = t ++ c.getD hd :: e :: l₂ := by
    rw [hlast, listAddAfter_getLast? hnd.2, ← hlast, ← List.cons_append, ht, List.append_assoc,
      List.singleton_append]
  rw [hseq]
  exact (ListStep.addAfter hi' hnew).holds h

end Head

end Ucore
