import Mathlib.Data.List.Cycle
import Ucore.Lib.Loop

/-!
# Circular lists in memory

A circular list in memory is two functions, `next` and `prev`, and the sequence of its elements is a
`Cycle`, which begins nowhere.  `Links` says that two elements are neighbours in both directions.
The rules are for the two ways in which a sequence changes: an element comes in between two
neighbours (`Links.insert`), or goes and leaves its neighbours to each other (`Links.remove`).  In a
list with one or two elements some of the neighbours are the same, but this makes no difference: the
element that comes or goes is at the beginning of the sequence, and what is behind it keeps its
links.  `walk` reads a list in one direction, and `Links.walk_both` says what it finds.

`Links.congr` is the frame rule: only the links of its elements matter to a list, so an assignment
to anything else leaves it alone.
-/

set_option autoImplicit false

namespace Ucore

variable {α : Type}

/-- `y` comes directly behind `x`. -/
def Links (next prev : α → α) (x y : α) : Prop := next x = y ∧ prev y = x

namespace Links

variable {next prev next' prev' : α → α} {p e : α} {r : List α}

/-- A sequence may be read from any of its elements on. -/
theorem exists_cons {s : Cycle α} {x : α} (hx : x ∈ s) : ∃ r : List α, s = ↑(x :: r) := by
  induction s using Quotient.inductionOn with
  | h l =>
    obtain ⟨a, b, rfl⟩ := List.append_of_mem (Cycle.mem_coe_iff.1 hx)
    exact ⟨b ++ a, Cycle.coe_eq_coe.2 List.isRotated_append⟩

/-- The first element met from `p` on, which is `p` if there is no other. -/
theorem next_eq (h : (↑(p :: r) : Cycle α).Chain (Links next prev)) :
    ∃ t, r ++ [p] = next p :: t ∧ prev (next p) = p := by
  rw [Cycle.chain_coe_cons] at h
  cases hr : r ++ [p] with
  | nil => exact absurd hr (by simp)
  | cons q t =>
    rw [hr, List.isChain_cons_cons] at h
    exact ⟨t, by rw [h.1.1], by rw [h.1.1, h.1.2]⟩

/-- The last element met from `p` on, which is `p` if there is no other. -/
theorem prev_eq (h : (↑(p :: r) : Cycle α).Chain (Links next prev)) :
    ∃ t, p :: r = t ++ [prev p] ∧ next (prev p) = p := by
  rw [Cycle.chain_coe_cons] at h
  rcases List.eq_nil_or_concat (p :: r) with hnil | ⟨t, a, ht⟩
  · cases hnil
  · rw [List.concat_eq_append] at ht
    have hlink : Links next prev a p := by
      rw [← List.cons_append, ht, List.append_assoc, List.singleton_append] at h
      exact (List.isChain_append_cons_cons.1 h).2.1
    exact ⟨t, by rw [ht, hlink.2], by rw [hlink.2, hlink.1]⟩

theorem next_mem (h : (↑(p :: r) : Cycle α).Chain (Links next prev)) : next p ∈ p :: r := by
  obtain ⟨t, ht, -⟩ := next_eq h
  have hmem : next p ∈ r ++ [p] := ht ▸ List.mem_cons_self
  exact (List.perm_append_singleton p r).mem_iff.1 hmem

theorem prev_mem (h : (↑(p :: r) : Cycle α).Chain (Links next prev)) : prev p ∈ p :: r := by
  obtain ⟨t, ht, -⟩ := prev_eq h
  rw [ht]
  exact List.mem_append_right t List.mem_cons_self

/-- `next` and `prev` are inverse to each other. -/
theorem inverse {s : Cycle α} (h : s.Chain (Links next prev)) {x : α} (hx : x ∈ s) :
    prev (next x) = x ∧ next (prev x) = x := by
  obtain ⟨r, rfl⟩ := exists_cons hx
  obtain ⟨-, -, hnext⟩ := next_eq h
  obtain ⟨-, -, hprev⟩ := prev_eq h
  exact ⟨hnext, hprev⟩

/-- Only the links of its elements matter to a list. -/
theorem congr {s : Cycle α} (h : s.Chain (Links next prev)) (hnext : ∀ x ∈ s, next' x = next x)
    (hprev : ∀ x ∈ s, prev' x = prev x) : s.Chain (Links next' prev') := by
  induction s using Cycle.induction_on with
  | nil => exact Cycle.Chain.nil _
  | cons a l _ =>
    rw [Cycle.chain_coe_cons] at h ⊢
    have hmem : ∀ x ∈ a :: (l ++ [a]), x ∈ (↑(a :: l) : Cycle α) := by
      intro x hx
      rw [Cycle.mem_coe_iff]
      simpa [or_assoc, or_comm] using hx
    refine h.imp_of_mem_imp fun x y hx hy hlink => ?_
    exact ⟨(hnext x (hmem x hx)).trans hlink.1, (hprev y (hmem y hy)).trans hlink.2⟩

/-- **An element comes in behind `p`.** -/
theorem insert (h : (↑(p :: r) : Cycle α).Chain (Links next prev)) (hnd : (p :: r).Nodup)
    (he : e ∉ p :: r) (hp : Links next' prev' p e) (hq : Links next' prev' e (next p))
    (hnext : ∀ x, x ≠ p → x ≠ e → next' x = next x)
    (hprev : ∀ y, y ≠ next p → y ≠ e → prev' y = prev y) :
    (↑(p :: e :: r) : Cycle α).Chain (Links next' prev') := by
  obtain ⟨t, ht, -⟩ := next_eq h
  have hnd' : (next p :: t).Nodup := by
    rw [← ht]
    exact (List.perm_append_singleton p r).nodup_iff.2 hnd
  have hmem : ∀ x ∈ next p :: t, x ≠ e := by
    rintro x hx rfl
    rw [← ht] at hx
    exact he ((List.perm_append_singleton p r).mem_iff.1 hx)
  rw [Cycle.chain_coe_cons, ht, List.isChain_cons_cons] at h
  rw [Cycle.chain_coe_cons, List.cons_append, ht, List.isChain_cons_cons, List.isChain_cons_cons]
  refine ⟨hp, hq, h.2.imp_of_mem_tail_imp fun x y hx hy hlink => ?_⟩
  have hy' : y ≠ next p := fun heq => (List.nodup_cons.1 hnd').1 (heq ▸ hy)
  have hx' : x ≠ p := fun heq => hy' (by rw [← hlink.1, heq])
  rw [Links, hnext x hx' (hmem x hx), hprev y hy' (hmem y (List.mem_cons_of_mem _ hy))]
  exact hlink

/-- **The element `p` goes.** -/
theorem remove (h : (↑(p :: r) : Cycle α).Chain (Links next prev)) (hnd : (p :: r).Nodup)
    (hlink : Links next' prev' (prev p) (next p)) (hnext : ∀ x, x ≠ prev p → next' x = next x)
    (hprev : ∀ y, y ≠ next p → prev' y = prev y) : (↑r : Cycle α).Chain (Links next' prev') := by
  obtain ⟨hp, hnd⟩ := List.nodup_cons.1 hnd
  cases r with
  | nil => exact Cycle.Chain.nil _
  | cons b r =>
    obtain ⟨t, ht, -⟩ := next_eq h
    obtain ⟨t', ht', hback⟩ := prev_eq h
    obtain rfl : b = next p := (List.cons.inj ht).1
    have hlast : (next p :: r).getLast? = some (prev p) := by
      rw [← List.getLast?_cons_cons, ht', List.getLast?_concat]
    rw [Cycle.chain_coe_cons, List.cons_append, List.isChain_cons_cons, ← List.cons_append] at h
    have hrest : (next p :: r).IsChain (Links next' prev') := by
      refine h.2.left_of_append.imp_of_mem_tail_imp fun x y hx hy hxy => ?_
      have hy' : y ≠ next p := fun heq => (List.nodup_cons.1 hnd).1 (heq ▸ hy)
      have hx' : x ≠ prev p := fun heq => hp (by
        rw [← hback, ← heq, hxy.1]
        exact List.mem_of_mem_tail hy)
      rw [Links, hnext x hx', hprev y hy']
      exact hxy
    rw [Cycle.chain_coe_cons, ← List.cons_append]
    refine hrest.append (List.isChain_singleton _) fun x hx y hy => ?_
    rw [hlast, Option.mem_some_iff] at hx
    rw [List.head?_cons, Option.mem_some_iff] at hy
    rw [← hx, ← hy]
    exact hlink

end Links

/-! ## Going around -/

/-- The elements that a loop comes to which goes on with `step`, from `le` on, until it is back at
`list`. -/
def walk [DecidableEq α] (step : α → α) (list : α) : ℕ → α → Res (List α)
  | 0, _ => .error .fuel
  | fuel + 1, le =>
    if step le = list then .ok []
    else do
      let rest ← walk step list fuel (step le)
      return step le :: rest

namespace Links

variable [DecidableEq α] {next prev step : α → α} {p x : α} {r : List α} {fuel : ℕ}

theorem walk_eq (h : (x :: (r ++ [p])).IsChain fun a b => step a = b) (hp : p ∉ r)
    (hfuel : r.length < fuel) : walk step p fuel x = .ok r := by
  induction r generalizing x fuel with
  | nil =>
    obtain ⟨fuel, rfl⟩ := Nat.exists_eq_add_one_of_ne_zero (Nat.ne_of_gt hfuel)
    exact if_pos (List.isChain_cons_cons.1 h).1
  | cons y r ih =>
    obtain ⟨fuel, rfl⟩ := Nat.exists_eq_add_one_of_ne_zero (Nat.ne_zero_of_lt hfuel)
    rw [List.cons_append, List.isChain_cons_cons] at h
    rw [List.mem_cons, not_or] at hp
    rw [List.length_cons] at hfuel
    rw [walk, h.1, if_neg (Ne.symm hp.1), ih h.2 hp.2 (Nat.lt_of_succ_lt_succ hfuel)]
    rfl

/-- **Going around forwards gives the sequence, and going around backwards gives its reverse.** -/
theorem walk_both (h : (↑(p :: r) : Cycle α).Chain (Links next prev)) (hnd : (p :: r).Nodup)
    (hfuel : r.length < fuel) :
    walk next p fuel p = .ok r ∧ walk prev p fuel p = .ok r.reverse := by
  have hp : p ∉ r := (List.nodup_cons.1 hnd).1
  rw [Cycle.chain_coe_cons] at h
  constructor
  · exact walk_eq (h.imp fun a b hab => hab.1) hp hfuel
  · have hback : (p :: (r.reverse ++ [p])).IsChain fun a b => prev a = b := by
      have hrev : p :: (r.reverse ++ [p]) = (p :: (r ++ [p])).reverse := by simp
      rw [hrev, List.isChain_reverse]
      exact h.imp fun a b hab => hab.2
    refine walk_eq hback ?_ ?_
    · rwa [List.mem_reverse]
    · rwa [List.length_reverse]

end Links

end Ucore
