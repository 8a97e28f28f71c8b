import Mathlib.Data.List.TakeWhile
import Mathlib.Data.List.ReduceOption
import Mathlib.Data.List.Nodup
import Mathlib.Data.Option.Basic

/-!
# Circular lists with a head

A circular list is the list of its elements, from the head on.  A place in it is either an element
or the head itself, which is `none`.  The lemmas say where `listNext` and `listAddAfter` lead if the
list is split at the place.

`ringAfter l c` is what somebody meets who goes around the list once, from `c` on.  Picking the
first element with a property from there, again and again, is round robin: `picks_eq` says that the
picks are the elements with the property, in the order in which they are met.  `places l` is the
circle of all places, the head among them, and `listNext` goes around it.

* `ringAfter_turn` — whoever has met `u` and stops at `x` will meet the others first next time;
* `pick_turn` — so one pick takes the first element of those that are to come and puts it at the
  end;
* `picks_eq` — and `n` picks go through all of them, in turn;
* `tour_eq` — going around all places once ends where it has begun.
-/

set_option autoImplicit false

namespace Ucore

/-- `list_next`; the head of the list, on either end, is `none`. -/
def listNext (l : List ℕ) : Option ℕ → Option ℕ
  | none => l.head?
  | some v => ((l.dropWhile fun w => w ≠ v).drop 1).head?

/-- `list_add_after(le_prev, v)`, with the head of the list as `none`. -/
def listAddAfter (l : List ℕ) (lePrev : Option ℕ) (v : ℕ) : List ℕ :=
  match lePrev with
  | none => v :: l
  | some p => l.flatMap fun w => if w = p then [w, v] else [w]

/-! ## Lists split at one place -/

section List

variable {α : Type}

/-- A list is split into elements with and without a property in at most one way. -/
theorem split_unique {P : α → Prop} {l r l' r' : List α} (h : l ++ r = l' ++ r')
    (hl : ∀ a ∈ l, P a) (hr : ∀ a ∈ r, ¬ P a) (hl' : ∀ a ∈ l', P a) (hr' : ∀ a ∈ r', ¬ P a) :
    l = l' ∧ r = r' := by
  rcases List.append_eq_append_iff.1 h with ⟨m, rfl, rfl⟩ | ⟨m, rfl, rfl⟩
  · cases m with
    | nil => simp
    | cons a m => exact absurd (hl' a (by simp)) (hr a (by simp))
  · cases m with
    | nil => simp
    | cons a m => exact absurd (hl a (by simp)) (hr' a (by simp))

/-- The two sides of an element that occurs once. -/
theorem split_at_unique {l r l' r' : List α} {x : α} (hnd : (l ++ x :: r).Nodup)
    (h : l ++ x :: r = l' ++ x :: r') : l = l' ∧ r = r' := by
  have hx : x ∉ l := fun hx => (List.nodup_append.1 hnd).2.2 x hx x (by simp) rfl
  have hx' : x ∉ l' := fun hx => by
    rw [h] at hnd
    exact (List.nodup_append.1 hnd).2.2 x hx x (by simp) rfl
  rcases List.append_eq_append_iff.1 h with ⟨m, rfl, hm⟩ | ⟨m, rfl, hm⟩
  · cases m with
    | nil => simpa using hm
    | cons a m =>
      obtain ⟨rfl, -⟩ := List.cons_eq_cons.1 hm
      exact absurd (by simp) hx'
  · cases m with
    | nil => simpa using hm.symm
    | cons a m =>
      obtain ⟨rfl, -⟩ := List.cons_eq_cons.1 hm
      exact absurd (by simp) hx

end List

theorem listNext_getLast? {l r : List ℕ} (hnd : (l ++ r).Nodup) :
    listNext (l ++ r) l.getLast? = r.head? := by
  rcases List.eq_nil_or_concat l with rfl | ⟨l, p, rfl⟩
  · rfl
  · rw [List.concat_eq_append, List.getLast?_concat, listNext]
    rw [List.concat_eq_append, List.append_assoc, List.nodup_append] at hnd
    have hp : ∀ w ∈ l, decide (w ≠ p) = true := fun w hw => by
      have := hnd.2.2 w hw p (by simp)
      simpa using this
    rw [List.append_assoc, List.dropWhile_append_of_pos hp]
    simp

theorem listAddAfter_getLast? {l r : List ℕ} (hnd : (l ++ r).Nodup) (v : ℕ) :
    listAddAfter (l ++ r) l.getLast? v = l ++ v :: r := by
  rcases List.eq_nil_or_concat l with rfl | ⟨l, p, rfl⟩
  · rfl
  · rw [List.concat_eq_append, List.getLast?_concat, listAddAfter]
    rw [List.concat_eq_append, List.append_assoc, List.nodup_append, List.singleton_append,
      List.nodup_cons] at hnd
    have hid : ∀ m : List ℕ, (∀ w ∈ m, w ≠ p) →
        (m.flatMap fun w => if w = p then [w, v] else [w]) = m := by
      intro m hm
      induction m with
      | nil => rfl
      | cons w m ih =>
        rw [List.flatMap_cons, if_neg (hm w (by simp)), ih fun u hu => hm u (by simp [hu])]
        rfl
    have hl := hid l fun w hw => hnd.2.2 w hw p (by simp)
    have hr := hid r fun w hw h => hnd.2.1.1 (h ▸ hw)
    rw [List.append_assoc, List.singleton_append, List.flatMap_append, List.flatMap_cons, hl, hr,
      if_pos rfl]
    simp

theorem listNext_some {l r : List ℕ} {v : ℕ} (hnd : (l ++ v :: r).Nodup) :
    listNext (l ++ v :: r) (some v) = r.head? := by
  have h := @listNext_getLast? (l ++ [v]) r (by simpa using hnd)
  rwa [List.getLast?_concat, List.append_assoc, List.singleton_append] at h

/-! ## Round robin -/

section RoundRobin

variable {α : Type} [DecidableEq α]

/-- The elements in the order in which they are met by going around once, from the place `c` on.  An
element meets itself last. -/
def ringAfter (l : List α) : Option α → List α
  | none => l
  | some c => (l.dropWhile fun w => w ≠ c).drop 1 ++ (l.takeWhile fun w => w ≠ c) ++ [c]

/-- A place of the list. -/
def Place (l : List α) (c : Option α) : Prop := ∀ x, c = some x → x ∈ l

theorem ringAfter_some {l r : List α} {c : α} (hc : c ∉ l) :
    ringAfter (l ++ c :: r) (some c) = r ++ l ++ [c] := by
  have hp : ∀ w ∈ l, decide (w ≠ c) = true := fun w hw => by
    have hne : w ≠ c := fun h => hc (h ▸ hw)
    exact decide_eq_true hne
  rw [ringAfter, List.dropWhile_append_of_pos hp, List.takeWhile_append_of_pos hp,
    List.dropWhile_cons_of_neg (by simp), List.takeWhile_cons_of_neg (by simp), List.append_nil]
  rfl

theorem ringAfter_perm {l : List α} {c : Option α} (hnd : l.Nodup) (hc : Place l c) :
    (ringAfter l c).Perm l := by
  cases c with
  | none => exact List.Perm.refl l
  | some c =>
    obtain ⟨a, b, rfl⟩ := List.append_of_mem (hc c rfl)
    rw [ringAfter_some fun h => (List.nodup_append.1 hnd).2.2 c h c (List.mem_cons_self ..) rfl]
    have h₁ : (b ++ a ++ [c]).Perm (c :: (b ++ a)) := List.perm_append_singleton c (b ++ a)
    have h₂ : (c :: (b ++ a)).Perm (c :: (a ++ b)) := List.perm_append_comm.cons c
    exact (h₁.trans h₂).trans List.perm_middle.symm

/-- Whoever has met `u` and now stops at `x` will meet the others first next time. -/
theorem ringAfter_turn {l u v : List α} {c : Option α} {x : α} (hnd : l.Nodup) (hc : Place l c)
    (h : ringAfter l c = u ++ x :: v) : ringAfter l (some x) = v ++ u ++ [x] := by
  have hperm := ringAfter_perm hnd hc
  cases c with
  | none =>
    have hl : l = u ++ x :: v := h
    rw [hl] at hnd ⊢
    exact ringAfter_some fun hx => (List.nodup_append.1 hnd).2.2 x hx x (List.mem_cons_self ..) rfl
  | some c =>
    obtain ⟨a, b, rfl⟩ := List.append_of_mem (hc c rfl)
    have hca : c ∉ a := fun h => (List.nodup_append.1 hnd).2.2 c h c (List.mem_cons_self ..) rfl
    have hself := ringAfter_some (r := b) hca
    rw [h] at hself
    have hnd' : (u ++ x :: v).Nodup := by
      rw [← h]
      exact hperm.nodup_iff.2 hnd
    by_cases hxc : x = c
    · -- all of them have been met
      subst hxc
      obtain ⟨hu, hv⟩ := split_at_unique hnd'
        (show u ++ x :: v = (b ++ a) ++ x :: [] from hself)
      rw [hu, hv, ringAfter_some hca, List.nil_append]
    · have hx : x ∈ b ++ a := by
        have hmem : x ∈ b ++ a ++ [c] := hself ▸ List.mem_append_right u (List.mem_cons_self ..)
        rcases List.mem_append.1 hmem with hx | hx
        · exact hx
        · exact absurd (List.mem_singleton.1 hx) hxc
      rcases List.mem_append.1 hx with hx | hx
      · obtain ⟨b₁, b₂, rfl⟩ := List.append_of_mem hx
        obtain ⟨hu, hv⟩ := split_at_unique hnd'
          (show u ++ x :: v = b₁ ++ x :: (b₂ ++ a ++ [c]) by rw [hself]; simp)
        have hl : a ++ c :: (b₁ ++ x :: b₂) = (a ++ c :: b₁) ++ x :: b₂ := by simp
        rw [hl] at hnd ⊢
        rw [ringAfter_some fun h => (List.nodup_append.1 hnd).2.2 x h x (List.mem_cons_self ..) rfl,
          hu, hv]
        simp
      · obtain ⟨a₁, a₂, rfl⟩ := List.append_of_mem hx
        obtain ⟨hu, hv⟩ := split_at_unique hnd'
          (show u ++ x :: v = (b ++ a₁) ++ x :: (a₂ ++ [c]) by rw [hself]; simp)
        have hl : a₁ ++ x :: a₂ ++ c :: b = a₁ ++ x :: (a₂ ++ c :: b) := by simp
        rw [hl] at hnd ⊢
        rw [ringAfter_some fun h => (List.nodup_append.1 hnd).2.2 x h x (List.mem_cons_self ..) rfl,
          hu, hv]
        simp

/-- The first element with the property that is met from `c` on. -/
def pick (p : α → Bool) (l : List α) (c : Option α) : Option α := (ringAfter l c).find? p

/-- The elements that are picked one after the other, each from the place of the one before. -/
def picks (p : α → Bool) (l : List α) : ℕ → Option α → List (Option α)
  | 0, _ => []
  | n + 1, c => pick p l c :: picks p l n (pick p l c)

/-- One pick takes the first of those that are to come and puts it at the end. -/
theorem pick_turn {p : α → Bool} {l q : List α} {c : Option α} {x : α} (hnd : l.Nodup)
    (hc : Place l c) (h : (ringAfter l c).filter p = x :: q) :
    pick p l c = some x ∧ x ∈ l ∧ (ringAfter l (some x)).filter p = q ++ [x] := by
  have hpick : pick p l c = some x := by
    rw [pick, ← List.head?_filter, h]
    rfl
  obtain ⟨hx, u, v, huv, hu⟩ := List.find?_eq_some_iff_append.1 hpick
  have hnone : u.filter p = [] := by
    rw [List.filter_eq_nil_iff]
    intro a ha
    simpa using hu a ha
  refine ⟨hpick, ?_, ?_⟩
  · refine (ringAfter_perm hnd hc).subset ?_
    rw [huv]
    exact List.mem_append_right u (List.mem_cons_self ..)
  · rw [huv, List.filter_append, hnone, List.nil_append, List.filter_cons_of_pos hx,
      List.cons.injEq] at h
    rw [ringAfter_turn hnd hc huv, List.filter_append, List.filter_append, hnone, List.append_nil,
      h.2, List.filter_cons_of_pos hx]
    rfl

/-- **Round robin.**  The picks are the elements with the property, in the order in which they are
met. -/
theorem picks_eq {p : α → Bool} {l : List α} (hnd : l.Nodup) (q : List α) :
    ∀ {q' : List α} {c : Option α}, Place l c → (ringAfter l c).filter p = q ++ q' →
      picks p l q.length c = q.map some := by
  induction q with
  | nil =>
    intro q' c _ _
    rfl
  | cons x q ih =>
    intro q' c hc h
    rw [List.cons_append] at h
    obtain ⟨hpick, hx, hnext⟩ := pick_turn hnd hc h
    have hplace : Place l (some x) := by
      rintro y ⟨⟩
      exact hx
    rw [List.append_assoc] at hnext
    show pick p l c :: picks p l q.length (pick p l c) = some x :: q.map some
    rw [hpick, ih hplace hnext]

end RoundRobin

/-! ## The circle of places -/

/-- The head and the elements. -/
def places (l : List ℕ) : List (Option ℕ) := none :: l.map some

theorem nodup_places {l : List ℕ} (hnd : l.Nodup) : (places l).Nodup := by
  rw [places, List.nodup_cons]
  exact ⟨by simp, hnd.map (Option.some_injective ℕ)⟩

theorem mem_places {l : List ℕ} {c : Option ℕ} (hc : Place l c) : c ∈ places l := by
  cases c with
  | none => exact List.mem_cons_self ..
  | some x => exact List.mem_cons_of_mem none (List.mem_map_of_mem (hc x rfl))

theorem reduceOption_map_some {α : Type} (l : List α) : (l.map some).reduceOption = l := by
  rw [List.reduceOption, List.filterMap_map]
  exact List.filterMap_some

/-- Going around all places once, from `c` on, ends at `c`. -/
theorem tour_eq {l : List ℕ} {c : Option ℕ} (hnd : l.Nodup) (hc : Place l c) :
    ∃ a b, ringAfter (places l) (some c) = b ++ a ++ [c] ∧ b.length + a.length = l.length ∧
      (b ++ a ++ [c]).reduceOption = ringAfter l c ∧
      listNext l c = (b ++ a ++ [c]).head?.join := by
  cases c with
  | none =>
    refine ⟨[], l.map some, ?_, by simp, ?_, ?_⟩
    · exact ringAfter_some List.not_mem_nil
    · simp [List.reduceOption_append, reduceOption_map_some, ringAfter]
    · cases l with
      | nil => rfl
      | cons x l => rfl
  | some x =>
    obtain ⟨a, b, rfl⟩ := List.append_of_mem (hc x rfl)
    have hx : x ∉ a := fun h => (List.nodup_append.1 hnd).2.2 x h x (List.mem_cons_self ..) rfl
    refine ⟨none :: a.map some, b.map some, ?_, by simp; omega, ?_, ?_⟩
    · have hplaces : places (a ++ x :: b) = (none :: a.map some) ++ some x :: b.map some := by
        simp [places]
      rw [hplaces]
      exact ringAfter_some (by simpa using hx)
    · rw [ringAfter_some hx]
      simp [List.reduceOption_append, reduceOption_map_some]
    · rw [listNext_some hnd]
      cases b with
      | nil => rfl
      | cons y b => rfl

end Ucore
