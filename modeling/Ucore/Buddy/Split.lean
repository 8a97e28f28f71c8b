import Ucore.Buddy.Defs
import Ucore.Lib.Dyadic
import Ucore.Lib.Script

/-!
# Cutting a range into aligned blocks

`buddy_free_pages` goes up through the orders as long as a block of the order fits, and frees a
block where the index of the page has the bit of the order.  Then it goes down.  On the way up the
index has become a multiple of the size of a block, and this stays true on the way down, so that
every block is aligned.

Nothing in the two loops depends on what `buddy_free_pages_sub` does.  `freePagesWith` is the
function with anything else in the place of it, `freeCalls` the one that just writes the calls down,
and `freePagesWith_eq` says that the calls are the same in any case.

* `UpNext` and `DownNext` are the rounds of the two loops on the numbers that decide how they go on,
  and `exists_up` and `exists_down` follow them to their ends.
* `whileLoop_script` of `Ucore.Lib.Script` turns these into statements about the loops themselves,
  on any kind of data.
* `buddyFreePages_splits` is the result: the calls are for aligned blocks that lie side by side,
  from one end of the range to the other, and `buddy_free_pages` is the sequence of these calls.

What the calls do to the allocator is the matter of `Ucore.Buddy.Free`.
-/

set_option autoImplicit false

namespace Ucore

section With

variable {σ : Type} (idx : σ → ℕ → ℕ) (sub : σ → ℕ → ℕ → Res σ)

/-- The first loop of `buddy_free_pages`. -/
def freeUpWith (st : σ × ℕ × ℕ × ℕ) : Res (σ × ℕ × ℕ × ℕ) :=
  whileLoop (fun st => decide (2 ^ st.2.2.2 ≤ st.2.2.1))
    (fun st => do
      let (s, base, n, order) := st
      assert (order ≤ maxOrder)
      if idx s base &&& 2 ^ order ≠ 0 then
        let s ← sub s base order
        return (s, base + 2 ^ order, n - 2 ^ order, order + 1)
      else return (s, base, n, order + 1))
    (maxOrder + 2) st

/-- The second loop of `buddy_free_pages`. -/
def freeDownWith (st : σ × ℕ × ℕ × ℕ) : Res (σ × ℕ × ℕ × ℕ) :=
  whileLoop (fun st => decide (st.2.2.1 ≠ 0))
    (fun st => do
      let (s, base, n, order) := st
      let order ← lowerOrder n order
      let s ← sub s base order
      return (s, base + 2 ^ order, n - 2 ^ order, order))
    st.2.2.1 st

/-- `buddy_free_pages` with `sub` in the place of `buddy_free_pages_sub`. -/
def freePagesWith (s : σ) (base n : ℕ) : Res σ := do
  assert (0 < n)
  if n = 1 then sub s base 0
  else
    let st ← freeUpWith idx sub (s, base, n, 0)
    let (s, _) ← freeDownWith sub st
    return s

end With

theorem buddyFreePages_eq (npage : ℕ) (s : Buddy) (base n : ℕ) :
    buddyFreePages npage s base n = freePagesWith page2idx (buddyFreePagesSub npage) s base n := rfl

/-- The calls of `buddy_free_pages_sub`, for a range that starts at the index `i` of a zone: the
index of the page, and the order. -/
def freeCalls (i n : ℕ) : Res (List (ℕ × ℕ)) :=
  freePagesWith (fun _ p => p) (fun calls p order => .ok (calls ++ [(p, order)])) [] i n

/-- The blocks lie side by side, from `a` up to `b`. -/
def Tiles : ℕ → ℕ → List (ℕ × ℕ) → Prop
  | a, b, [] => a = b
  | a, b, c :: calls => c.1 = a ∧ Tiles (a + 2 ^ c.2) b calls

theorem Tiles.append {a b c : ℕ} {l m : List (ℕ × ℕ)} (hl : Tiles a b l) (hm : Tiles b c m) :
    Tiles a c (l ++ m) := by
  induction l generalizing a with
  | nil =>
    cases hl
    exact hm
  | cons x l ih => exact ⟨hl.1, ih hl.2⟩

theorem Tiles.le {a b : ℕ} {l : List (ℕ × ℕ)} (h : Tiles a b l) : a ≤ b := by
  induction l generalizing a with
  | nil => exact Nat.le_of_eq h
  | cons x l ih => exact (Nat.le_add_right _ _).trans (ih h.2)

/-- Blocks of an order that exists, each at a multiple of its size. -/
def Aligned (calls : List (ℕ × ℕ)) : Prop := ∀ c ∈ calls, c.2 ≤ maxOrder ∧ 2 ^ c.2 ∣ c.1

/-! ## The two loops -/

/-- The way up ends at `n < 2 ^ order`. -/
def UpStop (t : ℕ × ℕ × ℕ) : Prop := t.2.1 < 2 ^ t.2.2

/-- A round of the first loop, on the index, `n` and `order`, inside the range from `a` to `b`. -/
inductive UpNext (a b : ℕ) : ℕ × ℕ × ℕ → List (ℕ × ℕ) → ℕ × ℕ × ℕ → Prop
  | free {i n order : ℕ} (ha : a ≤ i) (hb : i + n = b) (hn : 2 ^ order ≤ n)
      (horder : order ≤ maxOrder) (hbit : i &&& 2 ^ order ≠ 0) :
      UpNext a b (i, n, order) [(i, order)] (i + 2 ^ order, n - 2 ^ order, order + 1)
  | skip {i n order : ℕ} (ha : a ≤ i) (hb : i + n = b) (hn : 2 ^ order ≤ n)
      (horder : order ≤ maxOrder) (hbit : i &&& 2 ^ order = 0) :
      UpNext a b (i, n, order) [] (i, n, order + 1)

/-- A round of the second loop. -/
inductive DownNext : ℕ × ℕ × ℕ → List (ℕ × ℕ) → ℕ × ℕ × ℕ → Prop
  | free {i n order k : ℕ} (hn : n ≠ 0) (hk : lowerOrder n order = .ok k) :
      DownNext (i, n, order) [(i, k)] (i + 2 ^ k, n - 2 ^ k, k)

theorem order_le_of_two_pow_le {n order : ℕ} (hn : n < 2 ^ (maxOrder + 1)) (h : 2 ^ order ≤ n) :
    order ≤ maxOrder :=
  Nat.lt_succ_iff.1 ((Nat.pow_lt_pow_iff_right (by omega)).1 (h.trans_lt hn))

/-- **The way up**: it ends at an index that is a multiple of the size of a block. -/
theorem exists_up {a b i n order : ℕ} (ha : a ≤ i) (hb : i + n = b) (hn : n < 2 ^ (maxOrder + 1))
    (hal : i % 2 ^ order = 0) (horder : order ≤ maxOrder + 1) :
    ∃ calls i' n' order' m, Script UpStop (UpNext a b) (i, n, order) calls (i', n', order') m ∧
      m + order ≤ maxOrder + 1 ∧ Aligned calls ∧ Tiles i i' calls ∧ i' + n' = b ∧
      i' % 2 ^ order' = 0 ∧ n' ≤ n := by
  induction hd : maxOrder + 1 - order generalizing i n order with
  | zero =>
    have hle : order = maxOrder + 1 := by omega
    subst hle
    exact ⟨[], i, n, _, 0, .stop hn, by omega, nofun, rfl, hb, hal, le_rfl⟩
  | succ d ih =>
    by_cases hsmall : n < 2 ^ order
    · exact ⟨[], i, n, order, 0, .stop hsmall, by omega, nofun, rfl, hb, hal, le_rfl⟩
    · have hle : 2 ^ order ≤ n := not_lt.1 hsmall
      have hmax := order_le_of_two_pow_le hn hle
      by_cases hbit : i &&& 2 ^ order = 0
      · have hal' : i % 2 ^ (order + 1) = 0 := (mod_two_pow_succ hal).resolve_right fun h =>
          (and_two_pow_ne_zero_iff hal).2 h hbit
        obtain ⟨calls, i', n', order', m, hs, hm, h⟩ := ih ha hb hn hal' (by omega) (by omega)
        exact ⟨[] ++ calls, i', n', order', m + 1, .round (.skip ha hb hle hmax hbit) hs, by omega,
          h⟩
      · have hal' := add_two_pow_mod_succ ((and_two_pow_ne_zero_iff hal).1 hbit)
        obtain ⟨calls, i', n', order', m, hs, hm, haligned, htiles, hsum, hend, hle'⟩ :=
          ih (n := n - 2 ^ order) (ha.trans (Nat.le_add_right _ _)) (by omega) (by omega) hal'
            (by omega) (by omega)
        refine ⟨[(i, order)] ++ calls, i', n', order', m + 1, .round (.free ha hb hle hmax hbit) hs,
          by omega, ?_, ⟨rfl, htiles⟩, hsum, hend, hle'.trans (Nat.sub_le _ _)⟩
        intro c hc
        rcases List.mem_cons.1 hc with rfl | hc
        · exact ⟨hmax, Nat.dvd_of_mod_eq_zero hal⟩
        · exact haligned c hc

theorem lowerOrder_spec {n : ℕ} (hn : n ≠ 0) (order : ℕ) :
    ∃ k, lowerOrder n order = .ok k ∧ k ≤ order ∧ 2 ^ k ≤ n := by
  refine whileLoop_spec (fun m k => m = k ∧ k ≤ order) ⟨rfl, le_rfl⟩ le_rfl ?_ ?_
  · rintro m k ⟨rfl, hle⟩ hc
    rw [decide_eq_true_eq] at hc
    have hpos : m ≠ 0 := by
      rintro rfl
      rw [pow_zero] at hc
      omega
    exact ⟨m - 1, m - 1, rfl, ⟨rfl, by omega⟩, by omega⟩
  · rintro m k ⟨-, hle⟩ hc
    rw [decide_eq_false_iff_not, not_lt] at hc
    exact ⟨hle, hc⟩

/-- **The way down.** -/
theorem exists_down {i n order : ℕ} (hn : n < 2 ^ (maxOrder + 1)) (hal : i % 2 ^ order = 0) :
    ∃ calls t m, Script (fun t => t.2.1 = 0) DownNext (i, n, order) calls t m ∧
      m ≤ n ∧ Aligned calls ∧ Tiles i (i + n) calls := by
  induction n using Nat.strongRecOn generalizing i order with
  | _ n ih =>
    by_cases hzero : n = 0
    · exact ⟨[], _, 0, .stop hzero, Nat.zero_le n, nofun, by rw [hzero]; rfl⟩
    · obtain ⟨k, hk, hle, hkn⟩ := lowerOrder_spec hzero order
      have hpos := Nat.two_pow_pos k
      have hal' : i % 2 ^ k = 0 := mod_two_pow_of_le hal hle
      obtain ⟨calls, t, m, hs, hm, haligned, htiles⟩ :=
        ih (n - 2 ^ k) (by omega) (by omega) (add_two_pow_mod hal')
      refine ⟨[(i, k)] ++ calls, t, m + 1, .round (.free hzero hk) hs, by omega, ?_, rfl, ?_⟩
      · intro c hc
        rcases List.mem_cons.1 hc with rfl | hc
        · exact ⟨order_le_of_two_pow_le hn hkn, Nat.dvd_of_mod_eq_zero hal'⟩
        · exact haligned c hc
      · rw [show i + 2 ^ k + (n - 2 ^ k) = i + n by omega] at htiles
        exact htiles

/-! ## The calls -/

/-- The call for a block, in a zone whose first page is `d`. -/
def callSub {σ : Type} (sub : σ → ℕ → ℕ → Res σ) (d : ℕ) (c : ℕ × ℕ) (s : σ) : Res σ :=
  sub s (d + c.1) c.2

/-- **The calls do not depend on what is called.**  They are aligned blocks that lie side by side.
The pages have the indices `i`, `i + 1`, … as long as `P` holds. -/
theorem freePagesWith_eq (i : ℕ) {n : ℕ} (hpos : 0 < n) (hn : n < 2 ^ (maxOrder + 1)) :
    ∃ calls, Aligned calls ∧ Tiles i (i + n) calls ∧
      ∀ (σ : Type) (idx : σ → ℕ → ℕ) (sub : σ → ℕ → ℕ → Res σ) (P : σ → Prop) (d : ℕ),
        (∀ p k s s', P s → sub s p k = .ok s' → P s') →
        (∀ s, P s → ∀ j, i ≤ j → j < i + n → idx s (d + j) = j) → ∀ s, P s →
        freePagesWith idx sub s (d + i) n = perform (callSub sub d) calls s := by
  by_cases hone : n = 1
  · subst hone
    refine ⟨[(i, 0)], fun c hc => ?_, ⟨rfl, rfl⟩, fun σ idx sub P d hsub hidx s hs => ?_⟩
    · rw [List.mem_singleton.1 hc]
      exact ⟨Nat.zero_le _, one_dvd i⟩
    · rw [freePagesWith, assert_pos hpos, Res.ok_bind, if_pos rfl, perform_cons, callSub]
      cases sub s (d + i) 0 <;> rfl
  · obtain ⟨up, i', n', order', m, hup, hm, halup, htup, hsum, hal, hle⟩ :=
      exists_up (le_refl i) rfl hn (Nat.mod_one i) (Nat.zero_le _)
    obtain ⟨down, t, m', hdown, hm', haldown, htdown⟩ := exists_down (hle.trans_lt hn) hal
    rw [hsum] at htdown
    refine ⟨up ++ down, fun c hc => (List.mem_append.1 hc).elim (halup c) (haldown c),
      htup.append htdown, fun σ idx sub P d hsub hidx s hs => ?_⟩
    have hsub' : ∀ c s s', P s → callSub sub d c s = .ok s' → P s' :=
      fun c s s' => hsub (d + c.1) c.2 s s'
    have h1 : freeUpWith idx sub (s, d + i, n, 0) =
        perform (callSub sub d) up s >>= fun s => .ok (s, d + i', n', order') := by
      refine whileLoop_script (P := P) (fun t : ℕ × ℕ × ℕ => (d + t.1, t.2)) hsub' ?_ ?_ hup
        (by omega) hs
      · rintro s ⟨j, n, order⟩ h
        exact decide_eq_false (not_le.2 h)
      · intro s t ks t' hs h
        cases h with
        | @free j n₁ order ha hb hn₁ horder hbit =>
          refine ⟨decide_eq_true hn₁, ?_⟩
          have hpos := Nat.two_pow_pos order
          simp only [assert_pos horder, Res.ok_bind, hidx s hs j ha (by omega), if_pos hbit,
            perform_cons, callSub, Nat.add_assoc]
          cases sub s (d + j) order <;> rfl
        | @skip j n₁ order ha hb hn₁ horder hbit =>
          refine ⟨decide_eq_true hn₁, ?_⟩
          have hpos := Nat.two_pow_pos order
          simp only [assert_pos horder, Res.ok_bind, hidx s hs j ha (by omega),
            if_neg (not_not.2 hbit), perform_nil, Res.pure_eq]
    have h2 : ∀ s, P s → freeDownWith sub (s, d + i', n', order') =
        perform (callSub sub d) down s >>= fun s => .ok (s, d + t.1, t.2) := by
      intro s hs
      refine whileLoop_script (P := P) (fun t : ℕ × ℕ × ℕ => (d + t.1, t.2)) hsub' ?_ ?_ hdown hm'
        hs
      · rintro s ⟨j, n, order⟩ h
        exact decide_eq_false (not_not.2 h)
      · intro s t ks t' hs h
        cases h with
        | @free j n₁ order k hn₁ hk =>
          refine ⟨decide_eq_true hn₁, ?_⟩
          simp only [hk, Res.ok_bind, perform_cons, callSub, Nat.add_assoc]
          cases sub s (d + j) k <;> rfl
    rw [freePagesWith, assert_pos hpos, Res.ok_bind, if_neg hone, h1, perform_append]
    cases hrun : perform (callSub sub d) up s with
    | error e => rfl
    | ok s₁ =>
      simp only [Res.ok_bind, h2 s₁ (perform_keeps hsub' hs hrun)]
      cases perform (callSub sub d) down s₁ <;> rfl

/-- Writing the calls down. -/
theorem perform_log (calls l : List (ℕ × ℕ)) :
    perform (callSub (fun l p k => .ok (l ++ [(p, k)])) 0) calls l = .ok (l ++ calls) := by
  induction calls generalizing l with
  | nil => rw [perform_nil, List.append_nil]
  | cons c calls ih =>
    rw [perform_cons, callSub, Res.ok_bind, ih, Nat.zero_add, List.append_assoc]
    rfl

/-! ## Pages stay in their zones -/

/-- The same pages are in the same zones. -/
def Buddy.SameZones (s s' : Buddy) : Prop :=
  s'.memBase = s.memBase ∧ ∀ p, (s'.page p).zoneNum = (s.page p).zoneNum

namespace Buddy.SameZones

variable {s s' s'' : Buddy}

theorem refl (s : Buddy) : s.SameZones s := ⟨rfl, fun _ => rfl⟩

theorem trans (h : s.SameZones s') (h' : s'.SameZones s'') : s.SameZones s'' :=
  ⟨h'.1.trans h.1, fun p => (h'.2 p).trans (h.2 p)⟩

theorem setPage (s : Buddy) (p : ℕ) {f : Page → Page} (hf : ∀ pg, (f pg).zoneNum = pg.zoneNum) :
    s.SameZones (s.setPage p f) := by
  refine ⟨rfl, fun q => ?_⟩
  by_cases hq : q = p
  · subst hq
    rw [Buddy.setPage]
    dsimp only
    rw [Function.update_self, hf]
  · rw [Buddy.setPage]
    dsimp only
    rw [Function.update_of_ne hq]

theorem addBlock (s : Buddy) (p k : ℕ) : s.SameZones (s.addBlock p k) := by
  have h₁ : s.SameZones (s.setProperty p k) := setPage s p fun _ => rfl
  have h₂ : (s.setProperty p k).SameZones ((s.setProperty p k).setPageProperty p) :=
    setPage _ p fun _ => rfl
  exact h₁.trans h₂

theorem page2idx_eq (h : s.SameZones s') (p : ℕ) : page2idx s' p = page2idx s p := by
  rw [page2idx, page2idx, h.1, h.2]

theorem clearPages {n p : ℕ} (h : Ucore.clearPages s p n = .ok s') : s.SameZones s' := by
  induction n generalizing s p with
  | zero =>
    cases h
    exact refl _
  | succ n ih =>
    rw [Ucore.clearPages] at h
    obtain ⟨-, h⟩ := assert_bind_eq_ok.1 h
    have hset := setPage s p (f := fun pg => { pg with flags := {}, ref := 0 }) fun _ => rfl
    exact hset.trans (ih h)

theorem mergeBuddies {npage zoneNum : ℕ} {st st' : Buddy × ℕ × ℕ}
    (h : Ucore.mergeBuddies npage zoneNum st = .ok st') : st.1.SameZones st'.1 := by
  refine whileLoop_keeps (P := fun t : Buddy × ℕ × ℕ => st.1.SameZones t.1) ?_ (refl st.1) h
  intro t t' ht _ hf
  cases hf
  have hset := fun p => setPage ((t.1.addNrFree t.2.2 (-1)).listDel p) p
    (f := fun pg => { pg with flags := { pg.flags with property := false } }) fun _ => rfl
  exact ht.trans (hset _)

theorem buddyFreePagesSub {npage base order : ℕ}
    (h : Ucore.buddyFreePagesSub npage s base order = .ok s') : s.SameZones s' := by
  rw [Ucore.buddyFreePagesSub] at h
  obtain ⟨-, h⟩ := assert_bind_eq_ok.1 h
  obtain ⟨s₁, hclear, h⟩ := Res.bind_eq_ok.1 h
  obtain ⟨⟨s₂, j, k⟩, hmerge, h⟩ := Res.bind_eq_ok.1 h
  cases h
  have h₂ : s.SameZones s₂ := (clearPages hclear).trans (mergeBuddies hmerge)
  exact h₂.trans (addBlock s₂ _ k)

end Buddy.SameZones

/-- **`buddy_free_pages` cuts every range into aligned blocks.**  For a range of `n` pages from the
index `i` of a zone on, the calls of `buddy_free_pages_sub` have orders up to `MAX_ORDER`, each
starts at a multiple of its size, and they lie side by side from `i` to `i + n`.  The loops end and
their assertion holds: `buddy_free_pages` is the sequence of these calls, in any state of the
allocator. -/
theorem buddyFreePages_splits (i n : ℕ) (hpos : 0 < n) (hn : n < 2 ^ (maxOrder + 1)) :
    ∃ calls, freeCalls i n = .ok calls ∧ (∀ c ∈ calls, c.2 ≤ maxOrder ∧ 2 ^ c.2 ∣ c.1) ∧
      Tiles i (i + n) calls ∧
      ∀ npage s base, (∀ k < n, page2idx s (base + k) = i + k) →
        buddyFreePages npage s base n = calls.foldlM
          (fun s c => buddyFreePagesSub npage s (base - i + c.1) c.2) s := by
  obtain ⟨calls, haligned, htiles, hwith⟩ := freePagesWith_eq i hpos hn
  refine ⟨calls, ?_, haligned, htiles, fun npage s base hidx => ?_⟩
  · have h := hwith (List (ℕ × ℕ)) (fun _ p => p) (fun l p k => .ok (l ++ [(p, k)]))
      (fun _ => True) 0 (fun _ _ _ _ _ _ => trivial) (fun _ _ j _ _ => Nat.zero_add j) [] trivial
    rw [Nat.zero_add] at h
    rw [freeCalls, h]
    exact perform_log calls []
  · have hle : i ≤ base := by
      have h := hidx 0 hpos
      rw [page2idx] at h
      omega
    have hbase : base - i + i = base := Nat.sub_add_cancel hle
    have h := hwith Buddy page2idx (buddyFreePagesSub npage)
      (fun s' => s.SameZones s') (base - i)
      (fun p k s₁ s₂ h₁ h₂ => h₁.trans (.buddyFreePagesSub h₂))
      (fun s' hs' j h1 h2 => ?_) s (.refl s)
    · rw [hbase] at h
      exact h
    · rw [hs'.page2idx_eq, show base - i + j = base + (j - i) by omega, hidx (j - i) (by omega)]
      omega

/-- Seven pages from the index 5 on. -/
theorem buddyFreePages_splits_seven : ∃ calls, freeCalls 5 7 = .ok calls ∧ Tiles 5 12 calls ∧
    calls = [(5, 0), (6, 1), (8, 2)] := by
  obtain ⟨calls, hcalls, -, htiles, -⟩ := buddyFreePages_splits 5 7 (by decide) (by decide)
  have h : freeCalls 5 7 = .ok [(5, 0), (6, 1), (8, 2)] := by decide +kernel
  rw [h] at hcalls
  exact ⟨_, h, Except.ok.inj hcalls ▸ htiles, rfl⟩

end Ucore
