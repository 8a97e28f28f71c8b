import Ucore.Str.Defs

/-!
# Moving memory

`memmove` starts at the end from which it reads no byte that it has already written.  On addresses
that are natural numbers this is `memmove_apply`, by induction on the number of bytes, once for each
direction.  The code has addresses of 32 bits, which wrap around in the loops and in the test for
the direction.  `memmove32` is the function with such addresses, and it does the same as `memmove`
as long as no range wraps around (`memmove32_sim`).

* `copyUp_apply` — copying upwards is right unless it starts inside of the source, behind its
  beginning;
* `copyDown_apply` — copying downwards is right unless it ends inside of it;
* `memmove32_copies` — the direction that the code takes is always right, and no byte outside of the
  destination changes.
-/

set_option autoImplicit false

namespace Ucore

variable {α : Type}

/-! ## Addresses without end -/

/-- Copying upwards reads only what has not been written, unless it starts inside of the source. -/
theorem copyUp_apply (mem : ℕ → α) {d s n : ℕ} (h : d ≤ s ∨ s + n ≤ d) (a : ℕ) :
    copyUp mem d s n a = if d ≤ a ∧ a < d + n then mem (s + (a - d)) else mem a := by
  induction n generalizing mem d s with
  | zero => rw [copyUp, if_neg (by omega)]
  | succ n ih =>
    rw [copyUp, ih _ (by omega)]
    by_cases ha : a = d
    · subst ha
      rw [if_neg (by omega), if_pos (by omega), Function.update_self, Nat.sub_self, Nat.add_zero]
    · by_cases hin : d ≤ a ∧ a < d + (n + 1)
      · rw [if_pos (by omega), if_pos hin, Function.update_of_ne (by omega)]
        congr 1
        omega
      · rw [if_neg (by omega), if_neg hin, Function.update_of_ne ha]

/-- Copying downwards reads only what has not been written, unless it ends inside of the source. -/
theorem copyDown_apply (mem : ℕ → α) {d s : ℕ} (h : s ≤ d) (n a : ℕ) :
    copyDown mem d s n a = if d ≤ a ∧ a < d + n then mem (s + (a - d)) else mem a := by
  induction n generalizing mem with
  | zero => rw [copyDown, if_neg (by omega)]
  | succ n ih =>
    rw [copyDown, ih]
    by_cases ha : a = d + n
    · subst ha
      rw [if_neg (by omega), if_pos (by omega), Function.update_self, Nat.add_sub_cancel_left]
    · by_cases hin : d ≤ a ∧ a < d + (n + 1)
      · rw [if_pos (by omega), if_pos hin, Function.update_of_ne (by omega)]
      · rw [if_neg (by omega), if_neg hin, Function.update_of_ne ha]

/-- **`memmove` copies what the source was.** -/
theorem memmove_apply (mem : ℕ → α) (dst src n a : ℕ) :
    memmove mem dst src n a = if dst ≤ a ∧ a < dst + n then mem (src + (a - dst)) else mem a := by
  rw [memmove]
  split
  · next hdown => exact copyDown_apply mem (Nat.le_of_lt hdown.1) n a
  · next hup => exact copyUp_apply mem (by omega) a

/-! ## Addresses of 32 bits -/

/-- `while (n -- > 0) *d ++ = *s ++`. -/
def copyUp32 (mem : BitVec 32 → α) (d s : BitVec 32) : ℕ → BitVec 32 → α
  | 0 => mem
  | n + 1 => copyUp32 (Function.update mem d (mem s)) (d + 1) (s + 1) n

/-- `while (n -- > 0) *-- d = *-- s`. -/
def copyDown32 (mem : BitVec 32 → α) (d s : BitVec 32) : ℕ → BitVec 32 → α
  | 0 => mem
  | n + 1 => copyDown32 (Function.update mem (d - 1) (mem (s - 1))) (d - 1) (s - 1) n

/-- `memmove`. -/
def memmove32 (mem : BitVec 32 → α) (dst src n : BitVec 32) : BitVec 32 → α :=
  if src < dst ∧ src + n > dst then copyDown32 mem (dst + n) (src + n) n.toNat
  else copyUp32 mem dst src n.toNat

/-- A memory with addresses of 32 bits is the beginning of one without end. -/
def Flat32 (mem : BitVec 32 → α) (m : ℕ → α) : Prop := ∀ a : BitVec 32, mem a = m a.toNat

section Sim

variable {mem : BitVec 32 → α} {m : ℕ → α} {d s : BitVec 32}

theorem Flat32.update (h : Flat32 mem m) (a : BitVec 32) (v : α) :
    Flat32 (Function.update mem a v) (Function.update m a.toNat v) := by
  intro b
  by_cases hb : b = a
  · subst hb
    rw [Function.update_self, Function.update_self]
  · rw [Function.update_of_ne hb, Function.update_of_ne fun heq => hb (BitVec.eq_of_toNat_eq heq)]
    exact h b

theorem toNat_add_ofNat {a : BitVec 32} {i : ℕ} (h : a.toNat + i < 2 ^ 32) :
    (a + BitVec.ofNat 32 i).toNat = a.toNat + i := by
  rw [BitVec.toNat_add, BitVec.toNat_ofNat, Nat.mod_eq_of_lt (show i < 2 ^ 32 by omega),
    Nat.mod_eq_of_lt h]

theorem copyUp32_sim {n : ℕ} (h : Flat32 mem m) (hd : d.toNat + n ≤ 2 ^ 32)
    (hs : s.toNat + n ≤ 2 ^ 32) : Flat32 (copyUp32 mem d s n) (copyUp m d.toNat s.toNat n) := by
  induction n generalizing mem m d s with
  | zero => exact h
  | succ n ih =>
    have hnext := h.update d (mem s)
    rw [h s] at hnext
    rw [copyUp32, copyUp, h s]
    cases n with
    | zero => exact hnext
    | succ n =>
      -- there is a byte behind this one, so no address wraps around yet
      have hd' : (d + 1).toNat = d.toNat + 1 :=
        toNat_add_ofNat (show d.toNat + 1 < 2 ^ 32 by omega)
      have hs' : (s + 1).toNat = s.toNat + 1 :=
        toNat_add_ofNat (show s.toNat + 1 < 2 ^ 32 by omega)
      rw [← hd', ← hs']
      exact ih hnext (by omega) (by omega)

theorem copyDown32_sim {n : ℕ} (h : Flat32 mem m) (hd : d.toNat + n ≤ 2 ^ 32)
    (hs : s.toNat + n ≤ 2 ^ 32) :
    Flat32 (copyDown32 mem (d + BitVec.ofNat 32 n) (s + BitVec.ofNat 32 n) n)
      (copyDown m d.toNat s.toNat n) := by
  have hback : ∀ (a : BitVec 32) (n : ℕ), a + BitVec.ofNat 32 (n + 1) - 1 = a + BitVec.ofNat 32 n :=
    fun a n => by
      rw [BitVec.ofNat_add, ← BitVec.add_assoc]
      exact BitVec.add_sub_cancel _ _
  induction n generalizing mem m with
  | zero => exact h
  | succ n ih =>
    rw [copyDown32, copyDown, hback, hback]
    refine ih ?_ (by omega) (by omega)
    rw [h (s + BitVec.ofNat 32 n), toNat_add_ofNat (show s.toNat + n < 2 ^ 32 by omega),
      ← toNat_add_ofNat (show d.toNat + n < 2 ^ 32 by omega)]
    exact h.update _ _

/-- **`memmove` with addresses of 32 bits** does what it does on addresses without end. -/
theorem memmove32_sim (h : Flat32 mem m) {dst src n : BitVec 32}
    (hdst : dst.toNat + n.toNat ≤ 2 ^ 32) (hsrc : src.toNat + n.toNat ≤ 2 ^ 32) :
    Flat32 (memmove32 mem dst src n) (memmove m dst.toNat src.toNat n.toNat) := by
  have htest : src < dst ∧ src + n > dst ↔
      src.toNat < dst.toNat ∧ src.toNat + n.toNat > dst.toNat := by
    refine and_congr_right fun hlt => ?_
    have hlt' : src.toNat < dst.toNat := hlt
    rw [gt_iff_lt, BitVec.lt_def, BitVec.toNat_add, Nat.mod_eq_of_lt (by omega)]
  rw [memmove32, memmove]
  by_cases hdown : src < dst ∧ src + n > dst
  · rw [if_pos hdown, if_pos (htest.1 hdown)]
    have hcopy := copyDown32_sim h hdst hsrc
    rwa [BitVec.ofNat_toNat, BitVec.setWidth_eq] at hcopy
  · rw [if_neg hdown, if_neg fun h => hdown (htest.2 h)]
    exact copyUp32_sim h hdst hsrc

end Sim

/-- **`memmove` copies the original source under every overlap.**  If no range goes over the end of
the address space, then the destination is what the source was before, and the other bytes are as
they were. -/
theorem memmove32_copies (mem : BitVec 32 → BitVec 8) (dst src n : BitVec 32)
    (hdst : dst.toNat + n.toNat ≤ 2 ^ 32) (hsrc : src.toNat + n.toNat ≤ 2 ^ 32) :
    (∀ i < n.toNat, memmove32 mem dst src n (dst + BitVec.ofNat 32 i) =
        mem (src + BitVec.ofNat 32 i)) ∧
      ∀ a, a.toNat < dst.toNat ∨ dst.toNat + n.toNat ≤ a.toNat →
        memmove32 mem dst src n a = mem a := by
  have hflat : Flat32 mem fun a => mem (BitVec.ofNat 32 a) := fun a => by
    simp only [BitVec.ofNat_toNat, BitVec.setWidth_eq]
  have hsim := memmove32_sim hflat hdst hsrc
  constructor
  · intro i hi
    rw [hsim, toNat_add_ofNat (by omega), memmove_apply, if_pos (by omega),
      Nat.add_sub_cancel_left, ← toNat_add_ofNat (show src.toNat + i < 2 ^ 32 by omega)]
    exact (hflat _).symm
  · intro a ha
    rw [hsim, memmove_apply, if_neg (by omega)]
    exact (hflat a).symm

/-- Three bytes are moved up by one, at the end of the address space. -/
theorem memmove32_copies_up :
    let mem' := memmove32 (fun a => a.setWidth 8) 0xFFFFFFFD#32 0xFFFFFFFC#32 3#32
    mem' 0xFFFFFFFD#32 = 0xFC#8 ∧ mem' 0xFFFFFFFF#32 = 0xFE#8 ∧ mem' 0#32 = 0#8 := by
  obtain ⟨hcopy, hrest⟩ := memmove32_copies (fun a => a.setWidth 8) 0xFFFFFFFD#32 0xFFFFFFFC#32
    3#32 (by decide) (by decide)
  exact ⟨hcopy 0 (by decide), hcopy 2 (by decide), hrest 0#32 (.inl (by decide))⟩

end Ucore
