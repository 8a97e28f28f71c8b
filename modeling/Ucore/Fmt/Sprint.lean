import Mathlib.Data.List.GetD
import Ucore.Fmt.Field
import Ucore.Fmt.Total

/-!
# Formatting into a buffer

`vsnprintf` and `vcprintf` give the formatter different functions to print a character with, and so
these get the same characters.  What `sprintputch` makes of them is an invariant, `Sprinted`, which
holds after every character.

* `Sprinted.putch` — one more character is written if there is room for it and the `NUL`, and
  counted in any case.
* `vsnprintf_eq` — what is in the buffer at the end, in terms of the characters of the format.
* `vsnprintf_truncates` — the result: the first characters, as many as there is room for, the `NUL`
  behind them, nothing outside of the buffer, and the number of all characters as the value.

The number is counted in an `int`, so it is only right if there are fewer than `2 ^ 31` characters
(`vsnprintf_truncates_not`).
-/

set_option autoImplicit false

namespace Ucore

/-- **What is in the buffer** after the characters `O`: as many of them as there is room for.  The
rest of the memory is as it was. -/
structure Sprinted (mem : ℕ → BitVec 8) (str ebuf : ℕ) (O : List ℤ) (b : SprintBuf) : Prop where
  buf : b.buf = min (str + O.length) ebuf
  stop : b.ebuf = ebuf
  cnt : b.cnt = toInt32 O.length
  stored : ∀ k, str + k < b.buf → b.mem (str + k) = BitVec.ofInt 8 (O.getD k 0)
  frame : ∀ a, a < str ∨ b.buf ≤ a → b.mem a = mem a

theorem toInt32_succ (x : ℤ) : toInt32 (toInt32 x + 1) = toInt32 (x + 1) := by
  simp only [toInt32]
  omega

section Sprinted

variable {mem : ℕ → BitVec 8} {str ebuf : ℕ} {O : List ℤ} {b : SprintBuf}

theorem Sprinted.start (mem : ℕ → BitVec 8) (hle : str ≤ ebuf) :
    Sprinted mem str ebuf [] ⟨mem, str, ebuf, 0⟩ :=
  ⟨(Nat.min_eq_left hle).symm, rfl, rfl,
    fun _ hk => absurd hk (Nat.not_lt.2 (Nat.le_add_right _ _)), fun _ _ => rfl⟩

/-- One more character. -/
theorem Sprinted.putch (h : Sprinted mem str ebuf O b) (c : ℤ) :
    Sprinted mem str ebuf (O ++ [c]) (sprintputch c b) := by
  have hbuf := h.buf
  have hcnt : toInt32 (b.cnt + 1) = toInt32 (O ++ [c]).length := by
    rw [h.cnt, toInt32_succ, List.length_append, List.length_singleton, Nat.cast_add, Nat.cast_one]
  rw [sprintputch]
  dsimp only
  split
  · next hlt =>
    rw [h.stop] at hlt
    have hend : b.buf = str + O.length := by omega
    refine ⟨?_, h.stop, hcnt, fun k hk => ?_, fun a ha => ?_⟩
    · rw [List.length_append, List.length_singleton]
      dsimp only
      omega
    · dsimp only at hk ⊢
      by_cases hk' : k = O.length
      · rw [hk', ← hend, Function.update_self]
        simp
      · rw [Function.update_of_ne (by omega), h.stored k (by omega),
          List.getD_append _ _ _ _ (by omega)]
    · dsimp only at ha ⊢
      rw [Function.update_of_ne (by omega), h.frame a (by omega)]
  · next hge =>
    -- there is no room, and the character is only counted
    rw [h.stop] at hge
    refine ⟨?_, h.stop, hcnt, fun k hk => ?_, h.frame⟩
    · rw [List.length_append, List.length_singleton]
      dsimp only
      omega
    · dsimp only at hk ⊢
      rw [h.stored k hk, List.getD_append _ _ _ _ (by omega)]

/-- Any number of characters. -/
theorem Sprinted.emit (h : Sprinted mem str ebuf O b) (O' : List ℤ) :
    Sprinted mem str ebuf (O ++ O') (emit sprintputch O' b) := by
  induction O' generalizing O b with
  | nil => rwa [List.append_nil]
  | cons c O' ih =>
    have hnext := ih (h.putch c)
    rwa [List.append_assoc] at hnext

end Sprinted

/-- The console gets the characters, and they are counted. -/
theorem emit_cputch (O O' : List ℤ) :
    emit cputch O' (O, toInt32 O.length) = (O ++ O', toInt32 (O ++ O').length) := by
  induction O' generalizing O with
  | nil => rw [emit_nil, List.append_nil]
  | cons c O' ih =>
    have hnext := ih (O ++ [c])
    rw [emit_cons, cputch]
    dsimp only
    rw [toInt32_succ]
    rwa [List.length_append, List.length_singleton, Nat.cast_add, Nat.cast_one,
      List.append_assoc] at hnext

section Vsnprintf

variable [Overflow] {fmt : List ℕ} {ap : List Arg} {O : List ℤ}

theorem vcprintf_eq (h : fmtOutput fmt ap = .ok O) :
    vcprintf fmt ap = .ok (O, toInt32 O.length) := by
  rw [vcprintf, vprintfmt_eq, h]
  exact congrArg Except.ok (emit_cputch [] O)

/-- What `vsnprintf` does if there is a buffer, in terms of the characters of the format. -/
theorem vsnprintf_eq (h : fmtOutput fmt ap = .ok O) (mem : ℕ → BitVec 8) {str size : ℕ}
    (hstr : str ≠ 0) (hsize : 1 ≤ size) (hwrap : str + size ≤ 2 ^ 32) :
    ∃ b, Sprinted mem str (str + (size - 1)) O b ∧
      vsnprintf mem str size fmt ap = .ok (toInt32 O.length, Function.update b.mem b.buf 0) := by
  have hebuf : (str + size + 2 ^ 32 - 1) % 2 ^ 32 = str + (size - 1) := by omega
  have hb := (Sprinted.start mem (Nat.le_add_right str (size - 1))).emit O
  refine ⟨_, hb, ?_⟩
  simp only [vsnprintf, hebuf]
  rw [if_neg (by omega), vprintfmt_eq, h]
  exact congrArg (fun cnt => Except.ok (cnt, _)) hb.cnt

/-- Without room for the `NUL`, nothing is done. -/
theorem vsnprintf_zero (mem : ℕ → BitVec 8) {str : ℕ} (hstr : str < 2 ^ 32) (fmt : List ℕ)
    (ap : List Arg) : vsnprintf mem str 0 fmt ap = .ok (-eInval, mem) := by
  rw [vsnprintf]
  dsimp only
  rw [if_pos (by omega)]
  rfl

end Vsnprintf

/-- **`vsnprintf` truncates exactly.**  Let `O` be the characters that `vcprintf` prints.  Then the
first `min |O| (size - 1)` of them are in the buffer, there is a `NUL` behind them, and nothing else
has changed.  The result is `|O|` as far as it is an `int`.  If the size is 0, nothing is
written. -/
theorem vsnprintf_truncates [Overflow] (fmt : List ℕ) (ap : List Arg)
    (hargs : ArgsMatch (argKinds none fmt) ap) (mem : ℕ → BitVec 8) :
    ∃ O, vcprintf fmt ap = .ok (O, toInt32 O.length) ∧
      (∀ str size, str ≠ 0 → 1 ≤ size → str + size ≤ 2 ^ 32 →
        ∃ mem', vsnprintf mem str size fmt ap = .ok (toInt32 O.length, mem') ∧
          (∀ k, k < min O.length (size - 1) → mem' (str + k) = BitVec.ofInt 8 (O.getD k 0)) ∧
          mem' (str + min O.length (size - 1)) = 0 ∧
          ∀ a, a < str ∨ str + min O.length (size - 1) < a → mem' a = mem a) ∧
      (O.length < 2 ^ 31 → toInt32 O.length = O.length) ∧
      ∀ str, str < 2 ^ 32 → vsnprintf mem str 0 fmt ap = .ok (-eInval, mem) := by
  obtain ⟨O, hO⟩ : ∃ O, fmtOutput fmt ap = .ok O := fmtLoop_total _ _ [] (ready_zero hargs)
  refine ⟨O, vcprintf_eq hO, fun str size hstr hsize hwrap => ?_,
    fun hlt => toInt32_eq (by omega) (by omega), fun str hstr => vsnprintf_zero mem hstr fmt ap⟩
  obtain ⟨b, hb, hrun⟩ := vsnprintf_eq hO mem hstr hsize hwrap
  have hbuf : b.buf = str + min O.length (size - 1) := by
    rw [hb.buf]
    omega
  refine ⟨_, hrun, fun k hk => ?_, ?_, fun a ha => ?_⟩
  · rw [Function.update_of_ne (by omega), hb.stored k (by omega)]
  · rw [← hbuf, Function.update_self]
  · rw [Function.update_of_ne (by omega), hb.frame a (by omega)]

/-- The number 123 in a buffer for three bytes. -/
theorem vsnprintf_truncates_number : letI := Overflow.wrapping
    vcprintf [37, 100] [.int 123#32] = .ok ([49, 50, 51], 3) ∧
      ∃ mem', vsnprintf (fun _ => 7) 4096 3 [37, 100] [.int 123#32] = .ok (3, mem') ∧
        mem' 4096 = 49 ∧ mem' 4097 = 50 ∧ mem' 4098 = 0 ∧ mem' 4099 = 7 := by
  let _ := Overflow.wrapping
  obtain ⟨O, hO, hbuf, -⟩ := vsnprintf_truncates [37, 100] [.int 123#32] ⟨trivial, trivial⟩
    fun _ => 7
  have hprint : vcprintf [37, 100] [.int 123#32] = .ok ([49, 50, 51], 3) := by decide
  obtain rfl : O = [49, 50, 51] := by
    rw [hprint] at hO
    injection hO with hO
    exact (congrArg Prod.fst hO).symm
  obtain ⟨mem', hrun, hstored, hnul, hframe⟩ := hbuf 4096 3 (by decide) (by decide) (by decide)
  exact ⟨hprint, mem', hrun, hstored 0 (by decide), hstored 1 (by decide), hnul,
    hframe 4099 (.inr (by decide))⟩

/-- The format `"%2147483647d"` prints the number -1 with `2 ^ 31` characters. -/
theorem length_longest [Overflow] :
    ∃ O, fmtOutput [37, 50, 49, 52, 55, 52, 56, 51, 54, 52, 55, 100] [.int 0xFFFFFFFF#32] = .ok O ∧
      O.length = 2 ^ 31 := by
  have hdigits : digitsOf 10 2147483647 = [2, 1, 4, 7, 4, 8, 3, 6, 4, 7] := by
    rw [digitsOf]
    norm_num
  have hfmt : numFmt .none (some 2147483647) (.int 0xFFFFFFFF#32) .d =
      [37, 50, 49, 52, 55, 52, 56, 51, 54, 52, 55, 100] := by
    rw [numFmt, Option.map_some, Option.getD_some, widthChars, hdigits]
    rfl
  have hone : digitsOf NumConv.d.base (NumConv.d.abs (.int 0xFFFFFFFF#32)) = [1] :=
    digitsOf_lt (by decide)
  have hO := fmtOutput_numFmt .none (fun k hk => Option.some.inj hk ▸ (by decide))
    (.int 0xFFFFFFFF#32) .d (w := some 2147483647)
  have hpad : padding NumConv.d.base (NumConv.d.abs (.int 0xFFFFFFFF#32))
      (fieldWidth (some 2147483647)) = 2147483646 := by
    have hwidth := fieldWidth_some (show 2147483647 < 2 ^ 31 by decide)
    rw [hwidth, padding_eq (by rw [hone]; decide) (by decide), hone]
    rfl
  rw [hfmt, hpad, NumConv.digits, numeral, hone] at hO
  refine ⟨_, hO, ?_⟩
  have hsign : (NumConv.d.sign (.int 0xFFFFFFFF#32)).length = 1 := by decide
  rw [List.length_append, List.length_append, List.length_replicate, List.length_map, hsign,
    List.length_singleton]
  rfl

/-- The characters are counted in an `int`, and there may be too many of them. -/
theorem vsnprintf_truncates_not : letI := Overflow.wrapping
    ∃ O r, vcprintf [37, 50, 49, 52, 55, 52, 56, 51, 54, 52, 55, 100] [.int 0xFFFFFFFF#32] =
        .ok (O, r) ∧
      ∃ r' mem', vsnprintf (fun _ => 0) 4096 16 [37, 50, 49, 52, 55, 52, 56, 51, 54, 52, 55, 100]
        [.int 0xFFFFFFFF#32] = .ok (r', mem') ∧ r' ≠ O.length := by
  let _ := Overflow.wrapping
  obtain ⟨O, hO, hlen⟩ := length_longest
  obtain ⟨b, -, hrun⟩ := vsnprintf_eq hO (fun _ => 0) (show 4096 ≠ 0 by decide)
    (show 1 ≤ 16 by decide) (by decide)
  refine ⟨O, _, vcprintf_eq hO, _, _, hrun, ?_⟩
  rw [hlen, toInt32]
  omega

end Ucore
