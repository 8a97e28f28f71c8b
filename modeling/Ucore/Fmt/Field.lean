import Mathlib.Data.List.Basic
import Ucore.Fmt.Scan

/-!
# Fields for numbers

A format `%[flag][width][l…]conv` for a number, and what it prints (`fmtOutput_numFmt`): the sign,
then the padding, and then the digits.  The sign does not count for the width, and for the flag `-`
the padding is on the left, too, and is made of the character `-`.  So a field has the width that
was asked for exactly if there is nothing to pad, or if there is no flag `-`, the number is not
negative, and the width is an `int` (`fmtOutput_eq_field_iff`).

* `PadFlag`, `NumArg` and `NumConv` are the parts of the format and the argument, and `numFmt` is
  the format.
* `reswitch_numFmt` — reading it leaves the escape sequence with the character for the padding, the
  width and the number of `l`s, by the lemmas of `Ucore.Fmt.Scan`.
* `convert_num` — the conversion: which number is printed, in which base, and whether there is a
  sign.
* `field` is what the field is meant to be.  The two are compared by their lengths, or by their last
  characters: digits with blanks behind them end in another way than digits do
  (`numeral_append_ne`).

A width that is no `int` is one that the code cannot compute without an overflow, and then there are
results of the overflow for which nothing is padded (`fmtOutput_ne_field_of_le`).  The equivalence
is about all instances of `Overflow` at once: the field is right whatever an overflow gives.
-/

set_option autoImplicit false

namespace Ucore

/-! ## Formats -/

/-- The flag of a field. -/
inductive PadFlag where
  | none
  | zero
  | minus
  deriving DecidableEq, Repr

/-- The flag in the format. -/
def PadFlag.chars : PadFlag → List ℕ
  | .none => []
  | .zero => [48]
  | .minus => [45]

/-- What `padc` is for the flag. -/
def PadFlag.padc : PadFlag → ℤ
  | .none => 32
  | .zero => 48
  | .minus => 45

/-- A number to be printed: an `int`, a `long` or a `long long`. -/
inductive NumArg where
  | int (v : BitVec 32)
  | long (v : BitVec 32)
  | llong (v : BitVec 64)
  deriving DecidableEq, Repr

namespace NumArg

/-- The length modifier for the number. -/
def chars : NumArg → List ℕ
  | .int _ => []
  | .long _ => [108]
  | .llong _ => [108, 108]

/-- The number as an argument. -/
def arg : NumArg → Arg
  | .int v => .int v
  | .long v => .int v
  | .llong v => .llong v

/-- The number with a sign. -/
def toInt : NumArg → ℤ
  | .int v => v.toInt
  | .long v => v.toInt
  | .llong v => v.toInt

/-- The number without a sign. -/
def toNat : NumArg → ℕ
  | .int v => v.toNat
  | .long v => v.toNat
  | .llong v => v.toNat

end NumArg

/-- The conversions for numbers. -/
inductive NumConv where
  | d
  | u
  | o
  | x
  deriving DecidableEq, Repr

namespace NumConv

/-- The character of the conversion. -/
def char : NumConv → ℕ
  | .d => 100
  | .u => 117
  | .o => 111
  | .x => 120

/-- Its base. -/
def base : NumConv → ℕ
  | .d => 10
  | .u => 10
  | .o => 8
  | .x => 16

/-- Whether a number is printed as a negative one. -/
def Neg (conv : NumConv) (n : NumArg) : Prop := conv = .d ∧ n.toInt < 0

instance (conv : NumConv) (n : NumArg) : Decidable (conv.Neg n) :=
  inferInstanceAs (Decidable (_ ∧ _))

/-- The number without its sign. -/
def abs (conv : NumConv) (n : NumArg) : ℕ := if conv = .d then n.toInt.natAbs else n.toNat

/-- The sign of a number. -/
def sign (conv : NumConv) (n : NumArg) : List ℤ := if conv.Neg n then [45] else []

/-- The digits of a number. -/
def digits (conv : NumConv) (n : NumArg) : List ℤ := numeral conv.base (conv.abs n)

end NumConv

/-- A width in a format. -/
def widthChars (w : ℕ) : List ℕ := (digitsOf 10 w).map digitChar

/-- The format of a field. -/
def numFmt (flag : PadFlag) (w : Option ℕ) (n : NumArg) (conv : NumConv) : List ℕ :=
  37 :: (flag.chars ++ ((w.map widthChars).getD [] ++ (n.chars ++ [conv.char])))

/-! ## Scanning them -/

theorem not_isFlag_char (conv : NumConv) : ¬ IsFlag conv.char := by
  cases conv <;> decide

theorem not_isDigit_chars (n : NumArg) (conv : NumConv) :
    ¬ IsDigit (charAt (n.chars ++ [conv.char]) 0) := by
  have hlong : ¬ IsDigit 108 := by decide
  cases n with
  | int v => exact fun h => not_isFlag_char conv (.inl h)
  | long v => exact hlong
  | llong v => exact hlong

theorem digitChar_lt {d : ℕ} (h : d < 10) : digitChar d = 48 + d := if_pos h

/-- The digits of a width, which begins with no 0. -/
theorem widthChars_eq_cons {w : ℕ} (hw : 0 < w) : ∃ c ds, widthChars w = c :: ds ∧
    (49 ≤ c ∧ c ≤ 57) ∧ ∀ c ∈ ds, IsDigit c := by
  obtain ⟨d, ds, hds, hd⟩ := digitsOf_eq_cons (show 1 < 10 by decide) hw
  have hlt := lt_of_mem_digitsOf (show 1 < 10 by decide) w
  rw [hds] at hlt
  have hd10 := hlt d List.mem_cons_self
  refine ⟨digitChar d, ds.map digitChar, by rw [widthChars, hds, List.map_cons], ?_, ?_⟩
  · rw [digitChar_lt hd10]
    omega
  · intro c hc
    obtain ⟨d', hd', rfl⟩ := List.mem_map.1 hc
    have hlt' := hlt d' (List.mem_cons_of_mem _ hd')
    rw [digitChar_lt hlt', IsDigit]
    omega

section Overflow

variable [Overflow]

/-- What `width` is for a format. -/
def fieldWidth (w : Option ℕ) : ℤ := (w.map fun k => widthOf 0 (widthChars k)).getD (-1)

theorem Escape.flag_long (e : Escape) (k : ℤ) :
    ({ e with lflag := k } : Escape).flag 108 = { e with lflag := cInt (k + 1) } := rfl

/-- The end of the format: the length modifier and the conversion. -/
theorem reswitch_size {fmt : List ℕ} {i fuel : ℕ} (n : NumArg) (conv : NumConv)
    (hat : FmtAt fmt i (n.chars ++ [conv.char])) (ap : List Arg) (e : Escape)
    (hfuel : n.chars.length < fuel) :
    reswitch fmt fuel i ap { e with lflag := 0 } =
      .ok (conv.char, i + n.chars.length + 1, ap, { e with lflag := n.chars.length }) := by
  have one : cInt (0 + 1) = 1 := cInt_eq (by omega) (by omega)
  have two : cInt (1 + 1) = 2 := cInt_eq (by omega) (by omega)
  cases n with
  | int v =>
    obtain ⟨fuel, rfl⟩ : ∃ k, fuel = k + 1 := ⟨fuel - 1, by simp [NumArg.chars] at hfuel; omega⟩
    exact reswitch_end ap _ fuel hat (not_isFlag_char conv)
  | long v =>
    obtain ⟨fuel, rfl⟩ : ∃ k, fuel = k + 2 := ⟨fuel - 2, by simp [NumArg.chars] at hfuel; omega⟩
    rw [reswitch_flag ap _ (fuel + 1) hat (by decide), Escape.flag_long, one]
    exact reswitch_end ap _ fuel hat.succ (not_isFlag_char conv)
  | llong v =>
    obtain ⟨fuel, rfl⟩ : ∃ k, fuel = k + 3 := ⟨fuel - 3, by simp [NumArg.chars] at hfuel; omega⟩
    rw [reswitch_flag ap _ (fuel + 2) hat (by decide), Escape.flag_long, one,
      reswitch_flag ap _ (fuel + 1) hat.succ (by decide), Escape.flag_long, two]
    exact reswitch_end ap _ fuel hat.succ.succ (not_isFlag_char conv)

/-- Reading digits, if their value is an `int`. -/
theorem widthOf_map {ds : List ℕ} (hds : ∀ d ∈ ds, d < 10) {x : ℤ} (hx : 0 ≤ x)
    (hlt : valueOf 10 x ds < 2 ^ 31) : widthOf x (ds.map digitChar) = valueOf 10 x ds := by
  induction ds generalizing x with
  | nil => rfl
  | cons d ds ih =>
    have hle : x * 10 + d ≤ valueOf 10 (x * 10 + d) ds := le_valueOf (by decide) (by omega) ds
    have hvalue : valueOf 10 (x * 10 + d) ds < 2 ^ 31 := hlt
    have hstep : cInt (x * 10 + (digitChar d : ℕ) - 48) = x * 10 + d := by
      rw [digitChar_lt (hds d List.mem_cons_self)]
      push_cast
      rw [cInt_eq (by omega) (by omega)]
      omega
    rw [List.map_cons, widthOf, List.foldl_cons, hstep]
    exact ih (fun d hd => hds d (List.mem_cons_of_mem _ hd)) (by omega) hvalue

theorem widthOf_widthChars {w : ℕ} (hw : w < 2 ^ 31) : widthOf 0 (widthChars w) = w := by
  have hvalue : valueOf 10 0 (digitsOf 10 w) = w := valueOf_digitsOf (by decide) w
  rw [widthChars, widthOf_map (lt_of_mem_digitsOf (by decide) w) (Int.le_refl 0) (by omega), hvalue]

@[simp] theorem fieldWidth_none : fieldWidth none = -1 := rfl

theorem fieldWidth_some {w : ℕ} (hw : w < 2 ^ 31) : fieldWidth (some w) = w := widthOf_widthChars hw

/-- A width, and then the end of the format. -/
theorem reswitch_widthChars {fmt : List ℕ} {i fuel : ℕ} {w : Option ℕ} (hw : ∀ k ∈ w, 0 < k)
    (n : NumArg) (conv : NumConv)
    (hat : FmtAt fmt i ((w.map widthChars).getD [] ++ (n.chars ++ [conv.char]))) (ap : List Arg)
    (padc : ℤ) (hfuel : n.chars.length + 1 < fuel) :
    reswitch fmt fuel i ap ⟨padc, -1, -1, 0, false⟩ =
      .ok (conv.char, fmt.length, ap,
        ⟨padc, fieldWidth w, -1, n.chars.length, false⟩) := by
  cases w with
  | none =>
    have hlen := hat.length
    rw [Option.map_none, Option.getD_none, List.nil_append] at hat hlen
    rw [List.length_append, List.length_singleton] at hlen
    rw [reswitch_size n conv hat ap ⟨padc, -1, -1, 0, false⟩ (by omega), Nat.add_assoc, hlen,
      fieldWidth_none]
  | some w =>
    obtain ⟨c, ds, hwc, hc, hds⟩ := widthChars_eq_cons (hw w rfl)
    obtain ⟨fuel, rfl⟩ : ∃ k, fuel = k + 1 := ⟨fuel - 1, by omega⟩
    rw [Option.map_some, Option.getD_some] at hat
    have hat' := hat
    rw [hwc, List.cons_append] at hat'
    rw [reswitch_width ap _ fuel hat' hc hds (not_isDigit_chars n conv), ← hwc,
      Escape.processPrecision, if_pos (show (-1 : ℤ) < 0 by decide)]
    have hat'' := hat.append
    have hlen := hat''.length
    rw [hwc, List.length_cons] at hat'' hlen
    rw [List.length_append, List.length_singleton] at hlen
    have hsize := reswitch_size n conv hat'' ap ⟨padc, fieldWidth (some w), -1, 0, false⟩
      (show n.chars.length < fuel by omega)
    rw [Nat.add_assoc _ n.chars.length, hlen] at hsize
    rw [Nat.add_assoc, Nat.add_comm 1 ds.length]
    exact hsize

/-- **What the flags of a field come to.** -/
theorem reswitch_numFmt (flag : PadFlag) {w : Option ℕ} (hw : ∀ k ∈ w, 0 < k) (n : NumArg)
    (conv : NumConv) (ap : List Arg) :
    reswitch (numFmt flag w n conv) ((numFmt flag w n conv).length + 1) 1 ap Escape.init =
      .ok (conv.char, (numFmt flag w n conv).length, ap,
        ⟨flag.padc, fieldWidth w, -1, n.chars.length, false⟩) := by
  have hat : FmtAt (numFmt flag w n conv) 1 _ := (FmtAt.zero (numFmt flag w n conv)).succ
  have hlen := hat.length
  simp only [List.length_append, List.length_singleton] at hlen
  cases flag with
  | none => exact reswitch_widthChars hw n conv hat ap 32 (by omega)
  | zero =>
    rw [reswitch_flag ap _ _ hat (by decide)]
    exact reswitch_widthChars hw n conv hat.succ ap 48 (by omega)
  | minus =>
    rw [reswitch_flag ap _ _ hat (by decide)]
    exact reswitch_widthChars hw n conv hat.succ ap 45 (by omega)

end Overflow

/-! ## What they print -/

theorem getint_arg (n : NumArg) (ap : List Arg) :
    getint n.chars.length (n.arg :: ap) = .ok (n.toInt, ap) := by
  cases n <;> rfl

theorem getuint_arg (n : NumArg) (ap : List Arg) :
    getuint n.chars.length (n.arg :: ap) = .ok (n.toNat, ap) := by
  cases n <;> rfl

theorem NumArg.toNat_lt (n : NumArg) : n.toNat < 2 ^ 64 := by
  cases n with
  | int v =>
    have := v.isLt
    simp only [toNat]
    omega
  | long v =>
    have := v.isLt
    simp only [toNat]
    omega
  | llong v => exact v.isLt

theorem NumArg.natAbs_lt (n : NumArg) : n.toInt.natAbs < 2 ^ 64 := by
  cases n with
  | int v =>
    have h₁ := v.le_toInt
    have h₂ := v.toInt_lt
    simp only [toInt]
    omega
  | long v =>
    have h₁ := v.le_toInt
    have h₂ := v.toInt_lt
    simp only [toInt]
    omega
  | llong v =>
    have h₁ := v.le_toInt
    have h₂ := v.toInt_lt
    simp only [toInt]
    omega

theorem NumConv.abs_lt (conv : NumConv) (n : NumArg) : conv.abs n < 2 ^ 64 := by
  rw [NumConv.abs]
  split
  · exact n.natAbs_lt
  · exact n.toNat_lt

theorem NumConv.one_lt_base (conv : NumConv) : 1 < conv.base := by
  cases conv <;> decide

section Putch

variable {σ : Type} (putch : ℤ → σ → σ)

theorem emit_sign (n : NumArg) (st : σ) :
    emit putch (NumConv.d.sign n) st = if n.toInt < 0 then putch 45 st else st := by
  by_cases hneg : n.toInt < 0
  · rw [NumConv.sign, if_pos ⟨rfl, hneg⟩, if_pos hneg]
    rfl
  · rw [NumConv.sign, if_neg (fun h => hneg h.2), if_neg hneg]
    rfl

variable [Overflow]

/-- The conversions without a sign do the same in different bases. -/
theorem convert_unsigned (nested : List ℕ → List Arg → σ → Res σ) (fmt : List ℕ) {conv : NumConv}
    (hconv : conv ≠ .d) (i : ℕ) (ap : List Arg) (e : Escape) (st : σ) :
    convert putch nested fmt conv.char i ap e st = (do
      let (num, ap) ← getuint e.lflag ap
      let st ← printNumber putch e conv.base num st
      return (i, ap, st)) := by
  cases conv with
  | d => exact absurd rfl hconv
  | _ => rfl

/-- **The conversion of a number**: the sign, the padding, the digits. -/
theorem convert_num (nested : List ℕ → List Arg → σ → Res σ) (fmt : List ℕ) (conv : NumConv) (i : ℕ)
    (n : NumArg) (ap : List Arg) {e : Escape} (he : e.lflag = n.chars.length) (st : σ) :
    convert putch nested fmt conv.char i (n.arg :: ap) e st = .ok (i, ap, emit putch
      (conv.sign n ++ (List.replicate (padding conv.base (conv.abs n) e.width) e.padc ++
        conv.digits n)) st) := by
  have hnum := printNumber_eq putch e conv.one_lt_base (conv.abs_lt n)
  rw [emit_append]
  by_cases hconv : conv = .d
  · subst hconv
    change (getint e.lflag (n.arg :: ap) >>= _) = _
    rw [he, getint_arg, Res.ok_bind]
    simp only [← emit_sign]
    change (printNumber putch e NumConv.d.base (NumConv.d.abs n) _ >>= _) = _
    rw [hnum]
    rfl
  · have hsign : conv.sign n = [] := if_neg fun h => hconv h.1
    have hval : conv.abs n = n.toNat := if_neg hconv
    rw [convert_unsigned putch nested fmt hconv, he, getuint_arg, Res.ok_bind]
    simp only [← hval, hnum, hsign]
    rfl

end Putch

/-- **What a field prints.** -/
theorem fmtOutput_numFmt [Overflow] (flag : PadFlag) {w : Option ℕ} (hw : ∀ k ∈ w, 0 < k)
    (n : NumArg) (conv : NumConv) :
    fmtOutput (numFmt flag w n conv) [n.arg] = .ok (conv.sign n ++
      (List.replicate (padding conv.base (conv.abs n) (fieldWidth w)) flag.padc ++
        conv.digits n)) := by
  have hend : FmtAt (numFmt flag w n conv) (numFmt flag w n conv).length [] :=
    ⟨Nat.le_refl _, List.drop_length⟩
  rw [fmtOutput, vprintfmt, fmtLoop_escape _ _ _ _ (FmtAt.zero (numFmt flag w n conv))
    (reswitch_numFmt flag hw n conv [n.arg]), convert_num _ _ _ _ _ _ _ rfl, Res.ok_bind]
  rw [fmtLoop_nil _ _ _ _ hend, emit_collect, List.nil_append]

/-! ## The width of a field -/

/-- What a field is meant to be: the sign and the digits, padded with blanks on the left, with zeros
between them, or with blanks on the right. -/
def field (flag : PadFlag) (w : ℕ) (sign digits : List ℤ) : List ℤ :=
  let pad := w - (sign ++ digits).length
  match flag with
  | .none => List.replicate pad 32 ++ (sign ++ digits)
  | .zero => sign ++ (List.replicate pad 48 ++ digits)
  | .minus => sign ++ digits ++ List.replicate pad 32

theorem length_field (flag : PadFlag) (w : ℕ) (sign digits : List ℤ) :
    (field flag w sign digits).length = max w (sign ++ digits).length := by
  cases flag <;> simp only [field, List.length_append, List.length_replicate] <;> omega

theorem field_of_le (flag : PadFlag) {w : ℕ} {sign digits : List ℤ}
    (h : w ≤ (sign ++ digits).length) : field flag w sign digits = sign ++ digits := by
  have hpad : w - (sign ++ digits).length = 0 := Nat.sub_eq_zero_of_le h
  cases flag <;> simp only [field, hpad, List.replicate_zero, List.nil_append, List.append_nil]

theorem NumConv.length_digits_le (conv : NumConv) (n : NumArg) : (conv.digits n).length ≤ 64 := by
  rw [NumConv.digits, length_numeral]
  exact length_digitsOf_le conv.one_lt_base 63
    (Nat.lt_of_lt_of_le (conv.abs_lt n) (Nat.pow_le_pow_left conv.one_lt_base 64))

/-- No digit is a blank, so digits with blanks behind them end in another way. -/
theorem numeral_append_ne (base num k : ℕ) (l : List ℤ) :
    l ++ numeral base num ≠ numeral base num ++ List.replicate (k + 1) 32 := by
  intro heq
  have hlast : (digitChar (num % base) : ℤ) = 32 := by
    rw [numeral, digitsOf, List.map_append, ← List.append_assoc, List.replicate_succ',
      ← List.append_assoc] at heq
    have := (List.append_inj' heq rfl).2
    simpa using this
  rw [digitChar] at hlast
  split at hlast <;> omega

/-- A field that has an `int` as its width. -/
theorem fmtOutput_eq_field_of_lt [Overflow] (flag : PadFlag) {w : ℕ} (hw : 1 ≤ w) (hlt : w < 2 ^ 31)
    (n : NumArg) (conv : NumConv) :
    fmtOutput (numFmt flag (some w) n conv) [n.arg] =
        .ok (field flag w (conv.sign n) (conv.digits n)) ↔
      w ≤ (conv.digits n).length ∨ flag ≠ .minus ∧ ¬ conv.Neg n := by
  have hD := conv.length_digits_le n
  have hpad : padding conv.base (conv.abs n) (fieldWidth (some w)) =
      w - (conv.digits n).length := by
    rw [NumConv.digits, length_numeral] at hD ⊢
    rw [fieldWidth_some hlt, padding_eq (by omega) (by omega)]
    omega
  rw [fmtOutput_numFmt flag (fun k hk => Option.some.inj hk ▸ hw), hpad, Except.ok.injEq]
  by_cases hle : w ≤ (conv.digits n).length
  · refine iff_of_true ?_ (.inl hle)
    have hle' : w ≤ (conv.sign n ++ conv.digits n).length := by
      rw [List.length_append]
      omega
    rw [Nat.sub_eq_zero_of_le hle, field_of_le flag hle', List.replicate_zero, List.nil_append]
  rw [or_iff_right hle]
  by_cases hneg : conv.Neg n
  · -- the sign is not counted, so as soon as there is padding the field is too long
    refine iff_of_false (fun heq => ?_) fun h => h.2 hneg
    have hsign : (conv.sign n).length = 1 := by
      rw [NumConv.sign, if_pos hneg, List.length_singleton]
    have hlen := congrArg List.length heq
    rw [length_field] at hlen
    simp only [List.length_append, List.length_replicate, hsign] at hlen
    omega
  · have hsign : conv.sign n = [] := if_neg hneg
    rw [hsign, List.nil_append]
    cases flag with
    | none => exact iff_of_true rfl ⟨PadFlag.noConfusion, hneg⟩
    | zero => exact iff_of_true rfl ⟨PadFlag.noConfusion, hneg⟩
    | minus =>
      refine iff_of_false (fun heq => ?_) fun h => h.1 rfl
      obtain ⟨k, hk⟩ : ∃ k, w - (conv.digits n).length = k + 1 :=
        ⟨w - (conv.digits n).length - 1, by omega⟩
      simp only [field, List.nil_append, hk] at heq
      exact numeral_append_ne _ _ _ _ heq

/-! ## A width that is no `int`

Nothing can be said about such a field, since C says nothing about it.  To see this it is enough to
look at one way in which arithmetic may overflow: to the least `int`, where it then stays. -/

section Least

variable [Overflow] (hleast : ∀ x, Overflow.result x = BitVec.intMin 32)

include hleast

theorem cInt_least (x : ℤ) : cInt x = if -2 ^ 31 ≤ x ∧ x < 2 ^ 31 then x else -2 ^ 31 := by
  rw [cInt, hleast]
  rfl

theorem widthOf_least {ds : List ℕ} (hds : ∀ d ∈ ds, d < 10) {x : ℤ} (hx : 0 ≤ x) :
    widthOf (cInt x) (ds.map digitChar) = cInt (valueOf 10 x ds) := by
  induction ds generalizing x with
  | nil => rfl
  | cons d ds ih =>
    have hd := hds d List.mem_cons_self
    have hstep : cInt (cInt x * 10 + (digitChar d : ℕ) - 48) = cInt (x * 10 + d) := by
      rw [digitChar_lt hd]
      push_cast
      simp only [cInt_least hleast]
      split_ifs <;> omega
    rw [List.map_cons, widthOf, List.foldl_cons, hstep]
    exact ih (fun d hd => hds d (List.mem_cons_of_mem _ hd)) (by omega)

theorem decWidth_least (n : ℕ) : decWidth n (-2 ^ 31) = -2 ^ 31 := by
  induction n with
  | zero => rfl
  | succ n ih => rw [decWidth, cInt_least hleast, if_neg (by omega), ih]

/-- Such a field is not padded. -/
theorem fmtOutput_ne_field_of_le (flag : PadFlag) {w : ℕ} (hle : 2 ^ 31 ≤ w) (n : NumArg)
    (conv : NumConv) : fmtOutput (numFmt flag (some w) n conv) [n.arg] ≠
      .ok (field flag w (conv.sign n) (conv.digits n)) := by
  have hD := conv.length_digits_le n
  have hwidth : fieldWidth (some w) = -2 ^ 31 := by
    have hread :=
      widthOf_least hleast (lt_of_mem_digitsOf (show 1 < 10 by decide) w) (Int.le_refl 0)
    rw [valueOf_digitsOf (by decide), cInt_eq (by omega) (by omega), cInt_least hleast w,
      if_neg (by omega)] at hread
    exact hread
  have hpad : padding conv.base (conv.abs n) (-2 ^ 31) = 0 := by
    rw [padding, decWidth_least hleast]
    rfl
  rw [fmtOutput_numFmt flag (fun k hk => Option.some.inj hk ▸ by omega), hwidth, hpad, Ne,
    Except.ok.injEq]
  intro heq
  have hsign : (conv.sign n).length ≤ 1 := by
    rw [NumConv.sign]
    split <;> simp
  have hlen := congrArg List.length heq
  rw [length_field] at hlen
  simp only [List.length_append, List.length_replicate] at hlen
  omega

end Least

/-- **Which fields have the width that was asked for.**  Let a number have `D` digits.  A field of
the width `w` is printed as it is meant to be, whatever overflow gives, exactly if `w ≤ D`, so that
there is nothing to pad, or if there is no flag `-`, the number is not negative, and `w` is an
`int`. -/
theorem fmtOutput_eq_field_iff (flag : PadFlag) (w : ℕ) (hw : 1 ≤ w) (n : NumArg) (conv : NumConv) :
    (∀ [Overflow], fmtOutput (numFmt flag (some w) n conv) [n.arg] =
        .ok (field flag w (conv.sign n) (conv.digits n))) ↔
      w ≤ (conv.digits n).length ∨ flag ≠ .minus ∧ ¬ conv.Neg n ∧ w < 2 ^ 31 := by
  have hD := conv.length_digits_le n
  by_cases hlt : w < 2 ^ 31
  · have hsmall := fun o : Overflow => @fmtOutput_eq_field_of_lt o flag w hw hlt n conv
    simp only [hlt, and_true]
    constructor
    · intro h
      exact (hsmall .wrapping).1 (@h .wrapping)
    · intro h o
      exact (hsmall o).2 h
  · refine iff_of_false (fun h => ?_) fun h => ?_
    · let _ : Overflow := ⟨fun _ => BitVec.intMin 32⟩
      exact fmtOutput_ne_field_of_le (fun _ => rfl) flag (Nat.le_of_not_gt hlt) n conv h
    · rcases h with hle | h
      · omega
      · exact hlt h.2.2

/-- `%05d` and 42. -/
theorem fmtOutput_eq_field_iff_zero :
    @fmtOutput .wrapping (numFmt .zero (some 5) (.int 42#32) .d) [.int 42#32] =
      .ok [48, 48, 48, 52, 50] := by
  have hfield := @(fmtOutput_eq_field_iff .zero 5 (by decide) (.int 42#32) .d).2
    (.inr ⟨by decide, by decide, by decide⟩) .wrapping
  exact hfield.trans (by decide +kernel)

/-- `%5d` and -42: the sign comes before the blanks, and there are six characters. -/
theorem fmtOutput_ne_field :
    (∀ [Overflow], fmtOutput (numFmt .none (some 5) (.int (-42#32)) .d) [.int (-42#32)] =
        .ok [45, 32, 32, 32, 52, 50]) ∧
      field .none 5 (NumConv.d.sign (.int (-42#32))) (NumConv.d.digits (.int (-42#32))) =
        [32, 32, 45, 52, 50] ∧
      ¬ ∀ (flag : PadFlag) (w : ℕ) (n : NumArg) (conv : NumConv), 1 ≤ w →
        ∀ [Overflow], fmtOutput (numFmt flag (some w) n conv) [n.arg] =
          .ok (field flag w (conv.sign n) (conv.digits n)) := by
  have hprint : ∀ [Overflow], fmtOutput (numFmt .none (some 5) (.int (-42#32)) .d) [.int (-42#32)] =
      .ok [45, 32, 32, 32, 52, 50] := rfl
  refine ⟨hprint, by decide +kernel, fun h => ?_⟩
  have hfield := @h .none 5 (.int (-42#32)) .d (by decide) .wrapping
  exact absurd ((@hprint .wrapping).symm.trans hfield) (by decide +kernel)

end Ucore
