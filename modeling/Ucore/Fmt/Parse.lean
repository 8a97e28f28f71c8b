import Ucore.Fmt.Field
import Ucore.Str.Strtol

/-!
# Parsing undoes printing

The digits that `printnum` prints are digits for `strtol`, with the same values, and leading zeros
add nothing to the value, so whatever is printed with the padding `0` or without padding is read
back (`strtol_digits`).  The prefix test of `strtol` finds nothing in it, since no digit is an `x`.

* `digitValue_digitChar` — a digit that was printed has its value again, in any base up to 16.
* `takeWhile_digits` and `map_digitValue` — so all of a numeral is read.
* `strtol_hex` — the same with `0x` in front, for the base 0.
* `fmtString_zeroFmt` — what the formats print, by `fmtOutput_numFmt` of `Ucore.Fmt.Field`.
* `strtol_zeroFmt` — the value is that of the digits modulo `2 ^ 32`, so the number comes back for
  the conversions without a sign, too.
* `strtol_printed` — the result, for every width.
-/

set_option autoImplicit false

namespace Ucore

/-- What `strtol` makes of a digit that was printed. -/
theorem digitValue_digitChar {d : ℕ} (hd : d < 16) : digitValue (digitChar d) = some d := by
  have h : ∀ d : Fin 16, digitValue (digitChar d) = some d.val := by decide +kernel
  exact h ⟨d, hd⟩

/-- No digit is a blank, a sign, or part of a prefix. -/
theorem digitChar_ne {d : ℕ} (hd : d < 16) :
    isBlank (digitChar d) = false ∧ digitChar d ≠ 43 ∧ digitChar d ≠ 45 ∧ digitChar d ≠ 88 ∧
      digitChar d ≠ 120 := by
  have h : ∀ d : Fin 16, isBlank (digitChar d) = false ∧ digitChar d ≠ 43 ∧ digitChar d ≠ 45 ∧
      digitChar d ≠ 88 ∧ digitChar d ≠ 120 := by decide +kernel
  exact h ⟨d, hd⟩

section Digits

variable {base : ℕ} (hbase : base ≤ 16) {ds : List ℕ} (hds : ∀ d ∈ ds, d < base)

include hbase hds

/-- All of the digits are read. -/
theorem takeWhile_digits : (ds.map digitChar).takeWhile (validIn base) = ds.map digitChar := by
  refine List.takeWhile_eq_self_iff.2 fun c hc => ?_
  obtain ⟨d, hd, rfl⟩ := List.mem_map.1 hc
  have hlt := hds d hd
  rw [validIn, digitValue_digitChar (by omega)]
  exact decide_eq_true hlt

/-- And each of them has its value. -/
theorem map_digitValue : ((ds.map digitChar).map fun c => (digitValue c).getD 0) = ds := by
  have hid : ds.map (fun d => (digitValue (digitChar d)).getD 0) = ds.map id := by
    refine List.map_congr_left fun d hd => ?_
    have hlt := hds d hd
    rw [digitValue_digitChar (by omega)]
    rfl
  rw [List.map_map]
  exact hid.trans (List.map_id ds)

/-- No prefix is found among digits. -/
theorem prefixOf_digits (hpos : base ≠ 0) : prefixOf base (ds.map digitChar) = ([], base) := by
  have hx : ∀ c : ℕ, c = 120 ∨ c = 88 → (ds.map digitChar).take 2 ≠ [48, c] := by
    intro c hc htake
    have hmem : c ∈ ds.map digitChar := by
      refine List.mem_of_mem_take (i := 2) ?_
      rw [htake]
      simp
    obtain ⟨d, hd, hdc⟩ := List.mem_map.1 hmem
    have hlt := hds d hd
    have hne := digitChar_ne (show d < 16 by omega)
    rw [hdc] at hne
    rcases hc with rfl | rfl
    · exact hne.2.2.2.2 rfl
    · exact hne.2.2.2.1 rfl
  rw [prefixOf, if_neg (fun h => h.2.elim (hx 120 (.inl rfl)) (hx 88 (.inr rfl))),
    if_neg (fun h => hpos h.1), if_neg hpos]

omit hbase hds in
/-- What comes behind the blanks and the sign, if there are digits. -/
theorem afterSign_digits (neg : Bool) (rest : List ℕ) {c : ℕ} (hblank : isBlank c = false)
    (hplus : c ≠ 43) (hminus : c ≠ 45) :
    let s := (if neg then [45] else []) ++ c :: rest
    afterBlanks s = s ∧ s.takeWhile isBlank = [] ∧ (signOf s = [45] ↔ neg = true) ∧
      (signOf s).length = (if neg then [45] else [] : List ℕ).length ∧ afterSign s = c :: rest := by
  cases neg with
  | true => exact ⟨rfl, rfl, ⟨fun _ => rfl, fun _ => rfl⟩, rfl, rfl⟩
  | false =>
    have hafter : afterBlanks (c :: rest) = c :: rest := by
      rw [afterBlanks, List.dropWhile_cons, hblank]
      rfl
    have hsign : signOf (c :: rest) = [] := by
      rw [signOf, if_neg]
      simp [hplus, hminus]
    refine ⟨hafter, ?_, ?_, ?_, ?_⟩
    · rw [if_neg Bool.false_ne_true, List.nil_append, List.takeWhile_cons, hblank]
      rfl
    · rw [if_neg Bool.false_ne_true, List.nil_append, hsign]
      simp
    · rw [if_neg Bool.false_ne_true, List.nil_append, hsign]
    · rw [if_neg Bool.false_ne_true, List.nil_append, afterSign, hafter, hsign]
      rfl

/-- **Digits are read back**, with a sign in front of them or without. -/
theorem strtol_digits (hpos : base ≠ 0) (neg : Bool) (hne : ds ≠ []) :
    strtol ((if neg then [45] else []) ++ ds.map digitChar) base =
      (toInt32 (if neg then -valueOf base 0 ds else valueOf base 0 ds),
        ((if neg then [45] else []) ++ ds.map digitChar).length) := by
  obtain ⟨d, rest, rfl⟩ := List.exists_cons_of_ne_nil hne
  have hd : d < 16 := Nat.lt_of_lt_of_le (hds d List.mem_cons_self) hbase
  have hchar := digitChar_ne hd
  obtain ⟨hblanks, hnone, hsign, hlen, hafter⟩ := afterSign_digits neg
    (rest.map digitChar) hchar.1 hchar.2.1 hchar.2.2.1
  rw [← List.map_cons] at hblanks hnone hsign hlen hafter
  generalize hs : (if neg then [45] else []) ++ (d :: rest).map digitChar = s at *
  have hprefix := prefixOf_digits hbase hds hpos
  have hrun : digitRun base s = (d :: rest).map digitChar := by
    rw [digitRun, afterPrefix, hafter, hprefix]
    exact takeWhile_digits hbase hds
  have hcap : ¬ CapitalPrefix s base := by
    rintro ⟨hb, htake⟩
    rw [hafter] at htake
    have := congrArg Prod.fst hprefix
    rw [prefixOf, if_pos ⟨hb, .inr htake⟩, htake] at this
    cases this
  rw [strtol_eq_spec hcap, strtolSpec, hrun, hafter, hprefix, map_digitValue hbase hds, hblanks,
    hnone, hlen]
  refine Prod.ext (congrArg toInt32 (if_congr hsign rfl rfl)) ?_
  rw [← hs, List.length_append, List.length_nil, Nat.zero_add, Nat.add_zero]

omit hbase hds in
/-- Digits of the base 16 are read back in the base 0, too, if there is `0x` in front of them. -/
theorem strtol_hex (hds : ∀ d ∈ ds, d < 16) :
    strtol (48 :: 120 :: ds.map digitChar) 0 = (toInt32 (valueOf 16 0 ds), ds.length + 2) := by
  obtain ⟨hblanks, hnone, hsign, -, hafter⟩ := afterSign_digits false
    (120 :: ds.map digitChar) (c := 48) rfl (by decide) (by decide)
  rw [if_neg Bool.false_ne_true, List.nil_append] at hblanks hnone hsign hafter
  generalize hs : 48 :: 120 :: ds.map digitChar = s at *
  have hprefix : prefixOf 0 s = ([48, 120], 16) := by
    rw [← hs]
    rfl
  have hrun : digitRun 0 s = ds.map digitChar := by
    rw [digitRun, afterPrefix, hafter, hprefix, ← hs]
    exact takeWhile_digits (Nat.le_refl 16) hds
  have hcap : ¬ CapitalPrefix s 0 := by
    rintro ⟨-, htake⟩
    rw [hafter, ← hs] at htake
    cases htake
  have hpos : signOf s ≠ [45] := fun h => Bool.false_ne_true (hsign.1 h)
  have hsign0 : signOf s = [] := by
    rw [← hs]
    rfl
  rw [strtol_eq_spec hcap, strtolSpec, hrun, hafter, hprefix, map_digitValue (Nat.le_refl 16) hds,
    hblanks, hnone, if_neg hpos, hsign0]
  refine Prod.ext rfl ?_
  simp only [List.length_map, List.length_nil, List.length_cons]
  omega

end Digits

/-! ## What was printed -/

/-- The output of the formatter as a string. -/
def fmtString [Overflow] (fmt : List ℕ) (ap : List Arg) : Res (List ℕ) :=
  (fmtOutput fmt ap).map (List.map Int.toNat)

/-- The format for a `long` without a width, or with a width that is filled with zeros. -/
def zeroFmt (w : Option ℕ) (v : BitVec 32) (conv : NumConv) : List ℕ :=
  numFmt (if w.isSome then .zero else .none) w (.long v) conv

theorem valueOf_append (base : ℕ) (x : ℤ) (ds ds' : List ℕ) :
    valueOf base x (ds ++ ds') = valueOf base (valueOf base x ds) ds' := by
  rw [valueOf, valueOf, valueOf, List.foldl_append]

/-- Zeros in front do not change the value. -/
theorem valueOf_replicate_zero (base k : ℕ) : valueOf base 0 (List.replicate k 0) = 0 := by
  induction k with
  | zero => rfl
  | succ k ih =>
    rw [List.replicate_succ, valueOf, List.foldl_cons]
    simpa [valueOf] using ih

theorem map_toNat_numeral (base num : ℕ) :
    (numeral base num).map Int.toNat = (digitsOf base num).map digitChar := by
  rw [numeral, List.map_map]
  rfl

theorem map_toNat_sign (conv : NumConv) (n : NumArg) :
    (conv.sign n).map Int.toNat = if decide (conv.Neg n) then [45] else [] := by
  rw [NumConv.sign]
  by_cases h : conv.Neg n
  · rw [if_pos h, if_pos (decide_eq_true h)]
    rfl
  · rw [if_neg h, if_neg (by simpa using h)]
    rfl

/-- **What the formats print**: a sign, zeros, and the digits. -/
theorem fmtString_zeroFmt [Overflow] {w : Option ℕ} (hw : ∀ k ∈ w, 0 < k) (v : BitVec 32)
    (conv : NumConv) :
    ∃ k, fmtString (zeroFmt w v conv) [.int v] = .ok
      ((if decide (conv.Neg (.long v)) then [45] else []) ++
        (List.replicate k 0 ++ digitsOf conv.base (conv.abs (.long v))).map digitChar) := by
  have hout := fmtOutput_numFmt (if w.isSome then .zero else .none) hw (.long v) conv
  rw [fmtString, zeroFmt]
  change fmtOutput (numFmt _ w (.long v) conv) [.int v] = _ at hout
  rw [hout]
  cases w with
  | none =>
    have hlen := conv.length_digits_le (.long v)
    have hpad : padding conv.base (conv.abs (.long v)) (fieldWidth none) = 0 := by
      rw [NumConv.digits, length_numeral] at hlen
      rw [fieldWidth_none, padding_eq (by omega) (by omega)]
      omega
    refine ⟨0, congrArg Except.ok ?_⟩
    rw [hpad, List.map_append, map_toNat_sign,
      List.replicate_zero, List.replicate_zero, List.nil_append, List.nil_append, NumConv.digits,
      map_toNat_numeral]
  | some w =>
    refine ⟨padding conv.base (conv.abs (.long v)) (fieldWidth (some w)), congrArg Except.ok ?_⟩
    have hpadc : (if (some w).isSome then PadFlag.zero else PadFlag.none).padc.toNat =
        digitChar 0 := rfl
    rw [List.map_append, List.map_append, map_toNat_sign,
      NumConv.digits, map_toNat_numeral, List.map_append, List.map_replicate, List.map_replicate,
      hpadc]

section Padded

variable {base : ℕ} (hbase : 1 < base) (k num : ℕ)

include hbase

/-- Zeros and the digits of a number stand for the number. -/
theorem valueOf_padded : valueOf base 0 (List.replicate k 0 ++ digitsOf base num) = num := by
  rw [valueOf_append, valueOf_replicate_zero, valueOf_digitsOf hbase]

theorem lt_of_mem_padded : ∀ d ∈ List.replicate k 0 ++ digitsOf base num, d < base := by
  intro d hd
  rcases List.mem_append.1 hd with hd | hd
  · rw [List.eq_of_mem_replicate hd]
    omega
  · exact lt_of_mem_digitsOf hbase num d hd

end Padded

/-- A number is read back in the base in which it was printed. -/
theorem strtol_zeroFmt [Overflow] {w : Option ℕ} (hw : ∀ k ∈ w, 0 < k) (v : BitVec 32)
    (conv : NumConv) :
    ∃ s, fmtString (zeroFmt w v conv) [.int v] = .ok s ∧ strtol s conv.base =
      (toInt32 (if conv.Neg (.long v) then -(conv.abs (.long v) : ℤ) else conv.abs (.long v)),
        s.length) := by
  obtain ⟨k, hout⟩ := fmtString_zeroFmt hw v conv
  refine ⟨_, hout, ?_⟩
  have hle : conv.base ≤ 16 := by cases conv <;> decide
  have hne : List.replicate k 0 ++ digitsOf conv.base (conv.abs (.long v)) ≠ [] := by
    rw [digitsOf, ← List.append_assoc]
    exact List.append_ne_nil_of_right_ne_nil _ (List.cons_ne_nil _ _)
  have hlt := lt_of_mem_padded conv.one_lt_base k (conv.abs (.long v))
  have hpos : conv.base ≠ 0 := by cases conv <;> decide
  rw [strtol_digits hle hlt hpos _ hne, valueOf_padded conv.one_lt_base]
  refine Prod.ext (congrArg toInt32 ?_) rfl
  exact if_congr decide_eq_true_iff rfl rfl

/-- **Parsing undoes printing.**  A `long` that was printed with `%ld`, `%lu`, `%lo` or `%lx`,
without a width or with a width that is filled with zeros, is read back by `strtol` up to the end,
modulo `2 ^ 32`; and so is `0x` with the output of `%lx` behind it in the base 0. -/
theorem strtol_printed [Overflow] (v : BitVec 32) (w : Option ℕ) (hw : ∀ k ∈ w, 0 < k) :
    (∃ s, fmtString (zeroFmt w v .d) [.int v] = .ok s ∧ strtol s 10 = (v.toInt, s.length)) ∧
    (∀ conv, conv ≠ .d → ∃ s, fmtString (zeroFmt w v conv) [.int v] = .ok s ∧
      strtol s conv.base = (toInt32 v.toNat, s.length)) ∧
    ∃ s, fmtString (zeroFmt w v .x) [.int v] = .ok s ∧
      strtol (48 :: 120 :: s) 0 = (toInt32 v.toNat, s.length + 2) := by
  refine ⟨?_, fun conv hconv => ?_, ?_⟩
  · obtain ⟨s, hout, hread⟩ := strtol_zeroFmt hw v .d
    have hval : (if NumConv.d.Neg (.long v) then -(NumConv.d.abs (.long v) : ℤ)
        else NumConv.d.abs (.long v)) = v.toInt := by
      change (if NumConv.d = .d ∧ v.toInt < 0 then -(v.toInt.natAbs : ℤ) else v.toInt.natAbs) =
        v.toInt
      split
      · omega
      · next h => exact Int.natAbs_of_nonneg (by simpa using h)
    have hrange : toInt32 v.toInt = v.toInt := toInt32_eq v.le_toInt v.toInt_lt
    rw [hval, hrange] at hread
    exact ⟨s, hout, hread⟩
  · obtain ⟨s, hout, hread⟩ := strtol_zeroFmt hw v conv
    have habs : conv.abs (.long v) = v.toNat := if_neg hconv
    rw [if_neg (fun h => hconv h.1), habs] at hread
    exact ⟨s, hout, hread⟩
  · obtain ⟨k, hout⟩ := fmtString_zeroFmt hw v .x
    refine ⟨_, hout, ?_⟩
    have hlt := lt_of_mem_padded (show 1 < 16 by decide) k v.toNat
    have hread := strtol_hex hlt
    have hsign : (if decide (NumConv.x.Neg (.long v)) then [45] else []) = ([] : List ℕ) :=
      if_neg fun h => NumConv.noConfusion (of_decide_eq_true h).1
    rw [valueOf_padded (by decide)] at hread
    rw [hsign, List.nil_append, List.length_map]
    exact hread

/-- The most negative number, with `%012ld`. -/
theorem strtol_printed_min : letI := Overflow.wrapping
    ∃ s, fmtString (zeroFmt (some 12) 0x80000000#32 .d) [.int 0x80000000#32] = .ok s ∧
      strtol s 10 = (-2147483648, s.length) :=
  (@strtol_printed .wrapping 0x80000000#32 (some 12) (by simp)).1

end Ucore
