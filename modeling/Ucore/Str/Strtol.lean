import Mathlib.Data.List.TakeWhile
import Ucore.Fmt.Number

/-!
# What `strtol` accepts

`Strtol` says how a string is read: blanks, a sign, a prefix, and the longest run of digits that are
valid in the base.  `strtol` reads it in the same way but for one case, the prefix `0X` with a
capital letter: only `0x` is tested, so there `strtol` stops at the `X` (`strtol_eq_iff`).

The grammar is given by the parts of a string, each with what comes behind it: `afterBlanks`,
`signOf` and `afterSign`, `prefixOf` and `afterPrefix`, `digitRun`.  `strtolSpec` puts them
together. For each part there is a lemma that the code finds the same:

* `strtolDigit_eq` — the code computes the value of a digit from ranges of characters, the grammar
  looks it up in an alphabet;
* `strtolDigits_eq` — the loop takes the longest run;
* `basePrefix_eq` — the prefix, unless it is `0X`, and `basePrefix_capital` if it is;
* `strtol_eq` — the whole function, by its parts.

For the other direction of the equivalence it has to be seen that the two differ in the case of
`0X`: they end at different places (`strtol_ne_spec`).
-/

set_option autoImplicit false

namespace Ucore

/-! ## The grammar -/

/-- The digits and letters, in the order of their values. -/
def alphabet : List ℕ := "0123456789abcdefghijklmnopqrstuvwxyz".toList.map Char.toNat

/-- The capital letters, which have the same values. -/
def capitals : List ℕ := "ABCDEFGHIJKLMNOPQRSTUVWXYZ".toList.map Char.toNat

/-- The value of a digit or a letter. -/
def digitValue (c : ℕ) : Option ℕ := alphabet.idxOf? c <|> (capitals.idxOf? c).map (· + 10)

/-- A digit or a letter that is valid in a base. -/
def validIn (base c : ℕ) : Bool := (digitValue c).any (· < base)

/-- A blank. -/
def isBlank (c : ℕ) : Bool := c == 32 || c == 9

/-- The sign at the beginning of a string. -/
def signOf (s : List ℕ) : List ℕ := if s.head? = some 43 ∨ s.head? = some 45 then s.take 1 else []

/-- The prefix at the beginning of a string, and the base that it selects. -/
def prefixOf (base : ℕ) (s : List ℕ) : List ℕ × ℕ :=
  if (base = 0 ∨ base = 16) ∧ (s.take 2 = [48, 120] ∨ s.take 2 = [48, 88]) then (s.take 2, 16)
  else if base = 0 ∧ s.take 1 = [48] then (s.take 1, 8)
  else ([], if base = 0 then 10 else base)

/-- What comes behind the blanks. -/
def afterBlanks (s : List ℕ) : List ℕ := s.dropWhile isBlank

/-- What comes behind the blanks and the sign. -/
def afterSign (s : List ℕ) : List ℕ := (afterBlanks s).drop (signOf (afterBlanks s)).length

/-- What comes behind the prefix. -/
def afterPrefix (base : ℕ) (s : List ℕ) : List ℕ :=
  (afterSign s).drop (prefixOf base (afterSign s)).1.length

/-- The run of digits. -/
def digitRun (base : ℕ) (s : List ℕ) : List ℕ :=
  (afterPrefix base s).takeWhile (validIn (prefixOf base (afterSign s)).2)

/-- The value of a string, and where its run of digits ends. -/
def strtolSpec (s : List ℕ) (base : ℕ) : ℤ × ℕ :=
  let v := valueOf (prefixOf base (afterSign s)).2 0
    ((digitRun base s).map fun c => (digitValue c).getD 0)
  (toInt32 (if signOf (afterBlanks s) = [45] then -v else v),
    (s.takeWhile isBlank).length + (signOf (afterBlanks s)).length +
      (prefixOf base (afterSign s)).1.length + (digitRun base s).length)

/-! ## The loops -/

theorem skipBlanks_eq (s : List ℕ) : skipBlanks s = afterBlanks s := by
  induction s with
  | nil => rfl
  | cons c s ih =>
    rw [skipBlanks, afterBlanks, List.dropWhile_cons, ih, afterBlanks]
    refine if_congr ?_ rfl rfl
    simp [isBlank]

theorem skipSign_eq (s : List ℕ) :
    skipSign s = (decide (signOf s = [45]), s.drop (signOf s).length) := by
  cases s with
  | nil => rfl
  | cons c s =>
    by_cases h43 : c = 43
    · subst h43
      rfl
    · by_cases h45 : c = 45
      · subst h45
        rfl
      · simp [skipSign, signOf, h43, h45]

/-- The code and the alphabet agree about the value of a digit. -/
theorem strtolDigit_eq (c : ℕ) : strtolDigit c = digitValue c := by
  by_cases hc : c < 128
  · have h : ∀ c : Fin 128, strtolDigit c = digitValue c := by decide +kernel
    exact h ⟨c, hc⟩
  · have hlower : c ∉ alphabet := fun h =>
      hc ((by decide +kernel : ∀ a ∈ alphabet, a < 128) c h)
    have hupper : c ∉ capitals := fun h =>
      hc ((by decide +kernel : ∀ a ∈ capitals, a < 128) c h)
    rw [digitValue, List.idxOf?_eq_none_iff.2 hlower, List.idxOf?_eq_none_iff.2 hupper, strtolDigit,
      if_neg (by omega), if_neg (by omega), if_neg (by omega)]
    rfl

/-- The loop over the digits takes the longest run of them. -/
theorem strtolDigits_eq (base : ℕ) (s : List ℕ) (x : ℤ) :
    strtolDigits base (toInt32 x) s =
      (toInt32 (valueOf base x ((s.takeWhile (validIn base)).map fun c => (digitValue c).getD 0)),
        s.dropWhile (validIn base)) := by
  induction s generalizing x with
  | nil => rfl
  | cons c s ih =>
    rw [strtolDigits, strtolDigit_eq]
    cases hv : digitValue c with
    | none =>
      have hvalid : validIn base c = false := by rw [validIn, hv]; rfl
      rw [List.takeWhile_cons, List.dropWhile_cons, hvalid]
      rfl
    | some d =>
      have hvalid : validIn base c = decide (d < base) := by rw [validIn, hv]; rfl
      rw [List.takeWhile_cons, List.dropWhile_cons, hvalid]
      by_cases hd : d < base
      · simp only [hd, decide_true, if_true, List.map_cons, hv, Option.getD_some, ge_iff_le,
          Nat.not_le.2 hd, if_false]
        rw [toInt32_mul_add, ih]
        rfl
      · simp only [hd, decide_false, Bool.false_eq_true, if_false, ge_iff_le, Nat.not_lt.1 hd,
          if_true]
        rfl

/-! ## The prefix -/

/-- The string has the prefix `0X`, where the base allows it. -/
def CapitalPrefix (s : List ℕ) (base : ℕ) : Prop :=
  (base = 0 ∨ base = 16) ∧ (afterSign s).take 2 = [48, 88]

instance (s : List ℕ) (base : ℕ) : Decidable (CapitalPrefix s base) :=
  inferInstanceAs (Decidable (_ ∧ _))

theorem take_two_eq (s : List ℕ) (a b : ℕ) (hb : b ≠ 0) :
    s.take 2 = [a, b] ↔ charAt s 0 = a ∧ charAt s 1 = b := by
  match s with
  | [] => simp [charAt, hb.symm]
  | [c] => simp [charAt, hb.symm]
  | c :: d :: s => simp [charAt]

theorem take_one_eq (s : List ℕ) (a : ℕ) (ha : a ≠ 0) : s.take 1 = [a] ↔ charAt s 0 = a := by
  cases s with
  | nil => simp [charAt, ha.symm]
  | cons c s => simp [charAt]

/-- The code finds the prefix, unless it is `0X`. -/
theorem basePrefix_eq {s : List ℕ} {base : ℕ} (h : ¬ CapitalPrefix s base) :
    basePrefix base (afterSign s) =
      ((prefixOf base (afterSign s)).2, afterPrefix base s) := by
  rw [CapitalPrefix] at h
  have hzero := take_one_eq (afterSign s) 48 (by decide)
  have htwo := take_two_eq (afterSign s) 48 120 (by decide)
  simp only [basePrefix, ← htwo]
  simp only [afterPrefix, prefixOf, ← hzero]
  by_cases hx : (base = 0 ∨ base = 16) ∧ (afterSign s).take 2 = [48, 120]
  · rw [if_pos hx, if_pos ⟨hx.1, .inl hx.2⟩, hx.2]
    rfl
  · have hX : ¬ ((base = 0 ∨ base = 16) ∧
        ((afterSign s).take 2 = [48, 120] ∨ (afterSign s).take 2 = [48, 88])) := by
      rintro ⟨hb, hx' | hx'⟩
      · exact hx ⟨hb, hx'⟩
      · exact h ⟨hb, hx'⟩
    rw [if_neg hx, if_neg hX]
    by_cases h0 : base = 0 ∧ (afterSign s).take 1 = [48]
    · rw [if_pos h0, if_pos h0, h0.2]
      rfl
    · rw [if_neg h0, if_neg h0]
      by_cases hb : base = 0
      · rw [if_pos hb, if_pos hb]
        rfl
      · rw [if_neg hb, if_neg hb]
        rfl

/-- With the prefix `0X` the code takes the `0` and stops. -/
theorem basePrefix_capital {s : List ℕ} {base : ℕ} (h : CapitalPrefix s base) :
    ∃ rest, (strtolDigits (basePrefix base (afterSign s)).1 0 (basePrefix base (afterSign s)).2).2 =
        88 :: rest ∧ afterSign s = 48 :: 88 :: rest := by
  obtain ⟨hb, htake⟩ := h
  obtain ⟨rest, hrest⟩ : ∃ rest, afterSign s = 48 :: 88 :: rest :=
    ⟨(afterSign s).drop 2, by rw [← List.take_append_drop 2 (afterSign s), htake]; rfl⟩
  refine ⟨rest, ?_, hrest⟩
  rw [hrest]
  rcases hb with rfl | rfl <;> rfl

/-! ## The whole function -/

theorem length_afterBlanks (s : List ℕ) :
    s.length = (s.takeWhile isBlank).length + (afterBlanks s).length := by
  rw [afterBlanks, ← List.length_append, List.takeWhile_append_dropWhile]

theorem length_signOf_le (s : List ℕ) : (signOf s).length ≤ s.length := by
  rw [signOf]
  split
  · exact List.length_take_le' _ _
  · exact Nat.zero_le _

theorem length_afterSign (s : List ℕ) :
    (afterBlanks s).length = (signOf (afterBlanks s)).length + (afterSign s).length := by
  have h := length_signOf_le (afterBlanks s)
  rw [afterSign, List.length_drop]
  omega

theorem length_prefixOf_le (base : ℕ) (s : List ℕ) : (prefixOf base s).1.length ≤ s.length := by
  rw [prefixOf]
  split
  · exact List.length_take_le' _ _
  · split
    · exact List.length_take_le' _ _
    · exact Nat.zero_le _

theorem length_afterPrefix (base : ℕ) (s : List ℕ) : (afterSign s).length =
    (prefixOf base (afterSign s)).1.length + (afterPrefix base s).length := by
  have h := length_prefixOf_le base (afterSign s)
  rw [afterPrefix, List.length_drop]
  omega

theorem toInt32_neg (x : ℤ) : toInt32 (-toInt32 x) = toInt32 (-x) := by
  simp only [toInt32]
  omega

/-- `strtol`, by its parts. -/
theorem strtol_eq (s : List ℕ) (base : ℕ) :
    strtol s base =
      let r := strtolDigits (basePrefix base (afterSign s)).1 0 (basePrefix base (afterSign s)).2
      (if signOf (afterBlanks s) = [45] then toInt32 (-r.1) else r.1, s.length - r.2.length) := by
  simp only [strtol, skipBlanks_eq, skipSign_eq, decide_eq_true_eq]
  rfl

theorem strtol_eq_spec {s : List ℕ} {base : ℕ} (hcap : ¬ CapitalPrefix s base) :
    strtol s base = strtolSpec s base := by
  have hblanks := length_afterBlanks s
  have hsign := length_afterSign s
  have hprefix := length_afterPrefix base s
  have hzero : toInt32 0 = 0 := toInt32_eq (by omega) (by omega)
  have hdigits := strtolDigits_eq (prefixOf base (afterSign s)).2 (afterPrefix base s) 0
  have hrun : (afterPrefix base s).length = (digitRun base s).length +
      ((afterPrefix base s).dropWhile (validIn (prefixOf base (afterSign s)).2)).length := by
    rw [digitRun, ← List.length_append, List.takeWhile_append_dropWhile]
  rw [hzero] at hdigits
  rw [strtol_eq, basePrefix_eq hcap]
  simp only [hdigits]
  refine Prod.ext ?_ ?_
  · simp only [strtolSpec]
    split
    · exact toInt32_neg _
    · rfl
  · simp only [strtolSpec]
    omega

/-- The code stops in front of the `X`, the grammar goes on behind it. -/
theorem strtol_ne_spec {s : List ℕ} {base : ℕ} (hcap : CapitalPrefix s base) :
    strtol s base ≠ strtolSpec s base := by
  intro heq
  have hblanks := length_afterBlanks s
  have hsign := length_afterSign s
  obtain ⟨rest, hrest, hafter⟩ := basePrefix_capital hcap
  have hpre : (prefixOf base (afterSign s)).1.length = 2 := by
    rw [prefixOf, if_pos ⟨hcap.1, .inr hcap.2⟩, hcap.2]
    rfl
  have hend := congrArg Prod.snd heq
  rw [strtol_eq] at hend
  simp only [hrest, strtolSpec, List.length_cons] at hend
  rw [hafter, List.length_cons, List.length_cons] at hsign
  omega

/-- **`strtol` reads what the grammar says, unless there is a prefix `0X`** in the base 0 or 16. -/
theorem strtol_eq_iff (s : List ℕ) (base : ℕ) :
    strtol s base = strtolSpec s base ↔ ¬ CapitalPrefix s base :=
  ⟨fun heq hcap => strtol_ne_spec hcap heq, strtol_eq_spec⟩

/-- `0X1F` in the base 16: the grammar gives 31, the code stops behind the `0`. -/
theorem strtol_capital :
    strtol [48, 88, 49, 70] 16 = (0, 1) ∧ strtolSpec [48, 88, 49, 70] 16 = (31, 4) ∧
      ¬ ∀ (s : List ℕ) (base : ℕ), base = 0 ∨ 2 ≤ base ∧ base ≤ 36 →
        strtol s base = strtolSpec s base := by
  refine ⟨by decide +kernel, by decide +kernel, fun h => ?_⟩
  exact absurd (h [48, 88, 49, 70] 16 (by decide)) (by decide +kernel)

end Ucore
