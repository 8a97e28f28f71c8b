import Mathlib.Data.List.Induction
import Ucore.Fmt.Number

/-!
# Reading a format

`FmtAt fmt i l` says that at the position `i` of a format there is `l`, up to its end.  What the
loops do that read the format is said in terms of it, so that no proof about the formatter has to
compute with positions.

## The loops

The formatter has three loops that read the format, one inside of the other.

* `readWidth_eq` — the digits of a width.  All of them are taken, and the width is `widthOf` of
  them, with the arithmetic on `int` that `Overflow` leaves open.
* The flags behind a `%` are read until there is a character that is none.  There is a lemma for
  each way in which this loop may go on: `reswitch_flag` for a flag that is one character,
  `reswitch_width` for the digits of a width, `reswitch_star` for a `*`, which takes an argument,
  and `reswitch_end` for the character that is no flag.
* `fmtRound` is a round of the main loop, and `fmtLoop_succ` says that the loop is one round after
  the other.  A round has one of three forms: the format is at its end (`fmtRound_nil`), there is a
  character that is printed as it is (`fmtRound_text`), or an escape sequence (`fmtRound_escape`).

A character behind the flags that is no conversion makes the code go back in the format, by a loop
that looks for a `%` from behind.  `rewind_eq` says that it ends at the last `%`, and so it does not
matter how far the flags have been read.
-/

set_option autoImplicit false

namespace Ucore

/-- What a format has from a position on. -/
structure FmtAt (fmt : List ℕ) (i : ℕ) (l : List ℕ) : Prop where
  le : i ≤ fmt.length
  drop : fmt.drop i = l

namespace FmtAt

variable {fmt : List ℕ} {i c : ℕ} {l m : List ℕ}

theorem zero (fmt : List ℕ) : FmtAt fmt 0 fmt := ⟨Nat.zero_le _, rfl⟩

/-- Reading gives the first character, or the `NUL`. -/
theorem fetch (h : FmtAt fmt i l) : Ucore.fetch fmt i = .ok (charAt l 0) := by
  rw [Ucore.fetch, if_pos h.le, ← h.drop, charAt, charAt, List.getD_eq_getElem?_getD,
    List.getD_eq_getElem?_getD, List.getElem?_drop, Nat.add_zero]

theorem lt (h : FmtAt fmt i (c :: l)) : i < fmt.length := by
  by_contra hge
  have hdrop := h.drop
  rw [List.drop_eq_nil_of_le (by omega)] at hdrop
  cases hdrop

theorem succ (h : FmtAt fmt i (c :: l)) : FmtAt fmt (i + 1) l := by
  refine ⟨h.lt, ?_⟩
  rw [← List.drop_drop, h.drop]
  rfl

theorem append (h : FmtAt fmt i (l ++ m)) : FmtAt fmt (i + l.length) m := by
  induction l generalizing i with
  | nil => exact h
  | cons c l ih =>
    have hnext := ih h.succ
    rwa [List.length_cons, Nat.add_comm l.length 1, ← Nat.add_assoc]

/-- How much there is left. -/
theorem length (h : FmtAt fmt i l) : i + l.length = fmt.length := by
  rw [← h.drop, List.length_drop]
  have := h.le
  omega

end FmtAt

/-- A character that is a decimal digit. -/
def IsDigit (c : ℕ) : Prop := 48 ≤ c ∧ c ≤ 57

instance (c : ℕ) : Decidable (IsDigit c) := inferInstanceAs (Decidable (_ ∧ _))

section Width

variable [Overflow]

/-- The width that the digits of a format stand for. -/
def widthOf (precision : ℤ) (ds : List ℕ) : ℤ :=
  ds.foldl (fun (p : ℤ) (ch : ℕ) => cInt (p * 10 + ch - 48)) precision

/-- **The loop over the digits of a width** takes all of them. -/
theorem readWidth_eq {fmt : List ℕ} (ds : List ℕ) :
    ∀ {fuel i ch : ℕ} {precision : ℤ} {rest : List ℕ}, FmtAt fmt i (ds ++ rest) →
      (∀ c ∈ ds, IsDigit c) → ¬ IsDigit (charAt rest 0) → ds.length < fuel →
      readWidth fmt fuel precision ch i = .ok (widthOf precision (ch :: ds), i + ds.length) := by
  induction ds with
  | nil =>
    intro fuel i ch precision rest hat _ hrest hfuel
    obtain ⟨fuel, rfl⟩ : ∃ k, fuel = k + 1 := ⟨fuel - 1, by rw [List.length_nil] at hfuel; omega⟩
    rw [IsDigit] at hrest
    rw [readWidth, hat.fetch, Res.ok_bind, if_pos (by rw [List.nil_append]; omega)]
    rfl
  | cons c ds ih =>
    intro fuel i ch precision rest hat hds hrest hfuel
    obtain ⟨fuel, rfl⟩ : ∃ k, fuel = k + 1 := ⟨fuel - 1, by rw [List.length_cons] at hfuel; omega⟩
    have hc : IsDigit c := hds c List.mem_cons_self
    rw [List.length_cons] at hfuel
    rw [readWidth, hat.fetch, Res.ok_bind]
    change (if c < 48 ∨ c > 57 then _ else _) = _
    rw [if_neg (by rw [IsDigit] at hc; omega), ih hat.succ
      (fun c hc => hds c (List.mem_cons_of_mem _ hc)) hrest (by omega)]
    rw [List.length_cons, Nat.add_assoc, Nat.add_comm 1 ds.length]
    rfl

end Width

/-! ## Flags -/

/-- A character that belongs to an escape sequence without ending it. -/
def IsFlag (c : ℕ) : Prop := IsDigit c ∨ c = 45 ∨ c = 42 ∨ c = 46 ∨ c = 35 ∨ c = 108

instance (c : ℕ) : Decidable (IsFlag c) := inferInstanceAs (Decidable (_ ∨ _))

section Flags

variable [Overflow]

/-- What a flag does that is neither a digit of a width nor a `*`. -/
def Escape.flag (e : Escape) (c : ℕ) : Escape :=
  if c = 45 then { e with padc := 45 }
  else if c = 48 then { e with padc := 48 }
  else if c = 46 then { e with width := if e.width < 0 then 0 else e.width }
  else if c = 35 then { e with altflag := true }
  else { e with lflag := cInt (e.lflag + 1) }

variable {fmt : List ℕ} {i c : ℕ} {l : List ℕ} (ap : List Arg) (e : Escape) (fuel : ℕ)

/-- A flag. -/
theorem reswitch_flag (hat : FmtAt fmt i (c :: l)) (hc : c ∈ [45, 48, 46, 35, 108]) :
    reswitch fmt (fuel + 1) i ap e = reswitch fmt fuel (i + 1) ap (e.flag c) := by
  rw [reswitch, hat.fetch, Res.ok_bind]
  simp only [List.mem_cons, List.not_mem_nil, or_false] at hc
  rcases hc with rfl | rfl | rfl | rfl | rfl <;> rfl

/-- A width. -/
theorem reswitch_width {ds rest : List ℕ} (hat : FmtAt fmt i (c :: (ds ++ rest)))
    (hc : 49 ≤ c ∧ c ≤ 57) (hds : ∀ c ∈ ds, IsDigit c) (hrest : ¬ IsDigit (charAt rest 0)) :
    reswitch fmt (fuel + 1) i ap e =
      reswitch fmt fuel (i + 1 + ds.length) ap (e.processPrecision (widthOf 0 (c :: ds))) := by
  have hlen := hat.length
  rw [List.length_cons, List.length_append] at hlen
  rw [reswitch, hat.fetch, Res.ok_bind]
  change (if c = 45 then _ else if c = 48 then _ else if 49 ≤ c ∧ c ≤ 57 then _ else _) = _
  rw [if_neg (by omega), if_neg (by omega), if_pos hc]
  change (readWidth fmt (fmt.length + 1) 0 c (i + 1) >>= _) = _
  rw [readWidth_eq ds hat.succ hds hrest (by omega)]
  rfl

/-- A width that is an argument. -/
theorem reswitch_star (hat : FmtAt fmt i (42 :: l)) (v : BitVec 32) :
    reswitch fmt (fuel + 1) i (.int v :: ap) e =
      reswitch fmt fuel (i + 1) ap (e.processPrecision v.toInt) := by
  rw [reswitch, hat.fetch, Res.ok_bind]
  rfl

/-- The end of the flags. -/
theorem reswitch_end (hat : FmtAt fmt i l) (hc : ¬ IsFlag (charAt l 0)) :
    reswitch fmt (fuel + 1) i ap e = .ok (charAt l 0, i + 1, ap, e) := by
  rw [reswitch, hat.fetch, Res.ok_bind]
  rw [IsFlag, IsDigit] at hc
  rw [if_neg (by omega), if_neg (by omega), if_neg (by omega), if_neg (by omega),
    if_neg (by omega), if_neg (by omega), if_neg (by omega)]
  rfl

end Flags

/-- The loop of the default case goes back to the last `%`. -/
theorem rewind_eq {fmt : List ℕ} {i : ℕ} {l m : List ℕ} (hat : FmtAt fmt i (37 :: (l ++ m)))
    (hl : 37 ∉ l) : rewind fmt (i + 1 + l.length) = .ok (i + 1) := by
  induction l using List.reverseRecOn generalizing m with
  | nil =>
    rw [List.length_nil, Nat.add_zero, rewind, hat.fetch]
    rfl
  | append_singleton l c ih =>
    rw [List.append_assoc] at hat
    have hc : c ≠ 37 := fun heq => hl (by simp [heq])
    rw [List.length_append, List.length_singleton, ← Nat.add_assoc, rewind,
      (hat.succ.append).fetch, Res.ok_bind]
    change (if c ≠ 37 then _ else _) = _
    rw [if_pos hc]
    exact ih hat fun hmem => hl (List.mem_append_left _ hmem)

/-! ## The main loop -/

/-- A round of the loop: the next position, the arguments that are left, and what `putch` has done,
or nothing at the end of the format. -/
def fmtRound [Overflow] {σ : Type} (putch : ℤ → σ → σ) (nested : List ℕ → List Arg → σ → Res σ)
    (fmt : List ℕ) (i : ℕ) (ap : List Arg) (st : σ) : Res (Option (ℕ × List Arg × σ)) := do
  let ch ← fetch fmt i
  if ch ≠ 37 then
    if ch = 0 then return none else return some (i + 1, ap, putch ch st)
  else do
    let (ch, i, ap, e) ← reswitch fmt (fmt.length + 1) (i + 1) ap Escape.init
    let r ← convert putch nested fmt ch i ap e st
    return some r

section Loop

variable [Overflow] {σ : Type} (putch : ℤ → σ → σ)

/-- The loop, a round at a time. -/
theorem fmtLoop_succ (fuel : ℕ) (fmt : List ℕ) (i : ℕ) (ap : List Arg) (st : σ) :
    fmtLoop putch (fuel + 1) fmt i ap st =
      fmtRound putch (fun fmt ap st => fmtLoop putch fuel fmt 0 ap st) fmt i ap st >>= fun r =>
        match r with
        | none => .ok st
        | some (i, ap, st) => fmtLoop putch fuel fmt i ap st := by
  rw [fmtLoop, fmtRound, bind_assoc]
  refine Res.bind_congr fun ch => ?_
  split
  · split <;> rfl
  · rw [bind_assoc]
    refine Res.bind_congr fun r => ?_
    rw [bind_assoc]
    exact Res.bind_congr fun r => rfl

section Round

variable {nested : List ℕ → List Arg → σ → Res σ} {fmt : List ℕ} {i c : ℕ} {l : List ℕ}
  {ap : List Arg} (st : σ)

/-- The end of the format. -/
theorem fmtRound_nil (hat : FmtAt fmt i []) : fmtRound putch nested fmt i ap st = .ok none := by
  rw [fmtRound, hat.fetch]
  rfl

/-- A round with a character that is printed as it is. -/
theorem fmtRound_text (hat : FmtAt fmt i (c :: l)) (hc : c ≠ 37) (hc0 : c ≠ 0) :
    fmtRound putch nested fmt i ap st = .ok (some (i + 1, ap, putch c st)) := by
  rw [fmtRound, hat.fetch, Res.ok_bind]
  change (if c ≠ 37 then if c = 0 then _ else _ else _) = _
  rw [if_pos hc, if_neg hc0]
  rfl

/-- A round with an escape sequence. -/
theorem fmtRound_escape (hat : FmtAt fmt i (37 :: l)) {ch j : ℕ} {ap' : List Arg} {e : Escape}
    (hscan : reswitch fmt (fmt.length + 1) (i + 1) ap Escape.init = .ok (ch, j, ap', e)) :
    fmtRound putch nested fmt i ap st =
      (convert putch nested fmt ch j ap' e st).map some := by
  rw [fmtRound, hat.fetch, Res.ok_bind]
  change (reswitch fmt (fmt.length + 1) (i + 1) ap Escape.init >>= _) = _
  rw [hscan, Res.ok_bind]
  change (convert putch nested fmt ch j ap' e st >>= _) = _
  cases convert putch nested fmt ch j ap' e st <;> rfl

end Round

variable {fmt : List ℕ} {i : ℕ} {l : List ℕ} (fuel : ℕ) (ap : List Arg) (st : σ)

/-- The end of the format. -/
theorem fmtLoop_nil (hat : FmtAt fmt i []) : fmtLoop putch (fuel + 1) fmt i ap st = .ok st := by
  rw [fmtLoop_succ, fmtRound_nil putch st hat, Res.ok_bind]

/-- An escape sequence. -/
theorem fmtLoop_escape (hat : FmtAt fmt i (37 :: l)) {ch j : ℕ} {ap' : List Arg} {e : Escape}
    (hscan : reswitch fmt (fmt.length + 1) (i + 1) ap Escape.init = .ok (ch, j, ap', e)) :
    fmtLoop putch (fuel + 1) fmt i ap st =
      convert putch (fun fmt ap st => fmtLoop putch fuel fmt 0 ap st) fmt ch j ap' e st >>=
        fun r => fmtLoop putch fuel fmt r.1 r.2.1 r.2.2 := by
  rw [fmtLoop_succ, fmtRound_escape putch st hat hscan, Res.bind_map]

end Loop

end Ucore
