import Mathlib.Data.List.TakeWhile
import Ucore.Fmt.Scan

/-!
# The formatter always ends

Which types of arguments a format asks for can be told from the format alone (`argKinds`).  If the
arguments have these types, the formatter ends without reading in front of its format or behind the
`NUL` (`fmtLoop_total`).  The default case goes back, to the character behind the last `%`, but
never to that `%` or in front of it, and so what is left of the format gets shorter with every
round.  It has printed the `%`, and the characters behind it are then printed as they are
(`FmtReached.echo`).

## The plan

* `reswitch_run` — a run of flags is read up to its end, and takes one argument for every `*`, by
  induction on the run; `exists_flags` cuts a format behind it.
* `convert_total` — a conversion, if its argument has the right type.  `%e` calls `printfmt` with a
  format of its own, which has no `%e` in it, so that this ends as well (`NestedEnds`).
* `convert_other` — any other character: the `%` is printed, and the next position is the one behind
  it.
* `fmtRound_total` — one round, for each of these.
* `Ready` is what the loop needs before a round: enough fuel for what is left of the format, and the
  arguments that it asks for.  `Ready.next` says that the rest of a format needs less.
* `fmtLoop_total` — the loop, by induction on the length of what is left.

`FmtReached` are the rounds that a call of `vprintfmt` comes to.  It is there for what is printed on
the way: in each of these rounds text is printed as it is (`text`), and an escape sequence without a
conversion is, too (`echo`).
-/

set_option autoImplicit false

namespace Ucore

/-! ## Arguments -/

/-- The type of an argument; `err` is an `int` for `%e`. -/
inductive ArgKind where
  | int
  | err
  | llong
  | str
  | ptr
  deriving DecidableEq, Repr

/-- An argument of a type.  For `%e` the most negative `int` is excluded. -/
def ArgKind.Accepts : ArgKind → Arg → Prop
  | .int, .int _ => True
  | .err, .int v => v ≠ 0x80000000#32
  | .llong, .llong _ => True
  | .str, .str _ => True
  | .ptr, .ptr _ => True
  | _, _ => False

/-- The types of the arguments of a conversion. -/
def convKinds (lflag : ℤ) : ℕ → List ArgKind
  | 99 => [.int]
  | 101 => [.err]
  | 115 => [.str]
  | 112 => [.ptr]
  | 100 => [if lflag ≥ 2 then .llong else .int]
  | 117 => [if lflag ≥ 2 then .llong else .int]
  | 111 => [if lflag ≥ 2 then .llong else .int]
  | 120 => [if lflag ≥ 2 then .llong else .int]
  | _ => []

/-- The types of the arguments that the rest of a format asks for: outside of an escape sequence, or
inside of one, where the number of its `l` is known. -/
def argKinds [Overflow] : Option ℤ → List ℕ → List ArgKind
  | _, [] => []
  | none, c :: l => if c = 37 then argKinds (some 0) l else argKinds none l
  | some lflag, c :: l =>
    if c = 42 then .int :: argKinds (some lflag) l
    else if c = 108 then argKinds (some (cInt (lflag + 1))) l
    else if IsFlag c then argKinds (some lflag) l
    else convKinds lflag c ++ argKinds none l

/-- The arguments have these types. -/
def ArgsMatch : List ArgKind → List Arg → Prop
  | [], _ => True
  | _ :: _, [] => False
  | k :: ks, a :: ap => k.Accepts a ∧ ArgsMatch ks ap

theorem ArgsMatch.drop {ks ks' : List ArgKind} {ap : List Arg} (h : ArgsMatch (ks ++ ks') ap) :
    ArgsMatch ks' (ap.drop ks.length) := by
  induction ks generalizing ap with
  | nil => exact h
  | cons k ks ih =>
    cases ap with
    | nil => exact h.elim
    | cons a ap => exact ih h.2

/-- The first argument. -/
theorem ArgsMatch.cons {k : ArgKind} {ks : List ArgKind} {ap : List Arg}
    (h : ArgsMatch (k :: ks) ap) : ∃ a ap', ap = a :: ap' ∧ k.Accepts a ∧ ArgsMatch ks ap' := by
  cases ap with
  | nil => exact h.elim
  | cons a ap => exact ⟨a, ap, rfl, h⟩

section Accepts

variable {a : Arg}

theorem ArgKind.Accepts.int (h : ArgKind.int.Accepts a) : ∃ v, a = .int v := by
  cases a with
  | int v => exact ⟨v, rfl⟩
  | _ => exact h.elim

theorem ArgKind.Accepts.err (h : ArgKind.err.Accepts a) : ∃ v, a = .int v ∧ v ≠ 0x80000000#32 := by
  cases a with
  | int v => exact ⟨v, rfl, h⟩
  | _ => exact h.elim

theorem ArgKind.Accepts.llong (h : ArgKind.llong.Accepts a) : ∃ v, a = .llong v := by
  cases a with
  | llong v => exact ⟨v, rfl⟩
  | _ => exact h.elim

theorem ArgKind.Accepts.str (h : ArgKind.str.Accepts a) : ∃ s, a = .str s := by
  cases a with
  | str s => exact ⟨s, rfl⟩
  | _ => exact h.elim

theorem ArgKind.Accepts.ptr (h : ArgKind.ptr.Accepts a) : ∃ p, a = .ptr p := by
  cases a with
  | ptr p => exact ⟨p, rfl⟩
  | _ => exact h.elim

end Accepts

/-! ## Runs of flags -/

theorem argKinds_text [Overflow] {l m : List ℕ} (h : 37 ∉ l) :
    argKinds none (l ++ m) = argKinds none m := by
  induction l with
  | nil => rfl
  | cons c l ih =>
    have hc : c ≠ 37 := fun heq => h (by rw [heq]; exact List.mem_cons_self)
    rw [List.cons_append, argKinds, if_neg hc]
    exact ih fun hmem => h (List.mem_cons_of_mem _ hmem)

theorem argKinds_digits [Overflow] (lflag : ℤ) {ds m : List ℕ} (h : ∀ c ∈ ds, IsDigit c) :
    argKinds (some lflag) (ds ++ m) = argKinds (some lflag) m := by
  induction ds with
  | nil => rfl
  | cons c ds ih =>
    have hc : IsDigit c := h c List.mem_cons_self
    have hrange : 48 ≤ c ∧ c ≤ 57 := hc
    rw [List.cons_append, argKinds, if_neg (by omega), if_neg (by omega), if_pos (.inl hc)]
    exact ih fun c hc => h c (List.mem_cons_of_mem _ hc)

theorem not_mem_of_flags {run : List ℕ} (h : ∀ c ∈ run, IsFlag c) : 37 ∉ run ∧ 0 ∉ run :=
  ⟨fun hmem => absurd (h 37 hmem) (by decide), fun hmem => absurd (h 0 hmem) (by decide)⟩

/-- The characters of a kind at the beginning of a list, which has `rest` behind it. -/
theorem exists_run (P : ℕ → Prop) [DecidablePred P] (l : List ℕ) {rest : List ℕ}
    (hrest : ¬ P (charAt rest 0)) :
    ∃ run l', l = run ++ l' ∧ (∀ c ∈ run, P c) ∧ ¬ P (charAt (l' ++ rest) 0) := by
  refine ⟨l.takeWhile (decide <| P ·), l.dropWhile (decide <| P ·),
    List.takeWhile_append_dropWhile.symm, fun c hc => ?_, ?_⟩
  · simpa using List.mem_takeWhile_imp hc
  · have hhead := List.head?_dropWhile_not (decide <| P ·) l
    cases hdrop : l.dropWhile (decide <| P ·) with
    | nil => exact hrest
    | cons c l' =>
      rw [hdrop, List.head?_cons] at hhead
      have hc : ¬ P c := by simpa using hhead
      exact hc

/-- The flags at the beginning of a list. -/
theorem exists_flags (l : List ℕ) :
    ∃ run rest, l = run ++ rest ∧ (∀ c ∈ run, IsFlag c) ∧ ¬ IsFlag (charAt rest 0) := by
  obtain ⟨run, rest, hl, hrun, hrest⟩ := exists_run IsFlag l (show ¬ IsFlag (charAt [] 0) by decide)
  rw [List.append_nil] at hrest
  exact ⟨run, rest, hl, hrun, hrest⟩

@[simp] theorem Escape.processPrecision_lflag (e : Escape) (p : ℤ) :
    (e.processPrecision p).lflag = e.lflag := by
  rw [Escape.processPrecision]
  split <;> rfl

/-- One flag, or all the digits of a width, with the argument for a `*`. -/
theorem reswitch_step [Overflow] {fmt : List ℕ} {i c : ℕ} {run rest : List ℕ} {ap : List Arg}
    (e : Escape) (fuel : ℕ) (hat : FmtAt fmt i (c :: (run ++ rest))) (hc : IsFlag c)
    (hrest : ¬ IsFlag (charAt rest 0))
    (hargs : ArgsMatch (argKinds (some e.lflag) (c :: (run ++ rest))) ap) :
    ∃ ds run' e', run = ds ++ run' ∧
      reswitch fmt (fuel + 1) i ap e =
        reswitch fmt fuel (i + 1 + ds.length) (ap.drop ((c :: ds).count 42)) e' ∧
      argKinds (some e.lflag) (c :: (run ++ rest)) =
        List.replicate ((c :: ds).count 42) .int ++ argKinds (some e'.lflag) (run' ++ rest) := by
  have hcases : c = 42 ∨ c = 108 ∨ (49 ≤ c ∧ c ≤ 57) ∨ c ∈ [45, 48, 46, 35] := by
    simp only [IsFlag, IsDigit] at hc
    simp only [List.mem_cons, List.not_mem_nil, or_false]
    omega
  rcases hcases with rfl | rfl | hdigit | hflag
  · rw [argKinds, if_pos rfl] at hargs ⊢
    obtain ⟨a, ap, rfl, ha, -⟩ := hargs.cons
    obtain ⟨v, rfl⟩ := ha.int
    refine ⟨[], run, e.processPrecision v.toInt, rfl, reswitch_star ap e fuel hat v, ?_⟩
    rw [Escape.processPrecision_lflag]
    rfl
  · rw [argKinds, if_neg (by decide), if_pos rfl]
    exact ⟨[], run, e.flag 108, rfl, reswitch_flag ap e fuel hat (by decide), rfl⟩
  · -- the digits of a width are read at once
    obtain ⟨ds, run', rfl, hds, hnot⟩ := exists_run IsDigit run fun h => hrest (.inl h)
    have hall : ∀ c' ∈ c :: ds, IsDigit c' := by
      intro c' hc'
      rcases List.mem_cons.1 hc' with rfl | hc'
      · exact ⟨by omega, by omega⟩
      · exact hds c' hc'
    have hcount : (c :: ds).count 42 = 0 :=
      List.count_eq_zero_of_not_mem fun hmem => absurd (hall 42 hmem) (by decide)
    rw [List.append_assoc] at hat
    refine ⟨ds, run', e.processPrecision (widthOf 0 (c :: ds)), rfl, ?_, ?_⟩
    · rw [hcount]
      exact reswitch_width ap e fuel hat hdigit hds hnot
    · rw [hcount, List.append_assoc, ← List.cons_append, argKinds_digits _ hall,
        Escape.processPrecision_lflag]
      rfl
  · have hne : c ≠ 42 ∧ c ≠ 108 := by
      simp only [List.mem_cons, List.not_mem_nil, or_false] at hflag
      omega
    have hlflag : (e.flag c).lflag = e.lflag := by
      simp only [List.mem_cons, List.not_mem_nil, or_false] at hflag
      rcases hflag with rfl | rfl | rfl | rfl <;> rfl
    have hcount : [c].count 42 = 0 := by
      rw [List.count_cons_of_ne hne.1]
      rfl
    rw [argKinds, if_neg hne.1, if_neg hne.2, if_pos hc]
    refine ⟨[], run, e.flag c, rfl, ?_, ?_⟩
    · rw [hcount]
      exact reswitch_flag ap e fuel hat (by simp at hflag ⊢; omega)
    · rw [hcount, hlflag]
      rfl

/-- **A run of flags** is read up to its end, and takes an argument for every `*`. -/
theorem reswitch_run [Overflow] {fmt : List ℕ} (fuel : ℕ) : ∀ {i : ℕ} {run rest : List ℕ}
    {ap : List Arg} {e : Escape}, FmtAt fmt i (run ++ rest) → (∀ c ∈ run, IsFlag c) →
      ¬ IsFlag (charAt rest 0) → run.length < fuel →
      ArgsMatch (argKinds (some e.lflag) (run ++ rest)) ap →
      ∃ e', reswitch fmt fuel i ap e =
          .ok (charAt rest 0, i + run.length + 1, ap.drop (run.count 42), e') ∧
        argKinds (some e.lflag) (run ++ rest) =
          List.replicate (run.count 42) .int ++ argKinds (some e'.lflag) rest := by
  induction fuel with
  | zero => exact fun _ _ _ hfuel => absurd hfuel (Nat.not_lt_zero _)
  | succ fuel ih =>
    intro i run rest ap e hat hrun hrest hfuel hargs
    cases run with
    | nil => exact ⟨e, reswitch_end ap e fuel hat hrest, rfl⟩
    | cons c run =>
      obtain ⟨ds, run', e₁, rfl, hstep, hkinds⟩ :=
        reswitch_step e fuel hat (hrun c List.mem_cons_self) hrest hargs
      rw [List.cons_append, List.append_assoc] at hat
      rw [List.cons_append, hkinds] at hargs ⊢
      rw [List.length_cons, List.length_append] at hfuel ⊢
      have hleft := hargs.drop
      rw [List.length_replicate] at hleft
      obtain ⟨e', hscan, hkinds'⟩ := ih hat.succ.append
        (fun c hc => hrun c (List.mem_cons_of_mem _ (List.mem_append_right _ hc))) hrest
        (by omega) hleft
      refine ⟨e', ?_, ?_⟩
      · rw [hstep, hscan, List.drop_drop, ← List.count_append, List.cons_append]
        congr 3
        omega
      · rw [hkinds', ← List.append_assoc, List.replicate_append_replicate, ← List.count_append,
          List.cons_append]

/-! ## Conversions -/

/-- A character that ends an escape sequence. -/
def IsConv (c : ℕ) : Prop := c ∈ [99, 101, 115, 100, 117, 111, 112, 120, 37]

instance (c : ℕ) : Decidable (IsConv c) := inferInstanceAs (Decidable (_ ∈ _))

section Conversions

variable {σ : Type} (putch : ℤ → σ → σ) {nested : List ℕ → List Arg → σ → Res σ} {fmt : List ℕ}
  {ap : List Arg} {ks : List ArgKind} (e : Escape) (i : ℕ) (st : σ)

/-- `printfmt` ends for the formats of `%e`. -/
def NestedEnds (nested : List ℕ → List Arg → σ → Res σ) : Prop :=
  (∀ v st, ∃ st', nested errorFmt [.int v] st = .ok st') ∧
    ∀ s st, ∃ st', nested stringFmt [.str s] st = .ok st'

theorem getuint_total {lflag : ℤ}
    (h : ArgsMatch ((if lflag ≥ 2 then .llong else .int) :: ks) ap) :
    ∃ num ap', getuint lflag ap = .ok (num, ap') ∧ num < 2 ^ 64 ∧ ArgsMatch ks ap' := by
  obtain ⟨a, ap, rfl, ha, hargs⟩ := h.cons
  rw [getuint]
  split at ha
  · next hl =>
    obtain ⟨v, rfl⟩ := ha.llong
    exact ⟨v.toNat, ap, by rw [if_pos hl]; rfl, v.isLt, hargs⟩
  · next hl =>
    obtain ⟨v, rfl⟩ := ha.int
    have := v.isLt
    exact ⟨v.toNat, ap, by rw [if_neg hl]; rfl, by omega, hargs⟩

theorem getint_total {lflag : ℤ}
    (h : ArgsMatch ((if lflag ≥ 2 then .llong else .int) :: ks) ap) :
    ∃ num ap', getint lflag ap = .ok (num, ap') ∧ num.natAbs < 2 ^ 64 ∧ ArgsMatch ks ap' := by
  obtain ⟨a, ap, rfl, ha, hargs⟩ := h.cons
  rw [getint]
  split at ha
  · next hl =>
    obtain ⟨v, rfl⟩ := ha.llong
    have h₁ := v.le_toInt
    have h₂ := v.toInt_lt
    exact ⟨v.toInt, ap, by rw [if_pos hl]; rfl, by omega, hargs⟩
  · next hl =>
    obtain ⟨v, rfl⟩ := ha.int
    have h₁ := v.le_toInt
    have h₂ := v.toInt_lt
    exact ⟨v.toInt, ap, by rw [if_neg hl]; rfl, by omega, hargs⟩

variable [Overflow]

/-- `%e` only uses entries that the table has. -/
theorem printError_total {v : BitVec 32} (hv : v ≠ 0x80000000#32) (hnested : NestedEnds nested) :
    ∃ st', printError nested v st = .ok st' := by
  have hmin : v.toInt ≠ -2 ^ 31 := fun h => hv (BitVec.eq_of_toInt_eq (h.trans (by decide)))
  have hlo := v.le_toInt
  have hhi := v.toInt_lt
  have hneg : ¬ (if v.toInt < 0 then cInt (-v.toInt) else v.toInt) < 0 := by
    split
    · rw [cInt_eq (by omega) (by omega)]
      omega
    · assumption
  simp only [printError]
  generalize (if v.toInt < 0 then cInt (-v.toInt) else v.toInt) = err at hneg ⊢
  by_cases hmax : err > maxError
  · rw [if_pos hmax]
    exact hnested.1 _ _
  · rw [if_neg hmax, if_neg hneg]
    cases errorString err.toNat with
    | none => exact hnested.1 _ _
    | some p => exact hnested.2 _ _

/-- **A conversion**, if the arguments have the right types. -/
theorem convert_total {c : ℕ} (hc : IsConv c) (hargs : ArgsMatch (convKinds e.lflag c ++ ks) ap)
    (hnested : c = 101 → NestedEnds nested) :
    ∃ ap' st', convert putch nested fmt c i ap e st = .ok (i, ap', st') ∧ ArgsMatch ks ap' := by
  have hnum : ∀ {base num : ℕ} (st : σ), 1 < base → num < 2 ^ 64 →
      ∃ st', printNumber putch e base num st = .ok st' :=
    fun st hbase hlt => ⟨_, printNumber_eq putch e hbase hlt st⟩
  simp only [IsConv, List.mem_cons, List.not_mem_nil, or_false] at hc
  rcases hc with rfl | rfl | rfl | rfl | rfl | rfl | rfl | rfl | rfl
  · obtain ⟨a, ap, rfl, ha, hks⟩ := ArgsMatch.cons hargs
    obtain ⟨v, rfl⟩ := ha.int
    exact ⟨ap, _, rfl, hks⟩
  · obtain ⟨a, ap, rfl, ha, hks⟩ := ArgsMatch.cons hargs
    obtain ⟨v, rfl, hv⟩ := ha.err
    obtain ⟨st', hst'⟩ := printError_total st hv (hnested rfl)
    exact ⟨ap, st', by simp only [convert, vaInt, Res.ok_bind, hst', Res.pure_eq], hks⟩
  · obtain ⟨a, ap, rfl, ha, hks⟩ := ArgsMatch.cons hargs
    obtain ⟨s, rfl⟩ := ha.str
    exact ⟨ap, _, rfl, hks⟩
  · obtain ⟨num, ap', hget, hlt, hks⟩ := getint_total hargs
    obtain ⟨st', hst'⟩ := hnum (if num < 0 then putch 45 st else st) (show 1 < 10 by decide) hlt
    exact ⟨ap', st', by simp only [convert, hget, Res.ok_bind, hst', Res.pure_eq], hks⟩
  · obtain ⟨num, ap', hget, hlt, hks⟩ := getuint_total hargs
    obtain ⟨st', hst'⟩ := hnum st (show 1 < 10 by decide) hlt
    exact ⟨ap', st', by simp only [convert, hget, Res.ok_bind, hst', Res.pure_eq], hks⟩
  · obtain ⟨num, ap', hget, hlt, hks⟩ := getuint_total hargs
    obtain ⟨st', hst'⟩ := hnum st (show 1 < 8 by decide) hlt
    exact ⟨ap', st', by simp only [convert, hget, Res.ok_bind, hst', Res.pure_eq], hks⟩
  · obtain ⟨a, ap, rfl, ha, hks⟩ := ArgsMatch.cons hargs
    obtain ⟨p, rfl⟩ := ha.ptr
    have hp := p.isLt
    obtain ⟨st', hst'⟩ := hnum (putch 120 (putch 48 st)) (show 1 < 16 by decide)
      (show p.toNat < 2 ^ 64 by omega)
    exact ⟨ap, st', by simp only [convert, vaPtr, hst', Res.ok_bind, Res.pure_eq], hks⟩
  · obtain ⟨num, ap', hget, hlt, hks⟩ := getuint_total hargs
    obtain ⟨st', hst'⟩ := hnum st (show 1 < 16 by decide) hlt
    exact ⟨ap', st', by simp only [convert, hget, Res.ok_bind, hst', Res.pure_eq], hks⟩
  · exact ⟨ap, _, rfl, hargs⟩

/-- Any other character makes the loop go back behind the last `%`, which it prints. -/
theorem convert_other {c : ℕ} (hc : ¬ IsConv c) {run rest : List ℕ}
    (hat : FmtAt fmt i (37 :: (run ++ rest))) (hrun : 37 ∉ run) :
    convert putch nested fmt c (i + 1 + run.length + 1) ap e st = .ok (i + 1, ap, putch 37 st) := by
  simp only [IsConv, List.mem_cons, List.not_mem_nil, or_false, not_or] at hc
  obtain ⟨h₁, h₂, h₃, h₄, h₅, h₆, h₇, h₈, h₉⟩ := hc
  rw [convert, Nat.add_sub_cancel, rewind_eq hat hrun]
  · rfl
  all_goals assumption

end Conversions

/-! ## Whole formats -/

theorem argKinds_conv [Overflow] {c : ℕ} (hc : ¬ IsFlag c) (lflag : ℤ) (l : List ℕ) :
    argKinds (some lflag) (c :: l) = convKinds lflag c ++ argKinds none l := by
  have h := hc
  simp only [IsFlag, not_or] at h
  rw [argKinds, if_neg h.2.2.1, if_neg h.2.2.2.2.2, if_neg hc]

/-- An escape sequence that ends with no conversion asks for no more arguments. -/
theorem argKinds_other [Overflow] {rest : List ℕ} (hflag : ¬ IsFlag (charAt rest 0))
    (hconv : ¬ IsConv (charAt rest 0)) (lflag : ℤ) :
    argKinds (some lflag) rest = argKinds none rest := by
  cases rest with
  | nil => rfl
  | cons c l =>
    change ¬ IsFlag c at hflag
    change ¬ IsConv c at hconv
    rw [argKinds_conv hflag, argKinds]
    simp only [IsConv, List.mem_cons, List.not_mem_nil, or_false, not_or] at hconv
    obtain ⟨h₁, h₂, h₃, h₄, h₅, h₆, h₇, h₈, h₉⟩ := hconv
    rw [if_neg h₉, convKinds]
    · rfl
    all_goals assumption

/-! ## Rounds of the loop -/

/-- What the loop needs in a round: a position in the format, rounds for the rest of it, and also
for the formats of `%e` if there is one left, and the arguments. -/
structure Ready [Overflow] (fmt : List ℕ) (fuel i : ℕ) (ap : List Arg) : Prop where
  le : i ≤ fmt.length
  rounds : (fmt.drop i).length < fuel
  nested : ArgKind.err ∈ argKinds none (fmt.drop i) → (fmt.drop i).length + 10 ≤ fuel
  args : ArgsMatch (argKinds none (fmt.drop i)) ap

section Round

variable [Overflow] {σ : Type} (putch : ℤ → σ → σ) {nested : List ℕ → List Arg → σ → Res σ}
  {fmt : List ℕ} {fuel i c : ℕ} {ap : List Arg} {l run rest : List ℕ} (st : σ)

/-- The next round can be at a position where the rest of the format is shorter, and asks for no
arguments but those that are left. -/
theorem Ready.next {j : ℕ} {m : List ℕ} {ap' : List Arg} {ks : List ArgKind}
    (h : Ready fmt (fuel + 1) i ap) (hat₀ : FmtAt fmt i m) (hat : FmtAt fmt j l)
    (hlen : l.length < m.length) (hkinds : argKinds none m = ks ++ argKinds none l)
    (hargs : ArgsMatch (argKinds none l) ap') : Ready fmt fuel j ap' := by
  have hrounds := h.rounds
  have hnested := h.nested
  rw [hat₀.drop] at hrounds hnested
  refine ⟨hat.le, ?_, fun herr => ?_, ?_⟩
  · rw [hat.drop]
    omega
  · rw [hat.drop] at herr ⊢
    have := hnested (by rw [hkinds]; exact List.mem_append_right _ herr)
    omega
  · rwa [hat.drop]

/-- A round with an escape sequence that has no conversion prints the `%` only. -/
theorem fmtRound_other (hat : FmtAt fmt i (37 :: (run ++ rest))) (hrun : ∀ c ∈ run, IsFlag c)
    (hflag : ¬ IsFlag (charAt rest 0)) (hconv : ¬ IsConv (charAt rest 0))
    (hargs : ArgsMatch (argKinds none (37 :: (run ++ rest))) ap) :
    fmtRound putch nested fmt i ap st =
        .ok (some (i + 1, ap.drop (run.count 42), putch 37 st)) ∧
      argKinds none (37 :: (run ++ rest)) =
        List.replicate (run.count 42) .int ++ argKinds none (run ++ rest) := by
  have hlen := hat.length
  rw [List.length_cons, List.length_append] at hlen
  rw [argKinds, if_pos rfl] at hargs ⊢
  obtain ⟨e, hscan, hkinds⟩ := reswitch_run (fmt.length + 1) (e := Escape.init) hat.succ hrun hflag
    (by omega) hargs
  constructor
  · rw [fmtRound_escape putch st hat hscan,
      convert_other putch e i st hconv hat (not_mem_of_flags hrun).1]
    rfl
  · rw [argKinds_text (not_mem_of_flags hrun).1, ← argKinds_other hflag hconv]
    exact hkinds

/-- A round with a conversion. -/
theorem fmtRound_conv (hat : FmtAt fmt i (37 :: (run ++ c :: rest))) (hrun : ∀ c ∈ run, IsFlag c)
    (hflag : ¬ IsFlag c) (hconv : IsConv c)
    (hargs : ArgsMatch (argKinds none (37 :: (run ++ c :: rest))) ap)
    (hnested : ArgKind.err ∈ argKinds none (37 :: (run ++ c :: rest)) → NestedEnds nested) :
    ∃ ks ap' st', fmtRound putch nested fmt i ap st =
        .ok (some (i + 1 + run.length + 1, ap', st')) ∧
      argKinds none (37 :: (run ++ c :: rest)) = ks ++ argKinds none rest ∧
        ArgsMatch (argKinds none rest) ap' := by
  have hlen := hat.length
  rw [List.length_cons, List.length_append] at hlen
  rw [argKinds, if_pos rfl] at hargs hnested ⊢
  obtain ⟨e, hscan, hkinds⟩ := reswitch_run (fmt.length + 1) (e := Escape.init) hat.succ hrun hflag
    (by omega) hargs
  change argKinds (some 0) (run ++ c :: rest) = _ at hkinds
  rw [hkinds, argKinds_conv hflag] at hargs hnested ⊢
  have hleft := hargs.drop
  rw [List.length_replicate] at hleft
  have herr : c = 101 → NestedEnds nested := fun heq => hnested (by subst heq; simp [convKinds])
  obtain ⟨ap', st', hprint, hks⟩ := convert_total putch e (i + 1 + run.length + 1) st hconv hleft
    herr
  refine ⟨_, ap', st', ?_, (List.append_assoc _ _ _).symm, hks⟩
  rw [fmtRound_escape putch st hat hscan]
  exact congrArg (Except.map some) hprint

/-- **A round ends, and the rest of the format is shorter after it.** -/
theorem fmtRound_total (h : Ready fmt (fuel + 1) i ap)
    (hnested : ArgKind.err ∈ argKinds none (fmt.drop i) → NestedEnds nested) :
    fmtRound putch nested fmt i ap st = .ok none ∨
      ∃ i' ap' st', fmtRound putch nested fmt i ap st = .ok (some (i', ap', st')) ∧
        Ready fmt fuel i' ap' := by
  have hat : FmtAt fmt i (fmt.drop i) := ⟨h.le, rfl⟩
  have hargs := h.args
  cases hdrop : fmt.drop i with
  | nil =>
    rw [hdrop] at hat
    exact .inl (fmtRound_nil putch st hat)
  | cons c l =>
    rw [hdrop] at hat hargs hnested
    by_cases hc : c = 37
    · subst hc
      obtain ⟨run, rest, rfl, hrun, hflag⟩ := exists_flags l
      by_cases hconv : IsConv (charAt rest 0)
      · cases rest with
        | nil => exact absurd hconv (by decide)
        | cons c rest =>
          obtain ⟨ks, ap', st', hround, hkinds, hks⟩ :=
            fmtRound_conv putch st hat hrun hflag hconv hargs hnested
          refine .inr ⟨_, ap', st', hround, h.next hat hat.succ.append.succ ?_ hkinds hks⟩
          rw [List.length_cons, List.length_append, List.length_cons]
          omega
      · obtain ⟨hround, hkinds⟩ := fmtRound_other putch st hat hrun hflag hconv hargs
        refine .inr ⟨_, _, _, hround, h.next hat hat.succ (Nat.lt_succ_self _) hkinds ?_⟩
        rw [hkinds] at hargs
        have hleft := hargs.drop
        rwa [List.length_replicate] at hleft
    · by_cases hc0 : c = 0
      · subst hc0
        exact .inl (by rw [fmtRound, hat.fetch]; rfl)
      · have hkinds : argKinds none (c :: l) = [] ++ argKinds none l := by
          rw [argKinds, if_neg hc, List.nil_append]
        refine .inr ⟨_, _, _, fmtRound_text putch st hat hc hc0,
          h.next hat hat.succ (Nat.lt_succ_self _) hkinds ?_⟩
        rwa [hkinds] at hargs

end Round

/-! ## Whole runs -/

section Loop

variable [Overflow] {σ : Type} (putch : ℤ → σ → σ)

/-- There are rounds for the formats of `%e`. -/
theorem Ready.nested_le {fmt : List ℕ} {fuel i : ℕ} {ap : List Arg} (h : Ready fmt (fuel + 1) i ap)
    (herr : ArgKind.err ∈ argKinds none (fmt.drop i)) : 10 ≤ fuel := by
  have hle := h.nested herr
  have hne : (fmt.drop i).length ≠ 0 := fun hnil => by
    rw [List.length_eq_zero_iff] at hnil
    rw [hnil] at herr
    cases herr
  omega

theorem ready_errorFmt {fuel : ℕ} (hfuel : 10 ≤ fuel) (v : BitVec 32) :
    Ready errorFmt fuel 0 [.int v] := by
  have hkinds : argKinds none (errorFmt.drop 0) = [.int] := rfl
  refine ⟨by decide, ?_, fun h => absurd (hkinds ▸ h) (by decide), trivial, trivial⟩
  change 8 < fuel
  omega

theorem ready_stringFmt {fuel : ℕ} (hfuel : 10 ≤ fuel) (s : Option (List ℕ)) :
    Ready stringFmt fuel 0 [.str s] := by
  have hkinds : argKinds none (stringFmt.drop 0) = [.str] := rfl
  refine ⟨by decide, ?_, fun h => absurd (hkinds ▸ h) (by decide), trivial, trivial⟩
  change 2 < fuel
  omega

/-- **The loop ends**, if the arguments have the right types. -/
theorem fmtLoop_total (fuel : ℕ) : ∀ {fmt : List ℕ} {i : ℕ} {ap : List Arg} (st : σ),
    Ready fmt fuel i ap → ∃ st', fmtLoop putch fuel fmt i ap st = .ok st' := by
  induction fuel with
  | zero => exact fun _ h => absurd h.rounds (Nat.not_lt_zero _)
  | succ fuel ih =>
    intro fmt i ap st h
    have hnested : ArgKind.err ∈ argKinds none (fmt.drop i) →
        NestedEnds fun fmt ap st => fmtLoop putch fuel fmt 0 ap st := fun herr =>
      ⟨fun v st => ih st (ready_errorFmt (h.nested_le herr) v),
        fun s st => ih st (ready_stringFmt (h.nested_le herr) s)⟩
    rw [fmtLoop_succ]
    rcases fmtRound_total putch st h hnested with hround | ⟨i', ap', st', hround, hready⟩
    · exact ⟨st, by rw [hround, Res.ok_bind]⟩
    · rw [hround, Res.ok_bind]
      exact ih st' hready

theorem nestedEnds_fmtLoop {fuel : ℕ} (hfuel : 10 ≤ fuel) :
    NestedEnds fun fmt ap st => fmtLoop putch fuel fmt 0 ap st :=
  ⟨fun v st => fmtLoop_total putch fuel st (ready_errorFmt hfuel v),
    fun s st => fmtLoop_total putch fuel st (ready_stringFmt hfuel s)⟩

/-- The loop is ready at the beginning of `vprintfmt`. -/
theorem ready_zero {fmt : List ℕ} {ap : List Arg} (hargs : ArgsMatch (argKinds none fmt) ap) :
    Ready fmt (fmt.length + 10) 0 ap :=
  ⟨Nat.zero_le _, by rw [List.drop_zero]; omega, fun _ => le_rfl, hargs⟩

/-- The rounds of a call of `vprintfmt`: the rounds left, the position, the arguments left and what
`putch` has done so far. -/
inductive FmtReached (fmt : List ℕ) (ap₀ : List Arg) (st₀ : σ) : ℕ → ℕ → List Arg → σ → Prop
  | start : FmtReached fmt ap₀ st₀ (fmt.length + 10) 0 ap₀ st₀
  | next {fuel i i' : ℕ} {ap ap' : List Arg} {st st' : σ}
    (h : FmtReached fmt ap₀ st₀ (fuel + 1) i ap st)
    (hround : fmtRound putch (fun fmt ap st => fmtLoop putch fuel fmt 0 ap st) fmt i ap st =
      .ok (some (i', ap', st'))) : FmtReached fmt ap₀ st₀ fuel i' ap' st'

namespace FmtReached

variable {putch} {fmt : List ℕ} {fuel i : ℕ} {ap₀ ap : List Arg} {st₀ st : σ}

/-- What is left of a call at a round. -/
theorem fmtLoop_eq (h : FmtReached putch fmt ap₀ st₀ fuel i ap st) :
    fmtLoop putch fuel fmt i ap st = vprintfmt putch fmt ap₀ st₀ := by
  induction h with
  | start => rfl
  | next h hround ih => rw [← ih, fmtLoop_succ, hround, Res.ok_bind]

/-- The loop is ready in every round. -/
theorem ready (h : FmtReached putch fmt ap₀ st₀ fuel i ap st)
    (hargs : ArgsMatch (argKinds none fmt) ap₀) : Ready fmt fuel i ap := by
  induction h with
  | start => exact ready_zero hargs
  | next h hround ih =>
    rcases fmtRound_total putch _ ih fun herr => nestedEnds_fmtLoop putch (ih.nested_le herr) with
      hnone | ⟨i', ap', st', hsome, hready⟩
    · rw [hround] at hnone
      cases hnone
    · rw [hround] at hsome
      cases hsome
      exact hready

/-- Text is printed as it is. -/
theorem text {l m : List ℕ} (h : FmtReached putch fmt ap₀ st₀ (fuel + l.length) i ap st)
    (hat : FmtAt fmt i (l ++ m)) (h37 : 37 ∉ l) (h0 : 0 ∉ l) :
    FmtReached putch fmt ap₀ st₀ fuel (i + l.length) ap (emit putch (l.map (↑)) st) := by
  induction l generalizing i st with
  | nil => exact h
  | cons c l ih =>
    rw [List.mem_cons, not_or] at h37 h0
    have hnext := ih (.next h (fmtRound_text putch st hat (Ne.symm h37.1) (Ne.symm h0.1)))
      hat.succ h37.2 h0.2
    rwa [Nat.add_assoc i, Nat.add_comm 1 l.length] at hnext

/-- **What is no conversion is printed as it is**: the `%`, the flags behind it, and the character
that ends them, if the format does not end there. -/
theorem echo {run rest : List ℕ} (h : FmtReached putch fmt ap₀ st₀ fuel i ap st) (h0 : 0 ∉ fmt)
    (hargs : ArgsMatch (argKinds none fmt) ap₀) (hdrop : fmt.drop i = 37 :: (run ++ rest))
    (hrun : ∀ c ∈ run, IsFlag c) (hflag : ¬ IsFlag (charAt rest 0))
    (hconv : ¬ IsConv (charAt rest 0)) :
    ∃ fuel', FmtReached putch fmt ap₀ st₀ fuel' (i + 1 + (run ++ rest.take 1).length)
      (ap.drop (run.count 42)) (emit putch ((37 :: (run ++ rest.take 1)).map (↑)) st) := by
  have hready := h.ready hargs
  have hat : FmtAt fmt i (37 :: (run ++ rest)) := ⟨hready.le, hdrop⟩
  have hsplit : run ++ rest = (run ++ rest.take 1) ++ rest.drop 1 := by
    rw [List.append_assoc, List.take_append_drop]
  have hrounds := hready.rounds
  have hmatch := hready.args
  rw [hdrop] at hrounds hmatch
  obtain ⟨fuel, rfl⟩ : ∃ n, fuel = n + (run ++ rest.take 1).length + 1 := by
    rw [hsplit, List.length_cons, List.length_append] at hrounds
    exact ⟨fuel - (run ++ rest.take 1).length - 1, by omega⟩
  -- the round of the `%` goes back, and now there is only text up to the end of the sequence
  have hpercent := h.next (fmtRound_other putch st hat hrun hflag hconv hmatch).1
  have h37 : 37 ∉ rest.take 1 := by
    cases rest with
    | nil => exact List.not_mem_nil
    | cons c rest =>
      have hc : 37 ≠ c := fun heq => hconv (heq ▸ (by decide : IsConv 37))
      simpa using hc
  have hzero : 0 ∉ run ++ rest := fun hmem =>
    h0 (List.mem_of_mem_drop (by rw [hdrop]; exact List.mem_cons_of_mem _ hmem))
  rw [hsplit] at hat hzero
  refine ⟨fuel, hpercent.text hat.succ ?_ fun hmem => hzero (List.mem_append_left _ hmem)⟩
  rw [List.mem_append, not_or]
  exact ⟨(not_mem_of_flags hrun).1, h37⟩

end FmtReached

end Loop

/-- **Format processing always ends, and echoes what it does not understand.**  Let the arguments
have the types that the format asks for.  Then `vprintfmt` comes to its end, without reading a byte
in front of the format or behind its `NUL`, and no round of its loop begins behind the `NUL`.  If a
round begins at a `%` with some flags behind it that do not lead to a conversion, then the `%`, the
flags and the character behind them, if there is one, are printed, and a later round begins behind
them. -/
theorem vprintfmt_total [Overflow] {σ : Type} (putch : ℤ → σ → σ) (fmt : List ℕ) (ap : List Arg)
    (h0 : 0 ∉ fmt) (hargs : ArgsMatch (argKinds none fmt) ap) (st : σ) :
    (∃ st', vprintfmt putch fmt ap st = .ok st') ∧
      ∀ fuel i ap' st', FmtReached putch fmt ap st fuel i ap' st' →
        i ≤ fmt.length ∧ fmtLoop putch fuel fmt i ap' st' = vprintfmt putch fmt ap st ∧
          ∀ run rest, fmt.drop i = 37 :: (run ++ rest) → (∀ c ∈ run, IsFlag c) →
            ¬ IsFlag (charAt rest 0) → ¬ IsConv (charAt rest 0) →
              ∃ fuel', FmtReached putch fmt ap st fuel' (i + 1 + (run ++ rest.take 1).length)
                (ap'.drop (run.count 42)) (emit putch ((37 :: (run ++ rest.take 1)).map (↑)) st') :=
  ⟨fmtLoop_total putch _ st (ready_zero hargs), fun _ _ _ _ h =>
    ⟨(h.ready hargs).le, h.fmtLoop_eq, fun _ _ hdrop hrun hflag hconv =>
      h.echo h0 hargs hdrop hrun hflag hconv⟩⟩

/-- The format `"%*q%d%"`.  The argument of the `*` is used up. -/
theorem vprintfmt_total_unknown : letI := Overflow.wrapping
    fmtOutput [37, 42, 113, 37, 100, 37] [.int 5#32, .int 7#32] = .ok [37, 42, 113, 55, 37] ∧
      ∃ fuel, FmtReached (fun c O => O ++ [c]) [37, 42, 113, 37, 100, 37] [.int 5#32, .int 7#32] []
        fuel 3 [.int 7#32] [37, 42, 113] :=
  letI := Overflow.wrapping
  ⟨by decide, ((vprintfmt_total _ [37, 42, 113, 37, 100, 37] [.int 5#32, .int 7#32] (by decide)
    ⟨trivial, trivial, trivial⟩ []).2 _ 0 _ _ .start).2.2 [42] [113, 37, 100, 37] rfl (by decide)
    (by decide) (by decide)⟩

end Ucore
