import Ucore.Fmt.Defs

/-!
# The formatter only hands characters on

`vprintfmt` never looks at what `putch` makes of a character.  So a map between two kinds of output
that respects `putch` respects the formatter (`fmtLoop_hom`), function by function.  The characters
themselves are the output of the `putch` that collects them, `fmtOutput`, and any other `putch` gets
exactly these, one after the other (`vprintfmt_eq`).

This is what lets the other modules speak about lists of characters: what is shown of `fmtOutput`
holds for the console, for a buffer, and for any other way of printing.
-/

set_option autoImplicit false

namespace Ucore

section Hom

variable {σ τ : Type} {putch : ℤ → σ → σ} {putch' : ℤ → τ → τ} {f : σ → τ}
  (hf : ∀ c st, f (putch c st) = putch' c (f st))

include hf

theorem putPad_hom (padc : ℤ) (n : ℕ) (st : σ) :
    putPad putch' padc n (f st) = f (putPad putch padc n st) := by
  induction n generalizing st with
  | zero => rfl
  | succ n ih => rw [putPad, putPad, ← hf, ih]

variable [Overflow]

theorem printnum_hom (padc : ℤ) (base fuel num : ℕ) (width : ℤ) (st : σ) :
    printnum putch' padc base fuel num width (f st) =
      (printnum putch padc base fuel num width st).map f := by
  induction fuel generalizing num width with
  | zero => rfl
  | succ fuel ih =>
    rw [printnum, printnum]
    split
    · rw [ih]
      cases printnum putch padc base fuel (num / base) (cInt (width - 1)) st with
      | error e => rfl
      | ok st' => exact congrArg Except.ok (hf _ _).symm
    · rw [putPad_hom hf]
      exact congrArg Except.ok (hf _ _).symm

theorem putString_hom (altflag : Bool) (p : List ℕ) (precision width : ℤ) (st : σ) :
    putString putch' altflag p precision width (f st) =
      ((putString putch altflag p precision width st).1,
        f (putString putch altflag p precision width st).2) := by
  induction p generalizing precision width st with
  | nil => rfl
  | cons c p ih =>
    rw [putString, putString]
    split
    · simp only [← hf, ih]
    · rfl

theorem printString_hom (e : Escape) (s : Option (List ℕ)) (st : σ) :
    printString putch' e s (f st) = f (printString putch e s st) := by
  simp only [printString]
  split
  · rw [putPad_hom hf, putString_hom hf, putPad_hom hf]
  · rw [putString_hom hf, putPad_hom hf]

section Nested

variable {nested : List ℕ → List Arg → σ → Res σ} {nested' : List ℕ → List Arg → τ → Res τ}
  (hnested : ∀ fmt ap st, nested' fmt ap (f st) = (nested fmt ap st).map f)

include hnested

omit hf in
theorem printError_hom (v : BitVec 32) (st : σ) :
    printError nested' v (f st) = (printError nested v st).map f := by
  simp only [printError]
  generalize (if v.toInt < 0 then cInt (-v.toInt) else v.toInt) = err
  by_cases hmax : err > maxError
  · rw [if_pos hmax, if_pos hmax, hnested]
  · rw [if_neg hmax, if_neg hmax]
    by_cases hneg : err < 0
    · rw [if_pos hneg, if_pos hneg]
      rfl
    · rw [if_neg hneg, if_neg hneg]
      cases errorString err.toNat with
      | none => exact hnested _ _ _
      | some p => exact hnested _ _ _

end Nested

/-- What comes behind the sign or the prefix of a number. -/
theorem printNumber_hom (e : Escape) (base num i : ℕ) (ap : List Arg) (st : σ) :
    (printNumber putch' e base num (f st) >>= fun st => .ok (i, ap, st)) =
      Except.map (fun r : ℕ × List Arg × σ => (r.1, r.2.1, f r.2.2))
        (printNumber putch e base num st >>= fun st => .ok (i, ap, st)) := by
  rw [printNumber, printNumber, printnum_hom hf]
  cases printnum putch e.padc base 64 num e.width st <;> rfl

theorem convert_hom {nested : List ℕ → List Arg → σ → Res σ}
    {nested' : List ℕ → List Arg → τ → Res τ}
    (hnested : ∀ fmt ap st, nested' fmt ap (f st) = (nested fmt ap st).map f) (fmt : List ℕ)
    (ch i : ℕ) (ap : List Arg) (e : Escape) (st : σ) :
    convert putch' nested' fmt ch i ap e (f st) =
      Except.map (fun r : ℕ × List Arg × σ => (r.1, r.2.1, f r.2.2))
        (convert putch nested fmt ch i ap e st) := by
  simp only [convert]
  split
  · rw [Res.map_bind]
    exact Res.bind_congr fun _ => congrArg (fun st => Except.ok (_, _, st)) (hf _ _).symm
  · rw [Res.map_bind]
    refine Res.bind_congr fun r => ?_
    rw [printError_hom hnested]
    cases printError nested r.1 st <;> rfl
  · rw [Res.map_bind]
    refine Res.bind_congr fun r => ?_
    rw [printString_hom hf]
    rfl
  · rw [Res.map_bind]
    refine Res.bind_congr fun r => ?_
    have hsign : (if r.1 < 0 then putch' 45 (f st) else f st) =
        f (if r.1 < 0 then putch 45 st else st) := by
      split
      · exact (hf _ _).symm
      · rfl
    rw [hsign]
    exact printNumber_hom hf _ _ _ _ _ _
  · rw [Res.map_bind]
    exact Res.bind_congr fun r => printNumber_hom hf _ _ _ _ _ _
  · rw [Res.map_bind]
    exact Res.bind_congr fun r => printNumber_hom hf _ _ _ _ _ _
  · rw [Res.map_bind, ← hf, ← hf]
    exact Res.bind_congr fun r => printNumber_hom hf _ _ _ _ _ _
  · rw [Res.map_bind]
    exact Res.bind_congr fun r => printNumber_hom hf _ _ _ _ _ _
  · rw [← hf]
    rfl
  · rw [Res.map_bind, ← hf]
    rfl

/-- **The formatter respects what respects `putch`.** -/
theorem fmtLoop_hom (fuel : ℕ) (fmt : List ℕ) (i : ℕ) (ap : List Arg) (st : σ) :
    fmtLoop putch' fuel fmt i ap (f st) = (fmtLoop putch fuel fmt i ap st).map f := by
  induction fuel generalizing fmt i ap st with
  | zero => rfl
  | succ fuel ih =>
    rw [fmtLoop, fmtLoop, Res.map_bind]
    refine Res.bind_congr fun ch => ?_
    split
    · split
      · rfl
      · rw [← hf]
        exact ih _ _ _ _
    · rw [Res.map_bind]
      refine Res.bind_congr fun ⟨ch', j, ap', e⟩ => ?_
      have hconv : convert putch' (fun fmt ap st => fmtLoop putch' fuel fmt 0 ap st) fmt ch' j ap' e
          (f st) = _ := convert_hom hf (fun fmt ap st => ih fmt 0 ap st) fmt ch' j ap' e st
      rw [Res.map_bind]
      simp only [hconv, Res.bind_map]
      exact Res.bind_congr fun r' => ih _ _ _ _

end Hom

section Emit

variable {σ : Type} (putch : ℤ → σ → σ)

/-- `putch`, for one character after the other. -/
def emit (O : List ℤ) (st : σ) : σ := O.foldl (fun st c => putch c st) st

@[simp] theorem emit_nil (st : σ) : emit putch [] st = st := rfl

@[simp] theorem emit_cons (c : ℤ) (O : List ℤ) (st : σ) :
    emit putch (c :: O) st = emit putch O (putch c st) := rfl

theorem emit_append (O O' : List ℤ) (st : σ) :
    emit putch (O ++ O') st = emit putch O' (emit putch O st) := by
  rw [emit, List.foldl_append]
  rfl

theorem putPad_eq (padc : ℤ) (n : ℕ) (st : σ) :
    putPad putch padc n st = emit putch (List.replicate n padc) st := by
  induction n generalizing st with
  | zero => rfl
  | succ n ih => rw [putPad, ih, List.replicate_succ, emit_cons]

/-- A `putch` that collects. -/
theorem emit_collect (O st : List ℤ) : emit (fun c O => O ++ [c]) O st = st ++ O := by
  induction O generalizing st with
  | nil => rw [emit_nil, List.append_nil]
  | cons c O ih => rw [emit_cons, ih, List.append_assoc, List.singleton_append]

variable [Overflow]

/-- What the formatter prints. -/
def fmtOutput (fmt : List ℕ) (ap : List Arg) : Res (List ℤ) :=
  vprintfmt (fun c O => O ++ [c]) fmt ap []

/-- **`putch` gets the characters of `fmtOutput`**, in their order. -/
theorem vprintfmt_eq (fmt : List ℕ) (ap : List Arg) (st : σ) :
    vprintfmt putch fmt ap st = (fmtOutput fmt ap).map fun O => emit putch O st := by
  rw [vprintfmt, fmtOutput, vprintfmt]
  refine fmtLoop_hom (f := fun O => emit putch O st) (fun c O => ?_) _ _ _ _ []
  rw [emit_append]
  rfl

end Emit

end Ucore
