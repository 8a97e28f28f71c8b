import Ucore.Console.Input
import Ucore.Fmt.Number
import Ucore.Lib.Client

/-!
# Reading a line

`readline` of `lib/readline.c` as a client of the console, which it asks for characters and gives
characters to.  A line is edited by `editKey`, and `typed` is what a terminal makes of the echo.
`readline_edits` says that the buffer holds the edited line at the end, and that the terminal shows
the same line behind whatever it showed before.

* `editKey` is the specification of a key: it is appended if there is room, a backspace takes the
  last one away, and any other key does nothing.  `echo` are the characters that are echoed for it.
* `typed_echo` — the terminal shows the line after each key, and nothing in front of it is erased,
  since a backspace on an empty line is not echoed.
* `run_getchar` — `getchar` asks again as long as it gets 0.
* `run_readlineKey` and `run_readlineKey_end` — a round of the loop is a key of the specification.
* `readlineLoop_spec` — the loop, by induction on the input.

The console is a `Tty` here, two lists of characters.  `Ucore.Console.Reading` puts the real one in
its place.
-/

set_option autoImplicit false

namespace Ucore

/-- The calls of `readline`. -/
inductive ConsCall where
  | getc
  | putc (c : ℤ)

/-- The answers. -/
abbrev ConsCall.Ans : ConsCall → Type
  | .getc => ℤ
  | .putc _ => Unit

open ConsCall

/-- A client of the console. -/
abbrev Reader (α : Type) := Client ConsCall Ans α

namespace Reader

/-- `cons_getc` -/
def consGetc : Reader ℤ := Client.send (A := Ans) .getc

/-- `cputchar` -/
def cputchar (c : ℤ) : Reader Unit := Client.send (A := Ans) (.putc c)

/-- `getchar` -/
def getchar : ℕ → Reader ℤ
  | 0 => .stop .fuel
  | fuel + 1 => do
    let c ← consGetc
    if c = 0 then getchar fuel else return c

end Reader

open Reader

/-- `BUFSIZE` -/
def readBufSize : ℕ := 1024

/-- An assignment to `buf[i]`. -/
def setBuf (buf : ℕ → ℕ) (i : ℕ) (c : ℤ) : Res (ℕ → ℕ) :=
  if i < readBufSize then .ok (Function.update buf i (c % 2 ^ 8).toNat) else .error .memory

/-- The loop of `readline`. -/
def readlineLoop : ℕ → ℕ → (ℕ → ℕ) → Reader (Option (ℕ → ℕ))
  | 0, _, _ => .stop .fuel
  | fuel + 1, i, buf => do
    let c ← getchar (fuel + 1)
    if c < 0 then return none
    else if c ≥ 32 ∧ i < readBufSize - 1 then
      cputchar c
      let buf ← Client.lift (setBuf buf i c)
      readlineLoop fuel (i + 1) buf
    else if c = 8 ∧ i > 0 then
      cputchar c
      readlineLoop fuel (i - 1) buf
    else if c = 10 ∨ c = 13 then
      cputchar c
      let buf ← Client.lift (setBuf buf i 0)
      return some buf
    else readlineLoop fuel i buf

/-- What `cprintf` puts. -/
def putAll : List ℤ → Reader Unit
  | [] => return ()
  | c :: cs => do
    cputchar c
    putAll cs

/-- `readline`, with the contents of `buf`. -/
def readline [Overflow] (fuel : ℕ) (prompt : Option (List ℕ)) (buf : ℕ → ℕ) :
    Reader (Option (ℕ → ℕ)) := do
  match prompt with
  | some s =>
    -- `cprintf("%s", prompt)`
    let out ← Client.lift (fmtOutput [37, 115] [.str (some s)])
    putAll out
  | none => pure ()
  readlineLoop fuel 0 buf

/-! ## Editing -/

/-- A line of at most `limit` characters, and a key. -/
def editKey (limit : ℕ) (line : List ℤ) (c : ℤ) : List ℤ :=
  if c ≥ 32 ∧ line.length < limit then line ++ [c]
  else if c = 8 then line.dropLast
  else line

/-- What a terminal shows. -/
def typed (shown : List ℤ) (c : ℤ) : List ℤ := if c = 8 then shown.dropLast else shown ++ [c]

/-- The characters that are echoed. -/
def echo (limit : ℕ) (line : List ℤ) (c : ℤ) : List ℤ :=
  if c ≥ 32 ∧ line.length < limit ∨ c = 8 ∧ line ≠ [] then [c] else []

/-- **The terminal shows the line**, and nothing in front of it is erased. -/
theorem typed_echo (limit : ℕ) (shown line : List ℤ) (c : ℤ) :
    (echo limit line c).foldl typed (shown ++ line) = shown ++ editKey limit line c := by
  rw [echo, editKey]
  by_cases hput : c ≥ 32 ∧ line.length < limit
  · have hne : c ≠ 8 := by omega
    rw [if_pos (.inl hput), if_pos hput, List.foldl_cons, List.foldl_nil, typed, if_neg hne,
      List.append_assoc]
  · rw [if_neg hput]
    by_cases hc : c = 8
    · by_cases hline : line = []
      · have hno : ¬ (c ≥ 32 ∧ line.length < limit ∨ c = 8 ∧ line ≠ []) :=
          fun h => h.elim hput fun h => h.2 hline
        rw [if_neg hno, if_pos hc, hline, List.foldl_nil, List.dropLast_nil]
      · rw [if_pos (.inr ⟨hc, hline⟩), if_pos hc, List.foldl_cons, List.foldl_nil, typed, if_pos hc,
          List.dropLast_append_of_ne_nil hline]
    · rw [if_neg (by simp [hput, hc]), if_neg hc, List.foldl_nil]

/-- The line, and the echo of some keys. -/
def editKeys (limit : ℕ) : List ℤ → List ℤ → List ℤ × List ℤ
  | line, [] => (line, [])
  | line, c :: cs =>
    let r := editKeys limit (editKey limit line c) cs
    (r.1, echo limit line c ++ r.2)

theorem typed_echoes (limit : ℕ) (shown line cs : List ℤ) :
    (editKeys limit line cs).2.foldl typed (shown ++ line) =
      shown ++ (editKeys limit line cs).1 := by
  induction cs generalizing line with
  | nil => rfl
  | cons c cs ih => rw [editKeys, List.foldl_append, typed_echo, ih]

theorem editKeys_fst (limit : ℕ) (line cs : List ℤ) :
    (editKeys limit line cs).1 = cs.foldl (editKey limit) line := by
  induction cs generalizing line with
  | nil => rfl
  | cons c cs ih => exact ih _

theorem editKey_length {limit : ℕ} {line : List ℤ} (h : line.length ≤ limit) (c : ℤ) :
    (editKey limit line c).length ≤ limit := by
  rw [editKey]
  split
  · next hput =>
    rw [List.length_append, List.length_singleton]
    exact hput.2
  · split
    · rw [List.length_dropLast]
      omega
    · exact h

/-! ## The console as two lists -/

/-- What `cons_getc` will return, 0 for nothing yet, and what has been put. -/
structure Tty where
  inp : List ℤ
  out : List ℤ

/-- The console.  When nothing comes any more a reader waits forever. -/
def ttyHandler : Client.Handler Ans Tty
  | .getc, ⟨[], _⟩ => .error .fuel
  | .getc, ⟨c :: inp, out⟩ => .ok (c, ⟨inp, out⟩)
  | .putc c, s => .ok ((), ⟨s.inp, s.out ++ [c]⟩)

/-- The characters of the input. -/
def chars (inp : List ℤ) : List ℤ := inp.filter fun c => c ≠ 0

section Run

variable {α : Type} (inp out : List ℤ)

theorem run_cputchar (c : ℤ) (k : Reader α) (s : Tty) :
    (cputchar c >>= fun _ => k).run ttyHandler s = k.run ttyHandler ⟨s.inp, s.out ++ [c]⟩ := by
  rw [Client.run_bind, cputchar, Client.run_send]
  rfl

theorem run_lift_ok {β : Type} {x : Res β} {b : β} (hx : x = .ok b) (k : β → Reader α) (s : Tty) :
    (Client.lift x >>= k).run ttyHandler s = (k b).run ttyHandler s := by
  rw [hx, Client.run_bind]
  rfl

/-- **`getchar`** skips the 0s. -/
theorem run_getchar {fuel : ℕ} {inp : List ℤ} {c : ℤ} {cs : List ℤ} (hlen : inp.length ≤ fuel)
    (hc : chars inp = c :: cs) : ∃ rest, (getchar fuel).run ttyHandler ⟨inp, out⟩ =
      .ok (c, ⟨rest, out⟩) ∧ chars rest = cs ∧ rest.length < inp.length := by
  induction inp generalizing fuel with
  | nil => cases hc
  | cons a inp ih =>
    rw [List.length_cons] at hlen
    obtain ⟨fuel, rfl⟩ : ∃ n, fuel = n + 1 := ⟨fuel - 1, by omega⟩
    have hrun : (getchar (fuel + 1)).run ttyHandler ⟨a :: inp, out⟩ =
        (if a = 0 then getchar fuel else pure a).run ttyHandler ⟨inp, out⟩ := rfl
    by_cases ha : a = 0
    · have hskip : chars (a :: inp) = chars inp := List.filter_cons_of_neg (by simp [ha])
      obtain ⟨rest, hrest, hcs, hlt⟩ := ih (Nat.le_of_succ_le_succ hlen) (hskip.symm.trans hc)
      refine ⟨rest, by rw [hrun, if_pos ha, hrest], hcs, ?_⟩
      rw [List.length_cons]
      exact Nat.lt_succ_of_lt hlt
    · have htake : chars (a :: inp) = a :: chars inp := List.filter_cons_of_pos (by simp [ha])
      rw [htake, List.cons.injEq] at hc
      refine ⟨inp, ?_, hc.2, by rw [List.length_cons]; omega⟩
      rw [hrun, if_neg ha, hc.1]
      rfl

end Run

/-! ## The buffer -/

/-- A character as it is stored. -/
def byteOf (c : ℤ) : ℕ := (c % 2 ^ 8).toNat

/-- The buffer begins with the line. -/
def Begins (buf : ℕ → ℕ) (line : List ℤ) : Prop :=
  (List.range line.length).map buf = line.map byteOf

theorem Begins.put {buf : ℕ → ℕ} {line : List ℤ} (h : Begins buf line) (c : ℤ) :
    Begins (Function.update buf line.length (byteOf c)) (line ++ [c]) := by
  rw [Begins, List.length_append, List.length_singleton, List.range_succ, List.map_append,
    List.map_append, List.map_singleton, List.map_singleton, Function.update_self, ← h]
  congr 1
  refine List.map_congr_left fun k hk => Function.update_of_ne ?_ _ _
  exact ne_of_lt (List.mem_range.1 hk)

theorem Begins.dropLast {buf : ℕ → ℕ} {line : List ℤ} (h : Begins buf line) :
    Begins buf line.dropLast := by
  have hrange : List.range (line.length - 1) = (List.range line.length).dropLast := by
    rw [List.dropLast_eq_take, List.length_range, List.take_range, Nat.min_eq_left (Nat.sub_le _ 1)]
  rw [Begins, List.length_dropLast, List.map_dropLast, ← h, hrange, List.map_dropLast]

/-- The keys at which a line ends. -/
def EndsLine (c : ℤ) : Prop := c < 0 ∨ c = 10 ∨ c = 13

instance (c : ℤ) : Decidable (EndsLine c) :=
  inferInstanceAs (Decidable (c < 0 ∨ c = 10 ∨ c = 13))

/-- What `readline` returns for a line and the key behind it. -/
def Result (line : List ℤ) (c : ℤ) (r : Option (ℕ → ℕ)) : Prop :=
  if c < 0 then r = none
  else ∃ buf, r = some buf ∧ Begins buf line ∧ buf line.length = 0

/-- One round of the loop, behind `getchar`. -/
def readlineKey (fuel i : ℕ) (buf : ℕ → ℕ) (c : ℤ) : Reader (Option (ℕ → ℕ)) :=
  if c < 0 then return none
  else if c ≥ 32 ∧ i < readBufSize - 1 then do
    cputchar c
    let buf ← Client.lift (setBuf buf i c)
    readlineLoop fuel (i + 1) buf
  else if c = 8 ∧ i > 0 then do
    cputchar c
    readlineLoop fuel (i - 1) buf
  else if c = 10 ∨ c = 13 then do
    cputchar c
    let buf ← Client.lift (setBuf buf i 0)
    return some buf
  else readlineLoop fuel i buf

theorem readlineLoop_succ (fuel i : ℕ) (buf : ℕ → ℕ) : readlineLoop (fuel + 1) i buf =
    getchar (fuel + 1) >>= readlineKey fuel i buf := rfl

/-- The key that ends the line. -/
theorem run_readlineKey_end (fuel : ℕ) {line : List ℤ} {buf : ℕ → ℕ} {nl : ℤ} (hnl : EndsLine nl)
    (hbuf : Begins buf line) (hline : line.length ≤ readBufSize - 1) (s : Tty) :
    ∃ r, (readlineKey fuel line.length buf nl).run ttyHandler s =
      .ok (r, ⟨s.inp, s.out ++ if nl < 0 then [] else [nl]⟩) ∧ Result line nl r := by
  rw [readlineKey]
  by_cases hneg : nl < 0
  · refine ⟨none, ?_, by rw [Result, if_pos hneg]⟩
    rw [if_pos hneg, if_pos hneg, List.append_nil]
    rfl
  · have hend : nl = 10 ∨ nl = 13 := hnl.resolve_left hneg
    have hset : setBuf buf line.length 0 = .ok (Function.update buf line.length 0) := by
      have hlt : line.length < readBufSize := Nat.lt_of_le_of_lt hline (by decide)
      exact if_pos hlt
    have hbegins : Begins (Function.update buf line.length 0) line := by
      rw [Begins, ← hbuf]
      refine List.map_congr_left fun k hk => Function.update_of_ne ?_ _ _
      exact ne_of_lt (List.mem_range.1 hk)
    refine ⟨some (Function.update buf line.length 0), ?_, ?_⟩
    · rw [if_neg hneg, if_neg (by omega), if_neg (by omega), if_pos hend, run_cputchar,
        run_lift_ok hset, if_neg hneg]
      rfl
    · rw [Result, if_neg hneg]
      exact ⟨_, rfl, hbegins, Function.update_self _ _ _⟩

/-- Any other key edits the line. -/
theorem run_readlineKey (fuel : ℕ) {line : List ℤ} {buf : ℕ → ℕ} {c : ℤ} (hc : ¬ EndsLine c)
    (hbuf : Begins buf line) (hline : line.length ≤ readBufSize - 1) (s : Tty) :
    ∃ buf', (readlineKey fuel line.length buf c).run ttyHandler s =
        (readlineLoop fuel (editKey (readBufSize - 1) line c).length buf').run ttyHandler
          ⟨s.inp, s.out ++ echo (readBufSize - 1) line c⟩ ∧
      Begins buf' (editKey (readBufSize - 1) line c) := by
  have hneg : ¬ c < 0 := fun h => hc (.inl h)
  have hend : ¬ (c = 10 ∨ c = 13) := fun h => hc (.inr h)
  rw [readlineKey, editKey, echo, if_neg hneg]
  by_cases hput : c ≥ 32 ∧ line.length < readBufSize - 1
  · have hlt : line.length < readBufSize := Nat.lt_of_le_of_lt hline (by decide)
    have hset : setBuf buf line.length c = .ok (Function.update buf line.length (byteOf c)) :=
      if_pos hlt
    refine ⟨Function.update buf line.length (byteOf c), ?_, ?_⟩
    · rw [if_pos hput, if_pos hput, if_pos (.inl hput), run_cputchar, run_lift_ok hset,
        List.length_append, List.length_singleton]
    · rw [if_pos hput]
      exact hbuf.put c
  · refine ⟨buf, ?_, ?_⟩
    · rw [if_neg hput, if_neg hput]
      by_cases hdel : c = 8 ∧ line.length > 0
      · have hne : line ≠ [] := List.ne_nil_of_length_pos hdel.2
        rw [if_pos hdel, if_pos hdel.1, if_pos (.inr ⟨hdel.1, hne⟩), run_cputchar,
          List.length_dropLast]
      · have hno : ¬ (c ≥ 32 ∧ line.length < readBufSize - 1 ∨ c = 8 ∧ line ≠ []) := by
          rintro (h | ⟨h, hne⟩)
          · exact hput h
          · exact hdel ⟨h, List.length_pos_of_ne_nil hne⟩
        rw [if_neg hdel, if_neg hend, if_neg hno, List.append_nil]
        by_cases hc8 : c = 8
        · have hnil : line = [] := by
            by_contra hne
            exact hno (.inr ⟨hc8, hne⟩)
          rw [if_pos hc8, hnil]
          rfl
        · rw [if_neg hc8]
    · rw [if_neg hput]
      by_cases hc8 : c = 8
      · rw [if_pos hc8]
        exact hbuf.dropLast
      · rw [if_neg hc8]
        exact hbuf

/-- **The loop of `readline`.** -/
theorem readlineLoop_spec (cs : List ℤ) {fuel : ℕ} {inp out line : List ℤ} {buf : ℕ → ℕ} {nl : ℤ}
    {post : List ℤ} (hlen : inp.length < fuel) (hin : chars inp = cs ++ nl :: post)
    (hcs : ∀ c ∈ cs, ¬ EndsLine c) (hnl : EndsLine nl) (hbuf : Begins buf line)
    (hline : line.length ≤ readBufSize - 1) :
    ∃ r rest, (readlineLoop fuel line.length buf).run ttyHandler ⟨inp, out⟩ = .ok (r, ⟨rest,
        out ++ (editKeys (readBufSize - 1) line cs).2 ++ if nl < 0 then [] else [nl]⟩) ∧
      chars rest = post ∧ Result (editKeys (readBufSize - 1) line cs).1 nl r := by
  induction cs generalizing fuel inp out line buf with
  | nil =>
    obtain ⟨fuel, rfl⟩ : ∃ n, fuel = n + 1 := ⟨fuel - 1, by omega⟩
    obtain ⟨rest, hget, hrest, -⟩ := run_getchar out (Nat.le_of_lt hlen) hin
    obtain ⟨r, hrun, hr⟩ := run_readlineKey_end fuel hnl hbuf hline ⟨rest, out⟩
    refine ⟨r, rest, ?_, hrest, hr⟩
    rw [readlineLoop_succ, Client.run_bind, hget, Res.ok_bind, hrun, editKeys, List.append_nil]
  | cons c cs ih =>
    obtain ⟨fuel, rfl⟩ : ∃ n, fuel = n + 1 := ⟨fuel - 1, by omega⟩
    obtain ⟨mid, hget, hmid, hlt⟩ := run_getchar out (Nat.le_of_lt hlen) hin
    obtain ⟨buf', hrun, hbuf'⟩ := run_readlineKey fuel (hcs c (List.mem_cons_self ..)) hbuf hline
      ⟨mid, out⟩
    have hlen' : mid.length < fuel := by omega
    obtain ⟨r, rest, hloop, hrest, hr⟩ := ih hlen' hmid
      (fun d hd => hcs d (List.mem_cons_of_mem c hd)) hbuf' (editKey_length hline c)
    refine ⟨r, rest, ?_, hrest, hr⟩
    rw [readlineLoop_succ, Client.run_bind, hget, Res.ok_bind, hrun, hloop, editKeys,
      List.append_assoc out]

/-! ## The prompt -/

theorem putString_plain [Overflow] {p : List ℕ} {width : ℤ} (hwidth : width < 0)
    (hlen : -2 ^ 31 ≤ width - p.length) (O : List ℤ) :
    putString (fun c O => O ++ [c]) false p (-1) width O =
      (width - p.length, O ++ p.map schar) := by
  induction p generalizing width O with
  | nil => simp [putString]
  | cons c p ih =>
    rw [List.length_cons] at hlen
    push_cast at hlen
    have hsub : cInt (width - 1) = width - 1 := cInt_eq (by omega) (by omega)
    have hplain : ¬ ((false = true) ∧ (schar c < 32 ∨ schar c > 126)) := fun h => by cases h.1
    have hneg : (-1 : ℤ) < 0 ∨ (-1 : ℤ) - 1 ≥ 0 := .inl (by decide)
    rw [putString, if_pos hneg, if_neg hplain, if_pos (by decide), hsub,
      ih (by omega) (by omega), List.append_assoc, List.map_cons, List.length_cons]
    push_cast
    rw [show width - 1 - (p.length : ℤ) = width - (p.length + 1) by omega]
    rfl

/-- `cprintf("%s", s)` -/
theorem fmtOutput_string [Overflow] {s : List ℕ} (hs : s.length < 2 ^ 31) :
    fmtOutput [37, 115] [.str (some s)] = .ok (s.map schar) := by
  have hrun : fmtOutput [37, 115] [.str (some s)] =
      .ok (printString (fun c O => O ++ [c]) Escape.init (some s) []) := rfl
  have hwidth : ¬ (Escape.init.width > 0 ∧ Escape.init.padc ≠ 45) := by decide
  have hfit : -2 ^ 31 ≤ (-1 : ℤ) - s.length := by omega
  have hput := putString_plain (by decide) hfit []
  have hend : (-1 - (s.length : ℤ)).toNat = 0 := by omega
  rw [hrun, printString, if_neg hwidth]
  simp only [if_neg hwidth, Option.getD_some]
  change Except.ok (putPad _ 32 (putString (fun c O => O ++ [c]) false s (-1) (-1) []).1.toNat
    (putString (fun c O => O ++ [c]) false s (-1) (-1) []).2) = _
  rw [hput, hend]
  rfl

/-- What is printed for a prompt. -/
def promptChars (prompt : Option (List ℕ)) : List ℤ := (prompt.getD []).map schar

theorem run_putAll (cs : List ℤ) (s : Tty) :
    (putAll cs).run ttyHandler s = .ok ((), ⟨s.inp, s.out ++ cs⟩) := by
  induction cs generalizing s with
  | nil =>
    rw [List.append_nil]
    rfl
  | cons c cs ih =>
    rw [putAll, run_cputchar, ih]
    simp only [List.append_assoc, List.singleton_append]

theorem run_readline [Overflow] {prompt : Option (List ℕ)}
    (hprompt : ∀ s ∈ prompt, s.length < 2 ^ 31) (fuel : ℕ) (buf : ℕ → ℕ) (s : Tty) :
    (readline fuel prompt buf).run ttyHandler s =
      (readlineLoop fuel 0 buf).run ttyHandler ⟨s.inp, s.out ++ promptChars prompt⟩ := by
  cases prompt with
  | none =>
    rw [promptChars, Option.getD_none, List.map_nil, List.append_nil]
    rfl
  | some p =>
    have hp := fmtOutput_string (hprompt p rfl)
    have hrun : (readline fuel (some p) buf).run ttyHandler s =
        (Client.lift (fmtOutput [37, 115] [.str (some p)]) >>= fun out =>
          putAll out >>= fun _ => readlineLoop fuel 0 buf).run ttyHandler s := rfl
    rw [hrun, run_lift_ok hp, Client.run_bind, run_putAll, Res.ok_bind]
    rfl

theorem readline_spec [Overflow] {prompt : Option (List ℕ)}
    (hprompt : ∀ s ∈ prompt, s.length < 2 ^ 31) (buf : ℕ → ℕ) {inp cs post : List ℤ} {nl : ℤ}
    {fuel : ℕ} (hlen : inp.length < fuel) (hin : chars inp = cs ++ nl :: post)
    (hcs : ∀ c ∈ cs, ¬ EndsLine c) (hnl : EndsLine nl) :
    ∃ r rest, (readline fuel prompt buf).run ttyHandler ⟨inp, []⟩ = .ok (r, ⟨rest,
        promptChars prompt ++ (editKeys (readBufSize - 1) [] cs).2 ++
          if nl < 0 then [] else [nl]⟩) ∧
      chars rest = post ∧ Result (cs.foldl (editKey (readBufSize - 1)) []) nl r := by
  have hbuf : Begins buf [] := rfl
  obtain ⟨r, rest, hrun, hrest, hr⟩ :=
    @readlineLoop_spec cs fuel inp (promptChars prompt) [] buf nl post hlen hin hcs hnl hbuf
      (Nat.zero_le _)
  rw [editKeys_fst] at hr
  refine ⟨r, rest, ?_, hrest, hr⟩
  rw [run_readline hprompt, List.nil_append]
  exact hrun

/-- The prompt and the echo on a terminal. -/
theorem typed_readline (prompt : Option (List ℕ)) (limit : ℕ) (cs shown : List ℤ) :
    (promptChars prompt ++ (editKeys limit [] cs).2).foldl typed shown =
      (promptChars prompt).foldl typed shown ++ cs.foldl (editKey limit) [] := by
  have hecho := typed_echoes limit ((promptChars prompt).foldl typed shown) [] cs
  rw [List.append_nil] at hecho
  rw [List.foldl_append, hecho, editKeys_fst]

/-- **A line is read.**  For any input with a key that ends a line, and any 0s in between,
`readline` returns at that key and leaves what is behind it.  The buffer, in which it stays, holds
the keys before it as they have been edited, and a terminal with anything on it shows the prompt and
then the same line. -/
theorem readline_edits [Overflow] (prompt : Option (List ℕ)) (buf : ℕ → ℕ)
    (inp cs post : List ℤ) (nl : ℤ) (fuel : ℕ) (hprompt : ∀ s ∈ prompt, s.length < 2 ^ 31)
    (hlen : inp.length < fuel) (hin : chars inp = cs ++ nl :: post)
    (hcs : ∀ c ∈ cs, ¬ EndsLine c) (hnl : EndsLine nl) :
    ∃ r rest out, (readline fuel prompt buf).run ttyHandler ⟨inp, []⟩ =
        .ok (r, ⟨rest, out ++ if nl < 0 then [] else [nl]⟩) ∧
      chars rest = post ∧ Result (cs.foldl (editKey (readBufSize - 1)) []) nl r ∧
      ∀ shown, out.foldl typed shown =
        (promptChars prompt).foldl typed shown ++ cs.foldl (editKey (readBufSize - 1)) [] := by
  obtain ⟨r, rest, hrun, hrest, hr⟩ := readline_spec hprompt buf hlen hin hcs hnl
  exact ⟨r, rest, _, hrun, hrest, hr, typed_readline prompt _ cs⟩

/-- `ab`, a backspace and `c`, with a prompt. -/
theorem readline_edits_abc : letI := Overflow.wrapping
    ∃ buf rest out,
    (readline 9 (some [62]) fun _ => 0).run ttyHandler ⟨[97, 0, 98, 8, 0, 99, 10, 100], []⟩ =
      .ok (some buf, ⟨rest, out ++ [10]⟩) ∧
    chars rest = [100] ∧ (List.range 3).map buf = [97, 99, 0] ∧
      out.foldl typed [] = [62, 97, 99] := by
  let _ := Overflow.wrapping
  obtain ⟨r, rest, out, hrun, hrest, hr, hout⟩ := readline_edits (some [62]) (fun _ => 0)
    [97, 0, 98, 8, 0, 99, 10, 100] [97, 98, 8, 99] [100] 10 9 (by decide) (by decide) (by decide)
    (by decide) (.inr (.inl rfl))
  have hline : [97, 98, 8, 99].foldl (editKey (readBufSize - 1)) [] = [97, 99] := by decide
  rw [hline, Result, if_neg (by decide)] at hr
  obtain ⟨buf, rfl, hbuf, hzero⟩ := hr
  have hbytes : (List.range 2).map buf = [97, 99] := hbuf
  have hend : buf 2 = 0 := hzero
  refine ⟨buf, rest, out, hrun, hrest, ?_, (hout []).trans (by decide)⟩
  rw [List.range_succ, List.map_append, hbytes, List.map_singleton, hend]
  rfl

end Ucore
