import Ucore.Console.Defs
import Ucore.Lib.Circular

/-!
# Console input is a queue

Characters come from two devices.  An interrupt of either of them, and every call of `cons_getc`,
moves what the device has into the buffer, and `cons_getc` takes one character out.  A `Session` is
the console together with what it has been fed and what it has returned so far.  In between lies the
queue that the buffer holds: `Session.Inv` says that what was fed is what was returned followed by
that queue.  `Session.step_inv` shows that every step keeps it as long as fewer than `CONSBUFSIZE`
characters are unread, and the rest is induction on the steps.

* `Cons.Queue` says which queue the buffer holds, in the sense of `Ucore.Lib.Circular`.
  `consPut_spec` appends a character to it, and `consGet_spec` takes one out.
* `cons_intr` asks a device for characters until it has no more.  `IsDevice` is what it needs to
  know of one: that there is an end.  `IsDevice.consIntr_spec` then says that what the device has,
  without the zeros, is appended to the queue (`feed`).
* `serialFeed` and `kbdFeed` are what the two devices have.  For the keyboard this is not what has
  been typed but what the tables make of it, which may be nothing.
* `console_input_fifo` is the result: nothing is lost, doubled or reordered, the indexes stay inside
  of the buffer, and a read returns 0 only if nothing is unread.
-/

set_option autoImplicit false

namespace Ucore

/-! ## Feeding the buffer -/

section Feed

variable {δ : Type} {proc : δ → ℤ × δ} {size : δ → ℕ}

/-- What `proc` returns until it returns -1. -/
def procValues (proc : δ → ℤ × δ) : ℕ → δ → List ℤ
  | 0, _ => []
  | fuel + 1, d =>
    if (proc d).1 = -1 then [] else (proc d).1 :: procValues proc fuel (proc d).2

/-- The characters among it that are not 0. -/
def feed (proc : δ → ℤ × δ) (fuel : ℕ) (d : δ) : List ℤ :=
  (procValues proc fuel d).filter fun c => c ≠ 0

/-- `proc` returns a byte for each of the `size d` bytes that wait in the device, and then -1. -/
structure IsDevice (proc : δ → ℤ × δ) (size : δ → ℕ) : Prop where
  empty : ∀ d, size d = 0 → (proc d).1 = -1
  waiting : ∀ d n, size d = n + 1 → ∃ c : ℕ, c < 2 ^ 8 ∧ (proc d).1 = c ∧ size (proc d).2 = n

theorem feed_empty (fuel : ℕ) {d : δ} (h : (proc d).1 = -1) : feed proc fuel d = [] := by
  cases fuel with
  | zero => rfl
  | succ fuel => rw [feed, procValues, if_pos h, List.filter_nil]

theorem feed_waiting (fuel : ℕ) {d : δ} {c : ℕ} (h : (proc d).1 = c) :
    feed proc (fuel + 1) d = if c = 0 then feed proc fuel (proc d).2
      else (c : ℤ) :: feed proc fuel (proc d).2 := by
  have hne : (proc d).1 ≠ -1 := by omega
  rw [feed, procValues, if_neg hne, h]
  by_cases hc : c = 0
  · simp [hc, feed]
  · simp [hc, feed]

/-- The buffer holds the queue `q` of characters. -/
def Cons.Queue (s : Cons) (q : List ℕ) : Prop :=
  Circular.Holds consBufSize s.buf s.rpos s.wpos q

/-- A character other than 0 is appended to the queue. -/
theorem consPut_spec {s : Cons} {q : List ℕ} (h : s.Queue q) {c : ℕ} (hc : c < 2 ^ 8) (hc0 : c ≠ 0)
    (hlt : q.length + 1 < consBufSize) : ∃ s', consPut c s = .ok s' ∧ s'.Queue (q ++ [c]) := by
  have hcast : ((c : ℤ) % 2 ^ 8).toNat = c := by omega
  refine ⟨⟨Function.update s.buf s.wpos c, s.rpos, Circular.next consBufSize s.wpos⟩, ?_,
    h.push c hlt⟩
  rw [consPut, if_pos (by exact_mod_cast hc0), if_pos h.w_lt, hcast]
  rfl

/-- Draining a device appends its characters to the queue. -/
theorem IsDevice.whileLoop_feed (hdev : IsDevice proc size) (n : ℕ) :
    ∀ (d : δ) (s : Cons) (q : List ℕ), size d = n → s.Queue q →
      q.length + (feed proc (n + 1) d).length < consBufSize →
      ∃ st q', whileLoop (fun st : (ℤ × δ) × Cons => decide (st.1.1 ≠ -1))
          (fun st => do
            let s ← consPut st.1.1 st.2
            return (proc st.1.2, s))
          (n + 1) (proc d, s) = .ok st ∧ st.2.Queue (q ++ q') ∧
        q'.map ((↑) : ℕ → ℤ) = feed proc (n + 1) d := by
  induction n with
  | zero =>
    intro d s q hsize hq _
    have hend := hdev.empty d hsize
    refine ⟨(proc d, s), [], whileLoop_false (by simp [hend]), by simpa using hq, ?_⟩
    rw [feed_empty _ hend, List.map_nil]
  | succ n ih =>
    intro d s q hsize hq hlt
    obtain ⟨c, hc, hval, hrest⟩ := hdev.waiting d n hsize
    have hguard : decide ((proc d).1 ≠ -1) = true := by
      rw [hval]
      exact decide_eq_true (by omega)
    rw [feed_waiting _ hval] at hlt ⊢
    by_cases hc0 : c = 0
    · -- a 0, for a key that gives no character, is dropped
      rw [if_pos hc0] at hlt ⊢
      obtain ⟨st, q', hrun, hq', hfeed⟩ := ih (proc d).2 s q hrest hq hlt
      refine ⟨st, q', ?_, hq', hfeed⟩
      rw [← hrun]
      refine whileLoop_true hguard ?_
      simp [hval, hc0, consPut]
    · rw [if_neg hc0] at hlt ⊢
      rw [List.length_cons] at hlt
      obtain ⟨s', hput, hq'⟩ := consPut_spec hq hc hc0 (by omega)
      obtain ⟨st, q', hrun, hq'', hfeed⟩ := ih (proc d).2 s' (q ++ [c]) hrest hq' (by
        rw [List.length_append, List.length_singleton]
        omega)
      refine ⟨st, c :: q', ?_, by simpa using hq'', by rw [List.map_cons, hfeed]⟩
      rw [← hrun]
      refine whileLoop_true hguard ?_
      rw [hval, hput]
      rfl

/-- **`cons_intr` appends what the device has to the queue.** -/
theorem IsDevice.consIntr_spec (hdev : IsDevice proc size) {d : δ} {s : Cons} {q : List ℕ}
    (hq : s.Queue q) (hlt : q.length + (feed proc (size d + 1) d).length < consBufSize) :
    ∃ d' s' q', consIntr proc (size d + 1) d s = .ok (d', s') ∧ s'.Queue (q ++ q') ∧
      q'.map ((↑) : ℕ → ℤ) = feed proc (size d + 1) d := by
  obtain ⟨⟨⟨c, d'⟩, s'⟩, q', hrun, hq', hfeed⟩ := hdev.whileLoop_feed (size d) d s q rfl hq hlt
  refine ⟨d', s', q', ?_, hq', hfeed⟩
  rw [consIntr, hrun]
  rfl

end Feed

/-! ## The two devices -/

theorem isDevice_serial : IsDevice serialProcData List.length := by
  refine ⟨fun d h => ?_, fun d n h => ?_⟩
  · rw [List.length_eq_zero_iff.1 h]
    rfl
  · cases d with
    | nil => cases h
    | cons c rest =>
      have hlt : c.toNat < 2 ^ 8 := c.isLt
      refine ⟨if c.toNat = 127 then 8 else c.toNat, ?_, ?_, Nat.succ.inj h⟩
      · split
        · decide
        · exact hlt
      · rw [serialProcData]
        split <;> rfl

/-- An array of bytes holds bytes. -/
theorem byteTable_lt {l : List ℕ} {others : List (ℕ × ℕ)} (hl : ∀ c ∈ l, c < 2 ^ 8)
    (hothers : ∀ p ∈ others, p.2 < 2 ^ 8) (i : ℕ) : byteTable l others i < 2 ^ 8 := by
  rw [byteTable]
  cases hfind : others.lookup i with
  | some c =>
    obtain ⟨l₁, l₂, heq, -⟩ := List.lookup_eq_some_iff.1 hfind
    have hmem : (i, c) ∈ others := by simp [heq]
    exact hothers _ hmem
  | none =>
    rw [Option.getD_none, List.getD_eq_getElem?_getD]
    cases hget : l[i]? with
    | none => exact Nat.two_pow_pos 8
    | some c => exact hl c (List.mem_of_getElem? hget)

/-- The tables for characters hold bytes. -/
theorem charcode_lt (i : ℕ) (data : BitVec 8) : charcode i data.toNat < 2 ^ 8 := by
  match i with
  | 0 => exact byteTable_lt (by decide) (by decide) _
  | 1 => exact byteTable_lt (by decide) (by decide) _
  | _ + 2 => exact byteTable_lt (by decide) (by decide) _

theorem capslock_lt (p : Prop) [Decidable p] {c : ℕ} (h : c < 2 ^ 8) :
    (if p then swapCase c else c) < 2 ^ 8 := by
  have hswap : swapCase c < 2 ^ 8 := by
    rw [swapCase]
    split
    · omega
    · split <;> omega
  split
  · exact hswap
  · exact h

theorem kbdData_lt (shift : BitVec 32) (data : BitVec 8) : (kbdData shift data).1 < 2 ^ 8 := by
  simp only [kbdData]
  split
  · exact Nat.two_pow_pos 8
  · split
    · exact Nat.two_pow_pos 8
    · exact capslock_lt _ (charcode_lt _ _)

theorem isDevice_kbd : IsDevice kbdProcData fun k => k.data.length := by
  refine ⟨fun k h => ?_, fun k n h => ?_⟩
  · rw [kbdProcData, List.length_eq_zero_iff.1 h]
  · obtain ⟨data, shift, reboots⟩ := k
    cases data with
    | nil => cases h
    | cons b rest => exact ⟨_, kbdData_lt shift b, rfl, Nat.succ.inj h⟩

/-- What `serial_intr` moves into the buffer. -/
def serialFeed (s : Console) : List ℤ :=
  if s.serialExists then feed serialProcData (s.serial.length + 1) s.serial else []

/-- What `kbd_intr` moves into the buffer. -/
def kbdFeed (s : Console) : List ℤ := feed kbdProcData (s.kbd.data.length + 1) s.kbd

theorem serialIntr_spec {s : Console} {q : List ℕ} (hq : s.cons.Queue q)
    (hlt : q.length + (serialFeed s).length < consBufSize) :
    ∃ s' q', serialIntr s = .ok s' ∧ s'.kbd = s.kbd ∧ s'.cons.Queue (q ++ q') ∧
      q'.map ((↑) : ℕ → ℤ) = serialFeed s := by
  rw [serialIntr, serialFeed] at *
  split at hlt
  · next hex =>
    obtain ⟨d', c', q', hrun, hq', hfeed⟩ := isDevice_serial.consIntr_spec hq hlt
    refine ⟨{ s with serial := d', cons := c' }, q', ?_, rfl, hq', by rw [if_pos hex, hfeed]⟩
    rw [if_pos hex, hrun]
    rfl
  · next hex =>
    exact ⟨s, [], by rw [if_neg hex], rfl, by simpa using hq, by rw [if_neg hex, List.map_nil]⟩

theorem kbdIntr_spec {s : Console} {q : List ℕ} (hq : s.cons.Queue q)
    (hlt : q.length + (kbdFeed s).length < consBufSize) :
    ∃ s' q', kbdIntr s = .ok s' ∧ s'.cons.Queue (q ++ q') ∧
      q'.map ((↑) : ℕ → ℤ) = kbdFeed s := by
  obtain ⟨d', c', q', hrun, hq', hfeed⟩ := isDevice_kbd.consIntr_spec hq hlt
  refine ⟨{ s with kbd := d', cons := c' }, q', ?_, hq', hfeed⟩
  rw [kbdIntr, hrun]
  rfl

/-- The end of `cons_getc` takes the first character of the queue, or returns 0 if there is none. -/
theorem consGet_spec {s : Cons} {q : List ℕ} (hq : s.Queue q) :
    ∃ c s' q', consGet s = .ok (c, s') ∧ s'.Queue q' ∧
      (q = [] ∧ q' = [] ∧ c = 0 ∨ ∃ a : ℕ, q = a :: q' ∧ c = a) := by
  cases q with
  | nil =>
    have heq : s.rpos = s.wpos := hq.eq_iff.2 rfl
    exact ⟨0, s, [], by rw [consGet, if_neg (not_not_intro heq)], hq, .inl ⟨rfl, rfl, rfl⟩⟩
  | cons a q =>
    have hne : s.rpos ≠ s.wpos := fun heq => List.cons_ne_nil a q (hq.eq_iff.1 heq)
    obtain ⟨hget, hq'⟩ := Circular.Holds.pop hq
    refine ⟨a, ⟨s.buf, Circular.next consBufSize s.rpos, s.wpos⟩, q, ?_, hq', .inr ⟨a, rfl, rfl⟩⟩
    rw [consGet, if_pos hne, if_pos hq.r_lt, hget]
    rfl

/-! ## Whole sessions -/

/-- A byte arrives at a device, a device interrupts, or a character is read. -/
inductive InputEvent where
  | serialByte (b : BitVec 8)
  | kbdByte (b : BitVec 8)
  | serialIntr
  | kbdIntr
  | getc
  deriving DecidableEq, Repr

/-- The console, the characters other than 0 that it has been fed, and what `cons_getc` has
returned. -/
structure Session where
  console : Console
  fed : List ℤ
  returned : List ℤ

namespace Session

/-- The values other than 0 that `cons_getc` has returned. -/
def got (s : Session) : List ℤ := s.returned.filter fun c => c ≠ 0

/-- The console as it is at first. -/
def start (serialExists : Bool) : Session :=
  ⟨⟨⟨fun _ => 0, 0, 0⟩, serialExists, [], ⟨[], 0#32, 0⟩⟩, [], []⟩

/-- The characters that an event feeds into the buffer. -/
def incoming (s : Session) : InputEvent → List ℤ
  | .serialByte _ => []
  | .kbdByte _ => []
  | .serialIntr => serialFeed s.console
  | .kbdIntr => kbdFeed s.console
  | .getc => serialFeed s.console ++ kbdFeed s.console

/-- One event. -/
def step (s : Session) (e : InputEvent) : Res Session :=
  let c := s.console
  let fed := s.fed ++ s.incoming e
  match e with
  | .serialByte b => .ok ⟨{ c with serial := c.serial ++ [b] }, fed, s.returned⟩
  | .kbdByte b =>
    .ok ⟨{ c with kbd := { c.kbd with data := c.kbd.data ++ [b] } }, fed, s.returned⟩
  | .serialIntr => do
    let c ← Ucore.serialIntr c
    return ⟨c, fed, s.returned⟩
  | .kbdIntr => do
    let c ← Ucore.kbdIntr c
    return ⟨c, fed, s.returned⟩
  | .getc => do
    let (v, c) ← consGetc c
    return ⟨c, fed, s.returned ++ [v]⟩

/-- Any sequence of events. -/
def run (s : Session) (es : List InputEvent) : Res Session := es.foldlM step s

/-- The reader keeps up: at no point of the run are `CONSBUFSIZE` characters unread. -/
def KeepsUp : Session → List InputEvent → Prop
  | _, [] => True
  | s, e :: es =>
    s.fed.length + (s.incoming e).length < s.got.length + consBufSize ∧
      match s.step e with
      | .ok s' => KeepsUp s' es
      | .error _ => True

/-- What was fed is what was returned, and then the queue that the buffer holds. -/
structure Inv (s : Session) : Prop where
  fed_ne : ∀ c ∈ s.fed, c ≠ 0
  queue : ∃ q : List ℕ, s.console.cons.Queue q ∧ s.fed = s.got ++ q.map ((↑) : ℕ → ℤ)

theorem inv_start (serialExists : Bool) : (start serialExists).Inv :=
  ⟨nofun, [], Circular.Holds.nil (show 0 < consBufSize by decide), rfl⟩

theorem feed_ne {δ : Type} {proc : δ → ℤ × δ} {fuel : ℕ} {d : δ} :
    ∀ c ∈ feed proc fuel d, c ≠ 0 := by
  intro c hc
  simpa using (List.mem_filter.1 hc).2

theorem incoming_ne (s : Session) (e : InputEvent) : ∀ c ∈ s.incoming e, c ≠ 0 := by
  have hserial : ∀ c ∈ serialFeed s.console, c ≠ 0 := by
    intro c hc
    rw [serialFeed] at hc
    split at hc
    · exact feed_ne c hc
    · cases hc
  cases e with
  | serialByte b => nofun
  | kbdByte b => nofun
  | serialIntr => exact hserial
  | kbdIntr => exact feed_ne
  | getc =>
    intro c hc
    rcases List.mem_append.1 hc with hc | hc
    · exact hserial c hc
    · exact feed_ne c hc

/-- A session after something has been fed. -/
theorem Inv.fed {s : Session} (h : s.Inv) (e : InputEvent) {c : Console} {q q' : List ℕ}
    (hs : s.fed = s.got ++ q.map ((↑) : ℕ → ℤ)) (hq' : c.cons.Queue (q ++ q'))
    (hfeed : q'.map ((↑) : ℕ → ℤ) = s.incoming e) :
    Inv ⟨c, s.fed ++ s.incoming e, s.returned⟩ := by
  refine ⟨fun v hv => ?_, q ++ q', hq', ?_⟩
  · rcases List.mem_append.1 hv with hv | hv
    · exact h.fed_ne v hv
    · exact s.incoming_ne e v hv
  · change s.fed ++ _ = s.got ++ _
    rw [List.map_append, hfeed, hs, List.append_assoc]

/-- **One event**, if the buffer does not become full.  A read returns 0 only if nothing is
unread. -/
theorem step_inv {s : Session} (h : s.Inv) (e : InputEvent)
    (hlt : s.fed.length + (s.incoming e).length < s.got.length + consBufSize) :
    ∃ s', s.step e = .ok s' ∧ s'.Inv ∧
      (e = .getc → s'.returned.getLast? = some 0 → s'.got = s'.fed) := by
  obtain ⟨q, hq, hfed⟩ := h.queue
  have hlen : q.length + (s.incoming e).length < consBufSize := by
    rw [hfed, List.length_append, List.length_map] at hlt
    omega
  have hq0 : s.console.cons.Queue (q ++ []) := by rwa [List.append_nil]
  cases e with
  | serialByte b => exact ⟨_, rfl, h.fed (.serialByte b) hfed hq0 rfl, nofun⟩
  | kbdByte b => exact ⟨_, rfl, h.fed (.kbdByte b) hfed hq0 rfl, nofun⟩
  | serialIntr =>
    obtain ⟨c, q', hrun, -, hq', hfeed⟩ := serialIntr_spec hq hlen
    exact ⟨_, by rw [step, hrun]; rfl, h.fed .serialIntr hfed hq' hfeed, nofun⟩
  | kbdIntr =>
    obtain ⟨c, q', hrun, hq', hfeed⟩ := kbdIntr_spec hq hlen
    exact ⟨_, by rw [step, hrun]; rfl, h.fed .kbdIntr hfed hq' hfeed, nofun⟩
  | getc =>
    rw [incoming, List.length_append] at hlen
    obtain ⟨c₁, q₁, hserial, hkbd, hq₁, hfeed₁⟩ := serialIntr_spec hq (by omega)
    have hlen₁ : (q ++ q₁).length + (kbdFeed c₁).length < consBufSize := by
      have hq₁len : q₁.length = (serialFeed s.console).length := by
        rw [← hfeed₁, List.length_map]
      rw [List.length_append, kbdFeed, hkbd]
      rw [kbdFeed] at hlen
      omega
    obtain ⟨c₂, q₂, hrun, hq₂, hfeed₂⟩ := kbdIntr_spec hq₁ hlen₁
    have hin : (q₁ ++ q₂).map ((↑) : ℕ → ℤ) = s.incoming .getc := by
      rw [List.map_append, hfeed₁, hfeed₂, incoming, kbdFeed, kbdFeed, hkbd]
    rw [List.append_assoc] at hq₂
    have hmid := h.fed .getc hfed hq₂ hin
    have hfed' : s.fed ++ s.incoming .getc = s.got ++ (q ++ (q₁ ++ q₂)).map ((↑) : ℕ → ℤ) := by
      rw [List.map_append, hin, hfed, List.append_assoc]
    obtain ⟨v, c₃, q₃, hget, hq₃, hcase⟩ := consGet_spec hq₂
    have hstep : s.step .getc = .ok ⟨{ c₂ with cons := c₃ }, s.fed ++ s.incoming .getc,
        s.returned ++ [v]⟩ := by
      rw [step]
      simp only [consGetc, hserial, hrun, hget, Res.ok_bind, Res.pure_eq]
    have hgot : ∀ c : Console, got ⟨c, s.fed ++ s.incoming .getc, s.returned ++ [v]⟩ =
        s.got ++ [v].filter fun c => c ≠ 0 := fun c => List.filter_append s.returned [v]
    rcases hcase with ⟨hnil, rfl, rfl⟩ | ⟨a, hcons, rfl⟩
    · -- nothing was left
      rw [hnil] at hfed'
      refine ⟨_, hstep, ⟨hmid.fed_ne, [], hq₃, ?_⟩, fun _ _ => ?_⟩
      · rw [hgot, hfed']
        simp
      · rw [hgot, hfed']
        rfl
    · have hne : (a : ℤ) ≠ 0 := by
        refine hmid.fed_ne a ?_
        rw [hfed', hcons]
        simp
      have hfilter : ([(a : ℤ)].filter fun c => c ≠ 0) = [(a : ℤ)] :=
        List.filter_cons_of_pos (decide_eq_true hne)
      refine ⟨_, hstep, ⟨hmid.fed_ne, q₃, hq₃, ?_⟩, fun _ hlast => absurd ?_ hne⟩
      · rw [hgot, hfed', hfilter, hcons, List.append_assoc]
        rfl
      · simpa using hlast

/-- What every event keeps holds after every sequence of events. -/
theorem run_inv (es : List InputEvent) {s : Session} (h : s.Inv) (hup : s.KeepsUp es) :
    ∃ s', s.run es = .ok s' ∧ s'.Inv ∧
      (es.getLast? = some .getc → s'.returned.getLast? = some 0 → s'.got = s'.fed) := by
  induction es generalizing s with
  | nil => exact ⟨s, rfl, h, nofun⟩
  | cons e es ih =>
    obtain ⟨hlt, hup⟩ := hup
    obtain ⟨s₁, hstep, hinv, hzero⟩ := step_inv h e hlt
    rw [hstep] at hup
    obtain ⟨s', hrun, hinv', hzero'⟩ := ih hinv hup
    refine ⟨s', by rw [run, List.foldlM_cons, hstep]; exact hrun, hinv', fun hlast hret => ?_⟩
    cases es with
    | nil =>
      cases hrun
      exact hzero (Option.some.inj hlast) hret
    | cons e' es => exact hzero' (by simpa [List.getLast?_cons_cons] using hlast) hret

end Session

/-- **Console input is a lossless queue** while fewer than `CONSBUFSIZE` characters are unread.
Every sequence of events runs through; what was returned, apart from the 0s, is the beginning of
what was fed; the indexes are inside the buffer; and if the last event is a read that returns 0,
then all that was fed has been returned. -/
theorem console_input_fifo (serialExists : Bool) (es : List InputEvent)
    (hup : (Session.start serialExists).KeepsUp es) :
    ∃ s, (Session.start serialExists).run es = .ok s ∧ s.got <+: s.fed ∧
      s.console.cons.rpos < consBufSize ∧ s.console.cons.wpos < consBufSize ∧
      (es.getLast? = some .getc → s.returned.getLast? = some 0 → s.got = s.fed) := by
  obtain ⟨s, hrun, hinv, hzero⟩ := Session.run_inv es (Session.inv_start serialExists) hup
  obtain ⟨q, hq, hfed⟩ := hinv.queue
  exact ⟨s, hrun, ⟨_, hfed.symm⟩, hq.r_lt, hq.w_lt, hzero⟩

/-- The key `a`, and a `b` from the serial port: both are read, and then nothing is left. -/
theorem console_input_fifo_two :
    ∃ s, (Session.start true).run [.kbdByte 0x1E#8, .kbdIntr, .serialByte 98#8, .getc, .getc, .getc] =
        .ok s ∧ s.returned = [97, 98, 0] ∧ s.got = [97, 98] ∧ s.got = s.fed := by
  obtain ⟨s, hrun, -, -, -, hall⟩ := console_input_fifo true
    [.kbdByte 0x1E#8, .kbdIntr, .serialByte 98#8, .getc, .getc, .getc]
    ⟨by decide, by decide, by decide, by decide, by decide, by decide, trivial⟩
  have hreturned : ((Session.start true).run [.kbdByte 0x1E#8, .kbdIntr, .serialByte 98#8, .getc,
      .getc, .getc]).map Session.returned = .ok [97, 98, 0] := by decide +kernel
  rw [hrun] at hreturned
  have hs : s.returned = [97, 98, 0] := Except.ok.inj hreturned
  refine ⟨s, hrun, hs, ?_, hall rfl (by rw [hs]; rfl)⟩
  rw [Session.got, hs]
  rfl

end Ucore
