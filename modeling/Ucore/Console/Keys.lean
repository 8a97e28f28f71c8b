import Mathlib.Data.List.Induction
import Mathlib.Logic.Function.Iterate
import Ucore.Console.Defs

/-!
# No modifier key gets stuck

A key has a code below 0x60, and sends it with or without the byte 0xE0 in front.  On the way to the
tables the code goes through three different branches of `kbd_proc_data`, for the press of a key,
for its release, and with the state that the byte 0xE0 leaves behind.  All of them lead to one index
(`Key.index`), so a release clears the bit that the press has set, and `KeyEvent.getLsbD_kbdShift`
says what an event does to the state of the special keys.  What holds of whole streams of events
follows by induction on the events, from the last one on.

* `kbdData_e0`, `kbdData_press`, `kbdData_release` — the three branches.
* `getLsbD_codes` — the tables, in terms of the keys.  This is where they are looked at, entry by
  entry.
* `e0esc_clear` — after a whole event the byte 0xE0 is forgotten, so an event never depends on the
  one before it.
* `pressed_of_set` — a bit that is set has a reason: a key for it has been pressed, and none has
  been released since.  If no key for it is down, the bit is not set, which is
  `modifiers_not_stuck`.

The locks are different: a press toggles them, and a release does nothing.
-/

set_option autoImplicit false

namespace Ucore

/-- A key of the keyboard: whether it sends 0xE0 first, and its code. -/
structure Key where
  ext : Bool
  code : Fin 0x60
  deriving DecidableEq, Repr

/-- A key is pressed, perhaps not for the first time, or released. -/
inductive KeyEvent where
  | press (k : Key)
  | release (k : Key)
  deriving DecidableEq, Repr

/-- The place of a key in the tables. -/
def Key.index (k : Key) : ℕ := if k.ext then k.code + 0x80 else k.code

/-- The keys for a bit: both keys for shift, control and alt, and one for each lock. -/
def Key.isFor (k : Key) : KeyBit → Bool
  | .shift => !k.ext && (k.code == 0x2A || k.code == 0x36)
  | .ctl => k.code == 0x1D
  | .alt => k.code == 0x38
  | .capslock => !k.ext && k.code == 0x3A
  | .numlock => !k.ext && k.code == 0x45
  | .scrolllock => !k.ext && k.code == 0x46
  | .e0esc => false

/-- SHIFT, CTL and ALT, which are set while a key is down. -/
def KeyBit.isModifier : KeyBit → Bool
  | .shift | .ctl | .alt => true
  | _ => false

/-- CAPSLOCK, NUMLOCK and SCROLLLOCK. -/
def KeyBit.isLock : KeyBit → Bool
  | .capslock | .numlock | .scrolllock => true
  | _ => false

/-- The bytes of an event. -/
def KeyEvent.bytes : KeyEvent → List (BitVec 8)
  | .press k => (if k.ext then [0xE0#8] else []) ++ [BitVec.ofNat 8 k.code]
  | .release k => (if k.ext then [0xE0#8] else []) ++ [BitVec.ofNat 8 (k.code + 0x80)]

/-- `shift` after `kbd_proc_data` has read the bytes. -/
def kbdShift (bytes : List (BitVec 8)) (shift : BitVec 32) : BitVec 32 :=
  ((fun k => (kbdProcData k).2)^[bytes.length] ⟨bytes, shift, 0⟩).shift

/-- `shift` after a stream of events. -/
def shiftAfter (es : List KeyEvent) : BitVec 32 := kbdShift (es.flatMap KeyEvent.bytes) 0#32

/-! ## Reading bytes -/

theorem iterate_kbdProcData (bytes rest : List (BitVec 8)) (shift : BitVec 32) (n : ℕ) :
    ((fun k => (kbdProcData k).2)^[bytes.length] ⟨bytes ++ rest, shift, n⟩).shift =
      bytes.foldl (fun shift data => (kbdData shift data).2.1) shift := by
  induction bytes generalizing shift n with
  | nil => rfl
  | cons data bytes ih =>
    rw [List.length_cons, Function.iterate_succ_apply]
    exact ih _ _

theorem kbdShift_eq (bytes : List (BitVec 8)) (shift : BitVec 32) :
    kbdShift bytes shift = bytes.foldl (fun shift data => (kbdData shift data).2.1) shift := by
  have h := iterate_kbdProcData bytes [] shift 0
  rw [List.append_nil] at h
  exact h

theorem kbdShift_append (l m : List (BitVec 8)) (shift : BitVec 32) :
    kbdShift (l ++ m) shift = kbdShift m (kbdShift l shift) := by
  rw [kbdShift_eq, kbdShift_eq, kbdShift_eq, List.foldl_append]

theorem and_mask_ne_zero (shift : BitVec 32) (b : KeyBit) :
    shift &&& b.mask ≠ 0#32 ↔ shift.getLsbD b.num = true := by
  rw [KeyBit.mask, BitVec.and_twoPow]
  by_cases h : shift.getLsbD b.num = true
  · rw [if_pos h]
    refine iff_of_true ?_ h
    cases b <;> decide
  · rw [if_neg h]
    exact iff_of_false (fun h => h rfl) h

/-- The byte 0xE0 is remembered. -/
theorem kbdData_e0 (shift : BitVec 32) :
    (kbdData shift 0xE0#8).2.1 = shift ||| KeyBit.e0esc.mask := rfl

theorem clear_e0esc {shift : BitVec 32} (h : shift.getLsbD KeyBit.e0esc.num = false) :
    (shift ||| KeyBit.e0esc.mask) &&& ~~~KeyBit.e0esc.mask = shift := by
  refine BitVec.eq_of_getLsbD_eq fun i hi => ?_
  rw [KeyBit.mask, BitVec.getLsbD_and, BitVec.getLsbD_or, BitVec.getLsbD_not, BitVec.getLsbD_twoPow]
  by_cases hi6 : KeyBit.e0esc.num = i
  · subst hi6
    simp [h]
  · simp [hi6, hi]

/-- The byte of a press, with the state that 0xE0 leaves behind or without it. -/
theorem kbdData_press (k : Key) {shift : BitVec 32} (h : shift.getLsbD KeyBit.e0esc.num = k.ext) :
    (kbdData shift (BitVec.ofNat 8 k.code)).2.1 =
      ((if k.ext then shift &&& ~~~KeyBit.e0esc.mask else shift) ||| shiftcode k.index) ^^^
        togglecode k.index := by
  have hdata : ∀ code : Fin 0x60, BitVec.ofNat 8 code ≠ 0xE0#8 ∧
      BitVec.ofNat 8 code &&& 0x80#8 = 0#8 ∧
      (BitVec.ofNat 8 code ||| 0x80#8).toNat = code + 0x80 ∧
      (BitVec.ofNat 8 code).toNat = code := by decide
  obtain ⟨h1, h2, h3, h4⟩ := hdata k.code
  have hesc := and_mask_ne_zero shift .e0esc
  rw [h] at hesc
  simp only [kbdData, if_neg h1, h2, ne_eq, not_true_eq_false, if_false, hesc]
  rw [Key.index]
  cases k.ext with
  | true => simp only [if_true, h3]
  | false => simp only [Bool.false_eq_true, if_false, h4]

/-- The byte of a release. -/
theorem kbdData_release (k : Key) {shift : BitVec 32}
    (h : shift.getLsbD KeyBit.e0esc.num = k.ext) :
    (kbdData shift (BitVec.ofNat 8 (k.code + 0x80))).2.1 =
      shift &&& ~~~(shiftcode k.index ||| KeyBit.e0esc.mask) := by
  have hdata : ∀ code : Fin 0x60, BitVec.ofNat 8 (code + 0x80) ≠ 0xE0#8 ∧
      BitVec.ofNat 8 (code + 0x80) &&& 0x80#8 ≠ 0#8 ∧
      (BitVec.ofNat 8 (code + 0x80)).toNat = code + 0x80 ∧
      (BitVec.ofNat 8 (code + 0x80) &&& 0x7F#8).toNat = code := by decide
  obtain ⟨h1, h2, h3, h4⟩ := hdata k.code
  have hesc := and_mask_ne_zero shift .e0esc
  rw [h] at hesc
  simp only [kbdData, if_neg h1, if_pos h2, hesc]
  rw [Key.index]
  cases k.ext with
  | true => simp only [if_true, h3]
  | false => simp only [Bool.false_eq_true, if_false, h4]

section Event

variable {shift : BitVec 32} (hesc : shift.getLsbD KeyBit.e0esc.num = false) (k : Key)

include hesc

/-- A press sets the bit of the key, or toggles it if it is a lock. -/
theorem kbdShift_press : kbdShift (KeyEvent.press k).bytes shift =
    (shift ||| shiftcode k.index) ^^^ togglecode k.index := by
  rw [kbdShift_eq, KeyEvent.bytes]
  cases hext : k.ext with
  | false =>
    simp only [Bool.false_eq_true, if_false, List.nil_append, List.foldl_cons, List.foldl_nil]
    rw [kbdData_press k (hesc.trans hext.symm), hext]
    rfl
  | true =>
    have hset : (shift ||| KeyBit.e0esc.mask).getLsbD KeyBit.e0esc.num = true := by
      simp [KeyBit.mask, KeyBit.num]
    simp only [if_true, List.cons_append, List.nil_append, List.foldl_cons, List.foldl_nil]
    rw [kbdData_e0, kbdData_press k (hset.trans hext.symm), hext, if_pos rfl, clear_e0esc hesc]

/-- A release clears the bit of the key. -/
theorem kbdShift_release : kbdShift (KeyEvent.release k).bytes shift =
    shift &&& ~~~(shiftcode k.index ||| KeyBit.e0esc.mask) := by
  rw [kbdShift_eq, KeyEvent.bytes]
  cases hext : k.ext with
  | false =>
    simp only [Bool.false_eq_true, if_false, List.nil_append, List.foldl_cons, List.foldl_nil]
    rw [kbdData_release k (hesc.trans hext.symm)]
  | true =>
    have hset : (shift ||| KeyBit.e0esc.mask).getLsbD KeyBit.e0esc.num = true := by
      simp [KeyBit.mask, KeyBit.num]
    simp only [if_true, List.cons_append, List.nil_append, List.foldl_cons, List.foldl_nil]
    rw [kbdData_e0, kbdData_release k (hset.trans hext.symm)]
    refine BitVec.eq_of_getLsbD_eq fun i hi => ?_
    simp only [BitVec.getLsbD_and, BitVec.getLsbD_or, BitVec.getLsbD_not]
    cases KeyBit.e0esc.mask.getLsbD i <;> simp

end Event

/-- The tables, in terms of the keys. -/
theorem getLsbD_codes (k : Key) (b : KeyBit) :
    (shiftcode k.index).getLsbD b.num = (b.isModifier && k.isFor b) ∧
    (togglecode k.index).getLsbD b.num = (b.isLock && k.isFor b) := by
  obtain ⟨ext, code⟩ := k
  revert code
  cases ext <;> cases b <;> decide

/-- What an event does to a bit. -/
def KeyEvent.after (b : KeyBit) (old : Bool) : KeyEvent → Bool
  | .press k => (old || b.isModifier && k.isFor b) ^^ (b.isLock && k.isFor b)
  | .release k => old && !(b.isModifier && k.isFor b)

/-- **What an event does to the state of the special keys**, if 0xE0 is not being remembered. -/
theorem KeyEvent.getLsbD_kbdShift (e : KeyEvent) {shift : BitVec 32}
    (h : shift.getLsbD KeyBit.e0esc.num = false) (b : KeyBit) :
    (kbdShift e.bytes shift).getLsbD b.num = e.after b (shift.getLsbD b.num) := by
  cases e with
  | press k =>
    obtain ⟨h1, h2⟩ := getLsbD_codes k b
    rw [kbdShift_press h, BitVec.getLsbD_xor, BitVec.getLsbD_or, h1, h2]
    rfl
  | release k =>
    obtain ⟨h1, -⟩ := getLsbD_codes k b
    have hlt : b.num < 32 := by cases b <;> decide
    have hother : (KeyBit.e0esc.mask).getLsbD b.num = decide (b = .e0esc) := by
      cases b <;> decide
    rw [kbdShift_release h, BitVec.getLsbD_and, BitVec.getLsbD_not, BitVec.getLsbD_or, h1, hother,
      KeyEvent.after]
    by_cases hb : b = .e0esc
    · subst hb
      simp [h]
    · simp [hb, hlt]

/-! ## Streams of events -/

theorem shiftAfter_concat (es : List KeyEvent) (e : KeyEvent) :
    shiftAfter (es ++ [e]) = kbdShift e.bytes (shiftAfter es) := by
  rw [shiftAfter, List.flatMap_append, kbdShift_append, List.flatMap_singleton, shiftAfter]

/-- After a whole event 0xE0 is forgotten. -/
theorem e0esc_clear (es : List KeyEvent) :
    (shiftAfter es).getLsbD KeyBit.e0esc.num = false := by
  induction es using List.reverseRecOn with
  | nil => rfl
  | append_singleton es e ih =>
    rw [shiftAfter_concat, e.getLsbD_kbdShift ih, ih]
    cases e <;> rfl

/-- A bit after one more event. -/
theorem getLsbD_shiftAfter (es : List KeyEvent) (e : KeyEvent) (b : KeyBit) :
    (shiftAfter (es ++ [e])).getLsbD b.num = e.after b ((shiftAfter es).getLsbD b.num) := by
  rw [shiftAfter_concat, e.getLsbD_kbdShift (e0esc_clear es)]

/-- The key is down: it has been pressed and not been released since. -/
def Key.Down (es : List KeyEvent) (k : Key) : Prop :=
  ∃ l m, es = l ++ .press k :: m ∧ KeyEvent.release k ∉ m

/-- A key for the bit has been pressed since the last release of such a key. -/
def KeyBit.Pressed (es : List KeyEvent) (b : KeyBit) : Prop :=
  ∃ l k m, es = l ++ .press k :: m ∧ k.isFor b = true ∧
    ∀ k', k'.isFor b = true → KeyEvent.release k' ∉ m

theorem KeyBit.Pressed.concat {es : List KeyEvent} {b : KeyBit} (h : b.Pressed es) {e : KeyEvent}
    (he : ∀ k, k.isFor b = true → e ≠ .release k) : b.Pressed (es ++ [e]) := by
  obtain ⟨l, k, m, rfl, hk, hm⟩ := h
  refine ⟨l, k, m ++ [e], by rw [List.append_assoc, List.cons_append], hk, fun k' hk' hmem => ?_⟩
  rcases List.mem_append.1 hmem with hmem | hmem
  · exact hm k' hk' hmem
  · exact he k' hk' (List.mem_singleton.1 hmem).symm

/-- A bit of a modifier that is set has a reason. -/
theorem pressed_of_set (es : List KeyEvent) {b : KeyBit} (hb : b.isModifier = true)
    (h : (shiftAfter es).getLsbD b.num = true) : b.Pressed es := by
  have hlock : b.isLock = false := by
    cases b with
    | shift | ctl | alt => rfl
    | _ => cases hb
  induction es using List.reverseRecOn with
  | nil => simp [shiftAfter, kbdShift] at h
  | append_singleton es e ih =>
    rw [getLsbD_shiftAfter] at h
    cases e with
    | press k =>
      by_cases hk : k.isFor b = true
      · exact ⟨es, k, [], rfl, hk, fun _ _ => List.not_mem_nil⟩
      · refine (ih ?_).concat fun k' _ => nofun
        simpa [KeyEvent.after, hk, hlock] using h
    | release k =>
      simp only [KeyEvent.after, hb, Bool.true_and, Bool.and_eq_true, Bool.not_eq_true'] at h
      refine (ih h.1).concat fun k' hk' heq => ?_
      cases heq
      rw [h.2] at hk'
      cases hk'

/-- **No modifier key gets stuck.**  After any stream of whole key events: if the keys for shift,
control and alt are up, then SHIFT, CTL, ALT and E0ESC are clear; a lock changes only with a press
of its own key; and a modifier that is set has a key that was pressed since the last release of such
a key. -/
theorem modifiers_not_stuck (es : List KeyEvent) :
    ((∀ k : Key, (∃ b : KeyBit, b.isModifier = true ∧ k.isFor b = true) → ¬ k.Down es) →
      ∀ b : KeyBit, b.isModifier = true ∨ b = .e0esc → (shiftAfter es).getLsbD b.num = false) ∧
    (∀ (e : KeyEvent) (b : KeyBit), b.isLock = true →
      (shiftAfter (es ++ [e])).getLsbD b.num ≠ (shiftAfter es).getLsbD b.num →
      ∃ k, e = .press k ∧ k.isFor b = true) ∧
    ∀ b : KeyBit, b.isModifier = true → (shiftAfter es).getLsbD b.num = true → b.Pressed es := by
  refine ⟨fun hup b hb => ?_, fun e b hb hne => ?_, fun b hb => pressed_of_set es hb⟩
  · rcases hb with hb | rfl
    · by_contra hset
      obtain ⟨l, k, m, hes, hk, hm⟩ := pressed_of_set es hb (Bool.not_eq_false _ ▸ hset)
      exact hup k ⟨b, hb, hk⟩ ⟨l, m, hes, hm k hk⟩
    · exact e0esc_clear es
  · rw [getLsbD_shiftAfter] at hne
    cases e with
    | press k =>
      refine ⟨k, rfl, ?_⟩
      by_contra hk
      exact hne (by simp [KeyEvent.after, hk])
    | release k =>
      have hmod : b.isModifier = false := by
        cases b with
        | capslock | numlock | scrolllock => rfl
        | _ => cases hb
      exact absurd (by simp [KeyEvent.after, hmod]) hne

end Ucore
