import Ucore.Lib.Loop
import Ucore.Str.Defs

/-!
# The console

The console of `arch/x86/generic/console.c`: the text screen, the circular buffer for input, and the
keyboard.  The devices are the lists of the bytes that are waiting in them, and a byte that is read
is gone.  An `int` that is taken apart into bits is a `BitVec 32`.  A write behind the end of an
array stops with `Fault.memory`.

* `Cga` is the screen, and `cgaPutc` is one character on it: the `switch` on the character, and then
  the lines that scroll.  The cursor of the 6845 is set to the position in the end.
* `Cons` is the buffer.  `consIntr` takes the function that reads from a device as an argument, as
  in the source, together with the state of the device.
* The maps of the keyboard are arrays of 256 bytes, given in the way of the source, by a list of the
  first ones and some others by their index.  `kbdData` is what `kbd_proc_data` does with one byte.
* `Console` has the buffer and both devices, and `consGetc` is `cons_getc`, which calls the two
  interrupt routines before it looks at the buffer.
-/

set_option autoImplicit false

namespace Ucore

/-! ## The screen -/

/-- `CRT_ROWS`. -/
def crtRows : ℕ := 25

/-- `CRT_COLS`. -/
def crtCols : ℕ := 80

/-- `CRT_SIZE`. -/
def crtSize : ℕ := crtRows * crtCols

/-- The memory of the screen, in bytes, `crt_pos`, and the position of the cursor that was given to
the 6845. -/
structure Cga where
  mem : ℕ → ℕ
  crtPos : ℕ
  cursor : ℕ

namespace Cga

/-- `crt_buf[i]`. -/
def cell (s : Cga) (i : ℕ) : ℕ := s.mem (2 * i) + 2 ^ 8 * s.mem (2 * i + 1)

/-- `crt_buf[i] = v`, of which 16 bits are stored. -/
def setCell (s : Cga) (i v : ℕ) : Res Cga :=
  if i < crtSize then
    let mem := Function.update s.mem (2 * i) (v % 2 ^ 8)
    .ok { s with mem := Function.update mem (2 * i + 1) (v / 2 ^ 8 % 2 ^ 8) }
  else .error .memory

/-- An assignment to `crt_pos`, which has 16 bits. -/
def setPos (s : Cga) (pos : ℕ) : Cga := { s with crtPos := pos % 2 ^ 16 }

/-- `memmove(crt_buf + dst, crt_buf + src, n * sizeof(uint16_t))`. -/
def moveCells (s : Cga) (dst src n : ℕ) : Res Cga :=
  if dst + n ≤ crtSize ∧ src + n ≤ crtSize then
    .ok { s with mem := memmove s.mem (2 * dst) (2 * src) (2 * n) }
  else .error .memory

end Cga

/-- `0x0700 | ' '`. -/
def crtBlank : ℕ := 0x0720

/-- The loop over the last row. -/
def blankRow (s : Cga) : Res Cga :=
  (List.range' (crtSize - crtCols) crtCols).foldlM (fun s i => s.setCell i crtBlank) s

/-- The lines under "What is the purpose of this?". -/
def cgaScroll (s : Cga) : Res Cga :=
  if s.crtPos ≥ crtSize then do
    let s ← s.moveCells 0 crtCols (crtSize - crtCols)
    let s ← blankRow s
    return s.setPos (s.crtPos - crtCols)
  else .ok s

/-- The character with the attributes that it gets if it has none. -/
def crtAttr (c : BitVec 32) : BitVec 32 := if c &&& ~~~0xff#32 = 0#32 then c ||| 0x0700#32 else c

/-- The `switch` of `cga_putc`. -/
def cgaSwitch (c : BitVec 32) (s : Cga) : Res Cga :=
  match (c &&& 0xff#32).toNat with
  | 8 =>
    if s.crtPos > 0 then
      let s := s.setPos (s.crtPos - 1)
      s.setCell s.crtPos ((c &&& ~~~0xff#32) ||| 0x20#32).toNat
    else .ok s
  | 10 =>
    let s := s.setPos (s.crtPos + crtCols)
    .ok (s.setPos (s.crtPos - s.crtPos % crtCols))
  | 13 => .ok (s.setPos (s.crtPos - s.crtPos % crtCols))
  | _ => do
    let s' ← s.setCell s.crtPos c.toNat
    return s'.setPos (s'.crtPos + 1)

/-- `cga_putc`. -/
def cgaPutc (c : BitVec 32) (s : Cga) : Res Cga := do
  let s ← cgaSwitch (crtAttr c) s
  let s ← cgaScroll s
  return { s with cursor := s.crtPos / 2 ^ 8 % 2 ^ 8 * 2 ^ 8 + s.crtPos % 2 ^ 8 }

/-! ## The input buffer -/

/-- `CONSBUFSIZE`. -/
def consBufSize : ℕ := 512

/-- `cons`. -/
structure Cons where
  buf : ℕ → ℕ
  rpos : ℕ
  wpos : ℕ

/-- The body of the loop of `cons_intr`. -/
def consPut (c : ℤ) (s : Cons) : Res Cons :=
  if c ≠ 0 then
    if s.wpos < consBufSize then
      let wpos := s.wpos + 1
      .ok { s with
        buf := Function.update s.buf s.wpos (c % 2 ^ 8).toNat
        wpos := if wpos = consBufSize then 0 else wpos }
    else .error .memory
  else .ok s

/-- `cons_intr(proc)`, where `δ` is the state of the device. -/
def consIntr {δ : Type} (proc : δ → ℤ × δ) (fuel : ℕ) (d : δ) (s : Cons) : Res (δ × Cons) := do
  let ((_, d), s) ← whileLoop (fun st : (ℤ × δ) × Cons => decide (st.1.1 ≠ -1))
    (fun st => do
      let s ← consPut st.1.1 st.2
      return (proc st.1.2, s))
    fuel (proc d, s)
  return (d, s)

/-- The end of `cons_getc`. -/
def consGet (s : Cons) : Res (ℤ × Cons) :=
  if s.rpos ≠ s.wpos then
    if s.rpos < consBufSize then
      let rpos := s.rpos + 1
      .ok (s.buf s.rpos, { s with rpos := if rpos = consBufSize then 0 else rpos })
    else .error .memory
  else .ok (0, s)

/-- `serial_proc_data`. -/
def serialProcData : List (BitVec 8) → ℤ × List (BitVec 8)
  | [] => (-1, [])
  | c :: rest => (if c.toNat = 127 then 8 else c.toNat, rest)

/-! ## The keyboard -/

/-- `SHIFT`, `CTL`, `ALT`, `CAPSLOCK`, `NUMLOCK`, `SCROLLLOCK` and `E0ESC`, by the number of the
bit. -/
inductive KeyBit
  | shift | ctl | alt | capslock | numlock | scrolllock | e0esc
  deriving DecidableEq, Repr

/-- The number of a bit. -/
def KeyBit.num : KeyBit → ℕ
  | .shift => 0
  | .ctl => 1
  | .alt => 2
  | .capslock => 3
  | .numlock => 4
  | .scrolllock => 5
  | .e0esc => 6

/-- The mask of a bit. -/
def KeyBit.mask (b : KeyBit) : BitVec 32 := BitVec.twoPow 32 b.num

/-- An array of 256 bytes that begins with a list, and of which some other elements are given by
their index. -/
def byteTable (l : List ℕ) (others : List (ℕ × ℕ)) (i : ℕ) : ℕ :=
  (others.lookup i).getD (l.getD i 0)

/-- `shiftcode`. -/
def shiftcode (data : ℕ) : BitVec 32 :=
  match data with
  | 0x1D => KeyBit.ctl.mask
  | 0x2A => KeyBit.shift.mask
  | 0x36 => KeyBit.shift.mask
  | 0x38 => KeyBit.alt.mask
  | 0x9D => KeyBit.ctl.mask
  | 0xB8 => KeyBit.alt.mask
  | _ => 0#32

/-- `togglecode`. -/
def togglecode (data : ℕ) : BitVec 32 :=
  match data with
  | 0x3A => KeyBit.capslock.mask
  | 0x45 => KeyBit.numlock.mask
  | 0x46 => KeyBit.scrolllock.mask
  | _ => 0#32

/-- The special keys, from `KEY_HOME` to `KEY_DEL`, which the three maps share. -/
def specialKeys : List (ℕ × ℕ) :=
  [(0xC8, 0xE2), (0xC9, 0xE6), (0xCB, 0xE4), (0xCD, 0xE5), (0xCF, 0xE1), (0xD0, 0xE3), (0xD1, 0xE7),
    (0xD2, 0xE8), (0xD3, 0xE9)]

/-- `KEY_DEL`. -/
def keyDel : ℕ := 0xE9

/-- `normalmap`. -/
def normalmap : ℕ → ℕ := byteTable
  [0, 27, 49, 50, 51, 52, 53, 54, 55, 56, 57, 48, 45, 61, 8, 9,
    113, 119, 101, 114, 116, 121, 117, 105, 111, 112, 91, 93, 10, 0, 97, 115,
    100, 102, 103, 104, 106, 107, 108, 59, 39, 96, 0, 92, 122, 120, 99, 118,
    98, 110, 109, 44, 46, 47, 0, 42, 0, 32, 0, 0, 0, 0, 0, 0,
    0, 0, 0, 0, 0, 0, 0, 55, 56, 57, 45, 52, 53, 54, 43, 49,
    50, 51, 48, 46, 0, 0, 0, 0]
  ([(0xC7, 0xE0), (0x9C, 10), (0xB5, 47)] ++ specialKeys)

/-- `shiftmap`. -/
def shiftmap : ℕ → ℕ := byteTable
  [0, 27, 33, 64, 35, 36, 37, 94, 38, 42, 40, 41, 95, 43, 8, 9,
    81, 87, 69, 82, 84, 89, 85, 73, 79, 80, 123, 125, 10, 0, 65, 83,
    68, 70, 71, 72, 74, 75, 76, 58, 34, 126, 0, 124, 90, 88, 67, 86,
    66, 78, 77, 60, 62, 63, 0, 42, 0, 32, 0, 0, 0, 0, 0, 0,
    0, 0, 0, 0, 0, 0, 0, 55, 56, 57, 45, 52, 53, 54, 43, 49,
    50, 51, 48, 46, 0, 0, 0, 0]
  ([(0xC7, 0xE0), (0x9C, 10), (0xB5, 47)] ++ specialKeys)

/-- `ctlmap`. -/
def ctlmap : ℕ → ℕ := byteTable
  [0, 0, 0, 0, 0, 0, 0, 0, 0, 0, 0, 0, 0, 0, 0, 0,
    17, 23, 5, 18, 20, 25, 21, 9, 15, 16, 0, 0, 13, 0, 1, 19,
    4, 6, 7, 8, 10, 11, 12, 0, 0, 0, 0, 28, 26, 24, 3, 22,
    2, 14, 13, 0, 0, 239, 0, 0]
  ([(0x97, 0xE0), (0xB5, 239)] ++ specialKeys)

/-- `charcode`. -/
def charcode : ℕ → ℕ → ℕ
  | 0 => normalmap
  | 1 => shiftmap
  | _ => ctlmap

/-- The lines for `CAPSLOCK`. -/
def swapCase (c : ℕ) : ℕ :=
  if 97 ≤ c ∧ c ≤ 122 then c - 32 else if 65 ≤ c ∧ c ≤ 90 then c + 32 else c

/-- What `kbd_proc_data` makes of a byte of data: the character, the state of the special keys, and
whether the machine is told to reboot. -/
def kbdData (shift : BitVec 32) (data : BitVec 8) : ℕ × BitVec 32 × Bool :=
  let e0esc := shift &&& KeyBit.e0esc.mask ≠ 0#32
  if data = 0xE0#8 then (0, shift ||| KeyBit.e0esc.mask, false)
  else if data &&& 0x80#8 ≠ 0#8 then
    let data := if e0esc then data else data &&& 0x7F#8
    (0, shift &&& ~~~(shiftcode data.toNat ||| KeyBit.e0esc.mask), false)
  else
    let data := if e0esc then data ||| 0x80#8 else data
    let shift := if e0esc then shift &&& ~~~KeyBit.e0esc.mask else shift
    let shift := shift ||| shiftcode data.toNat
    let shift := shift ^^^ togglecode data.toNat
    let c := charcode (shift &&& (KeyBit.ctl.mask ||| KeyBit.shift.mask)).toNat data.toNat
    let c := if shift &&& KeyBit.capslock.mask ≠ 0#32 then swapCase c else c
    let reboot := ~~~shift &&& (KeyBit.ctl.mask ||| KeyBit.alt.mask) = 0#32 ∧ c = keyDel
    (c, shift, decide reboot)

/-- The keyboard: the bytes that wait, `shift`, and how often it has made the machine reboot. -/
structure Kbd where
  data : List (BitVec 8)
  shift : BitVec 32
  reboots : ℕ

/-- `kbd_proc_data`. -/
def kbdProcData (k : Kbd) : ℤ × Kbd :=
  match k.data with
  | [] => (-1, k)
  | data :: rest =>
    let (c, shift, reboot) := kbdData k.shift data
    (c, ⟨rest, shift, if reboot then k.reboots + 1 else k.reboots⟩)

/-! ## The whole console -/

/-- The state of the console, without the screen. -/
structure Console where
  cons : Cons
  serialExists : Bool
  serial : List (BitVec 8)
  kbd : Kbd

/-- `serial_intr`. -/
def serialIntr (s : Console) : Res Console :=
  if s.serialExists then do
    let (serial, cons) ← consIntr serialProcData (s.serial.length + 1) s.serial s.cons
    return { s with serial := serial, cons := cons }
  else .ok s

/-- `kbd_intr`. -/
def kbdIntr (s : Console) : Res Console := do
  let (kbd, cons) ← consIntr kbdProcData (s.kbd.data.length + 1) s.kbd s.cons
  return { s with kbd := kbd, cons := cons }

/-- `cons_getc`. -/
def consGetc (s : Console) : Res (ℤ × Console) := do
  let s ← serialIntr s
  let s ← kbdIntr s
  let (c, cons) ← consGet s.cons
  return (c, { s with cons := cons })

end Ucore
