import Mathlib.Algebra.Ring.Nat
import Ucore.Lib.Loop

/-!
# The boot loader

`boot/bootmain.c`.  The disk and the memory are functions from addresses to bytes, addresses have 32
bits, and a sector read copies the 512 bytes of a sector.

`readseg` rounds down to the beginning of a sector and reads whole sectors, so it writes all of the
512-byte blocks that a segment touches (`readseg_spec`).  The blocks of different segments are
different, and so a later segment does not damage an earlier one.  But the loop of `bootmain` reads
each program header from memory when its turn comes, and nothing keeps a segment from being loaded
over the headers that are still to be read: `bootmain_loads` needs that no segment is, and
`bootmain_loads_not` is an image for which one is.

The memory is the one that the loader reads and writes through pointers.  Its own code, in the 512
bytes from `0x7C00` on, and its stack, below them, are not part of it: a segment that is loaded over
them destroys the loader while it runs, and such a kernel is not one that this theorem is about.

* `ProgHdr.Loadable` is what a segment needs, and `LoadLayout` says that the headers are such that
  the segments can be loaded one after the other.
* `Intact` is what should be in memory at the end, and `HeadersSafe` is the condition on the
  headers.
* `readsects_spec` is the loop of `readseg`, and `loadSegments_spec` the loop of `bootmain`, by
  induction on the number of headers: the first segment is loaded, and still there when all the
  others have been (`Intact.cons`).
-/

set_option autoImplicit false

namespace Ucore

/-! ## The code -/

/-- A memory, or a disk, byte by byte. -/
abbrev Bytes := ℕ → BitVec 8

/-- `SECTSIZE`. -/
def sectSize : ℕ := 512

/-- `ELFHDR`. -/
def elfHdr : ℕ := 0x10000

/-- `ELF_MAGIC`. -/
def elfMagic : ℕ := 0x464C457F

/-- The two bytes at an address. -/
def Bytes.read16 (m : Bytes) (a : ℕ) : ℕ :=
  (m (a % 2 ^ 32)).toNat + 2 ^ 8 * (m ((a + 1) % 2 ^ 32)).toNat

/-- The four bytes at an address. -/
def Bytes.read32 (m : Bytes) (a : ℕ) : ℕ := m.read16 a + 2 ^ 16 * m.read16 (a + 2)

/-- `readsect`.  The drive gets 28 bits of the number of the sector. -/
def readsect (disk mem : Bytes) (dst secno : ℕ) : Bytes := fun a =>
  let i := (a + (2 ^ 32 - dst)) % 2 ^ 32
  if a < 2 ^ 32 ∧ i < sectSize then disk (sectSize * (secno % 2 ^ 28) + i) else mem a

/-- `readseg`.  If `va` has gone through all sectors without reaching `end_va` it never does. -/
def readseg (disk : Bytes) (va count offset : ℕ) (mem : Bytes) : Res Bytes := do
  let endVa := (va + count) % 2 ^ 32
  let va := (va + 2 ^ 32 - offset % sectSize) % 2 ^ 32
  let secno := offset / sectSize + 1
  let (_, _, mem) ← whileLoop (fun st : ℕ × ℕ × Bytes => decide (st.1 < endVa))
    (fun (va, secno, mem) =>
      .ok ((va + sectSize) % 2 ^ 32, (secno + 1) % 2 ^ 32, readsect disk mem va secno))
    (2 ^ 32 / sectSize) (va, secno, mem)
  return mem

/-- `struct proghdr`, without the fields that the loader ignores. -/
structure ProgHdr where
  offset : ℕ
  va : ℕ
  memsz : ℕ
  deriving DecidableEq, Repr

/-- `sizeof(struct proghdr)`. -/
def sizeofProgHdr : ℕ := 32

/-- The program header at an address. -/
def progHdr (mem : Bytes) (ph : ℕ) : ProgHdr where
  offset := mem.read32 (ph + 4)
  va := mem.read32 (ph + 8)
  memsz := mem.read32 (ph + 20)

/-- `p_va & 0xFFFFFF`. -/
def ProgHdr.dst (h : ProgHdr) : ℕ := h.va % 2 ^ 24

/-- The loop of `bootmain`, from `ph` to `eph`. -/
def loadSegments (disk : Bytes) (phnum eph : ℕ) (ph : ℕ) (mem : Bytes) : Res (ℕ × Bytes) :=
  whileLoop (fun st : ℕ × Bytes => decide (st.1 < eph))
    (fun (ph, mem) => do
      let h := progHdr mem ph
      let mem ← readseg disk h.dst h.memsz h.offset mem
      return ((ph + sizeofProgHdr) % 2 ^ 32, mem))
    phnum (ph, mem)

/-- `ph`, from `e_phoff`. -/
def elfPh (mem : Bytes) : ℕ := (elfHdr + mem.read32 (elfHdr + 28)) % 2 ^ 32

/-- `e_phnum`. -/
def elfPhnum (mem : Bytes) : ℕ := mem.read16 (elfHdr + 44)

/-- `bootmain`: the address that it jumps to, and the memory at that time, or nothing if there is no
kernel. -/
def bootmain (disk mem : Bytes) : Res (Option (ℕ × Bytes)) := do
  let mem ← readseg disk elfHdr (sectSize * 8) 0 mem
  if mem.read32 elfHdr ≠ elfMagic then return none
  let ph := elfPh mem
  let phnum := elfPhnum mem
  let (_, mem) ← loadSegments disk phnum ((ph + phnum * sizeofProgHdr) % 2 ^ 32) ph mem
  return some (mem.read32 (elfHdr + 24) % 2 ^ 24, mem)

/-! ## One segment -/

/-- The segment touches the block of memory with the number `b`. -/
def ProgHdr.Touches (h : ProgHdr) (b : ℕ) : Prop := ∃ j < h.memsz, (h.dst + j) / sectSize = b

/-- What a segment needs to be loaded: it is not empty, its place in memory fits its place on the
disk, and its last block ends below `2 ^ 32`. -/
structure ProgHdr.Loadable (h : ProgHdr) : Prop where
  pos : 0 < h.memsz
  congr : h.dst % sectSize = h.offset % sectSize
  noWrap : ((h.dst + h.memsz - 1) / sectSize + 1) * sectSize < 2 ^ 32

theorem readsect_apply (disk mem : Bytes) {dst secno : ℕ} (hdst : dst + 512 ≤ 2 ^ 32)
    (hsec : secno < 2 ^ 28) (a : ℕ) :
    readsect disk mem dst secno a =
      if dst ≤ a ∧ a < dst + 512 then disk (512 * secno + (a - dst)) else mem a := by
  have hi : a < 2 ^ 32 ∧ (a + (2 ^ 32 - dst)) % 2 ^ 32 < 512 ↔ dst ≤ a ∧ a < dst + 512 := by omega
  simp only [readsect, sectSize, Nat.mod_eq_of_lt hsec, hi]
  by_cases ha : dst ≤ a ∧ a < dst + 512
  · have heq : (a + (2 ^ 32 - dst)) % 2 ^ 32 = a - dst := by omega
    rw [if_pos ha, if_pos ha, heq]
  · rw [if_neg ha, if_neg ha]

/-- The loop of `readseg` reads `n` sectors, one behind the other. -/
theorem readsects_spec (disk : Bytes) (stop n : ℕ) :
    ∀ (fuel va secno : ℕ) (mem : Bytes), n ≤ fuel → va + 512 * n < 2 ^ 32 → secno + n < 2 ^ 28 →
      stop ≤ va + 512 * n → (0 < n → va + 512 * n < stop + 512) →
      ∃ st : ℕ × ℕ × Bytes, whileLoop (fun st : ℕ × ℕ × Bytes => decide (st.1 < stop))
          (fun (va, secno, mem) =>
            .ok ((va + sectSize) % 2 ^ 32, (secno + 1) % 2 ^ 32, readsect disk mem va secno))
          fuel (va, secno, mem) = .ok st ∧
        ∀ a, st.2.2 a =
          if va ≤ a ∧ a < va + 512 * n then disk (512 * secno + (a - va)) else mem a := by
  induction n with
  | zero =>
    intro fuel va secno mem _ _ _ hstop _
    refine ⟨(va, secno, mem), whileLoop_false (decide_eq_false ?_), fun a => ?_⟩
    · omega
    · rw [if_neg (by omega)]
  | succ n ih =>
    intro fuel va secno mem hfuel hva hsec hstop hlast
    obtain ⟨fuel, rfl⟩ : ∃ k, fuel = k + 1 := ⟨fuel - 1, by omega⟩
    replace hlast := hlast (Nat.zero_lt_succ n)
    rw [Nat.mul_succ] at *
    have hguard : va < stop := by omega
    obtain ⟨st, hrun, hmem⟩ := ih fuel (va + 512) (secno + 1) (readsect disk mem va secno)
      (by omega) (by omega) (by omega) (by omega) (by omega)
    refine ⟨st, ?_, fun a => ?_⟩
    · rw [← hrun]
      refine whileLoop_true (decide_eq_true hguard) ?_
      have hva' : (va + 512) % 2 ^ 32 = va + 512 := by omega
      have hsec' : (secno + 1) % 2 ^ 32 = secno + 1 := by omega
      simp only [sectSize, hva', hsec']
    · rw [hmem, readsect_apply disk mem (by omega) (by omega)]
      by_cases hfirst : va ≤ a ∧ a < va + 512
      · have hlt : a < va + (512 * n + 512) := by omega
        rw [if_neg (by omega), if_pos hfirst, if_pos ⟨hfirst.1, hlt⟩]
      · rw [if_neg hfirst]
        by_cases hrest : va + 512 ≤ a ∧ a < va + 512 + 512 * n
        · have hall : va ≤ a ∧ a < va + (512 * n + 512) := by omega
          have hbyte : 512 * (secno + 1) + (a - (va + 512)) = 512 * secno + (a - va) := by omega
          rw [if_pos hrest, if_pos hall, hbyte]
        · rw [if_neg hrest, if_neg]
          rintro ⟨hge, hlt⟩
          omega

/-- **`readseg` loads every block that the segment touches**, and nothing else. -/
theorem readseg_spec (disk mem : Bytes) (va : ℕ) {count offset : ℕ} (hpos : 0 < count)
    (hcongr : va % 512 = offset % 512) (hwrap : ((va + count - 1) / 512 + 1) * 512 < 2 ^ 32)
    (hoff : offset < 2 ^ 32) :
    ∃ mem', readseg disk va count offset mem = .ok mem' ∧ ∀ a, mem' a =
      if va / 512 ≤ a / 512 ∧ a / 512 ≤ (va + count - 1) / 512 then
        disk (512 + offset / 512 * 512 + (a - va / 512 * 512)) else mem a := by
  have hstart : (va + 2 ^ 32 - offset % sectSize) % 2 ^ 32 = va / 512 * 512 := by
    change (va + 2 ^ 32 - offset % 512) % 2 ^ 32 = _
    omega
  have hend : (va + count) % 2 ^ 32 = va + count := by omega
  have hfuel : 2 ^ 32 / sectSize = 8388608 := rfl
  obtain ⟨st, hrun, hmem⟩ := readsects_spec disk (va + count)
    ((va + count - 1) / 512 - va / 512 + 1) (2 ^ 32 / sectSize) (va / 512 * 512) (offset / 512 + 1)
    mem (by omega) (by omega) (by omega) (by omega) (by omega)
  refine ⟨st.2.2, ?_, fun a => ?_⟩
  · simp only [readseg, hstart, hend]
    change (whileLoop _ _ _ (_, offset / 512 + 1, mem) >>= _) = _
    rw [hrun]
    rfl
  · rw [hmem]
    refine if_congr (by omega) ?_ rfl
    congr 1
    omega

/-! ## All segments -/

theorem Bytes.read16_lt (m : Bytes) (a : ℕ) : m.read16 a < 2 ^ 16 := by
  have h₀ := (m (a % 2 ^ 32)).isLt
  have h₁ := (m ((a + 1) % 2 ^ 32)).isLt
  rw [Bytes.read16]
  omega

theorem Bytes.read32_lt (m : Bytes) (a : ℕ) : m.read32 a < 2 ^ 32 := by
  have h₀ := m.read16_lt a
  have h₁ := m.read16_lt (a + 2)
  rw [Bytes.read32]
  omega

theorem Bytes.read32_congr {m m' : Bytes} {a : ℕ} (ha : a + 4 ≤ 2 ^ 32)
    (h : ∀ k < 4, m' (a + k) = m (a + k)) : m'.read32 a = m.read32 a := by
  have h₀ := h 0 (by decide)
  have h₁ := h 1 (by decide)
  have h₂ := h 2 (by decide)
  have h₃ := h 3 (by decide)
  rw [Nat.add_zero] at h₀
  have e₀ : a % 2 ^ 32 = a := by omega
  have e₁ : (a + 1) % 2 ^ 32 = a + 1 := by omega
  have e₂ : (a + 2) % 2 ^ 32 = a + 2 := by omega
  have e₃ : (a + 2 + 1) % 2 ^ 32 = a + 3 := by omega
  simp only [Bytes.read32, Bytes.read16, e₀, e₁, e₂, e₃, h₀, h₁, h₂, h₃]

/-- A header depends on its 32 bytes. -/
theorem progHdr_congr {m m' : Bytes} {ph : ℕ} (hph : ph + 32 ≤ 2 ^ 32)
    (h : ∀ k < 32, m' (ph + k) = m (ph + k)) : progHdr m' ph = progHdr m ph := by
  have hread : ∀ o, o + 4 ≤ 32 → m'.read32 (ph + o) = m.read32 (ph + o) := by
    intro o ho
    refine Bytes.read32_congr (by omega) fun k hk => ?_
    rw [Nat.add_assoc]
    exact h (o + k) (by omega)
  simp only [progHdr, hread 4 (by decide), hread 8 (by decide), hread 20 (by decide)]

theorem ProgHdr.touches_iff {h : ProgHdr} (hpos : 0 < h.memsz) (b : ℕ) :
    h.Touches b ↔ h.dst / 512 ≤ b ∧ b ≤ (h.dst + h.memsz - 1) / 512 := by
  constructor
  · rintro ⟨j, hj, hb⟩
    change (h.dst + j) / 512 = b at hb
    omega
  · rintro ⟨hle, hge⟩
    refine ⟨max h.dst (b * 512) - h.dst, by omega, ?_⟩
    change _ / 512 = b
    omega

/-- Loading one segment. -/
theorem ProgHdr.Loadable.readseg {h : ProgHdr} (hload : h.Loadable) (hoff : h.offset < 2 ^ 32)
    (disk mem : Bytes) :
    ∃ mem', readseg disk h.dst h.memsz h.offset mem = .ok mem' ∧
      (∀ j < h.memsz, mem' (h.dst + j) = disk (512 + (h.offset + j))) ∧
      ∀ a, ¬ h.Touches (a / 512) → mem' a = mem a := by
  have hcongr : h.dst % 512 = h.offset % 512 := hload.congr
  obtain ⟨mem', hrun, hmem⟩ := readseg_spec disk mem _ hload.pos hcongr hload.noWrap hoff
  refine ⟨mem', hrun, fun j hj => ?_, fun a ha => ?_⟩
  · rw [hmem, if_pos (by omega)]
    congr 1
    omega
  · rw [hmem, if_neg (fun hin => ha ((touches_iff hload.pos _).2 hin))]

/-- The headers are such that the segments can be loaded one after the other: in increasing order,
and with no block in common. -/
structure LoadLayout (n : ℕ) (seg : ℕ → ProgHdr) : Prop where
  loadable : ∀ i < n, (seg i).Loadable
  increasing : ∀ i j, i < j → j < n → (seg i).dst < (seg j).dst
  apart : ∀ i j b, i < j → j < n → (seg i).Touches b → ¬ (seg j).Touches b

/-- Every segment is in memory as it is in the kernel image, which begins at the sector 1, and
outside the blocks of the segments nothing has changed. -/
def Intact (disk mem mem' : Bytes) (n : ℕ) (seg : ℕ → ProgHdr) : Prop :=
  (∀ i < n, ∀ j < (seg i).memsz, mem' ((seg i).dst + j) = disk (512 + ((seg i).offset + j))) ∧
    ∀ a, (∀ i < n, ¬ (seg i).Touches (a / 512)) → mem' a = mem a

/-- No segment touches a block in which there is a header that is read after it was loaded. -/
def HeadersSafe (ph n : ℕ) (seg : ℕ → ProgHdr) : Prop :=
  ∀ i j k, i < j → j < n → k < 32 → ¬ (seg i).Touches ((ph + 32 * j + k) / 512)

/-- The headers from `k` on. -/
theorem LoadLayout.drop {n : ℕ} {seg seg' : ℕ → ProgHdr} (k : ℕ) (h : LoadLayout (n + k) seg)
    (hseg : ∀ i < n, seg' i = seg (i + k)) : LoadLayout n seg' := by
  refine ⟨fun i hi => ?_, fun i j hij hj => ?_, fun i j b hij hj => ?_⟩
  · rw [hseg i hi]
    exact h.loadable (i + k) (by omega)
  · rw [hseg i (by omega), hseg j hj]
    exact h.increasing (i + k) (j + k) (by omega) (by omega)
  · rw [hseg i (by omega), hseg j hj]
    exact h.apart (i + k) (j + k) b (by omega) (by omega)

theorem HeadersSafe.tail {ph n : ℕ} {seg seg' : ℕ → ProgHdr} (h : HeadersSafe ph (n + 1) seg)
    (hseg : ∀ i < n, seg' i = seg (i + 1)) : HeadersSafe (ph + 32) n seg' := by
  intro i j k hij hj hk
  have hph : ph + 32 + 32 * j = ph + 32 * (j + 1) := by omega
  rw [hseg i (by omega), hph]
  exact h (i + 1) (j + 1) k (by omega) (by omega) hk

/-- If the first segment is loaded, and then all the others, then the first one is still there. -/
theorem Intact.cons {disk mem mem₁ mem' : Bytes} {n : ℕ} {seg seg' : ℕ → ProgHdr}
    (hlayout : LoadLayout (n + 1) seg)
    (hin : ∀ j < (seg 0).memsz, mem₁ ((seg 0).dst + j) = disk (512 + ((seg 0).offset + j)))
    (hout : ∀ a, ¬ (seg 0).Touches (a / 512) → mem₁ a = mem a)
    (hseg : ∀ i < n, seg' i = seg (i + 1)) (h : Intact disk mem₁ mem' n seg') :
    Intact disk mem mem' (n + 1) seg := by
  refine ⟨fun i hi j hj => ?_, fun a ha => ?_⟩
  · cases i with
    | zero =>
      rw [← hin j hj]
      refine h.2 _ fun i hi htouch => ?_
      rw [hseg i hi] at htouch
      exact hlayout.apart 0 (i + 1) _ (Nat.zero_lt_succ i) (by omega) ⟨j, hj, rfl⟩ htouch
    | succ i =>
      have hi' : i < n := by omega
      have hrest := h.1 i hi'
      rw [hseg i hi'] at hrest
      exact hrest j hj
  · have hrest : mem' a = mem₁ a := by
      refine h.2 a fun i hi => ?_
      rw [hseg i hi]
      exact ha (i + 1) (by omega)
    rw [hrest]
    exact hout a (ha 0 (Nat.zero_lt_succ n))

/-- **The loop of `bootmain`**, by induction on the number of headers. -/
theorem loadSegments_spec (disk : Bytes) (n : ℕ) :
    ∀ (fuel ph : ℕ) (mem : Bytes), n ≤ fuel → ph + 32 * n < 2 ^ 32 →
      LoadLayout n (fun i => progHdr mem (ph + 32 * i)) →
      HeadersSafe ph n (fun i => progHdr mem (ph + 32 * i)) →
      ∃ st : ℕ × Bytes, loadSegments disk fuel (ph + 32 * n) ph mem = .ok st ∧
        Intact disk mem st.2 n (fun i => progHdr mem (ph + 32 * i)) := by
  induction n with
  | zero =>
    intro fuel ph mem _ _ _ _
    refine ⟨(ph, mem), whileLoop_false (decide_eq_false (by simp)), ?_, fun a _ => rfl⟩
    intro i hi
    exact absurd hi (Nat.not_lt_zero i)
  | succ n ih =>
    intro fuel ph mem hfuel hwrap hlayout hsafe
    obtain ⟨fuel, rfl⟩ : ∃ k, fuel = k + 1 := ⟨fuel - 1, by omega⟩
    have hfirst : progHdr mem (ph + 32 * 0) = progHdr mem ph := by rw [Nat.mul_zero, Nat.add_zero]
    have hload := hlayout.loadable 0 (Nat.zero_lt_succ n)
    simp only [hfirst] at hload
    obtain ⟨mem₁, hread, hin, hout⟩ := hload.readseg (mem.read32_lt (ph + 4)) disk mem
    -- the headers that are left are still there
    have hseg : ∀ i < n, progHdr mem₁ (ph + 32 + 32 * i) = progHdr mem (ph + 32 * (i + 1)) := by
      intro i hi
      have hph : ph + 32 * (i + 1) = ph + 32 + 32 * i := by omega
      rw [hph]
      refine progHdr_congr (by omega) fun k hk => hout _ ?_
      have hnot := hsafe 0 (i + 1) k (Nat.zero_lt_succ i) (by omega) hk
      simp only [hfirst, hph] at hnot
      exact hnot
    have hlayout' := hlayout.drop 1 hseg
    have hsafe' := hsafe.tail hseg
    obtain ⟨st, hrun, hintact⟩ := ih fuel (ph + 32) mem₁ (by omega) (by omega) hlayout' hsafe'
    refine ⟨st, ?_, hintact.cons hlayout ?_ ?_ hseg⟩
    · have hstop : ph + 32 * (n + 1) = ph + 32 + 32 * n := by omega
      have hnext : (ph + sizeofProgHdr) % 2 ^ 32 = ph + 32 := by
        rw [sizeofProgHdr]
        omega
      rw [← hrun, hstop]
      refine whileLoop_true (decide_eq_true (by omega)) ?_
      simp only [hread, Res.ok_bind, hnext, Res.pure_eq]
    · simp only [hfirst]
      exact hin
    · simp only [hfirst]
      exact hout

/-! ## The whole boot loader -/

/-- The memory after the first page of the image has been read. -/
def elfPage (disk mem : Bytes) : Bytes := fun a =>
  if elfHdr ≤ a ∧ a < elfHdr + 4096 then disk (512 + (a - elfHdr)) else mem a

theorem readseg_elfPage (disk mem : Bytes) :
    readseg disk elfHdr (sectSize * 8) 0 mem = .ok (elfPage disk mem) := by
  obtain ⟨mem', hrun, hmem⟩ := readseg_spec disk mem elfHdr (show 0 < sectSize * 8 by decide)
    (show elfHdr % 512 = 0 % 512 by decide) (by decide) (by decide)
  have heq : mem' = elfPage disk mem := by
    funext a
    rw [hmem, elfPage]
    have hcond : elfHdr / 512 ≤ a / 512 ∧ a / 512 ≤ (elfHdr + sectSize * 8 - 1) / 512 ↔
        elfHdr ≤ a ∧ a < elfHdr + 4096 := by
      change 128 ≤ a / 512 ∧ a / 512 ≤ 135 ↔ 65536 ≤ a ∧ a < 65536 + 4096
      omega
    exact if_congr hcond rfl rfl
  rw [hrun, heq]

/-- The program headers, as they are in memory after the first page has been read. -/
def headers (mem : Bytes) (i : ℕ) : ProgHdr := progHdr mem (elfPh mem + 32 * i)

/-- The image has the magic number, and the addresses of its headers do not wrap around. -/
structure ElfPage (mem : Bytes) : Prop where
  magic : mem.read32 elfHdr = elfMagic
  noWrap : elfHdr + mem.read32 (elfHdr + 28) + 32 * elfPhnum mem < 2 ^ 32

/-- **The boot loader loads every segment intact**, if no segment touches a block with a header that
is still to be read.  The code and the stack of the loader, at `0x7C00` and below, are outside of
the memory here. -/
theorem bootmain_loads (disk mem : Bytes) (helf : ElfPage (elfPage disk mem))
    (hlayout : LoadLayout (elfPhnum (elfPage disk mem)) (headers (elfPage disk mem)))
    (hsafe : HeadersSafe (elfPh (elfPage disk mem)) (elfPhnum (elfPage disk mem))
      (headers (elfPage disk mem))) :
    ∃ entry mem', bootmain disk mem = .ok (some (entry, mem')) ∧
      Intact disk (elfPage disk mem) mem' (elfPhnum (elfPage disk mem))
        (headers (elfPage disk mem)) := by
  have hph : elfPh (elfPage disk mem) + 32 * elfPhnum (elfPage disk mem) < 2 ^ 32 := by
    have := helf.noWrap
    rw [elfPh]
    omega
  have hstop : (elfPh (elfPage disk mem) + elfPhnum (elfPage disk mem) * sizeofProgHdr) % 2 ^ 32 =
      elfPh (elfPage disk mem) + 32 * elfPhnum (elfPage disk mem) := by
    rw [sizeofProgHdr]
    omega
  obtain ⟨st, hrun, hintact⟩ := loadSegments_spec disk (elfPhnum (elfPage disk mem)) _
    (elfPh (elfPage disk mem)) (elfPage disk mem) (Nat.le_refl _) hph hlayout hsafe
  refine ⟨st.2.read32 (elfHdr + 24) % 2 ^ 24, st.2, ?_, hintact⟩
  rw [bootmain, readseg_elfPage, Res.ok_bind]
  simp only [helf.magic, ne_eq, not_true_eq_false, if_false, hstop, hrun]
  rfl

/-- A disk with a kernel of two segments of one byte each.  The first one goes to the block 128 *
`b` of memory, the second one, which is not 0, to the block 4096. -/
def twoSegments (b : BitVec 8) : Bytes := fun a =>
  (List.lookup a [(512, 0x7F#8), (513, 0x45#8), (514, 0x4C#8), (515, 0x46#8), (540, 52#8),
    (556, 2#8), (569, 0x10#8), (574, b), (584, 1#8), (601, 0x12#8), (606, 0x20#8), (616, 1#8),
    (5120, 1#8)]).getD 0#8

/-- Its headers. -/
def twoHeaders (b : BitVec 8) : ℕ → ProgHdr
  | 0 => ⟨0x1000, 2 ^ 16 * b.toNat, 1⟩
  | _ => ⟨0x1200, 0x200000, 1⟩

theorem twoHeaders_dst {b : BitVec 8} (hb : b.toNat < 0x20) (i : ℕ) :
    (twoHeaders b i).dst = if i = 0 then 2 ^ 16 * b.toNat else 0x200000 := by
  cases i with
  | zero =>
    change 2 ^ 16 * b.toNat % 2 ^ 24 = _
    rw [if_pos rfl, Nat.mod_eq_of_lt (by omega)]
  | succ i => rfl

theorem twoHeaders_memsz (b : BitVec 8) (i : ℕ) : (twoHeaders b i).memsz = 1 := by
  cases i <;> rfl

theorem twoHeaders_touches {b : BitVec 8} (hb : b.toNat < 0x20) (i k : ℕ) :
    (twoHeaders b i).Touches k ↔ k = if i = 0 then 128 * b.toNat else 4096 := by
  rw [ProgHdr.touches_iff (by rw [twoHeaders_memsz]; decide), twoHeaders_dst hb, twoHeaders_memsz]
  split <;> omega

theorem twoHeaders_layout {b : BitVec 8} (hb : b.toNat < 0x20) : LoadLayout 2 (twoHeaders b) := by
  refine ⟨fun i _ => ⟨?_, ?_, ?_⟩, fun i j hij hj => ?_, fun i j k hij hj => ?_⟩
  · rw [twoHeaders_memsz]
    decide
  · rw [twoHeaders_dst hb, sectSize]
    cases i with
    | zero =>
      rw [if_pos rfl]
      change 2 ^ 16 * b.toNat % 512 = 0x1000 % 512
      omega
    | succ i =>
      rw [if_neg (Nat.succ_ne_zero i)]
      change 0x200000 % 512 = 0x1200 % 512
      rfl
  · rw [twoHeaders_dst hb, twoHeaders_memsz, sectSize]
    split <;> omega
  · rw [twoHeaders_dst hb, twoHeaders_dst hb, if_pos (by omega), if_neg (by omega)]
    omega
  · rw [twoHeaders_touches hb, twoHeaders_touches hb, if_pos (by omega), if_neg (by omega)]
    omega

/-- The headers of the two segments, read from the first page. -/
theorem headers_twoSegments {b : BitVec 8} (hb : b = 0x01#8 ∨ b = 0x10#8) :
    ElfPage (elfPage (twoSegments b) fun _ => 0#8) ∧
      elfPhnum (elfPage (twoSegments b) fun _ => 0#8) = 2 ∧
      elfPh (elfPage (twoSegments b) fun _ => 0#8) = 0x10034 ∧
      ∀ i < 2, headers (elfPage (twoSegments b) fun _ => 0#8) i = twoHeaders b i := by
  rcases hb with rfl | rfl
  · exact ⟨⟨by decide +kernel, by decide +kernel⟩, by decide +kernel⟩
  · exact ⟨⟨by decide +kernel, by decide +kernel⟩, by decide +kernel⟩

/-- Two segments of one byte each, at 0x100000 and 0x200000. -/
theorem bootmain_loads_two :
    ∃ entry mem', bootmain (twoSegments 0x10#8) (fun _ => 0#8) = .ok (some (entry, mem')) ∧
      mem' 0x200000 = 1#8 := by
  obtain ⟨helf, hnum, hph, hheaders⟩ := headers_twoSegments (b := 0x10#8) (.inr rfl)
  have hsafe : HeadersSafe 0x10034 2 (headers (elfPage (twoSegments 0x10#8) fun _ => 0#8)) := by
    intro i j k hij hj hk
    rw [hheaders i (by omega), twoHeaders_touches (by decide), if_pos (by omega)]
    change (0x10034 + 32 * j + k) / 512 ≠ 2048
    omega
  have hlayout := (twoHeaders_layout (b := 0x10#8) (by decide)).drop 0 hheaders
  obtain ⟨entry, mem', hrun, hin, -⟩ := bootmain_loads (twoSegments 0x10#8) (fun _ => 0#8) helf
    (by rw [hnum]; exact hlayout) (by rw [hnum, hph]; exact hsafe)
  rw [hnum] at hin
  have hbyte := hin 1 (by decide) 0
  rw [hheaders 1 (by decide)] at hbyte
  exact ⟨entry, mem', hrun, hbyte (by decide)⟩

/-- Without the condition on the headers this is not so.  The first segment is loaded to 0x10000,
over the headers, and then the second header says that there is nothing to load. -/
theorem bootmain_loads_not :
    ¬ ∀ disk mem : Bytes, ElfPage (elfPage disk mem) →
      LoadLayout (elfPhnum (elfPage disk mem)) (headers (elfPage disk mem)) →
      ∃ entry mem', bootmain disk mem = .ok (some (entry, mem')) ∧
        Intact disk (elfPage disk mem) mem' (elfPhnum (elfPage disk mem))
          (headers (elfPage disk mem)) := by
  intro hall
  obtain ⟨helf, hnum, -, hheaders⟩ := headers_twoSegments (b := 0x01#8) (.inl rfl)
  have hlayout := (twoHeaders_layout (b := 0x01#8) (by decide)).drop 0 hheaders
  obtain ⟨entry, mem', hrun, hin, -⟩ := hall (twoSegments 0x01#8) (fun _ => 0#8) helf
    (by rw [hnum]; exact hlayout)
  rw [hnum] at hin
  have hbyte := hin 1 (by decide) 0
  rw [hheaders 1 (by decide)] at hbyte
  have hone : mem' 0x200000 = 1#8 := hbyte (by decide)
  have hzero : (bootmain (twoSegments 0x01#8) fun _ => 0#8).map
      (fun r => r.map fun st => st.2 0x200000) = .ok (some 0#8) := by decide +kernel
  rw [hrun] at hzero
  have hzero' : mem' 0x200000 = 0#8 := Option.some.inj (Except.ok.inj hzero)
  rw [hone] at hzero'
  exact absurd hzero' (by decide)

end Ucore
