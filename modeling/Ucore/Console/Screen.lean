import Ucore.Console.Defs
import Ucore.Str.Memmove

/-!
# The screen is the end of an unbounded terminal

`Terminal` is what the screen is for: rows without end, of `CRT_COLS` columns each, and a place in
them for the next character.  The screen shows the last `CRT_ROWS` of the rows.  `Shows` is the
simulation: the cells and the position of the screen are those of the terminal, counted from the row
`Terminal.top` on, and the rows behind the screen are blank.  A character does the same to both, and
if the terminal has left the screen at the bottom, scrolling brings it back: `cgaSwitch_shows`
relates the screen to the rows before it is scrolled, `cgaScroll_shows` shifts it by one row.

That the position stays on the screen holds with backspaces, too (`cgaPutc_spec`).

* `moveCells_spec` and `blank_spec` are the loops of the scrolling, and `cgaScroll_spec` both.
* `cgaSwitch_spec` says what the `switch` does, for each kind of character, and `Within` what
  nothing of it touches: the memory behind the screen.
* `Shows.eq_pos_iff` says when a cell is the one at the position, in rows and columns.  With it the
  cases of the simulation are arithmetic on these.
* `cgaPutc_shows` is one character, and `cga_shows_terminal` any sequence of them.
-/

set_option autoImplicit false

namespace Ucore

/-! ## Cells -/

namespace Cga

variable {s s' : Cga}

/-- What every part of `cga_putc` leaves alone: the memory behind the screen. -/
def Within (s s' : Cga) : Prop := ∀ a, 2 * crtSize ≤ a → s'.mem a = s.mem a

theorem Within.refl (s : Cga) : s.Within s := fun _ _ => rfl

theorem Within.trans {s'' : Cga} (h : s.Within s') (h' : s'.Within s'') : s.Within s'' :=
  fun a ha => (h' a ha).trans (h a ha)

theorem setCell_spec (s : Cga) {i : ℕ} (hi : i < crtSize) (v : ℕ) :
    ∃ s', s.setCell i v = .ok s' ∧ s'.crtPos = s.crtPos ∧ s.Within s' ∧
      ∀ j, s'.cell j = if j = i then v % 2 ^ 16 else s.cell j := by
  refine ⟨_, if_pos hi, rfl, fun a ha => ?_, fun j => ?_⟩
  · simp only
    rw [Function.update_of_ne (by omega), Function.update_of_ne (by omega)]
  · simp only [cell]
    by_cases hj : j = i
    · subst hj
      rw [if_pos rfl, Function.update_self, Function.update_of_ne (by omega), Function.update_self]
      omega
    · rw [if_neg hj, Function.update_of_ne (by omega), Function.update_of_ne (by omega),
        Function.update_of_ne (by omega), Function.update_of_ne (by omega)]

/-- Moving cells to the front of the screen. -/
theorem moveCells_spec (s : Cga) {src n : ℕ} (h : src + n ≤ crtSize) :
    ∃ s', s.moveCells 0 src n = .ok s' ∧ s'.crtPos = s.crtPos ∧ s.Within s' ∧
      ∀ j, s'.cell j = if j < n then s.cell (src + j) else s.cell j := by
  refine ⟨_, if_pos ⟨by omega, h⟩, rfl, fun a ha => ?_, fun j => ?_⟩
  · simp only
    rw [memmove_apply, if_neg (by omega)]
  · simp only [cell]
    rw [memmove_apply, memmove_apply]
    by_cases hj : j < n
    · rw [if_pos (by omega), if_pos (by omega), if_pos hj, Nat.mul_zero, Nat.sub_zero, Nat.sub_zero,
        Nat.mul_add, Nat.add_assoc]
    · rw [if_neg (by omega), if_neg (by omega), if_neg hj]

@[simp] theorem setPos_crtPos {pos : ℕ} (h : pos < 2 ^ 16) : (s.setPos pos).crtPos = pos :=
  Nat.mod_eq_of_lt h

theorem setPos_cell (pos j : ℕ) : (s.setPos pos).cell j = s.cell j := rfl

theorem setPos_within (pos : ℕ) : s.Within (s.setPos pos) := fun _ _ => rfl

/-- Blanking the cells from `a` on. -/
theorem blank_spec (n : ℕ) : ∀ (a : ℕ) (s : Cga), a + n ≤ crtSize →
    ∃ s', (List.range' a n).foldlM (fun s i => s.setCell i crtBlank) s = .ok s' ∧
      s'.crtPos = s.crtPos ∧ s.Within s' ∧
      ∀ j, s'.cell j = if a ≤ j ∧ j < a + n then crtBlank else s.cell j := by
  induction n with
  | zero =>
    intro a s _
    exact ⟨s, rfl, rfl, .refl s, fun j => by rw [if_neg (by omega)]⟩
  | succ n ih =>
    intro a s hle
    obtain ⟨s₁, hset, hpos₁, hwithin₁, hcell₁⟩ :=
      s.setCell_spec (show a < crtSize by omega) crtBlank
    obtain ⟨s₂, hrun, hpos₂, hwithin₂, hcell₂⟩ := ih (a + 1) s₁ (by omega)
    refine ⟨s₂, ?_, hpos₂.trans hpos₁, hwithin₁.trans hwithin₂, fun j => ?_⟩
    · rw [List.range'_succ, List.foldlM_cons, hset, Res.ok_bind, hrun]
    · rw [hcell₂, hcell₁]
      by_cases hj : j = a
      · subst hj
        rw [if_neg (by omega), if_pos rfl, if_pos (by omega)]
        rfl
      · rw [if_neg hj]
        exact if_congr (by omega) rfl rfl

end Cga

/-- **Scrolling.** -/
theorem cgaScroll_spec {s : Cga} (h : s.crtPos < crtSize + crtCols) :
    ∃ s', cgaScroll s = .ok s' ∧ s'.crtPos < crtSize ∧ s.Within s' ∧
      (s.crtPos < crtSize ∧ s' = s ∨
        crtSize ≤ s.crtPos ∧ s'.crtPos = s.crtPos - crtCols ∧
          ∀ j < crtSize, s'.cell j =
            if j < crtSize - crtCols then s.cell (crtCols + j) else crtBlank) := by
  rw [cgaScroll]
  by_cases hpos : s.crtPos ≥ crtSize
  · obtain ⟨s₁, hmove, hpos₁, hwithin₁, hcell₁⟩ :=
      s.moveCells_spec (show crtCols + (crtSize - crtCols) ≤ crtSize by decide)
    obtain ⟨s₂, hblank, hpos₂, hwithin₂, hcell₂⟩ :=
      Cga.blank_spec crtCols (crtSize - crtCols) s₁ (by decide)
    have hsize : crtSize = 2000 := rfl
    have hcols : crtCols = 80 := rfl
    have hpos₃ : (s₂.setPos (s₂.crtPos - crtCols)).crtPos = s.crtPos - crtCols := by
      rw [Cga.setPos_crtPos (by omega), hpos₂, hpos₁]
    refine ⟨s₂.setPos (s₂.crtPos - crtCols), ?_, by omega,
      (hwithin₁.trans hwithin₂).trans (Cga.setPos_within _), .inr ⟨hpos, hpos₃, fun j hj => ?_⟩⟩
    · rw [if_pos hpos, hmove, Res.ok_bind, blankRow, hblank]
      rfl
    · rw [Cga.setPos_cell, hcell₂, hcell₁]
      by_cases hlast : j < crtSize - crtCols
      · rw [if_neg (by omega), if_pos hlast, if_pos hlast]
      · rw [if_pos (by omega), if_neg hlast]
  · exact ⟨s, if_neg hpos, by omega, .refl s, .inl ⟨by omega, rfl⟩⟩

/-- **What the `switch` does**, for each kind of character. -/
theorem cgaSwitch_spec (c : BitVec 32) {s : Cga} (h : s.crtPos < crtSize) :
    ∃ s', cgaSwitch c s = .ok s' ∧ s.Within s' ∧
      (((c &&& 0xff#32).toNat = 8 ∧ s'.crtPos ≤ s.crtPos) ∨
        ((c &&& 0xff#32).toNat = 10 ∧ s'.crtPos = s.crtPos - s.crtPos % crtCols + crtCols ∧
          s'.cell = s.cell) ∨
        ((c &&& 0xff#32).toNat = 13 ∧ s'.crtPos = s.crtPos - s.crtPos % crtCols ∧
          s'.cell = s.cell) ∨
        ((c &&& 0xff#32).toNat ≠ 10 ∧ (c &&& 0xff#32).toNat ≠ 13 ∧ s'.crtPos = s.crtPos + 1 ∧
          ∀ j, s'.cell j = if j = s.crtPos then c.toNat % 2 ^ 16 else s.cell j)) := by
  have hsize : crtSize = 2000 := rfl
  have hcols : crtCols = 80 := rfl
  rw [cgaSwitch]
  split
  · next hc =>
    by_cases hpos : s.crtPos > 0
    · have hpos₁ : (s.setPos (s.crtPos - 1)).crtPos = s.crtPos - 1 := Cga.setPos_crtPos (by omega)
      obtain ⟨s', hset, hpos', hwithin, -⟩ := (s.setPos (s.crtPos - 1)).setCell_spec
        (show (s.setPos (s.crtPos - 1)).crtPos < crtSize by omega)
        ((c &&& ~~~0xff#32) ||| 0x20#32).toNat
      exact ⟨s', by rw [if_pos hpos]; exact hset, (Cga.setPos_within _).trans hwithin,
        .inl ⟨hc, by omega⟩⟩
    · exact ⟨s, if_neg hpos, .refl s, .inl ⟨hc, Nat.le_refl _⟩⟩
  · next hc =>
    -- a newline goes on to the case of the carriage return
    have hpos₁ : (s.setPos (s.crtPos + crtCols)).crtPos = s.crtPos + crtCols :=
      Cga.setPos_crtPos (by omega)
    refine ⟨_, rfl, (Cga.setPos_within _).trans (Cga.setPos_within _), .inr (.inl ⟨hc, ?_, rfl⟩)⟩
    rw [hpos₁, Cga.setPos_crtPos (by omega), Nat.add_mod_right, hcols]
    omega
  · next hc =>
    exact ⟨_, rfl, Cga.setPos_within _, .inr (.inr (.inl ⟨hc, Cga.setPos_crtPos (by omega), rfl⟩))⟩
  · next _ h10 h13 =>
    obtain ⟨s', hset, hpos', hwithin, hcell⟩ := s.setCell_spec h c.toNat
    refine ⟨s'.setPos (s'.crtPos + 1), by rw [hset]; rfl, hwithin.trans (Cga.setPos_within _),
      .inr (.inr (.inr ⟨h10, h13, ?_, hcell⟩))⟩
    rw [Cga.setPos_crtPos (by omega), hpos']

/-- **`cga_putc`**: the `switch`, and then the screen is scrolled if that is needed. -/
theorem cgaPutc_spec (c : BitVec 32) {s : Cga} (h : s.crtPos < crtSize) :
    ∃ s₁ s', cgaSwitch (crtAttr c) s = .ok s₁ ∧ cgaScroll s₁ = .ok s' ∧
      cgaPutc c s = .ok { s' with cursor := s'.crtPos } ∧
      s₁.crtPos < crtSize + crtCols ∧ s'.crtPos < crtSize ∧ s.Within s' := by
  have hsize : crtSize = 2000 := rfl
  have hcols : crtCols = 80 := rfl
  obtain ⟨s₁, hswitch, hwithin₁, hcases⟩ := cgaSwitch_spec (crtAttr c) h
  have hlt : s₁.crtPos < crtSize + crtCols := by
    rcases hcases with ⟨-, hpos⟩ | ⟨-, hpos, -⟩ | ⟨-, hpos, -⟩ | ⟨-, -, hpos, -⟩ <;> omega
  obtain ⟨s', hscroll, hpos', hwithin', -⟩ := cgaScroll_spec hlt
  have hcursor : s'.crtPos / 2 ^ 8 % 2 ^ 8 * 2 ^ 8 + s'.crtPos % 2 ^ 8 = s'.crtPos := by omega
  refine ⟨s₁, s', hswitch, hscroll, ?_, hlt, hpos', hwithin₁.trans hwithin'⟩
  rw [cgaPutc, hswitch, Res.ok_bind, hscroll, Res.ok_bind, hcursor]
  rfl

/-! ## The terminal -/

/-- A terminal with `CRT_COLS` columns and any number of rows, and where the next character goes. -/
structure Terminal where
  cell : ℕ → ℕ → ℕ
  row : ℕ
  col : ℕ

namespace Terminal

/-- A terminal that shows what is on the screen, with blank rows below it. -/
def ofScreen (s : Cga) : Terminal where
  cell r k := if r < crtRows then s.cell (r * crtCols + k) else crtBlank
  row := s.crtPos / crtCols
  col := s.crtPos % crtCols

/-- Write a character that is not a backspace. -/
def putc (c : BitVec 32) (t : Terminal) : Terminal :=
  match (c &&& 0xff#32).toNat with
  | 10 => { t with row := t.row + 1, col := 0 }
  | 13 => { t with col := 0 }
  | _ =>
    let cell r k := if r = t.row ∧ k = t.col then (crtAttr c).toNat % 2 ^ 16 else t.cell r k
    if t.col + 1 = crtCols then ⟨cell, t.row + 1, 0⟩ else ⟨cell, t.row, t.col + 1⟩

/-- The first of the last `CRT_ROWS` rows. -/
def top (t : Terminal) : ℕ := t.row - (crtRows - 1)

end Terminal

/-- The screen shows the rows from `top` on, and the rows behind it are blank. -/
structure Shows (top : ℕ) (t : Terminal) (s : Cga) : Prop where
  top_le : top ≤ t.row
  col_lt : t.col < crtCols
  pos : s.crtPos = (t.row - top) * crtCols + t.col
  cell : ∀ r < crtRows, ∀ k < crtCols, s.cell (r * crtCols + k) = t.cell (top + r) k
  blank : ∀ r, top + crtRows ≤ r → ∀ k < crtCols, t.cell r k = crtBlank

theorem crtAttr_and (c : BitVec 32) : crtAttr c &&& 0xff#32 = c &&& 0xff#32 := by
  rw [crtAttr]
  split
  · rw [BitVec.and_or_distrib_right]
    exact BitVec.or_zero
  · rfl

section Sim

variable {top : ℕ} {t : Terminal} {s : Cga} (h : Shows top t s)

include h

theorem Shows.row_lt_iff : t.row < top + 25 ↔ s.crtPos < crtSize := by
  have hsize : crtSize = 2000 := rfl
  have hpos : s.crtPos = (t.row - top) * 80 + t.col := h.pos
  have hcol : t.col < 80 := h.col_lt
  have htop := h.top_le
  constructor <;> intro <;> omega

/-- A cell is at the position if its row and column are. -/
theorem Shows.eq_pos_iff {r k : ℕ} (hk : k < crtCols) :
    r * crtCols + k = s.crtPos ↔ top + r = t.row ∧ k = t.col := by
  have hk' : k < 80 := hk
  have hpos : s.crtPos = (t.row - top) * 80 + t.col := h.pos
  have hcol : t.col < 80 := h.col_lt
  have htop := h.top_le
  change r * 80 + k = s.crtPos ↔ _
  constructor <;> intro <;> omega

/-- The `switch` does to the screen what the character does to the terminal. -/
theorem cgaSwitch_shows {c : BitVec 32} (hpos : s.crtPos < crtSize)
    (hc : (c &&& 0xff#32).toNat ≠ 8) {s' : Cga} (hswitch : cgaSwitch (crtAttr c) s = .ok s') :
    Shows top (t.putc c) s' := by
  have hrow := h.row_lt_iff.2 hpos
  have hposeq : s.crtPos = (t.row - top) * 80 + t.col := h.pos
  have hcol : t.col < 80 := h.col_lt
  have htop := h.top_le
  obtain ⟨s₁, hrun, -, hcases⟩ := cgaSwitch_spec (crtAttr c) hpos
  cases hswitch.symm.trans hrun
  rw [crtAttr_and] at hcases
  rcases hcases with ⟨h8, -⟩ | ⟨h10, hpos', hcell'⟩ | ⟨h13, hpos', hcell'⟩ |
    ⟨h10, h13, hpos', hcell'⟩
  · exact absurd h8 hc
  · have hput : t.putc c = ⟨t.cell, t.row + 1, 0⟩ := by simp only [Terminal.putc, h10]
    rw [hput]
    refine ⟨Nat.le_succ_of_le htop, Nat.zero_lt_succ 79, ?_, ?_, h.blank⟩
    · rw [hpos']
      change s.crtPos - s.crtPos % 80 + 80 = (t.row + 1 - top) * 80 + 0
      omega
    · rw [hcell']
      exact h.cell
  · have hput : t.putc c = ⟨t.cell, t.row, 0⟩ := by simp only [Terminal.putc, h13]
    rw [hput]
    refine ⟨htop, Nat.zero_lt_succ 79, ?_, ?_, h.blank⟩
    · rw [hpos']
      change s.crtPos - s.crtPos % 80 = (t.row - top) * 80 + 0
      omega
    · rw [hcell']
      exact h.cell
  · have hcell : ∀ r < crtRows, ∀ k < crtCols, s'.cell (r * crtCols + k) =
        if top + r = t.row ∧ k = t.col then (crtAttr c).toNat % 2 ^ 16 else t.cell (top + r) k := by
      intro r hr k hk
      rw [hcell', h.cell r hr k hk]
      exact if_congr (h.eq_pos_iff hk) rfl rfl
    have hblank : ∀ r, top + crtRows ≤ r → ∀ k < crtCols,
        (if r = t.row ∧ k = t.col then (crtAttr c).toNat % 2 ^ 16 else t.cell r k) = crtBlank := by
      intro r hr k hk
      have hr' : top + 25 ≤ r := hr
      rw [if_neg (by omega), h.blank r hr k hk]
    rw [Terminal.putc]
    split
    · next heq => exact absurd heq h10
    · next heq => exact absurd heq h13
    · split
      · next hwrap =>
        -- the last column: the terminal goes on in the next row
        have hwrap' : t.col + 1 = 80 := hwrap
        refine ⟨Nat.le_succ_of_le htop, Nat.zero_lt_succ 79, ?_, hcell, hblank⟩
        rw [hpos']
        change s.crtPos + 1 = (t.row + 1 - top) * 80 + 0
        omega
      · next hwrap =>
        have hwrap' : t.col + 1 ≠ 80 := hwrap
        refine ⟨htop, ?_, ?_, hcell, hblank⟩
        · change t.col + 1 < 80
          omega
        · rw [hpos']
          change s.crtPos + 1 = (t.row - top) * 80 + (t.col + 1)
          omega

/-- Scrolling shows one more row, and that is blank. -/
theorem cgaScroll_shows (hpos : s.crtPos < crtSize + crtCols) {s' : Cga}
    (hscroll : cgaScroll s = .ok s') :
    Shows (if t.row < top + 25 then top else top + 1) t s' := by
  have hposeq : s.crtPos = (t.row - top) * 80 + t.col := h.pos
  have hcol : t.col < 80 := h.col_lt
  have htop := h.top_le
  obtain ⟨s₁, hrun, -, -, hcases⟩ := cgaScroll_spec hpos
  cases hscroll.symm.trans hrun
  rcases hcases with ⟨hlt, rfl⟩ | ⟨hge, hpos', hcell'⟩
  · rw [if_pos (h.row_lt_iff.2 hlt)]
    exact h
  · have hrow : ¬ t.row < top + 25 := fun hlt => absurd (h.row_lt_iff.1 hlt) (by omega)
    rw [if_neg hrow]
    refine ⟨by omega, hcol, ?_, fun r hr k hk => ?_, fun r hr k hk => ?_⟩
    · rw [hpos']
      change s.crtPos - 80 = (t.row - (top + 1)) * 80 + t.col
      omega
    · have hr' : r < 25 := hr
      have hk' : k < 80 := hk
      have hj : r * crtCols + k < crtSize := by
        change r * 80 + k < 2000
        omega
      rw [hcell' _ hj]
      by_cases hlast : r < 24
      · have hj' : r * crtCols + k < crtSize - crtCols := by
          change r * 80 + k < 1920
          omega
        have hshift : crtCols + (r * crtCols + k) = (r + 1) * crtCols + k := by
          rw [Nat.succ_mul]
          omega
        rw [if_pos hj', hshift, h.cell (r + 1) (by change r + 1 < 25; omega) k hk]
        congr 1
        omega
      · have hj' : ¬ r * crtCols + k < crtSize - crtCols := by
          change ¬ r * 80 + k < 1920
          omega
        rw [if_neg hj', h.blank _ (by change top + 25 ≤ _; omega) k hk]
    · exact h.blank r (by omega) k hk

end Sim

theorem Terminal.row_putc (c : BitVec 32) (t : Terminal) :
    t.row ≤ (t.putc c).row ∧ (t.putc c).row ≤ t.row + 1 := by
  rw [Terminal.putc]
  split
  · exact ⟨Nat.le_succ _, Nat.le_refl _⟩
  · exact ⟨Nat.le_refl _, Nat.le_succ _⟩
  · split
    · exact ⟨Nat.le_succ _, Nat.le_refl _⟩
    · exact ⟨Nat.le_refl _, Nat.le_succ _⟩

/-- **One character.**  The screen goes on showing the last rows. -/
theorem cgaPutc_shows {c : BitVec 32} {t : Terminal} {s : Cga} (h : Shows t.top t s)
    (hpos : s.crtPos < crtSize) (hc : (c &&& 0xff#32).toNat ≠ 8) {s' : Cga}
    (hput : cgaPutc c s = .ok s') : Shows (t.putc c).top (t.putc c) s' := by
  obtain ⟨s₁, s₂, hswitch, hscroll, hrun, hlt, -, -⟩ := cgaPutc_spec c hpos
  have hshows := cgaScroll_shows (cgaSwitch_shows h hpos hc hswitch) hlt hscroll
  have htop : (if (t.putc c).row < t.top + 25 then t.top else t.top + 1) = (t.putc c).top := by
    have hrow := t.row_putc c
    have hrow' := h.row_lt_iff.2 hpos
    have heq : t.top = t.row - 24 := rfl
    change _ = (t.putc c).row - 24
    split <;> omega
  rw [htop] at hshows
  rw [hput] at hrun
  cases hrun
  exact ⟨hshows.top_le, hshows.col_lt, hshows.pos, hshows.cell, hshows.blank⟩

/-- The screen shows itself. -/
theorem shows_ofScreen {s : Cga} (h : s.crtPos < crtSize) :
    Shows (Terminal.ofScreen s).top (Terminal.ofScreen s) s := by
  have hlt : s.crtPos < 2000 := h
  have htop : (Terminal.ofScreen s).top = 0 := by
    change s.crtPos / 80 - 24 = 0
    omega
  rw [htop]
  refine ⟨Nat.zero_le _, Nat.mod_lt _ (Nat.zero_lt_succ 79), ?_, fun r hr k _ => ?_,
    fun r hr k _ => ?_⟩
  · change s.crtPos = (s.crtPos / 80 - 0) * 80 + s.crtPos % 80
    omega
  · rw [Nat.zero_add]
    exact (if_pos hr).symm
  · exact if_neg (by omega)

/-- A sequence of characters. -/
def cgaPuts (cs : List (BitVec 32)) (s : Cga) : Res Cga := cs.foldlM (fun s c => cgaPutc c s) s

theorem cgaPuts_spec (cs : List (BitVec 32)) {s : Cga} (h : s.crtPos < crtSize) :
    ∃ s', cgaPuts cs s = .ok s' ∧ s'.crtPos < crtSize ∧ s.Within s' ∧
      (cs ≠ [] → s'.cursor = s'.crtPos) ∧
      ∀ t : Terminal, Shows t.top t s → (∀ c ∈ cs, (c &&& 0xff#32).toNat ≠ 8) →
        Shows (cs.foldl (fun t c => t.putc c) t).top (cs.foldl (fun t c => t.putc c) t) s' := by
  induction cs generalizing s with
  | nil => exact ⟨s, rfl, h, .refl s, fun hne => absurd rfl hne, fun _ hs _ => hs⟩
  | cons c cs ih =>
    obtain ⟨-, s₁, -, -, hput, -, hpos₁, hwithin₁⟩ := cgaPutc_spec c h
    obtain ⟨s', hrun, hpos', hwithin', hcursor, hshows⟩ := ih (s := { s₁ with cursor := s₁.crtPos })
      hpos₁
    refine ⟨s', by rw [cgaPuts, List.foldlM_cons, hput]; exact hrun, hpos', ?_, fun _ => ?_, ?_⟩
    · exact hwithin₁.trans fun a ha => hwithin' a ha
    · cases cs with
      | nil =>
        cases hrun
        rfl
      | cons c' cs => exact hcursor (List.cons_ne_nil c' cs)
    · intro t ht hcs
      refine hshows (t.putc c) ?_ fun c' hc' => hcs c' (List.mem_cons_of_mem c hc')
      exact cgaPutc_shows ht h (hcs c List.mem_cons_self) hput

/-- **The screen shows the last rows of an unbounded terminal.**  After any characters the position
is on the screen and nothing behind the screen was written; and if there was no backspace, cells and
position are those of the last `CRT_ROWS` rows of a terminal that began as the screen, with blank
rows below it, and got the same characters. -/
theorem cga_shows_terminal (s : Cga) (h : s.crtPos < crtSize) (cs : List (BitVec 32)) :
    ∃ s', cgaPuts cs s = .ok s' ∧ s'.crtPos < crtSize ∧
      (∀ a, 2 * crtSize ≤ a → s'.mem a = s.mem a) ∧ (cs ≠ [] → s'.cursor = s'.crtPos) ∧
      ((∀ c ∈ cs, (c &&& 0xff#32).toNat ≠ 8) →
        let t := cs.foldl (fun t c => t.putc c) (Terminal.ofScreen s)
        s'.crtPos = (t.row - t.top) * crtCols + t.col ∧
          ∀ r < crtRows, ∀ k < crtCols, s'.cell (r * crtCols + k) = t.cell (t.top + r) k) := by
  obtain ⟨s', hrun, hpos, hwithin, hcursor, hshows⟩ := cgaPuts_spec cs h
  refine ⟨s', hrun, hpos, hwithin, hcursor, fun hcs => ?_⟩
  have ht := hshows _ (shows_ofScreen h) hcs
  exact ⟨ht.pos, ht.cell⟩

/-- A newline on the last row, and then a letter. -/
theorem cga_shows_terminal_newline :
    ∃ s', cgaPuts [10#32, 97#32] ⟨fun _ => 0, 1999, 0⟩ = .ok s' ∧ s'.crtPos < crtSize ∧
      (∀ a, 2 * crtSize ≤ a → s'.mem a = 0) ∧ s'.cursor = s'.crtPos ∧ s'.crtPos = 1921 ∧
      s'.cell 1920 = 0x0761 := by
  obtain ⟨s', hrun, hpos, hmem, hcursor, hshows⟩ :=
    cga_shows_terminal ⟨fun _ => 0, 1999, 0⟩ (by decide) [10#32, 97#32]
  obtain ⟨hpos', hcell⟩ := hshows (by simp)
  exact ⟨s', hrun, hpos, hmem, hcursor (List.cons_ne_nil _ _), hpos',
    hcell 24 (by decide) 0 (by decide)⟩

end Ucore
