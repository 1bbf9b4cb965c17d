/-
What the terminal of `test_os/kernel.c` shows: the canvas is the picture of a grid of characters,
and the screen has a copy of the canvas.

A character has eight pixel rows in a cell of fourteen, and the six below are never drawn into. So
a cell's pixels are told by the character that it shows, also where another one stood there before.
The copy on the screen is made of the cell that was drawn, or of the whole canvas where it was
scrolled, and not at all in batch mode.
-/
import SysInC.KernelTerminal
import SysInC.Painting
import Mathlib.Data.List.Induction
import Mathlib.Tactic.Ring

set_option autoImplicit false

namespace SysInC.KernelTerminal

open Painting

/-! ## The grid -/

/-- What the cells show, by row and column: a character of the font, or nothing. -/
abbrev cells : Type := ℤ → ℤ → Option ℤ

def cells.set (grid : cells) (row col : ℤ) (c : Option ℤ) : cells := fun r k =>
  if r = row ∧ k = col then c else grid r k

structure screen where
  grid : cells
  col : ℤ
  row : ℤ

/-- The cursor below the last line moves all lines up; the first one is lost. -/
def screen.keep (s : screen) : screen :=
  if TERM_ROWS ≤ s.row then
    ⟨fun r k => if r < TERM_ROWS - 1 then s.grid (r + 1) k else none, s.col, TERM_ROWS - 1⟩
  else s

/-- What stands for a character; the font has those from the blank to the tilde. -/
def shown (c : Int8) : ℤ := if c.toInt < 32 ∨ 126 < c.toInt then 63 else c.toInt

/-- A character on a terminal that is nothing but a grid and a cursor. -/
def screen.put (s : screen) (c : Int8) : screen :=
  if c = 10 then screen.keep ⟨s.grid, 0, s.row + 1⟩
  else if c = 8 then
    if 0 < s.col then ⟨s.grid.set s.row (s.col - 1) none, s.col - 1, s.row⟩ else s
  else if 32 ≤ c.toUInt8 then
    let grid := s.grid.set s.row s.col (some (shown c))
    if TERM_COLS ≤ s.col + 1 then screen.keep ⟨grid, 0, s.row + 1⟩ else ⟨grid, s.col + 1, s.row⟩
  else s

def screen.cleared : screen := ⟨fun _ _ => none, 0, 0⟩

section Picture

variable (kgfx_font8x8 : ℤ → ℕ → UInt8)

/-- The pixel of a cell in its row `r` and its column `b`. -/
def dot (c : Option ℤ) (r b : ℕ) : UInt32 :=
  match c with
  | none => 0
  | some c =>
    if r < 8 then
      if kgfx_font8x8 (c - 32) r &&& (1 <<< UInt8.ofNat (7 - b)) ≠ 0 then KGFX_WHITE
      else KGFX_BLACK
    else 0

/-- The pixel of a cell at a place of the canvas. -/
def dot_at (c : Option ℤ) (i : ℤ) : UInt32 :=
  dot kgfx_font8x8 c (i / TERM_WIDTH % TERM_CHAR_H).toNat (i % TERM_WIDTH % TERM_CHAR_W).toNat

/-- The pixels of the grid, in the order of the canvas. -/
def picture (grid : cells) (i : ℤ) : UInt32 :=
  dot_at kgfx_font8x8 (grid (i / TERM_WIDTH / TERM_CHAR_H) (i % TERM_WIDTH / TERM_CHAR_W)) i

def Pictures (ram : canvas) (grid : cells) : Prop :=
  ∀ i, OnCanvas i 1 → ram i = picture kgfx_font8x8 grid i

/-- The canvas is the picture of the grid, and the cursor is on the same cell. -/
structure Shows (t : terminal) (s : screen) : Prop where
  col : t.term_col = s.col
  row : t.term_row = s.row
  pixels : Pictures kgfx_font8x8 t.term_canvas s.grid

@[simp] theorem dot_none (r b : ℕ) : dot kgfx_font8x8 none r b = 0 := rfl

/-- Nothing is drawn below the eighth row of a cell. -/
theorem dot_low (c : Option ℤ) {r : ℕ} (hr : 8 ≤ r) (b : ℕ) : dot kgfx_font8x8 c r b = 0 := by
  cases c with
  | none => rfl
  | some c => exact if_neg (not_lt.mpr hr)

theorem shown_bounds (c : Int8) : 32 ≤ shown c ∧ shown c ≤ 126 := by
  unfold shown
  split_ifs with h
  · omega
  · omega

end Picture

/-- The place of a pixel tells its cell, and where in the cell it is. -/
theorem place_cell {row col r b i : ℤ} (hcol : 0 ≤ col) (hcol' : col < TERM_COLS) (hr : 0 ≤ r)
    (hr' : r < TERM_CHAR_H) (hb : 0 ≤ b) (hb' : b < TERM_CHAR_W)
    (hi : i = (row * TERM_CHAR_H + r) * TERM_WIDTH + col * TERM_CHAR_W + b) :
    i / TERM_WIDTH / TERM_CHAR_H = row ∧ i % TERM_WIDTH / TERM_CHAR_W = col
      ∧ i / TERM_WIDTH % TERM_CHAR_H = r ∧ i % TERM_WIDTH % TERM_CHAR_W = b := by
  subst hi
  simp only [TERM_WIDTH, TERM_COLS, TERM_CHAR_W, TERM_CHAR_H] at *
  omega

theorem place_of_cell {row col i : ℤ} (hrow : i / TERM_WIDTH / TERM_CHAR_H = row)
    (hcol : i % TERM_WIDTH / TERM_CHAR_W = col) :
    i = (row * TERM_CHAR_H + i / TERM_WIDTH % TERM_CHAR_H) * TERM_WIDTH + col * TERM_CHAR_W
      + i % TERM_WIDTH % TERM_CHAR_W := by
  subst hrow hcol
  simp only [TERM_WIDTH, TERM_COLS, TERM_CHAR_W, TERM_CHAR_H]
  omega

/-! ## The canvas -/

section Canvas

variable (kgfx_font8x8 : ℤ → ℕ → UInt8) {t : terminal} {ram : canvas} {grid : cells}

theorem store_eq_paint {u : ℤ → UInt32} {i : ℤ} {pixel : UInt32} (h : OnCanvas i 1)
    (hu : u i = pixel) (ram : canvas) :
    ram.store i pixel = some (paint {i} (fun i _ => u i) ram) := by
  rw [canvas.store, if_pos h, update_eq_paint (v := fun i _ => u i) hu]

/-- The places of a pixel row of the cell of the cursor. -/
def row_places (t : terminal) (words : ℕ) (r : ℕ) : Set ℤ :=
  places (fun b => {(t.term_row * TERM_CHAR_H + r) * TERM_WIDTH + t.term_col * TERM_CHAR_W + b})
    words

/-- In a cell, the places of its first `lines` pixel rows. -/
theorem mem_rows_iff (h : InGrid t) {lines : ℕ} (hlines : (lines : ℤ) ≤ TERM_CHAR_H) (i : ℤ) :
    i ∈ places (row_places t 8) lines ↔ i / TERM_WIDTH / TERM_CHAR_H = t.term_row
      ∧ i % TERM_WIDTH / TERM_CHAR_W = t.term_col ∧ i / TERM_WIDTH % TERM_CHAR_H < lines := by
  have hwidth : (0 : ℤ) < TERM_CHAR_H ∧ (0 : ℤ) < TERM_CHAR_W := by decide
  constructor
  · rintro ⟨r, hr, b, hb, hi⟩
    have hr' : (r : ℤ) < lines := Int.ofNat_lt.mpr hr
    have hb' : (b : ℤ) < TERM_CHAR_W := Int.ofNat_lt.mpr hb
    obtain ⟨hrow, hcol, hline, -⟩ := place_cell h.col_nonneg h.col_lt (Int.natCast_nonneg r)
      (hr'.trans_le hlines) (Int.natCast_nonneg b) hb' hi
    exact ⟨hrow, hcol, hline ▸ hr'⟩
  · rintro ⟨hrow, hcol, hline⟩
    have hr := Int.emod_nonneg (i / TERM_WIDTH) hwidth.1.ne'
    have hb := Int.emod_nonneg (i % TERM_WIDTH) hwidth.2.ne'
    have hb' := Int.emod_lt_of_pos (i % TERM_WIDTH) hwidth.2
    refine ⟨(i / TERM_WIDTH % TERM_CHAR_H).toNat, by omega,
      (i % TERM_WIDTH % TERM_CHAR_W).toNat, ?_, ?_⟩
    · rw [TERM_CHAR_W] at hb hb' ⊢
      omega
    · rw [Set.mem_singleton_iff, Int.toNat_of_nonneg hr, Int.toNat_of_nonneg hb]
      exact place_of_cell hrow hcol

/-- What the font has for a character, at the places of its cell. -/
theorem draw_char_to_canvas_eq (h : InGrid t) (c : Int8) (ram : canvas) :
    draw_char_to_canvas kgfx_font8x8 ram c.toInt (t.term_col * TERM_CHAR_W)
        (t.term_row * TERM_CHAR_H) KGFX_WHITE
      = some (paint (places (row_places t 8) 8) (fun i _ => dot_at kgfx_font8x8 (some (shown c)) i)
        ram) := by
  unfold draw_char_to_canvas
  apply foldlM_range_paint
  intro r hr ram
  have hfont : glyph_row kgfx_font8x8 (shown c - 32) r = some (kgfx_font8x8 (shown c - 32) r) := by
    have hshown := shown_bounds c
    apply if_pos
    omega
  have hglyph : glyph_row kgfx_font8x8 ((if c.toInt < 32 ∨ 126 < c.toInt then 63 else c.toInt) - 32)
      r = some (kgfx_font8x8 (shown c - 32) r) := hfont
  rw [hglyph, Option.bind_some]
  apply foldlM_range_paint
  intro b hb ram
  have hr' : (r : ℤ) < TERM_CHAR_H := by
    rw [TERM_CHAR_H]
    omega
  have hb' : (b : ℤ) < TERM_CHAR_W := by
    rw [TERM_CHAR_W]
    omega
  apply store_eq_paint
  · exact onCanvas_cell h.col_nonneg h.col_lt h.row_nonneg h.row_lt (Int.natCast_nonneg r) hr'
      (Int.natCast_nonneg b) (Int.add_one_le_of_lt hb')
  · obtain ⟨-, -, hline, hcolumn⟩ := place_cell h.col_nonneg h.col_lt (Int.natCast_nonneg r) hr'
      (Int.natCast_nonneg b) hb' rfl
    rw [dot_at, hline, hcolumn, Int.toNat_natCast, Int.toNat_natCast]
    exact if_pos hr

theorem set_self (grid : cells) (row col : ℤ) (c : Option ℤ) : grid.set row col c row col = c :=
  if_pos ⟨rfl, rfl⟩

theorem set_of_ne {row col r k : ℤ} (h : ¬(r = row ∧ k = col)) (c : Option ℤ) :
    grid.set row col c r k = grid r k :=
  if_neg h

/-- Where the rows of a cell that show anything are painted with a character, it is in the cell. -/
theorem pictures_paint (h : InGrid t) (hram : Pictures kgfx_font8x8 ram grid) (c : Option ℤ)
    {lines : ℕ} (hlines : (lines : ℤ) ≤ TERM_CHAR_H) (hall : 8 ≤ lines) :
    Pictures kgfx_font8x8
      (paint (places (row_places t 8) lines) (fun i _ => dot_at kgfx_font8x8 c i) ram)
      (grid.set t.term_row t.term_col c) := by
  intro i hi
  have hmem := mem_rows_iff h hlines i
  by_cases hcell : i / TERM_WIDTH / TERM_CHAR_H = t.term_row
      ∧ i % TERM_WIDTH / TERM_CHAR_W = t.term_col
  · rw [picture, hcell.1, hcell.2, set_self]
    by_cases hline : i / TERM_WIDTH % TERM_CHAR_H < lines
    · exact paint_of_mem (hmem.mpr ⟨hcell.1, hcell.2, hline⟩)
    · -- The rows below are as they were, and were not drawn into before.
      rw [paint_of_notMem fun hin => hline (hmem.mp hin).2.2, hram i hi, picture]
      have hlow : 8 ≤ (i / TERM_WIDTH % TERM_CHAR_H).toNat := by omega
      rw [dot_at, dot_at, dot_low kgfx_font8x8 _ hlow, dot_low kgfx_font8x8 _ hlow]
  · rw [paint_of_notMem fun hin => hcell ⟨(hmem.mp hin).1, (hmem.mp hin).2.1⟩, hram i hi, picture,
      picture, set_of_ne hcell]

theorem erase_canvas_eq (h : InGrid t) (ram : canvas) :
    (List.range TERM_CHAR_H.toNat).foldlM (fun (ram : canvas) (r : ℕ) =>
      ram.kmemset ((t.term_row * TERM_CHAR_H + r) * TERM_WIDTH + t.term_col * TERM_CHAR_W) 0
        TERM_CHAR_W) ram
      = some (paint (places (row_places t 8) 14) (fun i _ => dot_at kgfx_font8x8 none i) ram) := by
  apply foldlM_range_paint
  intro r hr ram
  have hr' : (r : ℤ) < TERM_CHAR_H := Int.lt_toNat.mp hr
  have hon := onCanvas_cell h.col_nonneg h.col_lt h.row_nonneg h.row_lt (Int.natCast_nonneg r) hr'
    le_rfl (zero_add TERM_CHAR_W).le
  rw [add_zero] at hon
  rw [canvas.kmemset, if_pos hon]
  apply congrArg some
  funext i
  have hmem : i ∈ row_places t 8 r ↔
      (t.term_row * TERM_CHAR_H + r) * TERM_WIDTH + t.term_col * TERM_CHAR_W ≤ i
        ∧ i < (t.term_row * TERM_CHAR_H + r) * TERM_WIDTH + t.term_col * TERM_CHAR_W
          + TERM_CHAR_W := by
    constructor
    · rintro ⟨b, hb, rfl⟩
      rw [TERM_CHAR_W]
      omega
    · rintro ⟨hlow, hhigh⟩
      rw [TERM_CHAR_W] at hlow hhigh
      refine ⟨(i - ((t.term_row * TERM_CHAR_H + r) * TERM_WIDTH + t.term_col * 8)).toNat, ?_, ?_⟩
      · omega
      · rw [Set.mem_singleton_iff, TERM_CHAR_W]
        omega
  by_cases hi : i ∈ row_places t 8 r
  · rw [paint_of_mem hi, if_pos (hmem.mp hi)]
    rfl
  · rw [paint_of_notMem hi, if_neg fun hin => hi (hmem.mpr hin)]

end Canvas

/-! ## What a character does -/

section Steps

variable (kgfx_font8x8 : ℤ → ℕ → UInt8) (pitch : UInt32) {term_batch_mode : Bool} {t t' : terminal}
  {s : screen}

theorem InGrid.back (h : InGrid t) (hcol : 0 < t.term_col) :
    InGrid { t with term_col := t.term_col - 1 } :=
  ⟨Int.le_sub_one_of_lt hcol, (sub_one_lt _).trans h.col_lt, h.row_nonneg, h.row_lt⟩

/-- The canvas, up by the lines of a cell. -/
def scrolled (ram : canvas) : canvas := fun i =>
  if TERM_WIDTH * (TERM_HEIGHT - TERM_CHAR_H) ≤ i ∧ i < TERM_WIDTH * TERM_HEIGHT then 0
  else if 0 ≤ i ∧ i < TERM_WIDTH * (TERM_HEIGHT - TERM_CHAR_H) then
    ram (i + TERM_CHAR_H * TERM_WIDTH)
  else ram i

theorem terminal_scroll_ram_spec
    (h : terminal_scroll_ram pitch term_batch_mode t = some t') :
    t'.term_canvas = scrolled t.term_canvas ∧ t'.term_col = t.term_col
      ∧ unless_batch term_batch_mode t.vram (flush_full_canvas_to_vram pitch t'.term_canvas t.vram)
        = some t'.vram := by
  have hmove : OnCanvas 0 (TERM_WIDTH * (TERM_HEIGHT - TERM_CHAR_H))
      ∧ OnCanvas (TERM_CHAR_H * TERM_WIDTH) (TERM_WIDTH * (TERM_HEIGHT - TERM_CHAR_H)) := by decide
  have hbottom :
      OnCanvas (TERM_WIDTH * (TERM_HEIGHT - TERM_CHAR_H)) (TERM_WIDTH * TERM_CHAR_H) := by
    decide
  unfold terminal_scroll_ram at h
  dsimp only at h
  rw [canvas.kmemmove, if_pos hmove, Option.bind_eq_bind, Option.bind_some, canvas.kmemset,
    if_pos hbottom, Option.bind_eq_bind, Option.bind_some] at h
  obtain ⟨vram, hcopied, h⟩ := Option.bind_eq_some_iff.mp h
  obtain rfl := Option.some.inj h
  have hram : (fun i => if TERM_WIDTH * (TERM_HEIGHT - TERM_CHAR_H) ≤ i
      ∧ i < TERM_WIDTH * (TERM_HEIGHT - TERM_CHAR_H) + TERM_WIDTH * TERM_CHAR_H then 0
      else if 0 ≤ i ∧ i < 0 + TERM_WIDTH * (TERM_HEIGHT - TERM_CHAR_H) then
        t.term_canvas (i - 0 + TERM_CHAR_H * TERM_WIDTH)
      else t.term_canvas i) = scrolled t.term_canvas := by
    funext i
    have hend : TERM_WIDTH * (TERM_HEIGHT - TERM_CHAR_H) + TERM_WIDTH * TERM_CHAR_H
        = TERM_WIDTH * TERM_HEIGHT := by decide
    rw [scrolled, hend, sub_zero, zero_add]
  exact ⟨hram, rfl, hcopied⟩

/-- Either nothing happens or the canvas is scrolled, and copied unless in batch mode. -/
theorem keep_row_cases (h : keep_row pitch term_batch_mode t = some t') :
    (t.term_row < TERM_ROWS ∧ t' = t) ∨
      (TERM_ROWS ≤ t.term_row ∧ t'.term_col = t.term_col ∧ t'.term_row = TERM_ROWS - 1
        ∧ t'.term_canvas = scrolled t.term_canvas
        ∧ unless_batch term_batch_mode t.vram
          (flush_full_canvas_to_vram pitch t'.term_canvas t.vram) = some t'.vram) := by
  unfold keep_row at h
  by_cases hlast : TERM_ROWS ≤ t.term_row
  · rw [if_pos hlast] at h
    obtain ⟨u, hscroll, rfl⟩ := Option.map_eq_some_iff.mp h
    obtain ⟨hram, hcol, hcopied⟩ := terminal_scroll_ram_spec pitch hscroll
    exact Or.inr ⟨hlast, hcol, rfl, hram, hcopied⟩
  · rw [if_neg hlast] at h
    exact Or.inl ⟨not_le.mp hlast, (Option.some.inj h).symm⟩

theorem keep_row_stay (h : t.term_row < TERM_ROWS) : keep_row pitch term_batch_mode t = some t :=
  if_neg (not_le.mpr h)

/-- The cell of the cursor shows `c`, also on the screen unless in batch mode. -/
structure Drawn (term_batch_mode : Bool) (c : Option ℤ) (t u : terminal) : Prop where
  ram : ∃ lines : ℕ, 8 ≤ lines ∧ (lines : ℤ) ≤ TERM_CHAR_H
    ∧ u.term_canvas = paint (places (row_places t 8) lines) (fun i _ => dot_at kgfx_font8x8 c i)
      t.term_canvas
  copied : unless_batch term_batch_mode t.vram (blit_char_to_vram pitch u.term_canvas
    (t.term_col * TERM_CHAR_W) (t.term_row * TERM_CHAR_H) t.vram) = some u.vram

/-- **What a character does.** It moves the cursor to the next line, or blanks the cell before the
cursor, or draws the cell of the cursor and goes on, or nothing. -/
theorem os_putchar_cases {c : Int8} (hin : InGrid t)
    (h : os_putchar kgfx_font8x8 pitch term_batch_mode t c = some t') :
    (c = 10 ∧ keep_row pitch term_batch_mode { t with term_col := 0, term_row := t.term_row + 1 }
      = some t') ∨
    (c = 8 ∧ 0 < t.term_col ∧ t'.term_col = t.term_col - 1 ∧ t'.term_row = t.term_row
      ∧ Drawn kgfx_font8x8 pitch term_batch_mode none { t with term_col := t.term_col - 1 } t') ∨
    (c ≠ 10 ∧ c ≠ 8 ∧ 32 ≤ c.toUInt8 ∧ ∃ u, keep_row pitch term_batch_mode u = some t'
      ∧ (u.term_col, u.term_row)
        = (if TERM_COLS ≤ t.term_col + 1 then (0, t.term_row + 1) else (t.term_col + 1, t.term_row))
      ∧ Drawn kgfx_font8x8 pitch term_batch_mode (some (shown c)) t u) ∨
    (t' = t ∧ c ≠ 10 ∧ (c = 8 → ¬0 < t.term_col) ∧ (c ≠ 8 → ¬32 ≤ c.toUInt8)) := by
  unfold os_putchar at h
  by_cases hline : c = 10
  · rw [if_pos hline] at h
    exact Or.inl ⟨hline, h⟩
  rw [if_neg hline] at h
  by_cases hback : c = 8
  · rw [if_pos hback] at h
    unfold erase at h
    by_cases hcol : 0 < t.term_col
    · rw [if_pos hcol] at h
      dsimp only at h
      rw [erase_canvas_eq kgfx_font8x8 (hin.back hcol), Option.bind_eq_bind, Option.bind_some] at h
      obtain ⟨vram, hcopied, h⟩ := Option.bind_eq_some_iff.mp h
      obtain rfl := Option.some.inj h
      exact Or.inr (Or.inl ⟨hback, hcol, rfl, rfl, ⟨14, by decide, by decide, rfl⟩, hcopied⟩)
    · rw [if_neg hcol] at h
      exact Or.inr (Or.inr (Or.inr ⟨(Option.some.inj h).symm, hline, fun _ => hcol,
        fun hne => absurd hback hne⟩))
  rw [if_neg hback] at h
  by_cases hprint : 32 ≤ c.toUInt8
  · rw [if_pos hprint] at h
    unfold print at h
    rw [keep_row_stay pitch hin.row_lt, Option.bind_eq_bind, Option.bind_some] at h
    dsimp only at h
    rw [draw_char_to_canvas_eq kgfx_font8x8 hin, Option.bind_eq_bind, Option.bind_some] at h
    obtain ⟨vram, hcopied, h⟩ := Option.bind_eq_some_iff.mp h
    refine Or.inr (Or.inr (Or.inl ⟨hline, hback, hprint, ?_⟩))
    by_cases hcol : TERM_COLS ≤ t.term_col + 1
    · rw [if_pos hcol] at h ⊢
      exact ⟨_, h, rfl, ⟨8, le_rfl, by decide, rfl⟩, hcopied⟩
    · rw [if_neg hcol] at h ⊢
      obtain rfl := Option.some.inj h
      exact ⟨_, keep_row_stay pitch hin.row_lt, rfl, ⟨8, le_rfl, by decide, rfl⟩, hcopied⟩
  · rw [if_neg hprint] at h
    exact Or.inr (Or.inr (Or.inr ⟨(Option.some.inj h).symm, hline, fun heq => absurd heq hback,
      fun _ => hprint⟩))

/-- What holds at first and what each character keeps holds behind every stream. -/
theorem put_all_induct {motive : List (Int8 × Bool) → terminal → Prop} (hin : InGrid t)
    (hnil : motive [] t) (hput : ∀ stream p u u', InGrid u → motive stream u →
      os_putchar kgfx_font8x8 pitch p.2 u p.1 = some u' → motive (stream ++ [p]) u')
    (stream : List (Int8 × Bool)) :
    ∃ t', put_all kgfx_font8x8 pitch t stream = some t' ∧ motive stream t' := by
  have hrun : ∃ t', put_all kgfx_font8x8 pitch t stream = some t' ∧ InGrid t'
      ∧ motive stream t' := by
    induction stream using List.reverseRecOn with
    | nil => exact ⟨t, rfl, hin, hnil⟩
    | append_singleton stream p ih =>
        obtain ⟨u, hrest, hin₁, hu⟩ := ih
        obtain ⟨t', hlast, hin'⟩ := os_putchar_isSome kgfx_font8x8 pitch p.2 hin₁ p.1
        refine ⟨t', ?_, hin', hput stream p u t' hin₁ hu hlast⟩
        unfold put_all at hrest ⊢
        rw [List.foldlM_append, hrest, Option.bind_eq_bind, Option.bind_some, List.foldlM_cons,
          hlast]
        rfl
  exact hrun.imp fun t' h => ⟨h.1, h.2.2⟩

/-! ## The grid on the canvas -/

theorem pictures_scrolled {ram : canvas} {grid : cells} (h : Pictures kgfx_font8x8 ram grid) :
    Pictures kgfx_font8x8 (scrolled ram)
      (fun r k => if r < TERM_ROWS - 1 then grid (r + 1) k else none) := by
  intro i hi
  have hon := (onCanvas_iff i 1).mp hi
  unfold scrolled
  by_cases hbottom : TERM_WIDTH * (TERM_HEIGHT - TERM_CHAR_H) ≤ i ∧ i < TERM_WIDTH * TERM_HEIGHT
  · have hrow : ¬i / TERM_WIDTH / TERM_CHAR_H < TERM_ROWS - 1 := by
      simp only [TERM_WIDTH, TERM_HEIGHT, TERM_COLS, TERM_ROWS, TERM_CHAR_W, TERM_CHAR_H] at *
      omega
    rw [if_pos hbottom, picture, if_neg hrow, dot_at, dot_none]
  · have hrow : i / TERM_WIDTH / TERM_CHAR_H < TERM_ROWS - 1
        ∧ (0 ≤ i ∧ i < TERM_WIDTH * (TERM_HEIGHT - TERM_CHAR_H)) := by
      simp only [TERM_WIDTH, TERM_HEIGHT, TERM_COLS, TERM_ROWS, TERM_CHAR_W, TERM_CHAR_H] at *
      omega
    -- One line of cells further down the pixel is at the same place of its cell.
    have hdown : OnCanvas (i + TERM_CHAR_H * TERM_WIDTH) 1
        ∧ (i + TERM_CHAR_H * TERM_WIDTH) / TERM_WIDTH / TERM_CHAR_H
          = i / TERM_WIDTH / TERM_CHAR_H + 1
        ∧ (i + TERM_CHAR_H * TERM_WIDTH) % TERM_WIDTH = i % TERM_WIDTH
        ∧ (i + TERM_CHAR_H * TERM_WIDTH) / TERM_WIDTH % TERM_CHAR_H
          = i / TERM_WIDTH % TERM_CHAR_H := by
      simp only [onCanvas_iff, TERM_WIDTH, TERM_HEIGHT, TERM_COLS, TERM_ROWS, TERM_CHAR_W,
        TERM_CHAR_H] at *
      omega
    obtain ⟨hon', hcell, hcolumn, hline⟩ := hdown
    rw [if_neg hbottom, if_pos hrow.2, h _ hon', picture, picture, if_pos hrow.1, dot_at, dot_at,
      hcell, hcolumn, hline]

variable {kgfx_font8x8}

theorem Shows.keep (h : Shows kgfx_font8x8 t s)
    (hkeep : keep_row pitch term_batch_mode t = some t') : Shows kgfx_font8x8 t' s.keep := by
  rcases keep_row_cases pitch hkeep with ⟨hrow, rfl⟩ | ⟨hrow, hcol', hrow', hram, -⟩
  · rwa [screen.keep, if_neg (not_le.mpr (h.row ▸ hrow))]
  · rw [screen.keep, if_pos (h.row ▸ hrow)]
    refine ⟨hcol'.trans h.col, hrow', ?_⟩
    rw [hram]
    exact pictures_scrolled kgfx_font8x8 h.pixels

theorem Drawn.pixels {c : Option ℤ} {u : terminal} (hin : InGrid t)
    (h : Drawn kgfx_font8x8 pitch term_batch_mode c t u) {grid : cells}
    (hgrid : Pictures kgfx_font8x8 t.term_canvas grid) :
    Pictures kgfx_font8x8 u.term_canvas (grid.set t.term_row t.term_col c) := by
  obtain ⟨lines, hall, hlines, hram⟩ := h.ram
  rw [hram]
  exact pictures_paint kgfx_font8x8 hin hgrid c hlines hall

/-- A character does to the canvas what it does to the grid. -/
theorem Shows.put {c : Int8} (hin : InGrid t) (h : Shows kgfx_font8x8 t s)
    (hput : os_putchar kgfx_font8x8 pitch term_batch_mode t c = some t') :
    Shows kgfx_font8x8 t' (s.put c) := by
  have hrow : ¬TERM_ROWS ≤ s.row := not_le.mpr (h.row ▸ hin.row_lt)
  rcases os_putchar_cases kgfx_font8x8 pitch hin hput with ⟨rfl, hkeep⟩ |
    ⟨rfl, hcol, hcol', hrow', hdrawn⟩ | ⟨hline, hback, hprint, u, hkeep, hcursor, hdrawn⟩ |
    ⟨rfl, hline, hback, hprint⟩
  · -- A new line.
    have hnext : Shows kgfx_font8x8 { t with term_col := 0, term_row := t.term_row + 1 }
        ⟨s.grid, 0, s.row + 1⟩ := ⟨rfl, congrArg (· + 1) h.row, h.pixels⟩
    exact hnext.keep pitch hkeep
  · -- A cell that is blanked.
    have hgrid := hdrawn.pixels pitch (hin.back hcol) h.pixels
    rw [screen.put, if_neg (by decide), if_pos rfl, if_pos (h.col ▸ hcol)]
    refine ⟨hcol'.trans (congrArg (· - 1) h.col), hrow'.trans h.row, ?_⟩
    rw [← h.col, ← h.row]
    exact hgrid
  · -- A cell that is drawn.
    have hgrid := hdrawn.pixels pitch hin h.pixels
    rw [h.col, h.row] at hgrid hcursor
    rw [screen.put, if_neg hline, if_neg hback, if_pos hprint]
    by_cases hcol : TERM_COLS ≤ s.col + 1
    · rw [if_pos hcol] at hcursor
      have hnext : Shows kgfx_font8x8 u
          ⟨s.grid.set s.row s.col (some (shown c)), 0, s.row + 1⟩ :=
        ⟨congrArg Prod.fst hcursor, congrArg Prod.snd hcursor, hgrid⟩
      have hkept := hnext.keep pitch hkeep
      dsimp only
      rwa [if_pos hcol]
    · rw [if_neg hcol] at hcursor
      have hnext : Shows kgfx_font8x8 u
          ⟨s.grid.set s.row s.col (some (shown c)), s.col + 1, s.row⟩ :=
        ⟨congrArg Prod.fst hcursor, congrArg Prod.snd hcursor, hgrid⟩
      have hkept := hnext.keep pitch hkeep
      rw [screen.keep, if_neg hrow] at hkept
      dsimp only
      rwa [if_neg hcol]
  · rw [screen.put, if_neg hline]
    by_cases heq : c = 8
    · rw [if_pos heq, if_neg (h.col ▸ hback heq)]
      exact h
    · rw [if_neg heq, if_neg (hprint heq)]
      exact h

end Steps

theorem cleared_shows (kgfx_font8x8 : ℤ → ℕ → UInt8) (vram : UInt32 → UInt32) :
    Shows kgfx_font8x8 (.cleared vram) .cleared :=
  ⟨rfl, rfl, fun _ _ => rfl⟩

/-- **The canvas is the picture of a grid.** After any stream of characters, each in whatever mode,
every pixel of the canvas is that of the character in its cell, and nothing is left of what stood
there before. -/
theorem canvas_shows_grid (kgfx_font8x8 : ℤ → ℕ → UInt8) (pitch : UInt32) (vram : UInt32 → UInt32)
    (stream : List (Int8 × Bool)) :
    ∃ t, put_all kgfx_font8x8 pitch (.cleared vram) stream = some t
      ∧ Shows kgfx_font8x8 t (stream.foldl (fun s p => s.put p.1) .cleared) := by
  apply put_all_induct kgfx_font8x8 pitch (cleared_inGrid vram) (cleared_shows kgfx_font8x8 vram)
  intro stream p t t' hin h hput
  rw [List.foldl_append]
  exact h.put pitch hin hput

/-! ## The canvas on the screen -/

section Screen

variable (pitch : UInt32)

/-- The word behind `os_fb.buffer` with the pixel in row `y` and column `x` of the canvas. -/
def place (y x : ℤ) : UInt32 :=
  UInt32.ofInt (TERM_Y_START + y) * pitch + UInt32.ofInt (TERM_X_START + x)

/-- A row and a column of the canvas. -/
def OnWindow (y x : ℤ) : Prop := 0 ≤ y ∧ y < TERM_HEIGHT ∧ 0 ≤ x ∧ x < TERM_WIDTH

def window : Set UInt32 := {i | ∃ y x, OnWindow y x ∧ i = place pitch y x}

/-- A row of the screen is as long as one of the canvas, and the rows are within 32 bits. -/
def Fits : Prop := TERM_WIDTH ≤ pitch.toNat ∧ TERM_HEIGHT * pitch.toNat ≤ 4294967296

/-- The window on the screen is the canvas. -/
def Mirrors (vram : UInt32 → UInt32) (ram : canvas) : Prop :=
  ∀ y x, OnWindow y x → vram (place pitch y x) = ram (y * TERM_WIDTH + x)

theorem term_width : TERM_WIDTH = 720 := rfl

theorem term_height : TERM_HEIGHT = 504 := rfl

theorem ofInt_natCast (n : ℕ) : UInt32.ofInt n = UInt32.ofNat n := by
  apply UInt32.toNat_inj.mp
  simp only [UInt32.ofInt, UInt32.toNat_ofNat']
  omega

theorem emod_of_ofInt_eq {a b : ℤ} (h : UInt32.ofInt a = UInt32.ofInt b) :
    a % 4294967296 = b % 4294967296 := by
  have hnat := congrArg UInt32.toNat h
  simp only [UInt32.ofInt, UInt32.toNat_ofNat'] at hnat
  omega

/-- The address is computed in 32 bits, as a whole. -/
theorem place_eq (y x : ℤ) : place pitch y x
    = UInt32.ofInt ((TERM_Y_START + y) * pitch.toNat + (TERM_X_START + x)) := by
  rw [place, UInt32.ofInt_add (_ * _), UInt32.ofInt_mul, ofInt_natCast, UInt32.ofNat_toNat]

/-- The address of a row and the columns behind. -/
theorem place_add (y x : ℤ) (i : ℕ) : UInt32.ofInt (TERM_Y_START + y) * pitch
    + UInt32.ofInt (TERM_X_START + x) + UInt32.ofNat i = place pitch y (x + i) := by
  rw [place, ← add_assoc TERM_X_START, UInt32.ofInt_add _ (i : ℤ), ofInt_natCast, UInt32.add_assoc]

variable {pitch}

theorem place_row_le (hfits : Fits pitch) {y x y' x' : ℤ} (h : OnWindow y x) (h' : OnWindow y' x')
    (heq : place pitch y x = place pitch y' x') : y' ≤ y := by
  by_contra hlt
  rw [place_eq, place_eq] at heq
  have hmod := emod_of_ofInt_eq heq
  obtain ⟨hwidth, hheight⟩ := hfits
  simp only [OnWindow, term_width, term_height] at *
  -- The lower place is behind the higher one, by less than all rows.
  have hone : (pitch.toNat : ℤ) ≤ (y' - y) * pitch.toNat :=
    le_mul_of_one_le_left (Int.natCast_nonneg _) (by omega)
  have hall : (y' - y) * pitch.toNat ≤ 503 * pitch.toNat :=
    mul_le_mul_of_nonneg_right (by omega) (Int.natCast_nonneg _)
  have hsub : (y' - y) * (pitch.toNat : ℤ)
      = (TERM_Y_START + y') * pitch.toNat - (TERM_Y_START + y) * pitch.toNat := by ring
  omega

theorem place_inj (hfits : Fits pitch) {y x y' x' : ℤ} (h : OnWindow y x) (h' : OnWindow y' x')
    (heq : place pitch y x = place pitch y' x') : y = y' ∧ x = x' := by
  have hrow : y = y' := le_antisymm (place_row_le hfits h' h heq.symm) (place_row_le hfits h h' heq)
  subst hrow
  rw [place_eq, place_eq] at heq
  have hmod := emod_of_ofInt_eq heq
  simp only [OnWindow, term_width, term_height] at h h'
  exact ⟨rfl, by omega⟩

/-- So a picture of the canvas is a picture of the screen. -/
theorem exists_copy (hfits : Fits pitch) (ram : canvas) :
    ∃ u : UInt32 → UInt32, Mirrors pitch u ram := by
  classical
  refine ⟨fun i => if h : ∃ p : ℤ × ℤ, OnWindow p.1 p.2 ∧ i = place pitch p.1 p.2 then
    ram (h.choose.1 * TERM_WIDTH + h.choose.2) else 0, ?_⟩
  intro y x hyx
  have h : ∃ p : ℤ × ℤ, OnWindow p.1 p.2 ∧ place pitch y x = place pitch p.1 p.2 :=
    ⟨(y, x), hyx, rfl⟩
  obtain ⟨hrow, hcol⟩ := place_inj hfits hyx h.choose_spec.1 h.choose_spec.2
  dsimp only
  rw [dif_pos h, ← hrow, ← hcol]

/-! ## Copies -/

variable {term_batch_mode : Bool} {t t' : terminal} {ram : canvas} {vram u : UInt32 → UInt32}

/-- A pixel that is loaded from the canvas and stored on the screen. -/
theorem copy_eq_paint (hu : Mirrors pitch u ram) {y x : ℤ} (h : OnWindow y x)
    (vram : UInt32 → UInt32) : (ram.load (y * TERM_WIDTH + x)).map
      (Function.update vram (place pitch y x))
      = some (paint {place pitch y x} (fun i _ => u i) vram) := by
  have hon : OnCanvas (y * TERM_WIDTH + x) 1 := by
    simp only [onCanvas_iff, OnWindow, term_width, term_height] at h ⊢
    omega
  rw [canvas.load, if_pos hon, Option.map_some,
    update_eq_paint (v := fun i _ => u i) (hu y x h)]

/-- The places of the cell of the cursor on the screen. -/
def cell_places (pitch : UInt32) (t : terminal) : Set UInt32 :=
  places (fun r => places (fun i =>
    {place pitch (t.term_row * TERM_CHAR_H + r) (t.term_col * TERM_CHAR_W + i)})
    TERM_CHAR_W.toNat) TERM_CHAR_H.toNat

theorem onWindow_cell (h : InGrid t) {r i : ℕ} (hr : r < TERM_CHAR_H.toNat)
    (hi : i < TERM_CHAR_W.toNat) :
    OnWindow (t.term_row * TERM_CHAR_H + r) (t.term_col * TERM_CHAR_W + i) := by
  obtain ⟨hcol, hcol', hrow, hrow'⟩ := h
  rw [Int.lt_toNat] at hr hi
  simp only [OnWindow, term_width, term_height, TERM_COLS, TERM_ROWS, TERM_CHAR_W, TERM_CHAR_H] at *
  omega

theorem blit_char_to_vram_eq (h : InGrid t) (hu : Mirrors pitch u ram) (vram : UInt32 → UInt32) :
    blit_char_to_vram pitch ram (t.term_col * TERM_CHAR_W) (t.term_row * TERM_CHAR_H) vram
      = some (paint (cell_places pitch t) (fun i _ => u i) vram) := by
  apply foldlM_range_paint
  intro r hr vram
  apply foldlM_range_paint
  intro i hi vram
  have hplace := place_add pitch (t.term_row * TERM_CHAR_H + r) (t.term_col * TERM_CHAR_W) i
  have hcopy := copy_eq_paint hu (onWindow_cell h hr hi) vram
  rw [← add_assoc TERM_Y_START] at hplace
  rw [← add_assoc (_ * TERM_WIDTH)] at hcopy
  simpa only [hplace] using hcopy

theorem onWindow_natCast {y x : ℕ} (hy : y < TERM_HEIGHT.toNat) (hx : x < TERM_WIDTH.toNat) :
    OnWindow y x :=
  ⟨Int.natCast_nonneg y, Int.lt_toNat.mp hy, Int.natCast_nonneg x, Int.lt_toNat.mp hx⟩

theorem places_window (pitch : UInt32) :
    places (fun y => places (fun x => {place pitch y x}) TERM_WIDTH.toNat) TERM_HEIGHT.toNat
      = window pitch := by
  ext i
  constructor
  · rintro ⟨y, hy, x, hx, hi⟩
    exact ⟨y, x, onWindow_natCast hy hx, hi⟩
  · rintro ⟨y, x, ⟨hy, hy', hx, hx'⟩, rfl⟩
    lift y to ℕ using hy
    lift x to ℕ using hx
    exact ⟨y, Int.lt_toNat.mpr hy', x, Int.lt_toNat.mpr hx', rfl⟩

theorem flush_full_canvas_to_vram_eq (hu : Mirrors pitch u ram) (vram : UInt32 → UInt32) :
    flush_full_canvas_to_vram pitch ram vram
      = some (paint (window pitch) (fun i _ => u i) vram) := by
  rw [← places_window]
  apply foldlM_range_paint
  intro y hy vram
  apply foldlM_range_paint
  intro x hx vram
  have hplace := place_add pitch y 0 x
  rw [add_zero, zero_add] at hplace
  simpa only [hplace] using copy_eq_paint hu (onWindow_natCast hy hx) vram

/-- A copy mirrors the canvas where all that it leaves out did. -/
theorem mirrors_paint (hu : Mirrors pitch u ram) {s : Set UInt32}
    (hout : ∀ y x, OnWindow y x → place pitch y x ∉ s →
      vram (place pitch y x) = ram (y * TERM_WIDTH + x)) :
    Mirrors pitch (paint s (fun i _ => u i) vram) ram := by
  intro y x h
  by_cases hs : place pitch y x ∈ s
  · rw [paint_of_mem hs]
    exact hu y x h
  · rw [paint_of_notMem hs]
    exact hout y x h hs

/-- Outside of the window the screen is as it was, and outside of batch mode the window stays a
mirror. -/
structure Kept (pitch : UInt32) (term_batch_mode : Bool) (t t' : terminal) : Prop where
  mirrors : term_batch_mode = false → Mirrors pitch t.vram t.term_canvas →
    Mirrors pitch t'.vram t'.term_canvas
  outside : ∀ i, i ∉ window pitch → t'.vram i = t.vram i

theorem Kept.trans {t₁ t₂ t₃ : terminal} (h : Kept pitch term_batch_mode t₁ t₂)
    (h' : Kept pitch term_batch_mode t₂ t₃) : Kept pitch term_batch_mode t₁ t₃ :=
  ⟨fun hb hm => h'.mirrors hb (h.mirrors hb hm),
    fun i hi => (h'.outside i hi).trans (h.outside i hi)⟩

/-- A part of the window that is copied from the canvas, or is not in batch mode. -/
theorem kept_of_copied {s : Set UInt32} (hu : Mirrors pitch u t'.term_canvas)
    (hs : s ⊆ window pitch)
    (hout : ∀ y x, OnWindow y x → place pitch y x ∉ s →
      t'.term_canvas (y * TERM_WIDTH + x) = t.term_canvas (y * TERM_WIDTH + x))
    (h : unless_batch term_batch_mode t.vram (some (paint s (fun i _ => u i) t.vram))
      = some t'.vram) : Kept pitch term_batch_mode t t' := by
  cases term_batch_mode with
  | true =>
      have hsame : t.vram = t'.vram := Option.some.inj h
      exact ⟨fun hb => absurd hb (by decide), fun i _ => congrFun hsame.symm i⟩
  | false =>
      have hcopied : paint s (fun i _ => u i) t.vram = t'.vram := Option.some.inj h
      refine ⟨fun _ hm => ?_, fun i hi => ?_⟩
      · rw [← hcopied]
        apply mirrors_paint hu
        intro y x hyx hnot
        rw [hm y x hyx, hout y x hyx hnot]
      · rw [← hcopied]
        exact paint_of_notMem fun hmem => hi (hs hmem)

theorem keep_row_kept (hfits : Fits pitch) (h : keep_row pitch term_batch_mode t = some t') :
    Kept pitch term_batch_mode t t' := by
  rcases keep_row_cases pitch h with ⟨-, rfl⟩ | ⟨-, -, -, -, hcopied⟩
  · exact ⟨fun _ hm => hm, fun _ _ => rfl⟩
  · obtain ⟨u, hu⟩ := exists_copy hfits t'.term_canvas
    rw [flush_full_canvas_to_vram_eq hu] at hcopied
    exact kept_of_copied hu subset_rfl (fun y x hyx hnot => absurd ⟨y, x, hyx, rfl⟩ hnot) hcopied

theorem cell_places_subset (h : InGrid t) : cell_places pitch t ⊆ window pitch := by
  rintro i ⟨r, hr, k, hk, hi⟩
  exact ⟨_, _, onWindow_cell h hr hk, hi⟩

/-- A pixel that is not copied with a cell is not of the cell. -/
theorem place_notMem_rows (hin : InGrid t) {lines : ℕ} (hlines : (lines : ℤ) ≤ TERM_CHAR_H)
    {y x : ℤ} (h : OnWindow y x) (hnot : place pitch y x ∉ cell_places pitch t) :
    y * TERM_WIDTH + x ∉ places (row_places t 8) lines := by
  intro hmem
  obtain ⟨hrow, hcol, -⟩ := (mem_rows_iff hin hlines _).mp hmem
  have hheight : TERM_CHAR_H.toNat = 14 := rfl
  have hwidth : TERM_CHAR_W.toNat = 8 := rfl
  simp only [OnWindow, term_width, term_height, TERM_CHAR_W, TERM_CHAR_H] at h hrow hcol
  apply hnot
  refine ⟨(y - t.term_row * 14).toNat, by omega, (x - t.term_col * 8).toNat, by omega, ?_⟩
  have hplace : t.term_row * TERM_CHAR_H + (y - t.term_row * 14).toNat = y
      ∧ t.term_col * TERM_CHAR_W + (x - t.term_col * 8).toNat = x := by
    rw [TERM_CHAR_H, TERM_CHAR_W]
    omega
  rw [Set.mem_singleton_iff, hplace.1, hplace.2]

theorem Drawn.kept {kgfx_font8x8 : ℤ → ℕ → UInt8} {c : Option ℤ} (hfits : Fits pitch)
    (hin : InGrid t) (h : Drawn kgfx_font8x8 pitch term_batch_mode c t t') :
    Kept pitch term_batch_mode t t' := by
  obtain ⟨u, hu⟩ := exists_copy hfits t'.term_canvas
  have hcopied := h.copied
  rw [blit_char_to_vram_eq hin hu] at hcopied
  refine kept_of_copied hu (cell_places_subset hin) ?_ hcopied
  intro y x hyx hnot
  obtain ⟨lines, -, hlines, hram⟩ := h.ram
  rw [hram]
  exact paint_of_notMem (place_notMem_rows hin hlines hyx hnot)

theorem os_putchar_kept {kgfx_font8x8 : ℤ → ℕ → UInt8} {c : Int8} (hfits : Fits pitch)
    (hin : InGrid t) (h : os_putchar kgfx_font8x8 pitch term_batch_mode t c = some t') :
    Kept pitch term_batch_mode t t' := by
  rcases os_putchar_cases kgfx_font8x8 pitch hin h with ⟨-, hkeep⟩ | ⟨-, hcol, -, -, hdrawn⟩ |
    ⟨-, -, -, u, hkeep, -, hdrawn⟩ | ⟨rfl, -⟩
  · exact ⟨(keep_row_kept hfits hkeep).mirrors, (keep_row_kept hfits hkeep).outside⟩
  · have hkept := hdrawn.kept hfits (hin.back hcol)
    exact ⟨hkept.mirrors, hkept.outside⟩
  · exact (hdrawn.kept hfits hin).trans (keep_row_kept hfits hkeep)
  · exact ⟨fun _ hm => hm, fun _ _ => rfl⟩

end Screen

/-- **The screen shows the canvas.** Whatever is printed, in whatever mode, the screen outside of
the window is as it was. A window that is a mirror of the canvas stays one outside of batch mode,
and a flush makes it one behind a batch. -/
theorem screen_mirrors_canvas (kgfx_font8x8 : ℤ → ℕ → UInt8) {pitch : UInt32} (hfits : Fits pitch)
    {t : terminal} (hin : InGrid t) (stream : List (Int8 × Bool)) :
    ∃ t', put_all kgfx_font8x8 pitch t stream = some t'
      ∧ (∀ i, i ∉ window pitch → t'.vram i = t.vram i)
      ∧ ((∀ p ∈ stream, p.2 = false) → Mirrors pitch t.vram t.term_canvas →
        Mirrors pitch t'.vram t'.term_canvas)
      ∧ ∃ vram, flush_full_canvas_to_vram pitch t'.term_canvas t'.vram = some vram
        ∧ Mirrors pitch vram t'.term_canvas ∧ ∀ i, i ∉ window pitch → vram i = t.vram i := by
  obtain ⟨t', hput, houtside, hmirrors⟩ := put_all_induct kgfx_font8x8 pitch
    (motive := fun stream t' => (∀ i, i ∉ window pitch → t'.vram i = t.vram i)
      ∧ ((∀ p ∈ stream, p.2 = false) → Mirrors pitch t.vram t.term_canvas →
        Mirrors pitch t'.vram t'.term_canvas))
    hin ⟨fun _ _ => rfl, fun _ hm => hm⟩ (fun stream p u u' hin₁ ⟨hout, hm⟩ hput => by
      have hkept := os_putchar_kept hfits hin₁ hput
      refine ⟨fun i hi => (hkept.outside i hi).trans (hout i hi), fun hmodes hm₀ => ?_⟩
      rw [List.forall_mem_append, List.forall_mem_singleton] at hmodes
      exact hkept.mirrors hmodes.2 (hm hmodes.1 hm₀)) stream
  obtain ⟨u, hu⟩ := exists_copy hfits t'.term_canvas
  refine ⟨t', hput, houtside, hmirrors, _, flush_full_canvas_to_vram_eq hu t'.vram, ?_, ?_⟩
  · exact mirrors_paint hu fun y x hyx hnot => absurd ⟨y, x, hyx, rfl⟩ hnot
  · exact fun i hi => (paint_of_notMem hi).trans (houtside i hi)

/-- On a screen of 800 pixels a row, a letter and a new line in batch mode. -/
theorem screen_mirrors_canvas_letter :
    ∃ t', put_all (fun _ _ => 0x3C) 800 (.cleared fun _ => 0) [(65, false), (10, true)] = some t'
      ∧ ∃ vram, flush_full_canvas_to_vram 800 t'.term_canvas t'.vram = some vram
        ∧ Mirrors 800 vram t'.term_canvas := by
  obtain ⟨t', hput, -, -, vram, hflush, hmirrors, -⟩ := screen_mirrors_canvas (fun _ _ => 0x3C)
    (⟨by decide, by decide⟩ : Fits 800) (cleared_inGrid fun _ => 0) [(65, false), (10, true)]
  exact ⟨t', hput, vram, hflush, hmirrors⟩

end SysInC.KernelTerminal
