/-
The text terminal of `test_os/kernel.c`: a canvas of pixels that is drawn into and copied to the
screen.

A cell of the cursor's grid is eight pixels wide and fourteen high, and the canvas is as large as
the grid. So the cursor in the grid is what keeps every pixel of its cell on the canvas.
-/
import Mathlib.Algebra.Order.Ring.Int
import Mathlib.Data.List.Basic
import Mathlib.Logic.Function.Basic

set_option autoImplicit false

namespace SysInC.KernelTerminal

/-! ## The canvas -/

def TERM_COLS : ℤ := 90

def TERM_ROWS : ℤ := 36

def TERM_X_START : ℤ := 30

def TERM_Y_START : ℤ := 48

def TERM_CHAR_W : ℤ := 8

def TERM_CHAR_H : ℤ := 14

def TERM_WIDTH : ℤ := TERM_COLS * TERM_CHAR_W

def TERM_HEIGHT : ℤ := TERM_ROWS * TERM_CHAR_H

def KGFX_BLACK : UInt32 := 0xFF000000

def KGFX_WHITE : UInt32 := 0xFFFFFFFF

abbrev canvas : Type := ℤ → UInt32

/-- The words from one index on lie on the canvas. -/
def OnCanvas (i words : ℤ) : Prop := 0 ≤ i ∧ i + words ≤ TERM_WIDTH * TERM_HEIGHT

instance (i words : ℤ) : Decidable (OnCanvas i words) := inferInstanceAs (Decidable (_ ∧ _))

def canvas.load (ram : canvas) (i : ℤ) : Option UInt32 :=
  if OnCanvas i 1 then some (ram i) else none

def canvas.store (ram : canvas) (i : ℤ) (pixel : UInt32) : Option canvas :=
  if OnCanvas i 1 then some (Function.update ram i pixel) else none

def canvas.kmemset (ram : canvas) (s : ℤ) (c : UInt32) (words : ℤ) : Option canvas :=
  if OnCanvas s words then some fun i => if s ≤ i ∧ i < s + words then c else ram i else none

def canvas.kmemmove (ram : canvas) (dest src words : ℤ) : Option canvas :=
  if OnCanvas dest words ∧ OnCanvas src words then
    some fun i => if dest ≤ i ∧ i < dest + words then ram (i - dest + src) else ram i
  else none

/-! ## The source -/

structure terminal where
  term_canvas : canvas
  /-- The words behind `os_fb.buffer`. -/
  vram : UInt32 → UInt32
  term_col : ℤ
  term_row : ℤ

section Source

variable (kgfx_font8x8 : ℤ → ℕ → UInt8) (pitch : UInt32)

/-- A row of a glyph of the table, which has 95 of them. -/
def glyph_row (c : ℤ) (r : ℕ) : Option UInt8 :=
  if 0 ≤ c ∧ c < 95 ∧ r < 8 then some (kgfx_font8x8 c r) else none

def draw_char_to_canvas (ram : canvas) (c cx cy : ℤ) (fg : UInt32) : Option canvas :=
  let c := if c < 32 ∨ 126 < c then 63 else c
  (List.range 8).foldlM (fun ram (r : ℕ) => (glyph_row kgfx_font8x8 (c - 32) r).bind fun bits =>
    (List.range 8).foldlM (fun ram (b : ℕ) => ram.store ((cy + r) * TERM_WIDTH + cx + b)
      (if bits &&& (1 <<< UInt8.ofNat (7 - b)) ≠ 0 then fg else KGFX_BLACK)) ram) ram

def blit_char_to_vram (ram : canvas) (cx cy : ℤ) (vram : UInt32 → UInt32) :
    Option (UInt32 → UInt32) :=
  (List.range TERM_CHAR_H.toNat).foldlM (fun vram (r : ℕ) =>
    (List.range TERM_CHAR_W.toNat).foldlM (fun vram (i : ℕ) =>
      (ram.load ((cy + r) * TERM_WIDTH + cx + i)).map (Function.update vram
        (UInt32.ofInt (TERM_Y_START + cy + r) * pitch + UInt32.ofInt (TERM_X_START + cx)
          + UInt32.ofNat i))) vram) vram

def flush_full_canvas_to_vram (ram : canvas) (vram : UInt32 → UInt32) :
    Option (UInt32 → UInt32) :=
  (List.range TERM_HEIGHT.toNat).foldlM (fun vram (y : ℕ) =>
    (List.range TERM_WIDTH.toNat).foldlM (fun vram (i : ℕ) =>
      (ram.load (y * TERM_WIDTH + i)).map (Function.update vram
        (UInt32.ofInt (TERM_Y_START + y) * pitch + UInt32.ofInt TERM_X_START
          + UInt32.ofNat i))) vram) vram

/-- `if (!term_batch_mode)`, of what is copied to the screen. -/
def unless_batch (term_batch_mode : Bool) (vram : UInt32 → UInt32)
    (copied : Option (UInt32 → UInt32)) : Option (UInt32 → UInt32) :=
  if term_batch_mode then some vram else copied

def terminal_scroll_ram (term_batch_mode : Bool) (t : terminal) : Option terminal :=
  let words_to_move := TERM_WIDTH * (TERM_HEIGHT - TERM_CHAR_H)
  let bottom_words := TERM_WIDTH * TERM_CHAR_H
  do
    let ram ← t.term_canvas.kmemmove 0 (TERM_CHAR_H * TERM_WIDTH) words_to_move
    let ram ← ram.kmemset words_to_move 0 bottom_words
    let vram ← unless_batch term_batch_mode t.vram (flush_full_canvas_to_vram pitch ram t.vram)
    some { t with term_canvas := ram, vram := vram }

/-- `if (term_row >= TERM_ROWS)` -/
def keep_row (term_batch_mode : Bool) (t : terminal) : Option terminal :=
  if TERM_ROWS ≤ t.term_row then
    (terminal_scroll_ram pitch term_batch_mode t).map fun t => { t with term_row := TERM_ROWS - 1 }
  else some t

/-- The case of `'\b'`. -/
def erase (term_batch_mode : Bool) (t : terminal) : Option terminal :=
  if 0 < t.term_col then
    let cx := (t.term_col - 1) * TERM_CHAR_W
    let cy := t.term_row * TERM_CHAR_H
    do
      let ram ← (List.range TERM_CHAR_H.toNat).foldlM (fun (ram : canvas) (r : ℕ) =>
        ram.kmemset ((cy + r) * TERM_WIDTH + cx) 0 TERM_CHAR_W) t.term_canvas
      let vram ← unless_batch term_batch_mode t.vram (blit_char_to_vram pitch ram cx cy t.vram)
      some ⟨ram, vram, t.term_col - 1, t.term_row⟩
  else some t

/-- The case of a character from the blank on. -/
def print (term_batch_mode : Bool) (t : terminal) (c : Int8) : Option terminal := do
  let t ← keep_row pitch term_batch_mode t
  let cx := t.term_col * TERM_CHAR_W
  let cy := t.term_row * TERM_CHAR_H
  let ram ← draw_char_to_canvas kgfx_font8x8 t.term_canvas c.toInt cx cy KGFX_WHITE
  let vram ← unless_batch term_batch_mode t.vram (blit_char_to_vram pitch ram cx cy t.vram)
  if TERM_COLS ≤ t.term_col + 1 then
    keep_row pitch term_batch_mode ⟨ram, vram, 0, t.term_row + 1⟩
  else some ⟨ram, vram, t.term_col + 1, t.term_row⟩

def os_putchar (term_batch_mode : Bool) (t : terminal) (c : Int8) : Option terminal :=
  if c = 10 then
    keep_row pitch term_batch_mode { t with term_col := 0, term_row := t.term_row + 1 }
  else if c = 8 then erase pitch term_batch_mode t
  else if 32 ≤ c.toUInt8 then print kgfx_font8x8 pitch term_batch_mode t c
  else some t

/-- Characters that are put one after the other, each in the mode of its call. -/
def put_all (t : terminal) (stream : List (Int8 × Bool)) : Option terminal :=
  stream.foldlM (fun t p => os_putchar kgfx_font8x8 pitch p.2 t p.1) t

end Source

/-! ## Indices -/

/-- The cursor is on a cell of the grid. -/
structure InGrid (t : terminal) : Prop where
  col_nonneg : 0 ≤ t.term_col
  col_lt : t.term_col < TERM_COLS
  row_nonneg : 0 ≤ t.term_row
  row_lt : t.term_row < TERM_ROWS

theorem cols_pos : 0 < TERM_COLS := by decide

theorem rows_pos : 0 < TERM_ROWS := by decide

theorem onCanvas_iff (i words : ℤ) : OnCanvas i words ↔ 0 ≤ i ∧ i + words ≤ 362880 := Iff.rfl

/-- A stretch of a pixel row of a cell of the grid. -/
theorem onCanvas_cell {col row r b words : ℤ} (hcol : 0 ≤ col) (hcol' : col < TERM_COLS)
    (hrow : 0 ≤ row) (hrow' : row < TERM_ROWS) (hr : 0 ≤ r) (hr' : r < TERM_CHAR_H) (hb : 0 ≤ b)
    (hb' : b + words ≤ TERM_CHAR_W) :
    OnCanvas ((row * TERM_CHAR_H + r) * TERM_WIDTH + col * TERM_CHAR_W + b) words := by
  rw [onCanvas_iff]
  simp only [TERM_WIDTH, TERM_COLS, TERM_ROWS, TERM_CHAR_W, TERM_CHAR_H] at *
  omega

theorem load_isSome (ram : canvas) {i : ℤ} (h : OnCanvas i 1) :
    ∃ pixel, ram.load i = some pixel :=
  ⟨_, if_pos h⟩

theorem store_isSome {ram : canvas} {i : ℤ} {pixel : UInt32} (h : OnCanvas i 1) :
    ∃ ram', ram.store i pixel = some ram' :=
  ⟨_, if_pos h⟩

theorem kmemset_isSome {ram : canvas} {s words : ℤ} {c : UInt32} (h : OnCanvas s words) :
    ∃ ram', ram.kmemset s c words = some ram' :=
  ⟨_, if_pos h⟩

/-- A loop comes to its end where each of its turns does. -/
theorem foldlM_isSome {α σ : Type*} {f : σ → α → Option σ} {l : List α}
    (h : ∀ x ∈ l, ∀ s, ∃ s', f s x = some s') (s : σ) : ∃ s', l.foldlM f s = some s' := by
  induction l generalizing s with
  | nil => exact ⟨s, rfl⟩
  | cons x l ih =>
      obtain ⟨s', hturn⟩ := h x List.mem_cons_self s
      obtain ⟨s'', hrest⟩ := ih (fun y hy => h y (List.mem_cons_of_mem x hy)) s'
      refine ⟨s'', ?_⟩
      rw [List.foldlM_cons, hturn]
      exact hrest

/-! ## Drawing -/

section Drawing

variable (kgfx_font8x8 : ℤ → ℕ → UInt8) (pitch : UInt32) {t : terminal}

theorem draw_char_to_canvas_isSome (h : InGrid t) (ram : canvas) (c : ℤ) (fg : UInt32) :
    ∃ ram', draw_char_to_canvas kgfx_font8x8 ram c (t.term_col * TERM_CHAR_W)
      (t.term_row * TERM_CHAR_H) fg = some ram' := by
  apply foldlM_isSome
  intro r hr ram
  have hr : r < 8 := List.mem_range.mp hr
  -- The question mark stands for what is not in the table.
  obtain ⟨bits, hbits⟩ : ∃ bits, glyph_row kgfx_font8x8
      ((if c < 32 ∨ 126 < c then 63 else c) - 32) r = some bits := by
    refine ⟨_, if_pos ?_⟩
    split_ifs with hc
    · omega
    · omega
  rw [hbits]
  apply foldlM_isSome
  intro b hb ram
  have hb : b < 8 := List.mem_range.mp hb
  apply store_isSome
  apply onCanvas_cell h.col_nonneg h.col_lt h.row_nonneg h.row_lt
  · omega
  · exact lt_trans (by omega : (r : ℤ) < 8) (by decide)
  · omega
  · rw [TERM_CHAR_W]
    omega

theorem blit_char_to_vram_isSome (h : InGrid t) (ram : canvas) (vram : UInt32 → UInt32) :
    ∃ vram', blit_char_to_vram pitch ram (t.term_col * TERM_CHAR_W) (t.term_row * TERM_CHAR_H) vram
      = some vram' := by
  apply foldlM_isSome
  intro r hr vram
  have hr : r < 14 := List.mem_range.mp hr
  apply foldlM_isSome
  intro i hi vram
  have hi : i < 8 := List.mem_range.mp hi
  have hcell : OnCanvas ((t.term_row * TERM_CHAR_H + r) * TERM_WIDTH + t.term_col * TERM_CHAR_W + i)
      1 := by
    apply onCanvas_cell h.col_nonneg h.col_lt h.row_nonneg h.row_lt
    · omega
    · rw [TERM_CHAR_H]
      omega
    · omega
    · rw [TERM_CHAR_W]
      omega
  obtain ⟨pixel, hload⟩ := load_isSome ram hcell
  rw [hload]
  exact ⟨_, rfl⟩

theorem flush_full_canvas_to_vram_isSome (ram : canvas) (vram : UInt32 → UInt32) :
    ∃ vram', flush_full_canvas_to_vram pitch ram vram = some vram' := by
  apply foldlM_isSome
  intro y hy vram
  have hy : y < 504 := List.mem_range.mp hy
  apply foldlM_isSome
  intro i hi vram
  have hi : i < 720 := List.mem_range.mp hi
  have hline : OnCanvas (y * TERM_WIDTH + i) 1 := by
    rw [onCanvas_iff]
    simp only [TERM_WIDTH, TERM_COLS, TERM_CHAR_W]
    omega
  obtain ⟨pixel, hload⟩ := load_isSome ram hline
  rw [hload]
  exact ⟨_, rfl⟩

theorem unless_batch_isSome (term_batch_mode : Bool) (vram : UInt32 → UInt32)
    {copied : Option (UInt32 → UInt32)} (h : ∃ vram', copied = some vram') :
    ∃ vram', unless_batch term_batch_mode vram copied = some vram' := by
  cases term_batch_mode with
  | true => exact ⟨vram, rfl⟩
  | false => exact h

/-- The canvas goes up by one line of the grid, and the cursor stays. -/
theorem terminal_scroll_ram_isSome (term_batch_mode : Bool) (t : terminal) :
    ∃ t', terminal_scroll_ram pitch term_batch_mode t = some t' ∧ t'.term_col = t.term_col := by
  unfold terminal_scroll_ram
  dsimp only
  have hmove : OnCanvas 0 (TERM_WIDTH * (TERM_HEIGHT - TERM_CHAR_H))
      ∧ OnCanvas (TERM_CHAR_H * TERM_WIDTH) (TERM_WIDTH * (TERM_HEIGHT - TERM_CHAR_H)) := by decide
  have hbottom :
      OnCanvas (TERM_WIDTH * (TERM_HEIGHT - TERM_CHAR_H)) (TERM_WIDTH * TERM_CHAR_H) := by
    decide
  rw [canvas.kmemmove, if_pos hmove, Option.bind_eq_bind, Option.bind_some, canvas.kmemset,
    if_pos hbottom, Option.bind_eq_bind, Option.bind_some]
  obtain ⟨vram, hflush⟩ := unless_batch_isSome term_batch_mode t.vram
    (flush_full_canvas_to_vram_isSome pitch _ t.vram)
  rw [hflush]
  exact ⟨_, rfl, rfl⟩

variable (term_batch_mode : Bool)

/-! ## A character -/

/-- Behind the last line the canvas is scrolled, and the cursor is on the last line. -/
theorem keep_row_isSome (t : terminal) (hcol : 0 ≤ t.term_col) (hcol' : t.term_col < TERM_COLS)
    (hrow : 0 ≤ t.term_row) : ∃ t', keep_row pitch term_batch_mode t = some t' ∧ InGrid t' := by
  unfold keep_row
  by_cases hlast : TERM_ROWS ≤ t.term_row
  · obtain ⟨t', hscroll, hkept⟩ := terminal_scroll_ram_isSome pitch term_batch_mode t
    rw [if_pos hlast, hscroll]
    have hbottom : 0 ≤ TERM_ROWS - 1 ∧ TERM_ROWS - 1 < TERM_ROWS := by decide
    refine ⟨_, rfl, ?_⟩
    exact ⟨hkept ▸ hcol, hkept ▸ hcol', hbottom.1, hbottom.2⟩
  · rw [if_neg hlast]
    exact ⟨t, rfl, hcol, hcol', hrow, not_le.mp hlast⟩

theorem erase_isSome (h : InGrid t) :
    ∃ t', erase pitch term_batch_mode t = some t' ∧ InGrid t' := by
  unfold erase
  dsimp only
  by_cases hcol : 0 < t.term_col
  · have hback : InGrid { t with term_col := t.term_col - 1 } := by
      refine ⟨?_, ?_, h.row_nonneg, h.row_lt⟩
      · exact Int.le_sub_one_of_lt hcol
      · exact lt_trans (sub_one_lt t.term_col) h.col_lt
    obtain ⟨ram, herase⟩ : ∃ ram, (List.range TERM_CHAR_H.toNat).foldlM
        (fun (ram : canvas) (r : ℕ) => ram.kmemset ((t.term_row * TERM_CHAR_H + r) * TERM_WIDTH
          + (t.term_col - 1) * TERM_CHAR_W) 0 TERM_CHAR_W) t.term_canvas = some ram := by
      apply foldlM_isSome
      intro r hr ram
      have hr : r < 14 := List.mem_range.mp hr
      apply kmemset_isSome
      rw [← add_zero (_ + (t.term_col - 1) * TERM_CHAR_W)]
      apply onCanvas_cell hback.col_nonneg hback.col_lt h.row_nonneg h.row_lt
      · omega
      · rw [TERM_CHAR_H]
        omega
      · exact le_rfl
      · rw [zero_add]
    rw [if_pos hcol, herase, Option.bind_eq_bind, Option.bind_some]
    obtain ⟨vram, hblit⟩ := unless_batch_isSome term_batch_mode t.vram
      (blit_char_to_vram_isSome pitch hback ram t.vram)
    rw [hblit]
    exact ⟨_, rfl, hback.col_nonneg, hback.col_lt, h.row_nonneg, h.row_lt⟩
  · rw [if_neg hcol]
    exact ⟨t, rfl, h⟩

theorem print_isSome (h : InGrid t) (c : Int8) :
    ∃ t', print kgfx_font8x8 pitch term_batch_mode t c = some t' ∧ InGrid t' := by
  unfold print
  obtain ⟨t₁, hkeep, h₁⟩ :=
    keep_row_isSome pitch term_batch_mode t h.col_nonneg h.col_lt h.row_nonneg
  obtain ⟨ram, hdraw⟩ :=
    draw_char_to_canvas_isSome kgfx_font8x8 h₁ t₁.term_canvas c.toInt KGFX_WHITE
  obtain ⟨vram, hblit⟩ := unless_batch_isSome term_batch_mode t₁.vram
    (blit_char_to_vram_isSome pitch h₁ ram t₁.vram)
  rw [hkeep, Option.bind_eq_bind, Option.bind_some]
  dsimp only
  rw [hdraw, Option.bind_eq_bind, Option.bind_some, hblit, Option.bind_eq_bind, Option.bind_some]
  by_cases hcol : TERM_COLS ≤ t₁.term_col + 1
  · rw [if_pos hcol]
    exact keep_row_isSome pitch term_batch_mode _ le_rfl cols_pos
      (Int.add_nonneg h₁.row_nonneg (by decide))
  · rw [if_neg hcol]
    refine ⟨_, rfl, ?_, not_le.mp hcol, h₁.row_nonneg, h₁.row_lt⟩
    exact Int.add_nonneg h₁.col_nonneg (by decide)

theorem os_putchar_isSome (h : InGrid t) (c : Int8) :
    ∃ t', os_putchar kgfx_font8x8 pitch term_batch_mode t c = some t' ∧ InGrid t' := by
  unfold os_putchar
  by_cases hline : c = 10
  · rw [if_pos hline]
    exact keep_row_isSome pitch term_batch_mode _ le_rfl cols_pos
      (Int.add_nonneg h.row_nonneg (by decide))
  rw [if_neg hline]
  by_cases hback : c = 8
  · rw [if_pos hback]
    exact erase_isSome pitch term_batch_mode h
  rw [if_neg hback]
  by_cases hprint : 32 ≤ c.toUInt8
  · rw [if_pos hprint]
    exact print_isSome kgfx_font8x8 pitch term_batch_mode h c
  · rw [if_neg hprint]
    exact ⟨t, rfl, h⟩

/-- From a cursor on the grid on, no stream of characters takes the cursor off it, and every index
into the canvas is on the canvas. -/
theorem put_all_isSome (h : InGrid t) (stream : List (Int8 × Bool)) :
    ∃ t', put_all kgfx_font8x8 pitch t stream = some t' ∧ InGrid t' := by
  induction stream generalizing t with
  | nil => exact ⟨t, rfl, h⟩
  | cons p stream ih =>
      obtain ⟨t₁, hput, h₁⟩ := os_putchar_isSome kgfx_font8x8 pitch p.2 h p.1
      obtain ⟨t', hrest, h'⟩ := ih h₁
      refine ⟨t', ?_, h'⟩
      unfold put_all at hrest ⊢
      rw [List.foldlM_cons, hput]
      exact hrest

end Drawing

/-- The terminal as it is at the start and where it is cleared. -/
def terminal.cleared (vram : UInt32 → UInt32) : terminal := ⟨fun _ => 0, vram, 0, 0⟩

theorem cleared_inGrid (vram : UInt32 → UInt32) : InGrid (.cleared vram) :=
  ⟨le_rfl, cols_pos, le_rfl, rows_pos⟩

/-- **Bounds of the terminal**: after each character of a stream the cursor is on the grid, and
while it is put no index leaves the canvas. -/
theorem terminal_bounds (kgfx_font8x8 : ℤ → ℕ → UInt8) (pitch : UInt32)
    (vram : UInt32 → UInt32) (stream : List (Int8 × Bool)) :
    ∃ t, put_all kgfx_font8x8 pitch (.cleared vram) stream = some t
      ∧ 0 ≤ t.term_col ∧ t.term_col < TERM_COLS ∧ 0 ≤ t.term_row ∧ t.term_row < TERM_ROWS := by
  obtain ⟨t, hput, h⟩ := put_all_isSome kgfx_font8x8 pitch (cleared_inGrid vram) stream
  exact ⟨t, hput, h.col_nonneg, h.col_lt, h.row_nonneg, h.row_lt⟩

end SysInC.KernelTerminal
