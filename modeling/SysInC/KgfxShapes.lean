/-
The shapes of `freestanding/kgfx.c`: filled and blended rectangles and filled circles, pixel by
pixel.

Each function clips in its own way, some pixel by pixel and some row by row, where the pointer to a
row may lead off the screen to the left. What they come to is the same: each pixel of the screen
goes through the drawing by itself, and no word behind the screen is written.
-/
import SysInC.KgfxLine
import SysInC.Painting

set_option autoImplicit false

namespace SysInC.Kgfx

open CInt Painting

/-! ## The source -/

/-- `fb->buffer[i] = color;`; `none` is a `NULL` pointer. An address has 32 bits, and so the index
of a word has 30. -/
def kgfx_fb_t.store (fb : kgfx_fb_t) (i : ℕ) (color : UInt32) : Option kgfx_fb_t :=
  fb.buffer.map fun buffer =>
    { fb with buffer := some (Function.update buffer (i % 1073741824) color) }

def kgfx_init (buffer : ℕ → UInt32) (width height : UInt32) : kgfx_fb_t :=
  ⟨some buffer, width, height, width⟩

/-- The number of pixels is a `size_t`. -/
def kgfx_clear (fb : kgfx_fb_t) (color : UInt32) : kgfx_fb_t :=
  match fb.buffer with
  | none => fb
  | some buffer =>
    { fb with
      buffer := some fun i => if i < (fb.width * fb.height).toNat then color else buffer i }

/-- `(fg * a + bg * (255 - a)) / 255` of one channel. -/
def blend_channel (fg bg a : UInt32) : UInt32 := (fg * a + bg * (255 - a)) / 255 &&& 0xFF

def kgfx_blend_colors (bg fg : UInt32) : UInt32 :=
  let a := (fg >>> 24) &&& 0xFF
  if a = 255 then fg
  else if a = 0 then bg
  else
    let out_r := blend_channel ((fg >>> 16) &&& 0xFF) ((bg >>> 16) &&& 0xFF) a
    let out_g := blend_channel ((fg >>> 8) &&& 0xFF) ((bg >>> 8) &&& 0xFF) a
    let out_b := blend_channel (fg &&& 0xFF) (bg &&& 0xFF) a
    (0xFF000000 : UInt32) ||| out_r <<< 16 ||| out_g <<< 8 ||| out_b

def kgfx_draw_pixel_alpha (fb : kgfx_fb_t) (x y : ℤ) (color : UInt32) : kgfx_fb_t :=
  match fb.buffer with
  | none => fb
  | some buffer =>
    if x < 0 ∨ (fb.width.toNat : ℤ) ≤ x ∨ y < 0 ∨ (fb.height.toNat : ℤ) ≤ y then fb
    else
      let idx := to_uint (y * fb.pitch.toNat + x)
      { fb with
        buffer := some (Function.update buffer idx (kgfx_blend_colors (buffer idx) color)) }

/-- A turn of the loop over the rows of a filled rectangle. -/
def fill_row (fb : kgfx_fb_t) (x w py : ℤ) (color : UInt32) : Option kgfx_fb_t :=
  if py < 0 ∨ (fb.height.toNat : ℤ) ≤ py then some fb
  else
    let row := to_uint (py * fb.pitch.toNat + x)
    (List.range w.toNat).foldlM (fun fb (px : ℕ) => (int (x + px)).bind fun sx =>
      if 0 ≤ sx ∧ sx < fb.width.toNat then fb.store (row + px) color else some fb) fb

/-- `fuel` is for the lines. -/
def kgfx_draw_rect (fuel : ℕ) (fb : kgfx_fb_t) (x y w h : ℤ) (color : UInt32) (fill : Bool) :
    Option kgfx_fb_t :=
  if w ≤ 0 ∨ h ≤ 0 then some fb
  else if fill then
    (int (y + h)).bind fun _ =>
      (List.range h.toNat).foldlM (fun fb (k : ℕ) => fill_row fb x w (y + k) color) fb
  else
    let line (fb : kgfx_fb_t) (x0 y0 x1 y1 : ℤ) : Option kgfx_fb_t :=
      (kgfx_draw_line fuel fb (Int32.ofInt x0) (Int32.ofInt y0) (Int32.ofInt x1) (Int32.ofInt y1)
        color).map Prod.snd
    do
      let x1 ← (int (x + w)).bind fun x1 => int (x1 - 1)
      let fb ← line fb x y x1 y
      let y1 ← (int (y + h)).bind fun y1 => int (y1 - 1)
      let fb ← line fb x y1 x1 y1
      let fb ← line fb x y x y1
      line fb x1 y x1 y1

def kgfx_draw_rect_alpha (fb : kgfx_fb_t) (x y w h : ℤ) (color : UInt32) : Option kgfx_fb_t :=
  if w ≤ 0 ∨ h ≤ 0 then some fb
  else
    (int (y + h)).bind fun _ => (int (x + w)).bind fun _ =>
      (List.range h.toNat).foldlM (fun fb (k : ℕ) =>
        (List.range w.toNat).foldlM (fun fb (j : ℕ) =>
          some (kgfx_draw_pixel_alpha fb (x + j) (y + k) color)) fb) fb

/-- A turn of the loops of a filled circle. -/
def circle_pixel (cx cy r : ℤ) (color : UInt32) (y x : ℤ) (fb : kgfx_fb_t) : Option kgfx_fb_t := do
  let xx ← int (x * x)
  let yy ← int (y * y)
  let sum ← int (xx + yy)
  let rr ← int (r * r)
  if sum ≤ rr then
    let px ← int (cx + x)
    let py ← int (cy + y)
    some (kgfx_draw_pixel fb px py color)
  else some fb

def kgfx_draw_filled_circle (fb : kgfx_fb_t) (cx cy r : ℤ) (color : UInt32) : Option kgfx_fb_t :=
  (int (-r)).bind fun start =>
    (List.range (2 * r + 1).toNat).foldlM (fun fb (k : ℕ) =>
      (List.range (2 * r + 1).toNat).foldlM (fun fb (j : ℕ) =>
        circle_pixel cx cy r color (start + k) (start + j) fb) fb) fb

/-! ## The screen -/

/-- A framebuffer as `kgfx_init` sets it up, of a size that the address space holds. -/
structure Sized (fb : kgfx_fb_t) (W H : ℕ) : Prop where
  buffer : ∃ words, fb.buffer = some words
  width : fb.width.toNat = W
  height : fb.height.toNat = H
  pitch : fb.pitch.toNat = W
  fits : W * H ≤ 1073741824

def kgfx_fb_t.word (fb : kgfx_fb_t) (i : ℕ) : UInt32 := (fb.buffer.getD fun _ => 0) i

def Visible (W H : ℕ) (p : ℤ × ℤ) : Prop := 0 ≤ p.1 ∧ p.1 < W ∧ 0 ≤ p.2 ∧ p.2 < H

/-- The index of a pixel. -/
def index (W : ℕ) (p : ℤ × ℤ) : ℕ := (p.2 * W + p.1).toNat

def kgfx_fb_t.pixel (fb : kgfx_fb_t) (W : ℕ) (p : ℤ × ℤ) : UInt32 := fb.word (index W p)

variable {W H : ℕ} {fb fb' fb'' : kgfx_fb_t} {s t : Set (ℤ × ℤ)} {v : ℤ × ℤ → UInt32 → UInt32}

/-- The pixels in `s` are changed by `v`, so far as they are on the screen, and nothing else is. -/
structure Paints (W H : ℕ) (v : ℤ × ℤ → UInt32 → UInt32) (s : Set (ℤ × ℤ)) (fb fb' : kgfx_fb_t) :
    Prop where
  pixels : ∀ p, Visible W H p → fb'.pixel W p = paint s v (fb.pixel W) p
  behind : ∀ i, W * H ≤ i → fb'.word i = fb.word i

theorem paints_empty (fb : kgfx_fb_t) : Paints W H v ∅ fb fb :=
  ⟨fun _ _ => by rw [paint_empty], fun _ _ => rfl⟩

theorem Paints.trans (h : Paints W H v s fb fb') (h' : Paints W H v t fb' fb'')
    (hv : Settled v s t) : Paints W H v (s ∪ t) fb fb'' := by
  refine ⟨fun p hp => ?_, fun i hi => (h'.behind i hi).trans (h.behind i hi)⟩
  rw [h'.pixels p hp, ← paint_paint hv]
  exact paint_apply_congr (h.pixels p hp)

theorem Paints.congr (h : Paints W H v s fb fb')
    (hst : ∀ p, Visible W H p → (p ∈ s ↔ p ∈ t)) : Paints W H v t fb fb' := by
  refine ⟨fun p hp => ?_, h.behind⟩
  rw [h.pixels p hp]
  exact paint_mem_congr (hst p hp)

/-- Nothing is drawn, and nothing of it is on the screen. -/
theorem paints_none (hs : ∀ p, Visible W H p → p ∉ s) : Paints W H v s fb fb :=
  (paints_empty fb).congr fun p hp => iff_of_false (Set.notMem_empty p) (hs p hp)

theorem index_lt {p : ℤ × ℤ} (h : Visible W H p) : (index W p : ℤ) = p.2 * W + p.1
    ∧ index W p < W * H := by
  obtain ⟨hx, hx', hy, hy'⟩ := h
  have hrow : 0 ≤ p.2 * W := mul_nonneg hy (Int.natCast_nonneg W)
  have hlast : (p.2 + 1) * W ≤ H * W :=
    mul_le_mul_of_nonneg_right (Int.add_one_le_of_lt hy') (Int.natCast_nonneg W)
  have hsum : (p.2 + 1) * (W : ℤ) = p.2 * W + W := by ring
  have harea : ((W * H : ℕ) : ℤ) = H * W := by
    rw [Nat.cast_mul]
    ring
  unfold index
  omega

theorem index_inj {p q : ℤ × ℤ} (hp : Visible W H p) (hq : Visible W H q)
    (h : index W p = index W q) : p = q := by
  have hpq : p.2 * (W : ℤ) + p.1 = q.2 * W + q.1 := by
    rw [← (index_lt hp).1, ← (index_lt hq).1, h]
  have hW : (0 : ℤ) < W := hp.1.trans_lt hp.2.1
  have hrow := congrArg (· / (W : ℤ)) hpq
  simp only [Int.mul_comm _ (W : ℤ), Int.mul_add_ediv_left _ _ hW.ne',
    Int.ediv_eq_zero_of_lt hp.1 hp.2.1, Int.ediv_eq_zero_of_lt hq.1 hq.2.1, add_zero] at hrow
  rw [hrow] at hpq
  exact Prod.ext (add_left_cancel hpq) hrow

/-- The words of a buffer with one of them set. -/
theorem paints_update {words : ℕ → UInt32} (hwords : fb.buffer = some words) {p : ℤ × ℤ}
    (hp : Visible W H p) {color : UInt32} (hv : v p (fb.pixel W p) = color) :
    Paints W H v {p} fb
      { fb with buffer := some (Function.update words (index W p) color) } := by
  have hword : ∀ i, fb.word i = words i := fun i => by rw [kgfx_fb_t.word, hwords]; rfl
  have hnew : ∀ i,
      kgfx_fb_t.word { fb with buffer := some (Function.update words (index W p) color) } i
        = Function.update words (index W p) color i := fun _ => rfl
  constructor
  · intro q hq
    rw [kgfx_fb_t.pixel, hnew]
    by_cases hqp : q = p
    · subst hqp
      rw [Function.update_self, paint_of_mem (Set.mem_singleton q), hv]
    · rw [Function.update_of_ne fun h => hqp (index_inj hq hp h),
        paint_of_notMem (Set.mem_singleton_iff.not.mpr hqp), kgfx_fb_t.pixel, hword]
  · intro i hi
    rw [hnew, hword, Function.update_of_ne]
    exact ((index_lt hp).2.trans_le hi).ne'

theorem Sized.update (h : Sized fb W H) (words : ℕ → UInt32) :
    Sized { fb with buffer := some words } W H :=
  ⟨⟨words, rfl⟩, h.width, h.height, h.pitch, h.fits⟩

/-- What a call or a loop of drawing leaves. -/
def Leaves (W H : ℕ) (v : ℤ × ℤ → UInt32 → UInt32) (s : Set (ℤ × ℤ)) (fb : kgfx_fb_t)
    (run : Option kgfx_fb_t) : Prop :=
  ∃ fb', run = some fb' ∧ Sized fb' W H ∧ Paints W H v s fb fb'

theorem Leaves.congr {run : Option kgfx_fb_t} (h : Leaves W H v s fb run)
    (hst : ∀ p, p ∈ s ↔ p ∈ t) : Leaves W H v t fb run := by
  obtain ⟨fb', hrun, hsized, hpaints⟩ := h
  exact ⟨fb', hrun, hsized, hpaints.congr fun p _ => hst p⟩

/-- A loop of drawing. -/
theorem paints_range {f : kgfx_fb_t → ℕ → Option kgfx_fb_t} {s : ℕ → Set (ℤ × ℤ)} {n : ℕ}
    (hv : ∀ k < n, Settled v (places s k) (s k))
    (hf : ∀ k < n, ∀ fb, Sized fb W H → Leaves W H v (s k) fb (f fb k)) (h : Sized fb W H) :
    Leaves W H v (places s n) fb ((List.range n).foldlM f fb) :=
  foldlM_range_places (fun x => paints_empty x) (fun k hk _ _ _ hxy hyz => hxy.trans hyz (hv k hk))
    hf h

/-- The pixels of a rectangle with a property. -/
def Block (x y : ℤ) (n m : ℕ) (Q : ℤ × ℤ → Prop) : Set (ℤ × ℤ) :=
  {p | (x ≤ p.1 ∧ p.1 < x + n) ∧ (y ≤ p.2 ∧ p.2 < y + m) ∧ Q p}

section Loops

variable {x y : ℤ} {n m : ℕ} {Q : ℤ × ℤ → Prop}

/-- A loop along a row; no pixel comes twice. -/
theorem paints_row {f : kgfx_fb_t → ℕ → Option kgfx_fb_t}
    (hf : ∀ j < n, ∀ fb, Sized fb W H → Leaves W H v {p | p = (x + j, y) ∧ Q p} fb (f fb j))
    (h : Sized fb W H) :
    Leaves W H v (Block x y n 1 Q) fb ((List.range n).foldlM f fb) := by
  have hv : ∀ j < n, Settled v (places (fun j : ℕ => {p | p = (x + j, y) ∧ Q p}) j)
      {p | p = (x + j, y) ∧ Q p} := by
    intro j _
    apply Settled.of_disjoint
    rintro p ⟨i, hi, rfl, -⟩ ⟨hp, -⟩
    have := congrArg Prod.fst hp
    dsimp only at this
    omega
  refine (paints_range hv hf h).congr fun p => ?_
  constructor
  · rintro ⟨j, hj, rfl, hQ⟩
    exact ⟨⟨by dsimp only; omega, by dsimp only; omega⟩, ⟨le_rfl, by dsimp only; omega⟩, hQ⟩
  · rintro ⟨⟨hx, hx'⟩, ⟨hy, hy'⟩, hQ⟩
    refine ⟨(p.1 - x).toNat, by omega, Prod.ext ?_ ?_, hQ⟩
    · dsimp only
      omega
    · dsimp only
      omega

/-- A loop over the rows. -/
theorem paints_rows {f : kgfx_fb_t → ℕ → Option kgfx_fb_t}
    (hf : ∀ k < m, ∀ fb, Sized fb W H → Leaves W H v (Block x (y + k) n 1 Q) fb (f fb k))
    (h : Sized fb W H) :
    Leaves W H v (Block x y n m Q) fb ((List.range m).foldlM f fb) := by
  have hv : ∀ k < m, Settled v (places (fun k : ℕ => Block x (y + k) n 1 Q) k)
      (Block x (y + k) n 1 Q) := by
    intro k _
    apply Settled.of_disjoint
    rintro p ⟨i, hi, -, ⟨hy, hy'⟩, -⟩ ⟨-, ⟨hky, hky'⟩, -⟩
    omega
  refine (paints_range hv hf h).congr fun p => ?_
  constructor
  · rintro ⟨k, hk, hx, ⟨hy, hy'⟩, hQ⟩
    exact ⟨hx, ⟨by omega, by omega⟩, hQ⟩
  · rintro ⟨hx, ⟨hy, hy'⟩, hQ⟩
    exact ⟨(p.2 - y).toNat, by omega, hx, ⟨by omega, by omega⟩, hQ⟩

end Loops

/-! ## Pixels -/

section Pixels

variable {p : ℤ × ℤ} {color : UInt32}

theorem to_uint_index (h : Sized fb W H) (hp : Visible W H p) :
    to_uint (p.2 * fb.pitch.toNat + p.1) = index W p := by
  obtain ⟨hindex, hlt⟩ := index_lt hp
  have hfits := h.fits
  rw [h.pitch, ← hindex, to_uint]
  omega

theorem not_visible_iff (h : Sized fb W H) (x y : ℤ) :
    (x < 0 ∨ (fb.width.toNat : ℤ) ≤ x ∨ y < 0 ∨ (fb.height.toNat : ℤ) ≤ y)
      ↔ ¬Visible W H (x, y) := by
  rw [h.width, h.height, Visible]
  omega

/-- A pixel that is clipped away. -/
theorem paints_clipped {Q : ℤ × ℤ → Prop} (hp : ¬Visible W H p) :
    Paints W H v {q | q = p ∧ Q q} fb fb :=
  paints_none fun _ hq hmem => hp (hmem.1 ▸ hq)

theorem paints_one {Q : ℤ × ℤ → Prop} (hQ : Q p) (h : Paints W H v {p} fb fb') :
    Paints W H v {q | q = p ∧ Q q} fb fb' :=
  h.congr fun q _ => ⟨fun hq => ⟨hq, (hq : q = p) ▸ hQ⟩, fun hq => hq.1⟩

theorem paints_not {Q : ℤ × ℤ → Prop} (hQ : ¬Q p) : Paints W H v {q | q = p ∧ Q q} fb fb :=
  paints_none fun _ _ hmem => hQ (hmem.1 ▸ hmem.2)

theorem draw_pixel_paints (h : Sized fb W H) {x y : ℤ} {Q : ℤ × ℤ → Prop} (hQ : Q (x, y))
    (hv : ∀ old, v (x, y) old = color) :
    Leaves W H v {p | p = (x, y) ∧ Q p} fb (some (kgfx_draw_pixel fb x y color)) := by
  obtain ⟨words, hwords⟩ := h.buffer
  refine ⟨_, rfl, ?_⟩
  rw [kgfx_draw_pixel, hwords]
  dsimp only
  by_cases hp : Visible W H (x, y)
  · rw [if_neg ((not_visible_iff h x y).not.mpr (not_not.mpr hp)), to_uint_index h hp]
    exact ⟨h.update _, paints_one hQ (paints_update hwords hp (hv _))⟩
  · rw [if_pos ((not_visible_iff h x y).mpr hp)]
    exact ⟨h, paints_clipped hp⟩

theorem draw_pixel_alpha_paints (h : Sized fb W H) {x y : ℤ} {Q : ℤ × ℤ → Prop} (hQ : Q (x, y))
    (hv : ∀ old, v (x, y) old = kgfx_blend_colors old color) :
    Leaves W H v {p | p = (x, y) ∧ Q p} fb (some (kgfx_draw_pixel_alpha fb x y color)) := by
  obtain ⟨words, hwords⟩ := h.buffer
  refine ⟨_, rfl, ?_⟩
  rw [kgfx_draw_pixel_alpha, hwords]
  dsimp only
  by_cases hp : Visible W H (x, y)
  · have hold : fb.pixel W (x, y) = words (index W (x, y)) := by
      rw [kgfx_fb_t.pixel, kgfx_fb_t.word, hwords]
      rfl
    rw [if_neg ((not_visible_iff h x y).not.mpr (not_not.mpr hp)), to_uint_index h hp]
    refine ⟨h.update _, paints_one hQ (paints_update hwords hp ?_)⟩
    rw [hv, hold]
  · rw [if_pos ((not_visible_iff h x y).mpr hp)]
    exact ⟨h, paints_clipped hp⟩

/-- A pixel behind the pointer to the start of its row, that may be off the screen. -/
theorem store_paints (h : Sized fb W H) {x y : ℤ} {j : ℕ} {Q : ℤ × ℤ → Prop}
    (hp : Visible W H (x + j, y)) (hQ : Q (x + j, y)) (hv : ∀ old, v (x + j, y) old = color) :
    Leaves W H v {p | p = (x + j, y) ∧ Q p} fb (fb.store (to_uint (y * W + x) + j) color) := by
  obtain ⟨words, hwords⟩ := h.buffer
  obtain ⟨hindex, hlt⟩ := index_lt hp
  have hplace : (to_uint (y * W + x) + j) % 1073741824 = index W (x + j, y) := by
    have hfits := h.fits
    rw [to_uint]
    dsimp only at hindex
    omega
  refine ⟨_, ?_, h.update _, paints_one hQ (paints_update hwords hp (hv _))⟩
  rw [kgfx_fb_t.store, hwords, Option.map_some, hplace]

end Pixels

/-! ## Shapes -/

section Shapes

variable {x y : ℤ} {color : UInt32}

/-- A row that is clipped away. -/
theorem paints_clipped_row {n : ℕ} {Q : ℤ × ℤ → Prop} (hy : y < 0 ∨ (H : ℤ) ≤ y) :
    Paints W H v (Block x y n 1 Q) fb fb := by
  apply paints_none
  rintro p ⟨-, -, hp, hp'⟩ ⟨-, ⟨hy1, hy2⟩, -⟩
  omega

theorem fill_row_paints (h : Sized fb W H) {w : ℤ} (hx : IsInt x) (hw : x + w ≤ 2147483648) :
    Leaves W H (fun _ _ => color) (Block x y w.toNat 1 fun _ => True) fb
      (fill_row fb x w y color) := by
  unfold fill_row
  rw [h.height, h.pitch]
  by_cases hy : y < 0 ∨ (H : ℤ) ≤ y
  · rw [if_pos hy]
    exact ⟨fb, rfl, h, paints_clipped_row hy⟩
  · rw [if_neg hy]
    apply paints_row _ h
    intro j hj fb h
    have hint : IsInt (x + j) := by
      rw [isInt_iff] at hx ⊢
      omega
    rw [int_of hint, Option.bind_some, h.width]
    by_cases hon : 0 ≤ x + j ∧ x + j < W
    · rw [if_pos hon]
      have hp : Visible W H (x + j, y) :=
        ⟨hon.1, hon.2, by dsimp only; omega, by dsimp only; omega⟩
      exact store_paints (Q := fun _ => True) h hp trivial fun _ => rfl
    · rw [if_neg hon]
      exact ⟨fb, rfl, h, paints_clipped fun hp => hon ⟨hp.1, hp.2.1⟩⟩

/-- The pixels of a shape of no extent. -/
theorem paints_no_block {n m : ℕ} {Q : ℤ × ℤ → Prop} (h : n = 0 ∨ m = 0) :
    Paints W H v (Block x y n m Q) fb fb := by
  apply paints_none
  rintro p - ⟨hx, hy, -⟩
  omega

/-- Neither the columns nor the row behind the last one overflow. -/
def RectFits (x y w h : ℤ) : Prop := 0 < w → 0 < h → x + w ≤ 2147483648 ∧ y + h ≤ 2147483647

theorem draw_rect_paints (hsized : Sized fb W H) (fuel : ℕ) {w h : ℤ} (hx : IsInt x)
    (hy : IsInt y) (hok : RectFits x y w h) :
    Leaves W H (fun _ _ => color) (Block x y w.toNat h.toNat fun _ => True) fb
      (kgfx_draw_rect fuel fb x y w h color true) := by
  unfold kgfx_draw_rect
  by_cases hnone : w ≤ 0 ∨ h ≤ 0
  · rw [if_pos hnone]
    exact ⟨fb, rfl, hsized, paints_no_block (by omega)⟩
  · rw [if_neg hnone, if_pos rfl]
    obtain ⟨hw, hh⟩ := hok (by omega) (by omega)
    have hint : IsInt (y + h) := by
      rw [isInt_iff] at hy ⊢
      omega
    rw [int_of hint, Option.bind_some]
    apply paints_rows _ hsized
    intro k _ fb hsized
    exact fill_row_paints hsized hx hw

theorem draw_rect_alpha_paints (hsized : Sized fb W H) {w h : ℤ} (hx : IsInt x) (hy : IsInt y)
    (hok : 0 < w → 0 < h → x + w ≤ 2147483647 ∧ y + h ≤ 2147483647) :
    Leaves W H (fun _ old => kgfx_blend_colors old color)
      (Block x y w.toNat h.toNat fun _ => True) fb (kgfx_draw_rect_alpha fb x y w h color) := by
  unfold kgfx_draw_rect_alpha
  by_cases hnone : w ≤ 0 ∨ h ≤ 0
  · rw [if_pos hnone]
    exact ⟨fb, rfl, hsized, paints_no_block (by omega)⟩
  · rw [if_neg hnone]
    obtain ⟨hw, hh⟩ := hok (by omega) (by omega)
    have hint : IsInt (y + h) ∧ IsInt (x + w) := by
      rw [isInt_iff] at hx hy ⊢
      rw [isInt_iff]
      omega
    rw [int_of hint.1, Option.bind_some, int_of hint.2, Option.bind_some]
    apply paints_rows _ hsized
    intro k _ fb hsized
    apply paints_row _ hsized
    intro j _ fb hsized
    exact draw_pixel_alpha_paints (Q := fun _ => True) hsized trivial fun _ => rfl

/-- The squares fit, and the disc is among the coordinates that fit. -/
def CircleOk (cx cy r : ℤ) : Prop :=
  r ≠ -2147483648 ∧ (0 ≤ r → r ≤ 32767 ∧ IsInt (cx - r) ∧ IsInt (cx + r) ∧ IsInt (cy - r)
    ∧ IsInt (cy + r))

def InDisc (cx cy r : ℤ) (p : ℤ × ℤ) : Prop :=
  (p.1 - cx) * (p.1 - cx) + (p.2 - cy) * (p.2 - cy) ≤ r * r

theorem circle_pixel_paints (h : Sized fb W H) {cx cy r : ℤ} (hr : 0 ≤ r) (hok : CircleOk cx cy r)
    (hx : -r ≤ x ∧ x ≤ r) (hy : -r ≤ y ∧ y ≤ r) :
    Leaves W H (fun _ _ => color) {p | p = (cx + x, cy + y) ∧ InDisc cx cy r p} fb
      (circle_pixel cx cy r color y x fb) := by
  obtain ⟨hsmall, hleft, hright, htop, hbottom⟩ := hok.2 hr
  have hxx : 0 ≤ x * x ∧ x * x ≤ r * r := ⟨mul_self_nonneg x, by nlinarith⟩
  have hyy : 0 ≤ y * y ∧ y * y ≤ r * r := ⟨mul_self_nonneg y, by nlinarith⟩
  have hrr : r * r ≤ 1073676289 := by nlinarith
  have hints : IsInt (x * x) ∧ IsInt (y * y) ∧ IsInt (x * x + y * y) ∧ IsInt (r * r)
      ∧ IsInt (cx + x) ∧ IsInt (cy + y) := by
    simp only [isInt_iff] at *
    omega
  obtain ⟨h1, h2, h3, h4, h5, h6⟩ := hints
  have hdisc : InDisc cx cy r (cx + x, cy + y) ↔ x * x + y * y ≤ r * r := by
    rw [InDisc, add_sub_cancel_left, add_sub_cancel_left]
  unfold circle_pixel
  simp only [int_of h1, int_of h2, int_of h3, int_of h4, int_of h5, int_of h6, Option.bind_eq_bind,
    Option.bind_some]
  by_cases hin : x * x + y * y ≤ r * r
  · rw [if_pos hin]
    exact draw_pixel_paints h (hdisc.mpr hin) fun _ => rfl
  · rw [if_neg hin]
    exact ⟨fb, rfl, h, paints_not (hdisc.not.mpr hin)⟩

theorem draw_filled_circle_paints (h : Sized fb W H) {cx cy r : ℤ} (hr : IsInt r)
    (hok : CircleOk cx cy r) :
    Leaves W H (fun _ _ => color)
      (Block (cx - r) (cy - r) (2 * r + 1).toNat (2 * r + 1).toNat (InDisc cx cy r)) fb
      (kgfx_draw_filled_circle fb cx cy r color) := by
  unfold kgfx_draw_filled_circle
  have hint : IsInt (-r) := by
    have hmin := hok.1
    rw [isInt_iff] at hr ⊢
    omega
  rw [int_of hint, Option.bind_some]
  apply paints_rows _ h
  intro k hk fb h
  apply paints_row _ h
  intro j hj fb h
  have hcenter : (cx - r + j, cy - r + (k : ℤ)) = (cx + (-r + j), cy + (-r + k)) := by
    apply Prod.ext
    · dsimp only
      ring
    · dsimp only
      ring
  rw [hcenter]
  apply circle_pixel_paints h _ hok
  · omega
  · omega
  · omega

end Shapes

end SysInC.Kgfx
