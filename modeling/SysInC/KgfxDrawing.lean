/-
Triangles, characters, strings and copied images of `freestanding/kgfx.c`, and what a list of
drawing calls leaves on the screen.
-/
import SysInC.KgfxShapes
import Mathlib.Algebra.Order.Ring.Abs

set_option autoImplicit false

namespace SysInC.Kgfx

open CInt Painting

/-! ## The source -/

/-- A turn of the inner loop of a character. -/
def char_pixel (x py : ℤ) (bits : UInt8) (fg bg : UInt32) (fb : kgfx_fb_t) (col : ℕ) :
    Option kgfx_fb_t :=
  (int (x + col)).bind fun px =>
    if px < 0 ∨ (fb.width.toNat : ℤ) ≤ px then some fb
    else
      let line := to_uint (py * fb.pitch.toNat + x)
      if bits &&& (1 <<< UInt8.ofNat (7 - col)) ≠ 0 then fb.store (line + col) fg
      else if bg ≠ 0 then fb.store (line + col) bg
      else some fb

/-- `kgfx_font8x8` is indexed by the character less 32, and by the row. -/
def kgfx_draw_char (kgfx_font8x8 : ℤ → ℕ → UInt8) (fb : kgfx_fb_t) (x y : ℤ) (c : Int8)
    (fg bg : UInt32) : Option kgfx_fb_t :=
  let c := if c.toInt < 32 ∨ 126 < c.toInt then 63 else c.toInt
  (List.range 8).foldlM (fun fb (row : ℕ) => (int (y + row)).bind fun py =>
    if py < 0 ∨ (fb.height.toNat : ℤ) ≤ py then some fb
    else (List.range 8).foldlM (char_pixel x py (kgfx_font8x8 (c - 32) row) fg bg) fb) fb

/-- `src_buf` has `sw * sh` pixels. -/
def kgfx_blit (dest : kgfx_fb_t) (dx dy : ℤ) (src_buf : ℤ → UInt32) (sw sh : ℤ)
    (chroma_key : UInt32) : Option kgfx_fb_t :=
  if sw ≤ 0 ∨ sh ≤ 0 then some dest
  else
    (List.range sh.toNat).foldlM (fun dest (y : ℕ) =>
      (List.range sw.toNat).foldlM (fun dest (x : ℕ) =>
        (int (y * sw)).bind fun start => (int (start + x)).bind fun i =>
          if src_buf i ≠ chroma_key then
            (int (dx + x)).bind fun px => (int (dy + y)).map fun py =>
              kgfx_draw_pixel dest px py (src_buf i)
          else some dest) dest) dest

/-- The loop of `kgfx_draw_string`; `x` is where its lines start. -/
def string_from (kgfx_font8x8 : ℤ → ℕ → UInt8) (x : ℤ) (fg bg : UInt32) :
    List Int8 → kgfx_fb_t → ℤ → ℤ → Option kgfx_fb_t
  | [], fb, _, _ => some fb
  | c :: str, fb, curr_x, curr_y =>
    if c = 10 then
      (int (curr_y + 14)).bind fun curr_y => string_from kgfx_font8x8 x fg bg str fb x curr_y
    else
      (kgfx_draw_char kgfx_font8x8 fb curr_x curr_y c fg bg).bind fun fb =>
        (int (curr_x + 8)).bind fun curr_x =>
          string_from kgfx_font8x8 x fg bg str fb curr_x curr_y

/-- `str` is the text before the terminator. -/
def kgfx_draw_string (kgfx_font8x8 : ℤ → ℕ → UInt8) (fb : kgfx_fb_t) (x y : ℤ) (str : List Int8)
    (fg bg : UInt32) : Option kgfx_fb_t :=
  string_from kgfx_font8x8 x fg bg str fb x y

/-- `(x1 - x0) * (y - y0) - (y1 - y0) * (x - x0)` -/
def edge (x0 y0 x1 y1 x y : ℤ) : Option ℤ := do
  let dx ← int (x1 - x0)
  let dy ← int (y - y0)
  let a ← int (dx * dy)
  let dy ← int (y1 - y0)
  let dx ← int (x - x0)
  let b ← int (dy * dx)
  int (a - b)

/-- A turn of the loops of a filled triangle. -/
def triangle_pixel (x0 y0 x1 y1 x2 y2 : ℤ) (color : UInt32) (y x : ℤ) (fb : kgfx_fb_t) :
    Option kgfx_fb_t := do
  let w0 ← edge x0 y0 x1 y1 x y
  let w1 ← edge x1 y1 x2 y2 x y
  let w2 ← edge x2 y2 x0 y0 x y
  if (w0 ≥ 0 ∧ w1 ≥ 0 ∧ w2 ≥ 0) ∨ (w0 ≤ 0 ∧ w1 ≤ 0 ∧ w2 ≤ 0) then
    some (kgfx_draw_pixel fb x y color)
  else some fb

/-- `fuel` is for the lines. A loop that ends at `INT_MAX` overflows. -/
def kgfx_draw_triangle (fuel : ℕ) (fb : kgfx_fb_t) (x0 y0 x1 y1 x2 y2 : ℤ) (color : UInt32)
    (fill : Bool) : Option kgfx_fb_t :=
  if fill then
    let min_x := if x0 < x1 then (if x0 < x2 then x0 else x2) else if x1 < x2 then x1 else x2
    let max_x := if x0 > x1 then (if x0 > x2 then x0 else x2) else if x1 > x2 then x1 else x2
    let min_y := if y0 < y1 then (if y0 < y2 then y0 else y2) else if y1 < y2 then y1 else y2
    let max_y := if y0 > y1 then (if y0 > y2 then y0 else y2) else if y1 > y2 then y1 else y2
    (int (max_y + 1)).bind fun end_y => (int (max_x + 1)).bind fun end_x =>
      (List.range (end_y - min_y).toNat).foldlM (fun fb (k : ℕ) =>
        (List.range (end_x - min_x).toNat).foldlM (fun fb (j : ℕ) =>
          triangle_pixel x0 y0 x1 y1 x2 y2 color (min_y + k) (min_x + j) fb) fb) fb
  else
    let line (fb : kgfx_fb_t) (x0 y0 x1 y1 : ℤ) : Option kgfx_fb_t :=
      (kgfx_draw_line fuel fb (Int32.ofInt x0) (Int32.ofInt y0) (Int32.ofInt x1) (Int32.ofInt y1)
        color).map Prod.snd
    do
      let fb ← line fb x0 y0 x1 y1
      let fb ← line fb x1 y1 x2 y2
      line fb x2 y2 x0 y0

/-! ## Characters -/

section Characters

variable {W H : ℕ} {fb : kgfx_fb_t} (kgfx_font8x8 : ℤ → ℕ → UInt8) {x y : ℤ} {c : Int8}
  {fg bg : UInt32}

/-- The row of the glyph. -/
def glyph_row (c : Int8) (row : ℕ) : UInt8 :=
  kgfx_font8x8 ((if c.toInt < 32 ∨ 126 < c.toInt then 63 else c.toInt) - 32) row

/-- What a character leaves on a pixel of its cell: a background of 0 is transparent. -/
def char_color (x y : ℤ) (c : Int8) (fg bg : UInt32) (p : ℤ × ℤ) (old : UInt32) : UInt32 :=
  if glyph_row kgfx_font8x8 c (p.2 - y).toNat &&& (1 <<< UInt8.ofNat (7 - (p.1 - x).toNat)) ≠ 0
    then fg
  else if bg ≠ 0 then bg else old

/-- The cell of a character fits. -/
def CharOk (x y : ℤ) : Prop := x ≤ 2147483640 ∧ y ≤ 2147483640

/-- Values that are written back as they were. -/
theorem paints_kept {s : Set (ℤ × ℤ)} {v : ℤ × ℤ → UInt32 → UInt32}
    (hv : ∀ p ∈ s, ∀ old, v p old = old) : Paints W H v s fb fb := by
  refine ⟨fun p _ => ?_, fun _ _ => rfl⟩
  by_cases hp : p ∈ s
  · rw [paint_of_mem hp, hv p hp]
  · rw [paint_of_notMem hp]

theorem char_pixel_paints (h : Sized fb W H) {j : ℕ} (hx : IsInt (x + j)) (hy : 0 ≤ y ∧ y < H)
    {bits : UInt8} {v : ℤ × ℤ → UInt32 → UInt32}
    (hv : ∀ old, v (x + j, y) old = if bits &&& (1 <<< UInt8.ofNat (7 - j)) ≠ 0 then fg
      else if bg ≠ 0 then bg else old) :
    Leaves W H v {p | p = (x + j, y) ∧ True} fb (char_pixel x y bits fg bg fb j) := by
  unfold char_pixel
  rw [int_of hx, Option.bind_some, h.width, h.pitch]
  by_cases hoff : x + j < 0 ∨ (W : ℤ) ≤ x + j
  · rw [if_pos hoff]
    refine ⟨fb, rfl, h, paints_clipped fun hp => ?_⟩
    have hleft : 0 ≤ x + j := hp.1
    have hright : x + j < W := hp.2.1
    omega
  · rw [if_neg hoff]
    have hp : Visible W H (x + j, y) :=
      ⟨by dsimp only; omega, by dsimp only; omega, hy.1, hy.2⟩
    dsimp only
    by_cases hbit : bits &&& (1 <<< UInt8.ofNat (7 - j)) ≠ 0
    · simp only [if_pos hbit] at hv ⊢
      exact store_paints (Q := fun _ => True) h hp trivial hv
    · simp only [if_neg hbit] at hv ⊢
      by_cases hbg : bg ≠ 0
      · simp only [if_pos hbg] at hv ⊢
        exact store_paints (Q := fun _ => True) h hp trivial hv
      · simp only [if_neg hbg] at hv ⊢
        apply Exists.intro fb
        refine ⟨rfl, h, paints_kept ?_⟩
        rintro p ⟨rfl, -⟩
        exact hv

theorem draw_char_paints (h : Sized fb W H) (c : Int8) (fg bg : UInt32) (hx : IsInt x)
    (hy : IsInt y) (hok : CharOk x y) :
    Leaves W H (char_color kgfx_font8x8 x y c fg bg) (Block x y 8 8 fun _ => True) fb
      (kgfx_draw_char kgfx_font8x8 fb x y c fg bg) := by
  obtain ⟨hright, hbottom⟩ := hok
  apply paints_rows _ h
  intro k hk fb h
  simp only [isInt_iff] at hx hy
  have hrow : IsInt (y + k) := by
    rw [isInt_iff]
    omega
  rw [int_of hrow, Option.bind_some, h.height]
  by_cases hoff : y + k < 0 ∨ (H : ℤ) ≤ y + k
  · rw [if_pos hoff]
    exact ⟨fb, rfl, h, paints_clipped_row hoff⟩
  · rw [if_neg hoff]
    apply paints_row _ h
    intro j hj fb h
    have hcol : IsInt (x + j) := by
      rw [isInt_iff]
      omega
    apply char_pixel_paints h hcol (by omega)
    intro old
    rw [char_color, add_sub_cancel_left, add_sub_cancel_left, Int.toNat_natCast,
      Int.toNat_natCast, glyph_row]

end Characters

/-! ## Images -/

section Images

variable {W H : ℕ} {fb : kgfx_fb_t} {dx dy sw sh : ℤ}

/-- The source is one array of `sw * sh` pixels, and the copy fits. -/
def BlitOk (dx dy sw sh : ℤ) : Prop :=
  0 < sw → 0 < sh → sw * sh ≤ 2147483648 ∧ dx + sw ≤ 2147483648 ∧ dy + sh ≤ 2147483648

theorem blit_paints (h : Sized fb W H) (src_buf : ℤ → UInt32) (chroma_key : UInt32)
    (hdx : IsInt dx) (hdy : IsInt dy) (hok : BlitOk dx dy sw sh) :
    Leaves W H (fun p _ => src_buf ((p.2 - dy) * sw + (p.1 - dx)))
      (Block dx dy sw.toNat sh.toNat fun p => src_buf ((p.2 - dy) * sw + (p.1 - dx)) ≠ chroma_key)
      fb (kgfx_blit fb dx dy src_buf sw sh chroma_key) := by
  unfold kgfx_blit
  by_cases hnone : sw ≤ 0 ∨ sh ≤ 0
  · rw [if_pos hnone]
    exact ⟨fb, rfl, h, paints_no_block (by omega)⟩
  · rw [if_neg hnone]
    obtain ⟨harea, hright, hbottom⟩ := hok (by omega) (by omega)
    apply paints_rows _ h
    intro k hk fb h
    apply paints_row _ h
    intro j hj fb h
    -- the index of a source pixel is behind those before it and before the area
    have hrows : ((k : ℤ) + 1) * sw ≤ sh * sw :=
      mul_le_mul_of_nonneg_right (by omega) (by omega)
    have hk0 : 0 ≤ (k : ℤ) * sw := mul_nonneg (Int.natCast_nonneg k) (by omega)
    rw [add_mul, one_mul, mul_comm sh] at hrows
    have hints : IsInt ((k : ℤ) * sw) ∧ IsInt ((k : ℤ) * sw + j) ∧ IsInt (dx + j)
        ∧ IsInt (dy + k) := by
      simp only [isInt_iff] at *
      omega
    obtain ⟨h1, h2, h3, h4⟩ := hints
    have hsrc : ((dy + (k : ℤ) - dy) * sw + (dx + (j : ℤ) - dx)) = k * sw + j := by
      rw [add_sub_cancel_left, add_sub_cancel_left]
    simp only [int_of h1, int_of h2, Option.bind_some]
    by_cases hkey : src_buf ((k : ℤ) * sw + j) ≠ chroma_key
    · rw [if_pos hkey, int_of h3, Option.bind_some, int_of h4, Option.map_some]
      exact draw_pixel_paints
        (Q := fun p => src_buf ((p.2 - dy) * sw + (p.1 - dx)) ≠ chroma_key) h
        (x := dx + j) (y := dy + k) (by rw [hsrc]; exact hkey) (fun _ => by rw [hsrc])
    · rw [if_neg hkey]
      refine ⟨fb, rfl, h, paints_not ?_⟩
      dsimp only
      rwa [hsrc]

end Images

/-! ## Triangles -/

section Triangles

variable {W H : ℕ} {fb : kgfx_fb_t} {x0 y0 x1 y1 x2 y2 x y : ℤ} {color : UInt32}

/-- Twice the area to the right of an edge, as seen from a point. -/
def side (x0 y0 x1 y1 : ℤ) (p : ℤ × ℤ) : ℤ := (x1 - x0) * (p.2 - y0) - (y1 - y0) * (p.1 - x0)

/-- A coordinate for which no product of the loops overflows. -/
def Near (v : ℤ) : Prop := -16383 ≤ v ∧ v ≤ 16383

theorem Near.abs_sub_le {a b : ℤ} (ha : Near a) (hb : Near b) : |a - b| ≤ 32766 := by
  obtain ⟨ha, ha'⟩ := ha
  obtain ⟨hb, hb'⟩ := hb
  rw [abs_le]
  omega

theorem Near.abs_mul_le {a b c d : ℤ} (ha : Near a) (hb : Near b) (hc : Near c) (hd : Near d) :
    |(a - b) * (c - d)| ≤ 1073610756 := by
  rw [abs_mul]
  calc |a - b| * |c - d| ≤ 32766 * 32766 :=
        mul_le_mul (ha.abs_sub_le hb) (hc.abs_sub_le hd) (abs_nonneg _) (by norm_num)
    _ = 1073610756 := by norm_num

theorem edge_eq (hx0 : Near x0) (hy0 : Near y0) (hx1 : Near x1) (hy1 : Near y1) (hx : Near x)
    (hy : Near y) : edge x0 y0 x1 y1 x y = some (side x0 y0 x1 y1 (x, y)) := by
  have ha := abs_le.mp (hx1.abs_mul_le hx0 hy hy0)
  have hb := abs_le.mp (hy1.abs_mul_le hy0 hx hx0)
  have hints : IsInt (x1 - x0) ∧ IsInt (y - y0) ∧ IsInt (y1 - y0) ∧ IsInt (x - x0) := by
    simp only [Near, isInt_iff] at *
    omega
  obtain ⟨h1, h2, h3, h4⟩ := hints
  have hproducts : IsInt ((x1 - x0) * (y - y0)) ∧ IsInt ((y1 - y0) * (x - x0))
      ∧ IsInt ((x1 - x0) * (y - y0) - (y1 - y0) * (x - x0)) := by
    simp only [isInt_iff]
    omega
  obtain ⟨h5, h6, h7⟩ := hproducts
  unfold edge
  simp only [int_of h1, int_of h2, int_of h3, int_of h4, int_of h5, int_of h6, int_of h7,
    Option.bind_eq_bind, Option.bind_some]
  rfl

/-- A point of the triangle: its place is a mean of those of the corners, with weights. -/
def InTriangle (x0 y0 x1 y1 x2 y2 : ℤ) (p : ℤ × ℤ) : Prop :=
  ∃ a b c : ℤ, 0 ≤ a ∧ 0 ≤ b ∧ 0 ≤ c ∧ 0 < a + b + c
    ∧ (a + b + c) * p.1 = a * x0 + b * x1 + c * x2 ∧ (a + b + c) * p.2 = a * y0 + b * y1 + c * y2

/-- The test of the loops. -/
def SameSide (x0 y0 x1 y1 x2 y2 : ℤ) (p : ℤ × ℤ) : Prop :=
  (0 ≤ side x0 y0 x1 y1 p ∧ 0 ≤ side x1 y1 x2 y2 p ∧ 0 ≤ side x2 y2 x0 y0 p)
    ∨ (side x0 y0 x1 y1 p ≤ 0 ∧ side x1 y1 x2 y2 p ≤ 0 ∧ side x2 y2 x0 y0 p ≤ 0)

/-- What the sides have in common is the area, and each is the weight of the corner across. -/
theorem side_sum (x0 y0 x1 y1 x2 y2 : ℤ) (p : ℤ × ℤ) :
    side x0 y0 x1 y1 p + side x1 y1 x2 y2 p + side x2 y2 x0 y0 p = side x0 y0 x1 y1 (x2, y2) := by
  unfold side
  ring

theorem side_weights (x0 y0 x1 y1 x2 y2 : ℤ) (p : ℤ × ℤ) :
    side x0 y0 x1 y1 (x2, y2) * p.1 = side x1 y1 x2 y2 p * x0 + side x2 y2 x0 y0 p * x1
      + side x0 y0 x1 y1 p * x2
    ∧ side x0 y0 x1 y1 (x2, y2) * p.2 = side x1 y1 x2 y2 p * y0 + side x2 y2 x0 y0 p * y1
      + side x0 y0 x1 y1 p * y2 := by
  unfold side
  constructor
  · ring
  · ring

/-- A point between two others, with weights. -/
def OnSegment (x0 y0 x1 y1 : ℤ) (p : ℤ × ℤ) : Prop :=
  ∃ a b : ℤ, 0 ≤ a ∧ 0 ≤ b ∧ 0 < a + b
    ∧ (a + b) * p.1 = a * x0 + b * x1 ∧ (a + b) * p.2 = a * y0 + b * y1

/-- The distances to the ends are the weights, the nearer end having the greater one. -/
theorem onSegment_of_x {p : ℤ × ℤ} (hside : side x0 y0 x1 y1 p = 0) (hne : x0 ≠ x1)
    (h : (x0 ≤ p.1 ∧ p.1 ≤ x1) ∨ (x1 ≤ p.1 ∧ p.1 ≤ x0)) : OnSegment x0 y0 x1 y1 p := by
  unfold side at hside
  rcases h with ⟨hl, hr⟩ | ⟨hl, hr⟩
  · refine ⟨x1 - p.1, p.1 - x0, by omega, by omega, by omega, by ring, ?_⟩
    linear_combination hside
  · refine ⟨p.1 - x1, x0 - p.1, by omega, by omega, by omega, by ring, ?_⟩
    linear_combination -hside

theorem side_swap (p : ℤ × ℤ) : side y0 x0 y1 x1 p.swap = -side x0 y0 x1 y1 p := by
  unfold side
  rw [Prod.fst_swap, Prod.snd_swap]
  ring

theorem onSegment_of_y {p : ℤ × ℤ} (hside : side x0 y0 x1 y1 p = 0) (hne : y0 ≠ y1)
    (h : (y0 ≤ p.2 ∧ p.2 ≤ y1) ∨ (y1 ≤ p.2 ∧ p.2 ≤ y0)) : OnSegment x0 y0 x1 y1 p := by
  have hswap : side y0 x0 y1 x1 p.swap = 0 := by rw [side_swap, hside, neg_zero]
  obtain ⟨a, b, ha, hb, hab, hy, hx⟩ := onSegment_of_x hswap hne h
  exact ⟨a, b, ha, hb, hab, hx, hy⟩

theorem inTriangle_of_onSegment {p : ℤ × ℤ} (h : OnSegment x0 y0 x1 y1 p
    ∨ OnSegment x1 y1 x2 y2 p ∨ OnSegment x2 y2 x0 y0 p) : InTriangle x0 y0 x1 y1 x2 y2 p := by
  rcases h with ⟨a, b, ha, hb, hab, hx, hy⟩ | ⟨a, b, ha, hb, hab, hx, hy⟩
    | ⟨a, b, ha, hb, hab, hx, hy⟩
  · exact ⟨a, b, 0, ha, hb, le_rfl, by omega, by linear_combination hx, by linear_combination hy⟩
  · exact ⟨0, a, b, le_rfl, ha, hb, by omega, by linear_combination hx, by linear_combination hy⟩
  · exact ⟨b, 0, a, hb, le_rfl, ha, by omega, by linear_combination hx, by linear_combination hy⟩

/-- Some corner is not above, and some is not below. -/
def Within (u v w c : ℤ) : Prop := (u ≤ c ∨ v ≤ c ∨ w ≤ c) ∧ (c ≤ u ∨ c ≤ v ∨ c ≤ w)

/-- Then two of the corners are on different sides of it. -/
theorem Within.spans {u v w c : ℤ} (h : Within u v w c) (hne : ¬(u = v ∧ v = w)) :
    (u ≠ v ∧ ((u ≤ c ∧ c ≤ v) ∨ (v ≤ c ∧ c ≤ u))) ∨ (v ≠ w ∧ ((v ≤ c ∧ c ≤ w) ∨ (w ≤ c ∧ c ≤ v)))
      ∨ (w ≠ u ∧ ((w ≤ c ∧ c ≤ u) ∨ (u ≤ c ∧ c ≤ w))) := by
  unfold Within at h
  omega

/-- A triangle whose corners are on one line is the segment between the outermost ones. -/
theorem inTriangle_of_flat {p : ℤ × ℤ} (hx : Within x0 x1 x2 p.1) (hy : Within y0 y1 y2 p.2)
    (h0 : side x0 y0 x1 y1 p = 0) (h1 : side x1 y1 x2 y2 p = 0) (h2 : side x2 y2 x0 y0 p = 0) :
    InTriangle x0 y0 x1 y1 x2 y2 p := by
  by_cases hcolumn : x0 = x1 ∧ x1 = x2
  · by_cases hrow : y0 = y1 ∧ y1 = y2
    · obtain ⟨rfl, rfl⟩ := hcolumn
      obtain ⟨rfl, rfl⟩ := hrow
      unfold Within at hx hy
      exact ⟨1, 0, 0, by omega, le_rfl, le_rfl, by omega, by omega, by omega⟩
    · apply inTriangle_of_onSegment
      rcases hy.spans hrow with ⟨hne, h⟩ | ⟨hne, h⟩ | ⟨hne, h⟩
      · exact Or.inl (onSegment_of_y h0 hne h)
      · exact Or.inr (Or.inl (onSegment_of_y h1 hne h))
      · exact Or.inr (Or.inr (onSegment_of_y h2 hne h))
  · apply inTriangle_of_onSegment
    rcases hx.spans hcolumn with ⟨hne, h⟩ | ⟨hne, h⟩ | ⟨hne, h⟩
    · exact Or.inl (onSegment_of_x h0 hne h)
    · exact Or.inr (Or.inl (onSegment_of_x h1 hne h))
    · exact Or.inr (Or.inr (onSegment_of_x h2 hne h))

theorem inTriangle_of_sameSide {p : ℤ × ℤ} (hx : Within x0 x1 x2 p.1) (hy : Within y0 y1 y2 p.2)
    (h : SameSide x0 y0 x1 y1 x2 y2 p) : InTriangle x0 y0 x1 y1 x2 y2 p := by
  have hsum := side_sum x0 y0 x1 y1 x2 y2 p
  obtain ⟨hp1, hp2⟩ := side_weights x0 y0 x1 y1 x2 y2 p
  by_cases hflat : side x0 y0 x1 y1 p = 0 ∧ side x1 y1 x2 y2 p = 0 ∧ side x2 y2 x0 y0 p = 0
  · exact inTriangle_of_flat hx hy hflat.1 hflat.2.1 hflat.2.2
  · rcases h with ⟨h0, h1, h2⟩ | ⟨h0, h1, h2⟩
    · refine ⟨side x1 y1 x2 y2 p, side x2 y2 x0 y0 p, side x0 y0 x1 y1 p, h1, h2, h0, by omega,
        ?_, ?_⟩
      · linear_combination hp1 + p.1 * hsum
      · linear_combination hp2 + p.2 * hsum
    · refine ⟨-side x1 y1 x2 y2 p, -side x2 y2 x0 y0 p, -side x0 y0 x1 y1 p, by omega, by omega,
        by omega, by omega, ?_, ?_⟩
      · linear_combination -hp1 - p.1 * hsum
      · linear_combination -hp2 - p.2 * hsum

theorem within_of_mean {a b c u v w m : ℤ} (ha : 0 ≤ a) (hb : 0 ≤ b) (hc : 0 ≤ c)
    (habc : 0 < a + b + c) (h : (a + b + c) * m = a * u + b * v + c * w) : Within u v w m := by
  constructor
  · by_contra hnone
    have h1 : a * (m + 1) ≤ a * u := mul_le_mul_of_nonneg_left (by omega) ha
    have h2 : b * (m + 1) ≤ b * v := mul_le_mul_of_nonneg_left (by omega) hb
    have h3 : c * (m + 1) ≤ c * w := mul_le_mul_of_nonneg_left (by omega) hc
    linarith
  · by_contra hnone
    have h1 : a * u ≤ a * (m - 1) := mul_le_mul_of_nonneg_left (by omega) ha
    have h2 : b * v ≤ b * (m - 1) := mul_le_mul_of_nonneg_left (by omega) hb
    have h3 : c * w ≤ c * (m - 1) := mul_le_mul_of_nonneg_left (by omega) hc
    linarith

/-- **The test of the loops is the triangle.** Of the points of the bounding box, those on one side
of all three edges are the means of the corners, in either orientation, and also where the corners
are on one line. -/
theorem sameSide_iff (p : ℤ × ℤ) :
    Within x0 x1 x2 p.1 ∧ Within y0 y1 y2 p.2 ∧ SameSide x0 y0 x1 y1 x2 y2 p
      ↔ InTriangle x0 y0 x1 y1 x2 y2 p := by
  constructor
  · rintro ⟨hx, hy, h⟩
    exact inTriangle_of_sameSide hx hy h
  · rintro ⟨a, b, c, ha, hb, hc, habc, hx, hy⟩
    refine ⟨within_of_mean ha hb hc habc hx, within_of_mean ha hb hc habc hy, ?_⟩
    -- each side is the area in the proportion of the weight of the corner across
    have h0 : (a + b + c) * side x0 y0 x1 y1 p = c * side x0 y0 x1 y1 (x2, y2) := by
      unfold side
      linear_combination (x1 - x0) * hy - (y1 - y0) * hx
    have h1 : (a + b + c) * side x1 y1 x2 y2 p = a * side x0 y0 x1 y1 (x2, y2) := by
      unfold side
      linear_combination (x2 - x1) * hy - (y2 - y1) * hx
    have h2 : (a + b + c) * side x2 y2 x0 y0 p = b * side x0 y0 x1 y1 (x2, y2) := by
      unfold side
      linear_combination (x0 - x2) * hy - (y0 - y2) * hx
    rcases le_total 0 (side x0 y0 x1 y1 (x2, y2)) with harea | harea
    · left
      refine ⟨?_, ?_, ?_⟩
      · exact nonneg_of_mul_nonneg_right (h0 ▸ mul_nonneg hc harea) habc
      · exact nonneg_of_mul_nonneg_right (h1 ▸ mul_nonneg ha harea) habc
      · exact nonneg_of_mul_nonneg_right (h2 ▸ mul_nonneg hb harea) habc
    · right
      refine ⟨?_, ?_, ?_⟩
      · exact nonpos_of_mul_nonpos_right (h0 ▸ mul_nonpos_of_nonneg_of_nonpos hc harea) habc
      · exact nonpos_of_mul_nonpos_right (h1 ▸ mul_nonpos_of_nonneg_of_nonpos ha harea) habc
      · exact nonpos_of_mul_nonpos_right (h2 ▸ mul_nonpos_of_nonneg_of_nonpos hb harea) habc

theorem triangle_pixel_paints (h : Sized fb W H) (hx0 : Near x0) (hy0 : Near y0) (hx1 : Near x1)
    (hy1 : Near y1) (hx2 : Near x2) (hy2 : Near y2) (hx : Near x) (hy : Near y) :
    Leaves W H (fun _ _ => color) {p | p = (x, y) ∧ SameSide x0 y0 x1 y1 x2 y2 p} fb
      (triangle_pixel x0 y0 x1 y1 x2 y2 color y x fb) := by
  unfold triangle_pixel
  rw [edge_eq hx0 hy0 hx1 hy1 hx hy, edge_eq hx1 hy1 hx2 hy2 hx hy, edge_eq hx2 hy2 hx0 hy0 hx hy]
  simp only [Option.bind_eq_bind, Option.bind_some, ge_iff_le]
  by_cases hsame : SameSide x0 y0 x1 y1 x2 y2 (x, y)
  · unfold SameSide at hsame
    rw [if_pos hsame]
    exact draw_pixel_paints (Q := SameSide x0 y0 x1 y1 x2 y2) h hsame fun _ => rfl
  · unfold SameSide at hsame
    rw [if_neg hsame]
    exact ⟨fb, rfl, h, paints_not (Q := SameSide x0 y0 x1 y1 x2 y2) hsame⟩

/-- The least and the greatest of three coordinates. -/
theorem within_iff (u v w c : ℤ) :
    ((if u < v then (if u < w then u else w) else if v < w then v else w) ≤ c
      ∧ c ≤ if u > v then (if u > w then u else w) else if v > w then v else w)
      ↔ Within u v w c := by
  unfold Within
  split_ifs <;> omega

theorem draw_triangle_paints (h : Sized fb W H) (fuel : ℕ) (hx0 : Near x0) (hy0 : Near y0)
    (hx1 : Near x1) (hy1 : Near y1) (hx2 : Near x2) (hy2 : Near y2) :
    Leaves W H (fun _ _ => color) {p | InTriangle x0 y0 x1 y1 x2 y2 p} fb
      (kgfx_draw_triangle fuel fb x0 y0 x1 y1 x2 y2 color true) := by
  unfold kgfx_draw_triangle
  rw [if_pos rfl]
  extract_lets min_x max_x min_y max_y
  have hcolumns : ∀ c, min_x ≤ c ∧ c ≤ max_x ↔ Within x0 x1 x2 c := within_iff x0 x1 x2
  have hrows : ∀ c, min_y ≤ c ∧ c ≤ max_y ↔ Within y0 y1 y2 c := within_iff y0 y1 y2
  have hnear : (Near min_x ∧ Near max_x) ∧ Near min_y ∧ Near max_y := by
    unfold min_x max_x min_y max_y
    refine ⟨⟨?_, ?_⟩, ?_, ?_⟩ <;> split_ifs <;> assumption
  clear_value min_x max_x min_y max_y
  have hints : IsInt (max_y + 1) ∧ IsInt (max_x + 1) := by
    simp only [Near, isInt_iff] at *
    omega
  rw [int_of hints.1, Option.bind_some, int_of hints.2, Option.bind_some]
  have hset : ∀ p, p ∈ Block min_x min_y (max_x + 1 - min_x).toNat (max_y + 1 - min_y).toNat
      (SameSide x0 y0 x1 y1 x2 y2) ↔ InTriangle x0 y0 x1 y1 x2 y2 p := by
    intro p
    rw [← sameSide_iff p, ← hcolumns, ← hrows, Block, Set.mem_ofPred]
    constructor
    · rintro ⟨hx, hy, hsame⟩
      exact ⟨by omega, by omega, hsame⟩
    · rintro ⟨hx, hy, hsame⟩
      exact ⟨by omega, by omega, hsame⟩
  refine Leaves.congr ?_ hset
  apply paints_rows _ h
  intro k hk fb h
  apply paints_row _ h
  intro j hj fb h
  apply triangle_pixel_paints h hx0 hy0 hx1 hy1 hx2 hy2
  · unfold Near at *
    omega
  · unfold Near at *
    omega

end Triangles

/-! ## Drawing -/

section Drawing

variable {W H : ℕ} {fb fb' fb'' : kgfx_fb_t}

/-- Each pixel goes through `f` by itself, and nothing is written behind the screen. -/
structure Pixelwise (W H : ℕ) (f : ℤ × ℤ → UInt32 → UInt32) (fb fb' : kgfx_fb_t) : Prop where
  pixels : ∀ p, Visible W H p → fb'.pixel W p = f p (fb.pixel W p)
  behind : ∀ i, W * H ≤ i → fb'.word i = fb.word i

theorem Pixelwise.trans {f g : ℤ × ℤ → UInt32 → UInt32} (h : Pixelwise W H f fb fb')
    (h' : Pixelwise W H g fb' fb'') : Pixelwise W H (fun p old => g p (f p old)) fb fb'' := by
  constructor
  · intro p hp
    rw [h'.pixels p hp, h.pixels p hp]
  · intro i hi
    rw [h'.behind i hi, h.behind i hi]

/-- What a drawing call does. -/
def Drawn (W H : ℕ) (f : ℤ × ℤ → UInt32 → UInt32) (fb : kgfx_fb_t) (run : Option kgfx_fb_t) :
    Prop := ∃ fb', run = some fb' ∧ Sized fb' W H ∧ Pixelwise W H f fb fb'

theorem Drawn.bind {f g : ℤ × ℤ → UInt32 → UInt32} {run : Option kgfx_fb_t}
    {next : kgfx_fb_t → Option kgfx_fb_t} (h : Drawn W H f fb run)
    (hnext : ∀ fb', Sized fb' W H → Drawn W H g fb' (next fb')) :
    Drawn W H (fun p old => g p (f p old)) fb (run.bind next) := by
  obtain ⟨fb', hrun, hsized, hpixels⟩ := h
  obtain ⟨fb'', hlast, hsized', hpixels'⟩ := hnext fb' hsized
  exact ⟨fb'', by rw [hrun, Option.bind_some, hlast], hsized', hpixels.trans hpixels'⟩

theorem drawn_of_paints {f v : ℤ × ℤ → UInt32 → UInt32} {s : Set (ℤ × ℤ)}
    {run : Option kgfx_fb_t} (hin : ∀ p ∈ s, ∀ old, f p old = v p old)
    (hout : ∀ p ∉ s, ∀ old, f p old = old)
    (h : Leaves W H v s fb run) : Drawn W H f fb run := by
  obtain ⟨fb', hrun, hsized, hpaints⟩ := h
  refine ⟨fb', hrun, hsized, fun p hp => ?_, hpaints.behind⟩
  rw [hpaints.pixels p hp]
  by_cases hs : p ∈ s
  · rw [paint_of_mem hs, hin p hs]
  · rw [paint_of_notMem hs, hout p hs]

/-- The characters of a string and their places: a line is 14 pixels below the one before. -/
def cells (x : ℤ) : List Int8 → ℤ → ℤ → List (ℤ × ℤ × Int8)
  | [], _, _ => []
  | c :: str, curr_x, curr_y =>
    if c = 10 then cells x str x (curr_y + 14)
    else (curr_x, curr_y, c) :: cells x str (curr_x + 8) curr_y

/-- Neither a cell nor the place behind the last one overflows. -/
def StringOk (x : ℤ) : List Int8 → ℤ → ℤ → Prop
  | [], _, _ => True
  | c :: str, curr_x, curr_y =>
    if c = 10 then IsInt (curr_y + 14) ∧ StringOk x str x (curr_y + 14)
    else CharOk curr_x curr_y ∧ IsInt (curr_x + 8) ∧ StringOk x str (curr_x + 8) curr_y

/-- A call of `kgfx.c`. -/
inductive command where
  | clear (color : UInt32)
  | pixel (x y : Int32) (color : UInt32)
  | pixel_alpha (x y : Int32) (color : UInt32)
  | rect (x y w h : Int32) (color : UInt32)
  | rect_alpha (x y w h : Int32) (color : UInt32)
  | filled_circle (cx cy r : Int32) (color : UInt32)
  | triangle (x0 y0 x1 y1 x2 y2 : Int32) (color : UInt32)
  | char (x y : Int32) (c : Int8) (fg bg : UInt32)
  | string (x y : Int32) (str : List Int8) (fg bg : UInt32)
  | blit (dx dy : Int32) (src_buf : ℤ → UInt32) (sw sh : Int32) (chroma_key : UInt32)

def command.run (kgfx_font8x8 : ℤ → ℕ → UInt8) (fb : kgfx_fb_t) : command → Option kgfx_fb_t
  | clear color => some (kgfx_clear fb color)
  | pixel x y color => some (kgfx_draw_pixel fb x.toInt y.toInt color)
  | pixel_alpha x y color => some (kgfx_draw_pixel_alpha fb x.toInt y.toInt color)
  | rect x y w h color => kgfx_draw_rect 0 fb x.toInt y.toInt w.toInt h.toInt color true
  | rect_alpha x y w h color => kgfx_draw_rect_alpha fb x.toInt y.toInt w.toInt h.toInt color
  | filled_circle cx cy r color => kgfx_draw_filled_circle fb cx.toInt cy.toInt r.toInt color
  | triangle x0 y0 x1 y1 x2 y2 color =>
    kgfx_draw_triangle 0 fb x0.toInt y0.toInt x1.toInt y1.toInt x2.toInt y2.toInt color true
  | char x y c fg bg => kgfx_draw_char kgfx_font8x8 fb x.toInt y.toInt c fg bg
  | string x y str fg bg => kgfx_draw_string kgfx_font8x8 fb x.toInt y.toInt str fg bg
  | blit dx dy src_buf sw sh chroma_key =>
    kgfx_blit fb dx.toInt dy.toInt src_buf sw.toInt sh.toInt chroma_key

/-- Nothing that the call computes overflows. -/
def command.Ok : command → Prop
  | clear _ | pixel _ _ _ | pixel_alpha _ _ _ => True
  | rect x y w h _ => RectFits x.toInt y.toInt w.toInt h.toInt
  | rect_alpha x y w h _ => 0 < w.toInt → 0 < h.toInt →
    x.toInt + w.toInt ≤ 2147483647 ∧ y.toInt + h.toInt ≤ 2147483647
  | filled_circle cx cy r _ => CircleOk cx.toInt cy.toInt r.toInt
  | triangle x0 y0 x1 y1 x2 y2 _ => Near x0.toInt ∧ Near y0.toInt ∧ Near x1.toInt ∧ Near y1.toInt
    ∧ Near x2.toInt ∧ Near y2.toInt
  | char x y _ _ _ => CharOk x.toInt y.toInt
  | string x y str _ _ => StringOk x.toInt str x.toInt y.toInt
  | blit dx dy _ sw sh _ => BlitOk dx.toInt dy.toInt sw.toInt sh.toInt

def InRect (x y w h : ℤ) (p : ℤ × ℤ) : Prop :=
  (x ≤ p.1 ∧ p.1 < x + w) ∧ y ≤ p.2 ∧ p.2 < y + h

instance (x y w h : ℤ) (p : ℤ × ℤ) : Decidable (InRect x y w h p) :=
  inferInstanceAs (Decidable ((x ≤ p.1 ∧ p.1 < x + w) ∧ y ≤ p.2 ∧ p.2 < y + h))

/-- What a character leaves on a pixel. -/
def char_pixel_color (kgfx_font8x8 : ℤ → ℕ → UInt8) (fg bg : UInt32) (p : ℤ × ℤ) (old : UInt32)
    (cell : ℤ × ℤ × Int8) : UInt32 :=
  if InRect cell.1 cell.2.1 8 8 p then
    char_color kgfx_font8x8 cell.1 cell.2.1 cell.2.2 fg bg p old
  else old

open Classical in
/-- What a call leaves on a pixel, of what stood there. -/
noncomputable def command.color (kgfx_font8x8 : ℤ → ℕ → UInt8) (p : ℤ × ℤ) (old : UInt32) :
    command → UInt32
  | clear color => color
  | pixel x y color => if p = (x.toInt, y.toInt) then color else old
  | pixel_alpha x y color => if p = (x.toInt, y.toInt) then kgfx_blend_colors old color else old
  | rect x y w h color => if InRect x.toInt y.toInt w.toInt h.toInt p then color else old
  | rect_alpha x y w h color =>
    if InRect x.toInt y.toInt w.toInt h.toInt p then kgfx_blend_colors old color else old
  | filled_circle cx cy r color =>
    if 0 ≤ r.toInt ∧ InDisc cx.toInt cy.toInt r.toInt p then color else old
  | triangle x0 y0 x1 y1 x2 y2 color =>
    if InTriangle x0.toInt y0.toInt x1.toInt y1.toInt x2.toInt y2.toInt p then color else old
  | char x y c fg bg => char_pixel_color kgfx_font8x8 fg bg p old (x.toInt, y.toInt, c)
  | string x y str fg bg =>
    (cells x.toInt str x.toInt y.toInt).foldl (char_pixel_color kgfx_font8x8 fg bg p) old
  | blit dx dy src_buf sw sh chroma_key =>
    let pixel := src_buf ((p.2 - dy.toInt) * sw.toInt + (p.1 - dx.toInt))
    if InRect dx.toInt dy.toInt sw.toInt sh.toInt p ∧ pixel ≠ chroma_key then pixel else old

variable (kgfx_font8x8 : ℤ → ℕ → UInt8)

theorem clear_drawn (h : Sized fb W H) (color : UInt32) :
    Drawn W H (fun _ _ => color) fb (some (kgfx_clear fb color)) := by
  obtain ⟨words, hwords⟩ := h.buffer
  have harea : (fb.width * fb.height).toNat = W * H := by
    rw [UInt32.toNat_mul, h.width, h.height, Nat.mod_eq_of_lt]
    exact h.fits.trans_lt (by norm_num)
  have hnew : ∀ i, (kgfx_clear fb color).word i = if i < W * H then color else words i := by
    intro i
    rw [kgfx_fb_t.word, kgfx_clear, hwords]
    dsimp only
    rw [harea]
    rfl
  refine ⟨_, rfl, ?_, fun p hp => ?_, fun i hi => ?_⟩
  · rw [kgfx_clear, hwords]
    exact h.update _
  · rw [kgfx_fb_t.pixel, hnew, if_pos (index_lt hp).2]
  · rw [hnew, if_neg (Nat.not_lt.mpr hi), kgfx_fb_t.word, hwords]
    rfl

theorem inRect_iff {x y w h : ℤ} {p : ℤ × ℤ} :
    InRect x y w h p ↔ p ∈ Block x y w.toNat h.toNat fun _ => True := by
  constructor
  · rintro ⟨hx, hy⟩
    exact ⟨by omega, by omega, trivial⟩
  · rintro ⟨hx, hy, -⟩
    exact ⟨by omega, by omega⟩

/-- A call that changes the pixels of a rectangle. -/
theorem drawn_of_rect {x y w h : ℤ} {v : ℤ × ℤ → UInt32 → UInt32} {run : Option kgfx_fb_t}
    (hpaints : Leaves W H v (Block x y w.toNat h.toNat fun _ => True) fb run) :
    Drawn W H (fun p old => if InRect x y w h p then v p old else old) fb run := by
  apply drawn_of_paints _ _ hpaints
  · intro p hp old
    exact if_pos (inRect_iff.mpr hp)
  · intro p hp old
    exact if_neg fun hin => hp (inRect_iff.mp hin)

theorem char_drawn (h : Sized fb W H) {x y : ℤ} (c : Int8) (fg bg : UInt32) (hx : IsInt x)
    (hy : IsInt y) (hok : CharOk x y) :
    Drawn W H (fun p old => char_pixel_color kgfx_font8x8 fg bg p old (x, y, c)) fb
      (kgfx_draw_char kgfx_font8x8 fb x y c fg bg) :=
  drawn_of_rect (w := 8) (h := 8) (draw_char_paints kgfx_font8x8 h c fg bg hx hy hok)

/-- The characters of a string are drawn one after the other. -/
theorem string_from_drawn {x : ℤ} (fg bg : UInt32) (hx : IsInt x) {str : List Int8}
    {curr_x curr_y : ℤ} (h : Sized fb W H) (hcx : IsInt curr_x) (hcy : IsInt curr_y)
    (hok : StringOk x str curr_x curr_y) :
    Drawn W H (fun p old =>
        (cells x str curr_x curr_y).foldl (char_pixel_color kgfx_font8x8 fg bg p) old) fb
      (string_from kgfx_font8x8 x fg bg str fb curr_x curr_y) := by
  induction str generalizing fb curr_x curr_y with
  | nil => exact ⟨fb, rfl, h, fun _ _ => rfl, fun _ _ => rfl⟩
  | cons c str ih =>
    by_cases hline : c = 10
    · simp only [StringOk, cells, string_from, if_pos hline] at hok ⊢
      rw [int_of hok.1, Option.bind_some]
      exact ih h hx hok.1 hok.2
    · simp only [StringOk, cells, string_from, if_neg hline] at hok ⊢
      obtain ⟨hcell, hnext, hrest⟩ := hok
      rw [int_of hnext]
      apply (char_drawn kgfx_font8x8 h c fg bg hcx hcy hcell).bind
        (g := fun p old =>
          (cells x str (curr_x + 8) curr_y).foldl (char_pixel_color kgfx_font8x8 fg bg p) old)
      intro fb' h'
      exact ih h' hnext hcy hrest

/-- A call that changes one pixel. -/
theorem drawn_of_pixel {x y : ℤ} {v : ℤ × ℤ → UInt32 → UInt32} {run : Option kgfx_fb_t}
    (hpaints : Leaves W H v {p | p = (x, y) ∧ True} fb run) :
    Drawn W H (fun p old => if p = (x, y) then v p old else old) fb run := by
  apply drawn_of_paints _ _ hpaints
  · rintro p ⟨hp, -⟩ old
    exact if_pos hp
  · intro p hp old
    exact if_neg fun hin => hp ⟨hin, trivial⟩

/-- A disc is in the square around it. -/
theorem inDisc_near {cx cy r : ℤ} {p : ℤ × ℤ} (hr : 0 ≤ r) (h : InDisc cx cy r p) :
    (-r ≤ p.1 - cx ∧ p.1 - cx ≤ r) ∧ -r ≤ p.2 - cy ∧ p.2 - cy ≤ r := by
  unfold InDisc at h
  have hx : (p.1 - cx) ^ 2 ≤ r ^ 2 := by
    linarith [sq_nonneg (p.1 - cx), mul_self_nonneg (p.2 - cy), sq (p.1 - cx), sq r]
  have hy : (p.2 - cy) ^ 2 ≤ r ^ 2 := by
    linarith [sq_nonneg (p.2 - cy), mul_self_nonneg (p.1 - cx), sq (p.2 - cy), sq r]
  exact ⟨abs_le.mp (abs_le_of_sq_le_sq hx hr), abs_le.mp (abs_le_of_sq_le_sq hy hr)⟩

/-- **Each call is a function of the pixel.** -/
theorem command_drawn (h : Sized fb W H) (c : command) (hok : c.Ok) :
    Drawn W H (fun p old => c.color kgfx_font8x8 p old) fb (c.run kgfx_font8x8 fb) := by
  cases c with
  | clear color => exact clear_drawn h color
  | pixel x y color =>
    exact drawn_of_pixel (v := fun _ _ => color)
      (draw_pixel_paints (Q := fun _ => True) h trivial fun _ => rfl)
  | pixel_alpha x y color =>
    exact drawn_of_pixel (v := fun _ old => kgfx_blend_colors old color)
      (draw_pixel_alpha_paints (Q := fun _ => True) h trivial fun _ => rfl)
  | rect x y w hh color =>
    exact drawn_of_rect (draw_rect_paints h 0 (isInt_toInt x) (isInt_toInt y) hok)
  | rect_alpha x y w hh color =>
    exact drawn_of_rect (draw_rect_alpha_paints h (isInt_toInt x) (isInt_toInt y) hok)
  | filled_circle cx cy r color =>
    apply drawn_of_paints _ _ (draw_filled_circle_paints h (isInt_toInt r) hok)
    · rintro p ⟨hx, hy, hdisc⟩ old
      exact if_pos ⟨by omega, hdisc⟩
    · intro p hp old
      apply if_neg
      rintro ⟨hr, hdisc⟩
      obtain ⟨hx, hy⟩ := inDisc_near hr hdisc
      exact hp ⟨by omega, by omega, hdisc⟩
  | triangle x0 y0 x1 y1 x2 y2 color =>
    obtain ⟨hx0, hy0, hx1, hy1, hx2, hy2⟩ := hok
    apply drawn_of_paints _ _ (draw_triangle_paints h 0 hx0 hy0 hx1 hy1 hx2 hy2)
    · intro p hp old
      exact if_pos hp
    · intro p hp old
      exact if_neg hp
  | char x y c fg bg =>
    exact char_drawn kgfx_font8x8 h c fg bg (isInt_toInt x) (isInt_toInt y) hok
  | string x y str fg bg =>
    exact string_from_drawn kgfx_font8x8 fg bg (isInt_toInt x) h (isInt_toInt x) (isInt_toInt y) hok
  | blit dx dy src_buf sw sh chroma_key =>
    apply drawn_of_paints _ _
      (blit_paints h src_buf chroma_key (isInt_toInt dx) (isInt_toInt dy) hok)
    · rintro p ⟨hx, hy, hkey⟩ old
      exact if_pos ⟨inRect_iff.mpr ⟨hx, hy, trivial⟩, hkey⟩
    · intro p hp old
      apply if_neg
      rintro ⟨hin, hkey⟩
      obtain ⟨hx, hy, -⟩ := inRect_iff.mp hin
      exact hp ⟨hx, hy, hkey⟩

theorem sized_init (buffer : ℕ → UInt32) (width height : UInt32)
    (hfits : width.toNat * height.toNat ≤ 1073741824) :
    Sized (kgfx_init buffer width height) width.toNat height.toNat :=
  ⟨⟨buffer, rfl⟩, rfl, rfl, rfl, hfits⟩

end Drawing

end SysInC.Kgfx
