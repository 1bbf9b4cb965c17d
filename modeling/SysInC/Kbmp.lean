/-
`freestanding/kbmp.c`: which bytes of a file `kbmp_render` reads.

The header's numbers are believed. Behind the checks of the type, the signs and the depth, nothing
compares the offset, the stride and the height with the length of the file, and they are multiplied
in `int`. Where the last row ends within the file and no `int` overflows, everything is well
(`bmp_renders_iff`).
-/
import SysInC.Kgfx
import SysInC.LittleEndian
import SysInC.PartialRun

set_option autoImplicit false

namespace SysInC.Kbmp

open CInt Kgfx PartialRun

/-! ## The source -/

/-- The fields of the header that are read. -/
structure kbmp_header_t where
  type : ℕ
  offset : ℕ
  width : ℤ
  height : ℤ
  bpp : ℕ

def sizeof_header : ℕ := 54

/-- `(const kbmp_header_t *)bmp_data` -/
def header_of (bmp_data : List UInt8) : kbmp_header_t where
  type := le_field bmp_data 0 2
  offset := le_field bmp_data 10 4
  width := to_int (le_field bmp_data 18 4)
  height := to_int (le_field bmp_data 22 4)
  bpp := le_field bmp_data 28 2

/-- A colour from its bytes, the highest first. -/
def color_of (a r g b : UInt8) : UInt32 :=
  (a.toUInt32 <<< 24) ||| (r.toUInt32 <<< 16) ||| (g.toUInt32 <<< 8) ||| b.toUInt32

/-- The colour of a pixel, whose bytes are at `i`; `none` is a read outside of `bmp_data`. -/
def read_color (bmp_data : List UInt8) (bpp i : ℕ) : Option UInt32 :=
  (bmp_data[i]?).bind fun b =>
    (bmp_data[i + 1]?).bind fun g =>
      (bmp_data[i + 2]?).bind fun r =>
        if bpp = 24 then some (color_of 0xFF r g b)
        else (bmp_data[i + 3]?).map fun a => color_of a r g b

/-- A turn of the inner loop. The pixel is drawn where an `int` says that it is. -/
def render_pixel (bmp_data : List UInt8) (bpp row : ℕ) (dest_x dest_y : ℤ) (y : ℕ)
    (fb : kgfx_fb_t) (x : ℕ) : Option kgfx_fb_t :=
  (read_color bmp_data bpp (row + x * (bpp / 8))).bind fun color =>
    (int (dest_x + x)).bind fun px =>
      (int (dest_y + y)).map fun py => kgfx_draw_pixel fb px py color

/-- A turn of the outer loop. -/
def render_row (bmp_data : List UInt8) (bpp offset w h row_stride : ℕ) (is_bottom_up : Bool)
    (dest_x dest_y : ℤ) (fb : kgfx_fb_t) (y : ℕ) : Option kgfx_fb_t :=
  let src_y := if is_bottom_up then h - 1 - y else y
  (int (src_y * row_stride)).bind fun _ =>
    (List.range w).foldlM
      (render_pixel bmp_data bpp (offset + src_y * row_stride) dest_x dest_y y) fb

/-- What follows the checks. A stride is the bytes of a row, brought up to a multiple of 4. -/
def render_rows (bmp_data : List UInt8) (hdr : kbmp_header_t) (dest_x dest_y : ℤ)
    (fb : kgfx_fb_t) : Option kgfx_fb_t :=
  (if hdr.height < 0 then int (-hdr.height) else some hdr.height).bind fun h =>
    (int (hdr.width * (hdr.bpp / 8))).bind fun bytes =>
      (int (bytes + 3)).bind fun padded =>
        (List.range h.toNat).foldlM
          (render_row bmp_data hdr.bpp hdr.offset hdr.width.toNat h.toNat (padded / 4 * 4).toNat
            (0 ≤ hdr.height) dest_x dest_y) fb

/-- `none` is undefined: a read outside of `bmp_data`, or an `int` that overflows. A pointer that is
`NULL` is absent. -/
def kbmp_render (fb : Option kgfx_fb_t) (dest_x dest_y : Int32) (bmp_data : Option (List UInt8)) :
    Option (ℤ × Option kgfx_fb_t) :=
  match fb, bmp_data with
  | some fb, some bmp_data =>
    let hdr := header_of bmp_data
    if bmp_data.length < sizeof_header then some (-1, some fb)
    else if hdr.type ≠ 0x4D42 then some (-1, some fb)
    else if hdr.width ≤ 0 ∨ hdr.height = 0 ∨ (hdr.bpp ≠ 24 ∧ hdr.bpp ≠ 32) then some (-1, some fb)
    else
      (render_rows bmp_data hdr dest_x.toInt dest_y.toInt fb).map fun fb => (0, some fb)
  | fb, _ => some (-1, fb)

/-! ## The reads of a pixel -/

variable {bmp_data : List UInt8}

theorem returns_get (i : ℕ) : Returns (bmp_data[i]?) (i < bmp_data.length) fun _ => True := by
  constructor
  · intro h
    exact ⟨_, List.getElem?_eq_getElem h⟩
  · intro b hb
    exact ⟨(List.getElem?_eq_some_iff.mp hb).1, trivial⟩

theorem returns_int (v : ℤ) : Returns (int v) (IsInt v) fun w => w = v := by
  constructor
  · intro h
    exact ⟨v, int_of h⟩
  · intro w hw
    obtain ⟨h, rfl⟩ := int_eq_some.mp hw
    exact ⟨h, rfl⟩

theorem returns_color {bpp : ℕ} (hbpp : bpp = 24 ∨ bpp = 32) (i : ℕ) :
    Returns (read_color bmp_data bpp i) (i + bpp / 8 ≤ bmp_data.length) fun _ => True := by
  unfold read_color
  rcases hbpp with rfl | rfl
  · refine ((returns_get i).bind fun b _ => (returns_get (i + 1)).bind fun g _ =>
      (returns_get (i + 2)).bind fun r _ => Returns.pure trivial).congr ?_
    rw [and_true]
    omega
  · refine ((returns_get i).bind fun b _ => (returns_get (i + 1)).bind fun g _ =>
      (returns_get (i + 2)).bind fun r _ =>
        (returns_get (i + 3)).map fun a _ => trivial).congr ?_
    omega

theorem returns_pixel {bpp : ℕ} (hbpp : bpp = 24 ∨ bpp = 32) (row : ℕ) (dest_x dest_y : ℤ)
    (y : ℕ) (fb : kgfx_fb_t) (x : ℕ) :
    Returns (render_pixel bmp_data bpp row dest_x dest_y y fb x)
      (row + x * (bpp / 8) + bpp / 8 ≤ bmp_data.length ∧ IsInt (dest_x + x) ∧ IsInt (dest_y + y))
      fun _ => True :=
  (returns_color hbpp _).bind fun _ _ => (returns_int _).bind fun _ _ =>
    (returns_int _).map fun _ _ => trivial

/-! ## The loops -/

/-- Where a pixel can be rendered. -/
def PixelOk (bmp_data : List UInt8) (bytes row : ℕ) (dest_x dest_y : ℤ) (y x : ℕ) : Prop :=
  row + x * bytes + bytes ≤ bmp_data.length ∧ IsInt (dest_x + x) ∧ IsInt (dest_y + y)

theorem returns_row {bpp : ℕ} (hbpp : bpp = 24 ∨ bpp = 32) (offset w h row_stride : ℕ)
    (is_bottom_up : Bool) (dest_x dest_y : ℤ) (fb : kgfx_fb_t) (y : ℕ) :
    let src_y := if is_bottom_up then h - 1 - y else y
    Returns (render_row bmp_data bpp offset w h row_stride is_bottom_up dest_x dest_y fb y)
      (IsInt (src_y * row_stride) ∧ ∀ x ∈ List.range w,
        PixelOk bmp_data (bpp / 8) (offset + src_y * row_stride) dest_x dest_y y x)
      fun _ => True := by
  unfold render_row
  dsimp only
  exact (returns_int _).bind fun _ _ =>
    Returns.foldlM (fun x _ fb _ => returns_pixel hbpp _ dest_x dest_y y fb x) trivial

theorem returns_loop (bmp_data : List UInt8) {bpp : ℕ} (hbpp : bpp = 24 ∨ bpp = 32)
    (offset w h row_stride : ℕ) (is_bottom_up : Bool) (dest_x dest_y : ℤ) (fb : kgfx_fb_t) :
    Returns ((List.range h).foldlM
        (render_row bmp_data bpp offset w h row_stride is_bottom_up dest_x dest_y) fb)
      (∀ y ∈ List.range h,
        IsInt (((if is_bottom_up then h - 1 - y else y : ℕ) : ℤ) * row_stride)
          ∧ ∀ x ∈ List.range w, PixelOk bmp_data (bpp / 8)
            (offset + (if is_bottom_up then h - 1 - y else y) * row_stride) dest_x dest_y y x)
      fun _ => True :=
  Returns.foldlM (fun y _ fb _ =>
    returns_row hbpp offset w h row_stride is_bottom_up dest_x dest_y fb y) trivial

/-- The start of the last row is an `int` from that of the first, the last row ends in the file,
and the last column and the last row on the screen are `int`s. -/
def LastOk (bmp_data : List UInt8) (bytes offset w h row_stride : ℕ) (dest_x dest_y : ℤ) : Prop :=
  (h - 1) * row_stride ≤ 2147483647
    ∧ offset + (h - 1) * row_stride + w * bytes ≤ bmp_data.length
    ∧ dest_x + w - 1 ≤ INT_MAX ∧ dest_y + h - 1 ≤ INT_MAX

/-- All pixels can be rendered where the last ones can; `src y` is the row of the file that row `y`
shows. -/
theorem loop_ok_iff {bytes offset w h row_stride : ℕ} {src : ℕ → ℕ} {dest_x dest_y : ℤ}
    (hw : 0 < w) (hh : 0 < h) (hx : IsInt dest_x) (hy : IsInt dest_y)
    (hsrc : ∀ y < h, src y ≤ h - 1) (hlast : ∃ y < h, src y = h - 1) :
    (∀ y ∈ List.range h, IsInt ((src y : ℤ) * row_stride) ∧ ∀ x ∈ List.range w,
        PixelOk bmp_data bytes (offset + src y * row_stride) dest_x dest_y y x)
      ↔ LastOk bmp_data bytes offset w h row_stride dest_x dest_y := by
  have hcolumns : (w - 1) * bytes + bytes = w * bytes := by
    rw [← Nat.succ_mul, Nat.succ_eq_add_one, Nat.sub_add_cancel hw]
  constructor
  · intro hall
    obtain ⟨y, hyh, hsrcy⟩ := hlast
    obtain ⟨hproduct, hrow⟩ := hall y (List.mem_range.mpr hyh)
    obtain ⟨hread, hcolumn, -⟩ := hrow (w - 1) (List.mem_range.mpr (by omega))
    have hbottom := ((hall (h - 1) (List.mem_range.mpr (by omega))).2 0
      (List.mem_range.mpr hw)).2.2
    rw [hsrcy] at hproduct hread
    have hle : (((h - 1) * row_stride : ℕ) : ℤ) ≤ 2147483647 := by
      push_cast
      exact hproduct.2
    refine ⟨by exact_mod_cast hle, by omega, ?_, ?_⟩
    · have := hcolumn.2
      omega
    · have := hbottom.2
      omega
  · rintro ⟨hproduct, hread, hcolumn, hbottom⟩ y hmem
    have hyh := List.mem_range.mp hmem
    have hle := Nat.mul_le_mul_right row_stride (hsrc y hyh)
    have hcast : ((src y * row_stride : ℕ) : ℤ) = src y * row_stride := by push_cast; rfl
    refine ⟨?_, fun x hmemx => ?_⟩
    · rw [isInt_iff, ← hcast]
      omega
    · have hxw := List.mem_range.mp hmemx
      have hbytes := Nat.mul_le_mul_right bytes (show x ≤ w - 1 by omega)
      unfold INT_MAX at hcolumn hbottom
      rw [isInt_iff] at hx hy
      unfold PixelOk
      rw [isInt_iff, isInt_iff]
      omega

/-! ## The file -/

/-- The bytes from the start of a row to that of the next, for `w` pixels of `bytes` bytes. -/
def stride (w bytes : ℕ) : ℕ := (w * bytes + 3) / 4 * 4

/-- The checks that `kbmp_render` makes of a header. -/
def Accepted (bmp_data : List UInt8) : Prop :=
  let hdr := header_of bmp_data
  sizeof_header ≤ bmp_data.length ∧ hdr.type = 0x4D42 ∧ 0 < hdr.width ∧ hdr.height ≠ 0
    ∧ (hdr.bpp = 24 ∨ hdr.bpp = 32)

/-- A picture that can be rendered at a place: the height has a negative, the bytes of a row with
its filling are an `int`, and the last row is well. -/
def PictureOk (bmp_data : List UInt8) (hdr : kbmp_header_t) (dest_x dest_y : ℤ) : Prop :=
  let w := hdr.width.toNat
  let bytes := hdr.bpp / 8
  hdr.height ≠ INT_MIN ∧ w * bytes + 3 ≤ 2147483647
    ∧ LastOk bmp_data bytes hdr.offset w hdr.height.natAbs (stride w bytes) dest_x dest_y

theorem isInt_to_int (n : ℕ) : IsInt (to_int n) := by
  rw [isInt_iff]
  unfold to_int Int.bmod
  dsimp only
  split
  · omega
  · omega

theorem isInt_height (bmp_data : List UInt8) : IsInt (header_of bmp_data).height := by
  unfold header_of
  dsimp only
  exact isInt_to_int _

/-- The height without its sign; `-h` overflows on the lowest `int` only. -/
theorem returns_height {height : ℤ} (h : IsInt height) :
    Returns (if height < 0 then int (-height) else some height) (height ≠ INT_MIN)
      fun h => h = height.natAbs := by
  rw [isInt_iff] at h
  by_cases hneg : height < 0
  · rw [if_pos hneg]
    refine (returns_int (-height)).imp ?_ fun v hv => by omega
    rw [isInt_iff]
    unfold INT_MIN
    omega
  · rw [if_neg hneg]
    have hne : height ≠ INT_MIN := by
      unfold INT_MIN
      omega
    exact (Returns.pure (by omega)).congr (iff_of_true trivial hne)

/-- The row of the file that a row of the screen shows is one of the rows, and the last is shown. -/
theorem shown_rows {h : ℕ} (hh : 0 < h) (is_bottom_up : Bool) :
    (∀ y < h, (if is_bottom_up then h - 1 - y else y) ≤ h - 1)
      ∧ ∃ y < h, (if is_bottom_up then h - 1 - y else y) = h - 1 := by
  cases is_bottom_up with
  | true =>
    simp only [if_true]
    exact ⟨fun y _ => Nat.sub_le _ _, 0, hh, Nat.sub_zero _⟩
  | false =>
    simp only [Bool.false_eq_true, if_false]
    exact ⟨fun y hy => by omega, h - 1, by omega, rfl⟩

theorem rows_iff {hdr : kbmp_header_t} {dest_x dest_y : ℤ} (fb : kgfx_fb_t)
    (hbpp : hdr.bpp = 24 ∨ hdr.bpp = 32) (hw : 0 < hdr.width) (hh : hdr.height ≠ 0)
    (hheight : IsInt hdr.height) (hx : IsInt dest_x) (hy : IsInt dest_y) :
    (∃ fb', render_rows bmp_data hdr dest_x dest_y fb = some fb')
      ↔ PictureOk bmp_data hdr dest_x dest_y := by
  have hbytes : hdr.width * ((hdr.bpp : ℤ) / 8) = (hdr.width.toNat * (hdr.bpp / 8) : ℕ) := by
    push_cast
    rw [Int.toNat_of_nonneg hw.le]
  have hstride : ((hdr.width * (hdr.bpp / 8) + 3) / 4 * 4).toNat
      = stride hdr.width.toNat (hdr.bpp / 8) := by
    rw [hbytes]
    unfold stride
    omega
  have hshown := shown_rows (Int.natAbs_pos.mpr hh) (0 ≤ hdr.height)
  -- what is left of the loop's condition: its last row, and the last column and row on the screen
  have hloop := (returns_loop bmp_data hbpp hdr.offset hdr.width.toNat
    hdr.height.natAbs (stride hdr.width.toNat (hdr.bpp / 8)) (0 ≤ hdr.height) dest_x dest_y
    fb).congr (loop_ok_iff (by omega) (Int.natAbs_pos.mpr hh) hx hy hshown.1 hshown.2)
  rw [← hstride] at hloop
  have hrun : Returns (render_rows bmp_data hdr dest_x dest_y fb) (hdr.height ≠ INT_MIN
      ∧ IsInt (hdr.width * (hdr.bpp / 8)) ∧ IsInt (hdr.width * (hdr.bpp / 8) + 3)
      ∧ LastOk bmp_data (hdr.bpp / 8) hdr.offset hdr.width.toNat hdr.height.natAbs
          ((hdr.width * (hdr.bpp / 8) + 3) / 4 * 4).toNat dest_x dest_y) fun _ => True := by
    refine (returns_height hheight).bind fun h hheq => ?_
    subst hheq
    refine (returns_int _).bind fun bytes hbyteseq => ?_
    subst hbyteseq
    refine (returns_int _).bind fun padded hpadded => ?_
    subst hpadded
    exact hloop
  rw [hstride, hbytes, isInt_iff, isInt_iff] at hrun
  have hiff := hrun.iff
  simp only [and_true] at hiff
  rw [hiff]
  refine and_congr_right fun _ => ?_
  rw [← and_assoc]
  exact and_congr_left fun _ => by omega

theorem refused_iff (width height : ℤ) (bpp : ℕ) :
    (width ≤ 0 ∨ height = 0 ∨ (bpp ≠ 24 ∧ bpp ≠ 32))
      ↔ ¬(0 < width ∧ height ≠ 0 ∧ (bpp = 24 ∨ bpp = 32)) := by
  omega

/-- A file is rendered, and read within, exactly when there is nothing to draw on, or its header is
refused, or its picture can be rendered. -/
theorem bmp_renders_iff (fb : Option kgfx_fb_t) (dest_x dest_y : Int32) (bmp_data : List UInt8) :
    (∃ r, kbmp_render fb dest_x dest_y (some bmp_data) = some r)
      ↔ (fb.isSome → Accepted bmp_data →
          PictureOk bmp_data (header_of bmp_data) dest_x.toInt dest_y.toInt) := by
  cases fb with
  | none => exact iff_of_true ⟨_, rfl⟩ fun h => nomatch h
  | some fb =>
    rw [imp_iff_right (Option.isSome_some)]
    unfold kbmp_render Accepted
    dsimp only
    -- the checks in the order of the source: each one refuses what `Accepted` excludes
    by_cases hsize : bmp_data.length < sizeof_header
    · rw [if_pos hsize]
      exact iff_of_true ⟨_, rfl⟩ fun h => absurd hsize (Nat.not_lt.mpr h.1)
    rw [if_neg hsize]
    by_cases htype : (header_of bmp_data).type ≠ 0x4D42
    · rw [if_pos htype]
      exact iff_of_true ⟨_, rfl⟩ fun h => absurd h.2.1 htype
    rw [if_neg htype]
    have hrefused := refused_iff (header_of bmp_data).width (header_of bmp_data).height
      (header_of bmp_data).bpp
    by_cases hfields : 0 < (header_of bmp_data).width ∧ (header_of bmp_data).height ≠ 0
        ∧ ((header_of bmp_data).bpp = 24 ∨ (header_of bmp_data).bpp = 32)
    · rw [if_neg fun h => hrefused.mp h hfields,
        imp_iff_right ⟨Nat.not_lt.mp hsize, not_not.mp htype, hfields⟩]
      obtain ⟨hw, hh, hbpp⟩ := hfields
      refine Iff.trans ?_ (rows_iff fb hbpp hw hh
        (isInt_height bmp_data) (isInt_toInt dest_x) (isInt_toInt dest_y))
      simp
    · rw [if_pos (hrefused.mpr hfields)]
      exact iff_of_true ⟨_, rfl⟩ fun h => absurd h.2.2 hfields

/-- A header of 54 bytes and no more, whose picture is one pixel of 24 bits behind it. -/
def empty_picture : List UInt8 :=
  le_bytes 2 0x4D42 ++ le_bytes 4 54 ++ le_bytes 4 0 ++ le_bytes 4 54 ++ le_bytes 4 40
    ++ le_bytes 4 1 ++ le_bytes 4 1 ++ le_bytes 2 1 ++ le_bytes 2 24 ++ le_bytes 24 0

/-- The pixel is read, behind the end. -/
theorem not_reads_empty : ¬∀ (fb : kgfx_fb_t) (bmp_data : List UInt8),
    ∃ r, kbmp_render (some fb) 0 0 (some bmp_data) = some r := by
  intro hall
  obtain ⟨r, hr⟩ := hall ⟨none, 0, 0, 0⟩ empty_picture
  have hnone : kbmp_render (some ⟨none, 0, 0, 0⟩) 0 0 (some empty_picture) = none := by
    decide
  rw [hnone] at hr
  cases hr

end SysInC.Kbmp
