/-
`load_bmp_memory` of `src/imgview/imgview.c`: what it reads of a file and writes of an image.

As in the kernel's viewer the header's numbers are believed, and here those of a palette as well:
behind the checks of the type, the signs and the depth nothing is compared with the size of the
file. The image has room for all of its pixels, so what can go wrong are the reads, and an `int`.
-/
import SysInC.Kbmp

set_option autoImplicit false

namespace SysInC.ImgviewBmp

open CInt PartialRun
open Kbmp (returns_get returns_int isInt_to_int returns_height shown_rows)

/-! ## The source -/

/-- The fields of the header that are read. -/
structure BMPHeader where
  offset : ℕ
  header_size : ℕ
  width : ℤ
  height : ℤ
  bpp : ℕ

def sizeof_header : ℕ := 54

/-- `(const BMPHeader *)raw` -/
def header_of (raw : List UInt8) : BMPHeader where
  offset := le_field raw 10 4
  header_size := le_field raw 14 4
  width := to_int (le_field raw 18 4)
  height := to_int (le_field raw 22 4)
  bpp := le_field raw 28 2

structure RGBColor where
  r : UInt8
  g : UInt8
  b : UInt8
  a : UInt8
  deriving DecidableEq

/-- The image, with a pixel for each place. -/
structure DecodedImage where
  width : ℕ
  height : ℕ
  bpp : ℕ
  pixels : Fin (width * height) → RGBColor

/-- What `malloc` answers: whether there is room for the image, and so many pixels with anything in
them, or `NULL`. The bytes of `int` times `int` pixels are a `size_t`. -/
structure Memory where
  image : Bool
  pixels : (n : ℕ) → Option (Fin n → RGBColor)

/-- The colour of pixel `x` of the row that starts at `row`, `0, 0, 0, 255` where nothing is read.
The bytes of a row are an `int` already, so `x * 4 + 3` is one. -/
def read_color (raw : List UInt8) (bpp palette row x : ℕ) : Option RGBColor :=
  if bpp = 24 then
    (raw[row + (x * 3 + 0)]?).bind fun b =>
      (raw[row + (x * 3 + 1)]?).bind fun g =>
        (raw[row + (x * 3 + 2)]?).map fun r => ⟨r, g, b, 255⟩
  else if bpp = 32 then
    (raw[row + (x * 4 + 0)]?).bind fun b =>
      (raw[row + (x * 4 + 1)]?).bind fun g =>
        (raw[row + (x * 4 + 2)]?).bind fun r =>
          (raw[row + (x * 4 + 3)]?).map fun a => ⟨r, g, b, a⟩
  else if bpp = 8 then
    (raw[row + x]?).bind fun idx =>
      (raw[palette + (idx.toNat * 4 + 0)]?).bind fun b =>
        (raw[palette + (idx.toNat * 4 + 1)]?).bind fun g =>
          (raw[palette + (idx.toNat * 4 + 2)]?).map fun r => ⟨r, g, b, 255⟩
  else some ⟨0, 0, 0, 255⟩

/-- A turn of the inner loop. -/
def load_pixel {n : ℕ} (raw : List UInt8) (bpp palette row w y : ℕ) (pixels : Fin n → RGBColor)
    (x : ℕ) : Option (Fin n → RGBColor) :=
  (read_color raw bpp palette row x).bind fun col =>
    (int (y * w)).bind fun first =>
      (int (first + x)).bind fun i => poke pixels i.toNat col

/-- A turn of the outer loop. -/
def load_row {n : ℕ} (raw : List UInt8) (bpp palette offset w h row_stride : ℕ)
    (is_bottom_up : Bool) (pixels : Fin n → RGBColor) (y : ℕ) : Option (Fin n → RGBColor) :=
  let src_y := if is_bottom_up then h - 1 - y else y
  (int (src_y * row_stride)).bind fun _ =>
    (List.range w).foldlM (load_pixel raw bpp palette (offset + src_y * row_stride) w y) pixels

/-- What follows `malloc`. A stride is the bytes of a row, brought up to a multiple of 4. -/
def load_rows {n : ℕ} (raw : List UInt8) (hdr : BMPHeader) (h : ℕ) (pixels : Fin n → RGBColor) :
    Option (Fin n → RGBColor) :=
  (int (hdr.width * (hdr.bpp / 8))).bind fun bytes =>
    (int (bytes + 3)).bind fun padded =>
      (List.range h).foldlM
        (load_row raw hdr.bpp (14 + hdr.header_size) hdr.offset hdr.width.toNat h
          (padded / 4 * 4).toNat (0 ≤ hdr.height)) pixels

/-- From `malloc` on. -/
def load_image (m : Memory) (raw : List UInt8) (hdr : BMPHeader) (h : ℕ) :
    Option (Option DecodedImage) :=
  if m.image then
    match m.pixels (hdr.width.toNat * h) with
    | none => some none
    | some pixels =>
      (load_rows raw hdr h pixels).map fun pixels => some ⟨hdr.width.toNat, h, hdr.bpp, pixels⟩
  else some none

/-- What follows the checks. -/
def load_accepted (m : Memory) (raw : List UInt8) (hdr : BMPHeader) :
    Option (Option DecodedImage) :=
  (if hdr.height < 0 then int (-hdr.height) else some hdr.height).bind fun h =>
    load_image m raw hdr h.toNat

/-- `none` is undefined: a read outside of `raw`, a write outside of the pixels, or an `int` that
overflows. -/
def load_bmp_memory (m : Memory) (raw : List UInt8) : Option (Option DecodedImage) :=
  let hdr := header_of raw
  if raw.length < sizeof_header then some none
  else if raw.getD 0 0 ≠ 0x42 ∨ raw.getD 1 0 ≠ 0x4D then some none
  else if hdr.width ≤ 0 ∨ hdr.height = 0 ∨ (hdr.bpp ≠ 8 ∧ hdr.bpp ≠ 24 ∧ hdr.bpp ≠ 32) then
    some none
  else load_accepted m raw hdr

/-! ## A pixel -/

variable {raw : List UInt8}

/-- The bytes of a pixel are in the file, and the entry of the palette that it names. -/
def ColorOk (raw : List UInt8) (bpp palette row x : ℕ) : Prop :=
  row + x * (bpp / 8) + bpp / 8 ≤ raw.length ∧
    (bpp = 8 → ∀ idx, raw[row + x]? = some idx → palette + idx.toNat * 4 + 3 ≤ raw.length)

theorem returns_color {bpp : ℕ} (hbpp : bpp = 8 ∨ bpp = 24 ∨ bpp = 32) (palette row x : ℕ) :
    Returns (read_color raw bpp palette row x) (ColorOk raw bpp palette row x)
      fun _ => True := by
  unfold read_color ColorOk
  rcases hbpp with rfl | rfl | rfl
  · rw [if_neg (by decide), if_neg (by decide), if_pos rfl]
    by_cases hrow : row + x < raw.length
    · -- the entry that is read is the one that the byte names
      have hidx := List.getElem?_eq_getElem hrow
      rw [hidx, Option.bind_some]
      refine ((returns_get _).bind fun b _ => (returns_get _).bind fun g _ =>
        (returns_get _).map fun r _ => trivial).congr ?_
      constructor
      · rintro ⟨-, -, hlast⟩
        refine ⟨by omega, fun _ idx heq => ?_⟩
        obtain rfl := Option.some.inj heq
        omega
      · rintro ⟨-, hentry⟩
        have hlast := hentry rfl _ rfl
        omega
    · rw [List.getElem?_eq_none (Nat.le_of_not_lt hrow)]
      exact ⟨fun h => absurd h.1 (by omega), fun _ h => absurd h.symm (Option.some_ne_none _)⟩
  · rw [if_pos rfl]
    refine ((returns_get _).bind fun b _ => (returns_get _).bind fun g _ =>
      (returns_get _).map fun r _ => trivial).congr ?_
    omega
  · rw [if_neg (by decide), if_pos rfl]
    refine ((returns_get _).bind fun b _ => (returns_get _).bind fun g _ =>
      (returns_get _).bind fun r _ => (returns_get _).map fun a _ => trivial).congr ?_
    omega

/-- Where a pixel can be loaded. -/
def PixelOk (raw : List UInt8) (bpp palette row w y x : ℕ) : Prop :=
  ColorOk raw bpp palette row x ∧ y * w ≤ 2147483647 ∧ y * w + x ≤ 2147483647

theorem isInt_natCast (n : ℕ) : IsInt (n : ℤ) ↔ n ≤ 2147483647 := by
  rw [isInt_iff]
  omega

theorem returns_pixel {n bpp : ℕ} (hbpp : bpp = 8 ∨ bpp = 24 ∨ bpp = 32) (palette row : ℕ)
    {w y x : ℕ} (hlt : y * w + x < n) (pixels : Fin n → RGBColor) :
    Returns (load_pixel raw bpp palette row w y pixels x) (PixelOk raw bpp palette row w y x)
      fun _ => True := by
  unfold load_pixel PixelOk
  refine (returns_color hbpp palette row x).bind fun col _ => ?_
  have hfirst : Returns (int (y * w)) (y * w ≤ 2147483647) fun v => v = (y * w : ℕ) :=
    (returns_int _).imp (by exact_mod_cast isInt_natCast (y * w)) (by intro v hv; exact_mod_cast hv)
  refine hfirst.bind fun first hval => ?_
  subst hval
  have hindex : Returns (int ((y * w : ℕ) + x)) (y * w + x ≤ 2147483647)
      fun v => v = (y * w + x : ℕ) :=
    (returns_int _).imp (by exact_mod_cast isInt_natCast (y * w + x))
      (by intro v hv; exact_mod_cast hv)
  refine hindex.then fun i _ hi => ?_
  subst hi
  exact (Returns.poke pixels _ col).congr (iff_of_true hlt trivial)

/-! ## The loops -/

theorem returns_row {w h bpp : ℕ} (hbpp : bpp = 8 ∨ bpp = 24 ∨ bpp = 32)
    (palette offset row_stride : ℕ) (is_bottom_up : Bool) {y : ℕ} (hy : y < h)
    (pixels : Fin (w * h) → RGBColor) :
    let src_y := if is_bottom_up then h - 1 - y else y
    Returns (load_row raw bpp palette offset w h row_stride is_bottom_up pixels y)
      (src_y * row_stride ≤ 2147483647 ∧ ∀ x ∈ List.range w,
        PixelOk raw bpp palette (offset + src_y * row_stride) w y x) fun _ => True := by
  unfold load_row
  intro src_y
  have hstart : Returns (int (src_y * row_stride)) (src_y * row_stride ≤ 2147483647)
      fun _ => True :=
    (returns_int _).imp (by exact_mod_cast isInt_natCast (src_y * row_stride)) fun _ _ => trivial
  refine hstart.bind fun _ _ => Returns.foldlM (fun x hx pixels _ => ?_) trivial
  have hxw := List.mem_range.mp hx
  have hle : (y + 1) * w ≤ h * w := Nat.mul_le_mul_right w hy
  refine returns_pixel hbpp palette _ ?_ pixels
  rw [Nat.succ_mul, Nat.mul_comm h] at hle
  omega

/-- The rows are in the file, and the entries of the palette that their bytes name. -/
def Complete (raw : List UInt8) (bpp palette offset w h row_stride : ℕ) : Prop :=
  offset + (h - 1) * row_stride + w * (bpp / 8) ≤ raw.length ∧
    (bpp = 8 → ∀ y < h, ∀ x < w, ∀ idx, raw[offset + y * row_stride + x]? = some idx →
      palette + idx.toNat * 4 + 3 ≤ raw.length)

/-- All pixels can be loaded where the last ones can; `src y` is the row of the file that row `y`
shows. -/
theorem loop_ok_iff {bpp palette offset w h row_stride : ℕ} {src : ℕ → ℕ} (hw : 0 < w) (hh : 0 < h)
    (hsrc : ∀ y < h, src y ≤ h - 1) (hshown : ∀ z < h, ∃ y < h, src y = z) :
    (∀ y ∈ List.range h, src y * row_stride ≤ 2147483647 ∧ ∀ x ∈ List.range w,
        PixelOk raw bpp palette (offset + src y * row_stride) w y x) ↔
      Complete raw bpp palette offset w h row_stride ∧ (h - 1) * row_stride ≤ 2147483647 ∧
        w * h ≤ 2147483648 := by
  have hcolumns : (w - 1) * (bpp / 8) + bpp / 8 = w * (bpp / 8) := by
    rw [← Nat.succ_mul, Nat.succ_eq_add_one, Nat.sub_add_cancel hw]
  have hrows : (h - 1) * w + (w - 1) + 1 = w * h := by
    have hone : (h - 1) * w + w = w * h := by
      rw [← Nat.succ_mul, Nat.succ_eq_add_one, Nat.sub_add_cancel hh, Nat.mul_comm]
    omega
  constructor
  · intro hall
    have hrow : ∀ z < h, z * row_stride ≤ 2147483647 ∧ ∀ x < w,
        ColorOk raw bpp palette (offset + z * row_stride) x := by
      intro z hz
      obtain ⟨y, hyh, rfl⟩ := hshown z hz
      obtain ⟨hproduct, hpixels⟩ := hall y (List.mem_range.mpr hyh)
      exact ⟨hproduct, fun x hx => (hpixels x (List.mem_range.mpr hx)).1⟩
    obtain ⟨hproduct, hcolors⟩ := hrow (h - 1) (by omega)
    have hlast := (hcolors (w - 1) (by omega)).1
    have hindex := ((hall (h - 1) (List.mem_range.mpr (by omega))).2 (w - 1)
      (List.mem_range.mpr (by omega))).2.2
    refine ⟨⟨by omega, ?_⟩, hproduct, by omega⟩
    intro hbpp y hy x hx
    exact ((hrow y hy).2 x hx).2 hbpp
  · rintro ⟨⟨hread, hentries⟩, hproduct, hindex⟩ y hmem
    have hyh := List.mem_range.mp hmem
    have hle := Nat.mul_le_mul_right row_stride (hsrc y hyh)
    refine ⟨hle.trans hproduct, fun x hmemx => ⟨⟨?_, ?_⟩, ?_⟩⟩
    · have hxw := List.mem_range.mp hmemx
      have hbytes := Nat.mul_le_mul_right (bpp / 8) (show x ≤ w - 1 by omega)
      omega
    · intro hbpp
      exact hentries hbpp (src y) (by have := hsrc y hyh; omega) x (List.mem_range.mp hmemx)
    · have hxw := List.mem_range.mp hmemx
      have hlast := Nat.mul_le_mul_right w (show y ≤ h - 1 by omega)
      omega

/-! ## The file -/

/-- The checks that `load_bmp_memory` makes of a header. -/
def Accepted (raw : List UInt8) : Prop :=
  let hdr := header_of raw
  sizeof_header ≤ raw.length ∧ (raw.getD 0 0 = 0x42 ∧ raw.getD 1 0 = 0x4D) ∧
    0 < hdr.width ∧ hdr.height ≠ 0 ∧ (hdr.bpp = 8 ∨ hdr.bpp = 24 ∨ hdr.bpp = 32)

/-- The header says of the file what is there: all rows, and the colours that they name. -/
def Consistent (raw : List UInt8) (hdr : BMPHeader) : Prop :=
  Complete raw hdr.bpp (14 + hdr.header_size) hdr.offset hdr.width.toNat hdr.height.natAbs
    (Kbmp.stride hdr.width.toNat (hdr.bpp / 8))

/-- What is computed in `int` is one: the bytes of a row with its filling, the start of the last
row, and the number of the last pixel. -/
def IntsOk (hdr : BMPHeader) : Prop :=
  let w := hdr.width.toNat
  let h := hdr.height.natAbs
  w * (hdr.bpp / 8) + 3 ≤ 2147483647 ∧
    (h - 1) * Kbmp.stride w (hdr.bpp / 8) ≤ 2147483647 ∧ w * h ≤ 2147483648

/-- There is memory for the image and its pixels. -/
def Memory.Allocates (m : Memory) (hdr : BMPHeader) : Prop :=
  m.image = true ∧ (m.pixels (hdr.width.toNat * hdr.height.natAbs)).isSome = true

/-- Every row of the file is shown. -/
theorem all_shown {h : ℕ} (is_bottom_up : Bool) :
    ∀ z < h, ∃ y < h, (if is_bottom_up then h - 1 - y else y) = z := by
  intro z hz
  cases is_bottom_up with
  | true =>
    refine ⟨h - 1 - z, by omega, ?_⟩
    simp only [if_true]
    omega
  | false => exact ⟨z, hz, rfl⟩

theorem returns_rows (raw : List UInt8) (hdr : BMPHeader)
    (hbpp : hdr.bpp = 8 ∨ hdr.bpp = 24 ∨ hdr.bpp = 32) (hw : 0 < hdr.width)
    (hh : hdr.height ≠ 0)
    (pixels : Fin (hdr.width.toNat * hdr.height.natAbs) → RGBColor) :
    Returns (load_rows raw hdr hdr.height.natAbs pixels) (Consistent raw hdr ∧ IntsOk hdr)
      fun _ => True := by
  have hbytes : hdr.width * ((hdr.bpp : ℤ) / 8) = (hdr.width.toNat * (hdr.bpp / 8) : ℕ) := by
    push_cast
    rw [Int.toNat_of_nonneg hw.le]
  have hstride : ((hdr.width * (hdr.bpp / 8) + 3) / 4 * 4).toNat =
      Kbmp.stride hdr.width.toNat (hdr.bpp / 8) := by
    rw [hbytes]
    unfold Kbmp.stride
    omega
  have hpos : 0 < hdr.height.natAbs := Int.natAbs_pos.mpr hh
  have hloop : Returns ((List.range hdr.height.natAbs).foldlM
      (load_row raw hdr.bpp (14 + hdr.header_size) hdr.offset hdr.width.toNat hdr.height.natAbs
        (Kbmp.stride hdr.width.toNat (hdr.bpp / 8)) (0 ≤ hdr.height)) pixels) _ fun _ => True :=
    (Returns.foldlM (fun y hy pixels _ => returns_row hbpp (14 + hdr.header_size) hdr.offset
      (Kbmp.stride hdr.width.toNat (hdr.bpp / 8)) (0 ≤ hdr.height) (List.mem_range.mp hy) pixels)
      trivial).congr (loop_ok_iff (by omega) hpos (shown_rows hpos _).1 (all_shown _))
  rw [← hstride] at hloop
  have hrun : Returns (load_rows raw hdr hdr.height.natAbs pixels)
      (IsInt (hdr.width * (hdr.bpp / 8)) ∧ IsInt (hdr.width * (hdr.bpp / 8) + 3) ∧
        Complete raw hdr.bpp (14 + hdr.header_size) hdr.offset hdr.width.toNat hdr.height.natAbs
          ((hdr.width * (hdr.bpp / 8) + 3) / 4 * 4).toNat ∧
        (hdr.height.natAbs - 1) * ((hdr.width * (hdr.bpp / 8) + 3) / 4 * 4).toNat ≤ 2147483647 ∧
        hdr.width.toNat * hdr.height.natAbs ≤ 2147483648) fun _ => True := by
    refine (returns_int _).bind fun bytes hbyteseq => ?_
    subst hbyteseq
    refine (returns_int _).bind fun padded hpadded => ?_
    subst hpadded
    exact hloop
  refine hrun.congr ?_
  rw [hstride, hbytes, isInt_iff, isInt_iff, IntsOk, Consistent]
  constructor
  · rintro ⟨-, hpadded, hcomplete, hproduct, hindex⟩
    exact ⟨hcomplete, by omega, hproduct, hindex⟩
  · rintro ⟨hcomplete, hpadded, hproduct, hindex⟩
    exact ⟨by omega, by omega, hcomplete, hproduct, hindex⟩

theorem isInt_height (raw : List UInt8) : IsInt (header_of raw).height := by
  unfold header_of
  dsimp only
  exact isInt_to_int _

theorem accepted_iff (m : Memory) (raw : List UInt8) (hdr : BMPHeader)
    (hbpp : hdr.bpp = 8 ∨ hdr.bpp = 24 ∨ hdr.bpp = 32) (hw : 0 < hdr.width) (hh : hdr.height ≠ 0)
    (hheight : IsInt hdr.height) :
    (∃ r, load_accepted m raw hdr = some r ∧ (r.isSome → Consistent raw hdr)) ↔
      hdr.height ≠ INT_MIN ∧ (m.Allocates hdr → Consistent raw hdr ∧ IntsOk hdr) := by
  have hreturns := returns_height hheight
  unfold load_accepted
  by_cases hmin : hdr.height = INT_MIN
  · refine iff_of_false ?_ fun h => h.1 hmin
    rintro ⟨r, hr, -⟩
    obtain ⟨h, hh, -⟩ := Option.bind_eq_some_iff.mp hr
    exact (hreturns.2 h hh).1 hmin
  obtain ⟨h, hsome⟩ := hreturns.1 hmin
  obtain rfl := (hreturns.2 h hsome).2
  rw [hsome, Option.bind_some, Int.toNat_natCast, load_image, and_iff_right hmin, Memory.Allocates]
  by_cases himage : m.image = true
  swap
  · rw [if_neg himage]
    exact iff_of_true ⟨none, rfl, fun h => absurd h Bool.false_ne_true⟩
      fun h => absurd h.1 himage
  rw [if_pos himage, and_iff_right himage]
  cases m.pixels (hdr.width.toNat * hdr.height.natAbs) with
  | none =>
    exact iff_of_true ⟨none, rfl, fun h => absurd h Bool.false_ne_true⟩
      fun h => absurd h Bool.false_ne_true
  | some pixels =>
    rw [imp_iff_right Option.isSome_some]
    have hrows := (returns_rows raw hdr hbpp hw hh pixels).iff
    constructor
    · rintro ⟨r, hr, -⟩
      obtain ⟨pixels', hload, -⟩ := Option.map_eq_some_iff.mp hr
      exact hrows.mp ⟨pixels', hload, trivial⟩
    · intro hok
      obtain ⟨pixels', hload, -⟩ := hrows.mpr hok
      refine ⟨some ⟨_, _, hdr.bpp, pixels'⟩, ?_, fun _ => hok.1⟩
      dsimp only
      rw [hload, Option.map_some]

theorem refused_iff (width height : ℤ) (bpp : ℕ) :
    (width ≤ 0 ∨ height = 0 ∨ (bpp ≠ 8 ∧ bpp ≠ 24 ∧ bpp ≠ 32)) ↔
      ¬ (0 < width ∧ height ≠ 0 ∧ (bpp = 8 ∨ bpp = 24 ∨ bpp = 32)) := by
  omega

/-- **Bitmaps.** A file is read within and its image written within, and an image comes of a
consistent header only, exactly when the header is refused, or its height has a negative and there
is no memory, or it is consistent and nothing overflows. -/
theorem load_bmp_memory_iff (m : Memory) (raw : List UInt8) :
    (∃ r, load_bmp_memory m raw = some r ∧ (r.isSome → Consistent raw (header_of raw))) ↔
      (Accepted raw → (header_of raw).height ≠ INT_MIN ∧ (m.Allocates (header_of raw) →
        Consistent raw (header_of raw) ∧ IntsOk (header_of raw))) := by
  unfold load_bmp_memory Accepted
  dsimp only
  -- the checks in the order of the source: each one refuses what `Accepted` excludes
  by_cases hsize : raw.length < sizeof_header
  · rw [if_pos hsize]
    exact iff_of_true ⟨none, rfl, fun h => absurd h Bool.false_ne_true⟩
      fun h => absurd hsize (Nat.not_lt.mpr h.1)
  rw [if_neg hsize]
  by_cases hmagic : raw.getD 0 0 = 0x42 ∧ raw.getD 1 0 = 0x4D
  swap
  · rw [if_pos (by rwa [← not_and_or])]
    exact iff_of_true ⟨none, rfl, fun h => absurd h Bool.false_ne_true⟩
      fun h => absurd h.2.1 hmagic
  rw [if_neg (by rw [← not_and_or]; exact not_not.mpr hmagic)]
  have hrefused := refused_iff (header_of raw).width (header_of raw).height (header_of raw).bpp
  by_cases hfields : 0 < (header_of raw).width ∧ (header_of raw).height ≠ 0 ∧
      ((header_of raw).bpp = 8 ∨ (header_of raw).bpp = 24 ∨ (header_of raw).bpp = 32)
  swap
  · rw [if_pos (hrefused.mpr hfields)]
    exact iff_of_true ⟨none, rfl, fun h => absurd h Bool.false_ne_true⟩
      fun h => absurd h.2.2 hfields
  rw [if_neg fun h => hrefused.mp h hfields,
    imp_iff_right ⟨Nat.not_lt.mp hsize, hmagic, hfields⟩]
  obtain ⟨hw, hh, hbpp⟩ := hfields
  exact accepted_iff m raw (header_of raw) hbpp hw hh (isInt_height raw)

/-- Room for every image, with black pixels in it. -/
def enough : Memory := ⟨true, fun _ => some fun _ => ⟨0, 0, 0, 0⟩⟩

/-- The pixel of a header of 54 bytes and no more is read behind the end. -/
theorem load_bmp_memory_empty : ¬ ∃ r, load_bmp_memory enough Kbmp.empty_picture = some r := by
  have hnone : (load_bmp_memory enough Kbmp.empty_picture).isNone = true := by
    decide +kernel
  rintro ⟨r, hr⟩
  rw [hr] at hnone
  cases hnone

end SysInC.ImgviewBmp
