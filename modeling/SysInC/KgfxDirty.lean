/-
The dirty rectangles of `freestanding/kgfx.c`: what `kgfx_flush_dirty` copies to the front buffer.

The list takes 16 rectangles and drops the others. An origin that is off the screen is moved to 0
and the extent is left as it is, so that the far edge moves with it; an extent that leads off the
screen is cut at the edge, also where it leads off the near one. What is copied is therefore the
area between the edges of `near` and `far`, and where these are the wrong way round, an extent below
0 becomes a size beyond all buffers.
-/
import SysInC.CInt
import Mathlib.Data.List.Induction
import Mathlib.Logic.Function.Basic
import Mathlib.Tactic.Linarith
import Mathlib.Tactic.Ring

set_option autoImplicit false

namespace SysInC.Kgfx

open CInt

/-! ## The source -/

def KGFX_MAX_DIRTY_RECTS : ℕ := 16

structure kgfx_rect_t where
  x : Int32
  y : Int32
  w : Int32
  h : Int32

/-- Two buffers of `width * height` pixels of four bytes, in an address space of 32 bits; a pixel
is a place below that in either function. -/
structure kgfx_double_buffer_t where
  front_buffer : ℕ → UInt32
  back_buffer : ℕ → UInt32
  width : ℕ
  height : ℕ
  width_pos : 0 < width
  fits : width * height < 1073741824

/-- `rects` are the first `count`. -/
structure kgfx_dirty_list_t where
  rects : List kgfx_rect_t

def kgfx_add_dirty_rect (list : kgfx_dirty_list_t) (x y w h : Int32) : kgfx_dirty_list_t :=
  if KGFX_MAX_DIRTY_RECTS ≤ list.rects.length then list else ⟨list.rects ++ [⟨x, y, w, h⟩]⟩

/-- `if (v < 0) v = 0;` -/
def clip_origin (v : ℤ) : ℤ := if v < 0 then 0 else v

/-- `if ((uint32_t)(v + e) > size) e = size - v;`; `none` where the sum overflows. -/
def clip_extent (v e : ℤ) (size : ℕ) : Option ℤ :=
  (int (v + e)).map fun sum =>
    if to_uint sum > size then to_int (to_uint (size - v)) else e

/-- `kmemcpy(&front[offset], &back[offset], w * sizeof(uint32_t))` for a row; `none` is an access
outside of the buffers. -/
def copy_row (db : kgfx_double_buffer_t) (x w : ℤ) (py : ℕ) : Option kgfx_double_buffer_t :=
  let offset := to_uint (py * db.width + x)
  let pixels := to_uint w * 4 % 4294967296 / 4
  if pixels = 0 then some db
  else if offset + pixels ≤ db.width * db.height then
    some { db with
      front_buffer := fun i =>
        if offset ≤ i ∧ i < offset + pixels then db.back_buffer i else db.front_buffer i }
  else none

/-- The loop over `left` rows from `py` on. -/
def copy_rows (x w : ℤ) : ℕ → ℕ → kgfx_double_buffer_t → Option kgfx_double_buffer_t
  | 0, _, db => some db
  | left + 1, py, db => (copy_row db x w py).bind (copy_rows x w left (py + 1))

/-- A turn of the loop over the list. `none` is undefined: a sum that overflows, or an access
outside of the buffers. -/
def flush_rect (db : kgfx_double_buffer_t) (r : kgfx_rect_t) : Option kgfx_double_buffer_t :=
  let x := clip_origin r.x.toInt
  let y := clip_origin r.y.toInt
  (clip_extent x r.w.toInt db.width).bind fun w =>
    (clip_extent y r.h.toInt db.height).bind fun h =>
      (int (y + h)).bind fun last => copy_rows x w (last - y).toNat y.toNat db

def kgfx_flush_dirty (db : kgfx_double_buffer_t) (list : kgfx_dirty_list_t) :
    Option (kgfx_double_buffer_t × kgfx_dirty_list_t) :=
  (list.rects.foldlM flush_rect db).map fun db => (db, ⟨[]⟩)

/-! ## Edges -/

/-- The near edge: the origin, or the edge of the screen. -/
def near (v : ℤ) : ℤ := max v 0

/-- The far edge: where the near edge and the extent lead to a place of the screen, that place,
else the edge of the screen. -/
def far (v e : ℤ) (size : ℕ) : ℤ :=
  if 0 ≤ near v + e ∧ near v + e ≤ size then near v + e else size

theorem clip_origin_eq (v : ℤ) : clip_origin v = near v := by
  unfold clip_origin near
  split
  · omega
  · omega

theorem far_mem (v e : ℤ) (size : ℕ) : 0 ≤ far v e size ∧ far v e size ≤ size := by
  unfold far
  split
  · omega
  · omega

/-- The extent is what lies between the edges. -/
theorem clip_extent_of {v e : Int32} (hsum : IsInt (near v.toInt + e.toInt)) (size : ℕ) :
    ∃ extent, clip_extent (near v.toInt) e.toInt size = some extent
      ∧ (size < 1073741824 → extent = far v.toInt e.toInt size - near v.toInt) := by
  have hv := isInt_toInt v
  unfold clip_extent
  rw [int_of hsum, Option.map_some]
  refine ⟨_, rfl, fun hsize => ?_⟩
  have hroom : IsInt (size - near v.toInt) := by
    unfold near
    rw [isInt_iff] at hv ⊢
    omega
  rw [to_int_to_uint hroom]
  unfold far
  by_cases hon : 0 ≤ near v.toInt + e.toInt ∧ near v.toInt + e.toInt ≤ size
  · rw [if_pos hon, if_neg fun hgt => (lt_to_uint_iff hsum (by omega)).mp hgt hon]
    omega
  · rw [if_neg hon, if_pos ((lt_to_uint_iff hsum (by omega)).mpr hon)]

/-! ## What is copied -/

/-- Of the places of `db` those in `P`, given by column and row, are copied, and nothing else is
changed. -/
structure Painted (db db' : kgfx_double_buffer_t) (P : ℕ → ℕ → Prop) : Prop where
  width : db'.width = db.width
  height : db'.height = db.height
  back : db'.back_buffer = db.back_buffer
  copied : ∀ i, P (i % db.width) (i / db.width) → db'.front_buffer i = db.back_buffer i
  kept : ∀ i, ¬P (i % db.width) (i / db.width) → db'.front_buffer i = db.front_buffer i

variable {db db' db'' : kgfx_double_buffer_t} {P Q : ℕ → ℕ → Prop}

theorem Painted.none (h : ∀ px py, ¬P px py) : Painted db db P where
  width := rfl
  height := rfl
  back := rfl
  copied _ hi := absurd hi (h _ _)
  kept _ _ := rfl

theorem Painted.trans (h : Painted db db' P) (h' : Painted db' db'' Q) :
    Painted db db'' fun px py => P px py ∨ Q px py where
  width := h'.width.trans h.width
  height := h'.height.trans h.height
  back := h'.back.trans h.back
  copied i hi := by
    have hcopied := h'.copied i
    have hkept := h'.kept i
    rw [h.width] at hcopied hkept
    by_cases hQ : Q (i % db.width) (i / db.width)
    · rw [hcopied hQ, h.back]
    · rw [hkept hQ, h.copied i (hi.resolve_right hQ)]
  kept i hi := by
    have hkept := h'.kept i
    rw [h.width] at hkept
    rw [hkept fun hQ => hi (Or.inr hQ), h.kept i fun hP => hi (Or.inl hP)]

theorem Painted.congr (h : Painted db db' P) (hPQ : ∀ px py, P px py ↔ Q px py) :
    Painted db db' Q where
  width := h.width
  height := h.height
  back := h.back
  copied i hi := h.copied i ((hPQ _ _).mpr hi)
  kept i hi := h.kept i fun hP => hi ((hPQ _ _).mp hP)

/-- The columns from `x` to `last` can be copied: nothing is, where `x` is behind `last`, or there
are all of them. -/
def ColumnsOk (x last : ℤ) : Prop := x ≤ last ∨ 1073741824 ∣ x - last

/-- The places of a row between two columns, by their number. -/
theorem row_iff {width i py : ℕ} {x last : ℤ} (hx : 0 ≤ x) (hlast : last ≤ width) :
    (x ≤ (i % width : ℕ) ∧ ((i % width : ℕ) : ℤ) < last) ∧ i / width = py
      ↔ py * width + x ≤ i ∧ (i : ℤ) < py * width + last := by
  have hdiv : ((i / width : ℕ) * width + (i % width : ℕ) : ℤ) = i := by
    exact_mod_cast Nat.div_add_mod' i width
  constructor
  · rintro ⟨hcolumn, rfl⟩
    omega
  · rintro ⟨hfirst, hend⟩
    have hlow : py * width ≤ i := by
      have : ((py * width : ℕ) : ℤ) ≤ i := by push_cast; omega
      exact_mod_cast this
    have hhigh : i < (py + 1) * width := by
      have : (i : ℤ) < ((py + 1) * width : ℕ) := by push_cast; linarith
      exact_mod_cast this
    have hrow : i / width = py := Nat.div_eq_of_lt_le hlow hhigh
    rw [hrow] at hdiv
    exact ⟨by omega, hrow⟩

/-- The number of pixels that `kmemcpy` is given. -/
theorem pixels_eq (w : ℤ) : to_uint w * 4 % 4294967296 / 4 = (w % 1073741824).toNat := by
  unfold to_uint
  omega

theorem copy_row_spec (db : kgfx_double_buffer_t) {x last : ℤ} (py : ℕ) (hx : 0 ≤ x)
    (hfit : x ≤ 2147483647) (hlast : 0 ≤ last ∧ last ≤ db.width) (hpy : py < db.height) :
    (ColumnsOk x last → ∃ db', copy_row db x (last - x) py = some db'
      ∧ Painted db db' fun px row => (x ≤ px ∧ (px : ℤ) < last) ∧ row = py)
    ∧ (¬ColumnsOk x last → copy_row db x (last - x) py = none) := by
  have hfits := db.fits
  have hrows : (py + 1) * db.width ≤ db.height * db.width := Nat.mul_le_mul_right _ hpy
  rw [Nat.mul_comm db.height, Nat.succ_mul] at hrows
  have hoffset : to_uint (py * db.width + x) = py * db.width + x.toNat := by
    have hcast : ((py * db.width : ℕ) : ℤ) = py * db.width := by push_cast; rfl
    unfold to_uint
    rw [← hcast]
    omega
  unfold copy_row ColumnsOk
  rw [pixels_eq, hoffset]
  dsimp only
  generalize db.width * db.height = size at hfits hrows ⊢
  refine ⟨fun hok => ?_, fun hbad => ?_⟩
  · by_cases hempty : last ≤ x
    · -- nothing is copied, and the size is a multiple of all memory
      refine ⟨db, if_pos (by omega), Painted.none fun px py h => ?_⟩
      omega
    · have hpixels : ((last - x) % 1073741824).toNat = (last - x).toNat := by
        rw [Int.emod_eq_of_lt (by omega) (by omega)]
      rw [hpixels, if_neg (by omega), if_pos (by omega)]
      refine ⟨_, rfl, rfl, rfl, rfl, fun i hi => if_pos ?_, fun i hi => if_neg ?_⟩
      · have := (row_iff hx hlast.2).mp hi
        omega
      · intro hrange
        apply hi
        rw [row_iff hx hlast.2]
        omega
  · obtain ⟨hgt, hdvd⟩ := not_or.mp hbad
    rw [if_neg (by omega), if_neg (by omega)]

/-- The rows from `py` on. -/
theorem copy_rows_spec {x last : ℤ} (hx : 0 ≤ x) (hfit : x ≤ 2147483647) (left py : ℕ)
    (db : kgfx_double_buffer_t) (hlast : 0 ≤ last ∧ last ≤ db.width)
    (hrows : py + left ≤ db.height) :
    (left = 0 ∨ ColumnsOk x last → ∃ db', copy_rows x (last - x) left py db = some db'
      ∧ Painted db db' fun px row => (x ≤ px ∧ (px : ℤ) < last) ∧ py ≤ row ∧ row < py + left)
    ∧ (¬(left = 0 ∨ ColumnsOk x last) → copy_rows x (last - x) left py db = none) := by
  induction left generalizing py db with
  | zero =>
    refine ⟨fun _ => ⟨db, rfl, Painted.none fun px row h => ?_⟩, fun h => absurd (Or.inl rfl) h⟩
    omega
  | succ left ih =>
    have hrow := copy_row_spec db py hx hfit hlast (by omega)
    rw [copy_rows]
    constructor
    · intro hok
      have hok := hok.resolve_left (Nat.succ_ne_zero left)
      obtain ⟨db₁, hfirst, hpaint⟩ := hrow.1 hok
      obtain ⟨db₂, hrest, hpaint'⟩ := (ih (py + 1) db₁ (by rw [hpaint.width]; exact hlast)
        (by rw [hpaint.height]; omega)).1 (Or.inr hok)
      refine ⟨db₂, by rw [hfirst, Option.bind_some, hrest], (hpaint.trans hpaint').congr ?_⟩
      intro px row
      omega
    · intro hbad
      rw [hrow.2 fun hok => hbad (Or.inr hok), Option.bind_none]

/-! ## A rectangle -/

/-- The place is between the edges of the rectangle. -/
def Copied (width height : ℕ) (r : kgfx_rect_t) (px py : ℕ) : Prop :=
  (near r.x.toInt ≤ px ∧ (px : ℤ) < far r.x.toInt r.w.toInt width)
    ∧ near r.y.toInt ≤ py ∧ (py : ℤ) < far r.y.toInt r.h.toInt height

/-- The sums are `int`s, and where there are rows between the edges, the columns can be copied. -/
def RectOk (width height : ℕ) (r : kgfx_rect_t) : Prop :=
  IsInt (near r.x.toInt + r.w.toInt) ∧ IsInt (near r.y.toInt + r.h.toInt)
    ∧ (near r.y.toInt < far r.y.toInt r.h.toInt height →
      ColumnsOk (near r.x.toInt) (far r.x.toInt r.w.toInt width))

theorem near_mem (v : Int32) : 0 ≤ near v.toInt ∧ near v.toInt ≤ 2147483647 := by
  have hv := isInt_toInt v
  rw [isInt_iff] at hv
  unfold near
  omega

theorem height_lt (db : kgfx_double_buffer_t) : db.height < 1073741824 :=
  (Nat.le_mul_of_pos_left _ db.width_pos).trans_lt db.fits

/-- A column is not wider than memory where there is a row. -/
theorem width_lt (db : kgfx_double_buffer_t) (h : 0 < db.height) : db.width < 1073741824 :=
  (Nat.le_mul_of_pos_right _ h).trans_lt db.fits

theorem flush_rect_spec (db : kgfx_double_buffer_t) (r : kgfx_rect_t) :
    (RectOk db.width db.height r →
      ∃ db', flush_rect db r = some db' ∧ Painted db db' (Copied db.width db.height r))
    ∧ (¬RectOk db.width db.height r → flush_rect db r = none) := by
  unfold flush_rect RectOk
  dsimp only
  rw [clip_origin_eq, clip_origin_eq]
  by_cases hx : IsInt (near r.x.toInt + r.w.toInt)
  · by_cases hy : IsInt (near r.y.toInt + r.h.toInt)
    · obtain ⟨w, hw, hwidth⟩ := clip_extent_of hx db.width
      obtain ⟨h, hh, hheight⟩ := clip_extent_of hy db.height
      have hlast : near r.y.toInt + h = far r.y.toInt r.h.toInt db.height := by
        rw [hheight (height_lt db)]
        omega
      have hfarx := far_mem r.x.toInt r.w.toInt db.width
      have hfary := far_mem r.y.toInt r.h.toInt db.height
      have hnearx := near_mem r.x
      have hneary := near_mem r.y
      have hint : IsInt (far r.y.toInt r.h.toInt db.height) := by
        have := height_lt db
        rw [isInt_iff]
        omega
      rw [hw, Option.bind_some, hh, Option.bind_some, hlast, int_of hint, Option.bind_some]
      simp only [hx, hy, true_and]
      unfold Copied
      generalize far r.y.toInt r.h.toInt db.height = last at hfary ⊢
      generalize near r.y.toInt = first at hneary ⊢
      by_cases hrows : first < last
      · -- there is a row, and then the width is no larger than memory
        have hpos : 0 < db.height := by omega
        have hspec := copy_rows_spec hnearx.1 hnearx.2 (last - first).toNat first.toNat db hfarx
          (by omega)
        rw [hwidth (width_lt db hpos)]
        constructor
        · intro hok
          obtain ⟨db', hcopy, hpaint⟩ := hspec.1 (Or.inr (hok hrows))
          refine ⟨db', hcopy, hpaint.congr fun px py => ?_⟩
          omega
        · intro hbad
          apply hspec.2
          rintro (hzero | hok)
          · omega
          · exact hbad fun _ => hok
      · have hzero : (last - first).toNat = 0 := by omega
        rw [hzero]
        refine ⟨fun _ => ⟨db, rfl, Painted.none fun px py h => ?_⟩, fun hbad => absurd ?_ hbad⟩
        · omega
        · exact fun h => absurd h hrows
    · obtain ⟨w, hw, -⟩ := clip_extent_of hx db.width
      refine ⟨fun hok => absurd hok.2.1 hy, fun _ => ?_⟩
      rw [hw, Option.bind_some]
      unfold clip_extent
      rw [int_eq_none hy]
      rfl
  · refine ⟨fun hok => absurd hok.1 hx, fun _ => ?_⟩
    unfold clip_extent
    rw [int_eq_none hx]
    rfl

/-! ## The list -/

/-- The rectangles one after the other: their areas together. -/
theorem flush_rects_spec {rects : List kgfx_rect_t} (db : kgfx_double_buffer_t) :
    ((∀ r ∈ rects, RectOk db.width db.height r) → ∃ db', rects.foldlM flush_rect db = some db'
      ∧ Painted db db' fun px py => ∃ r ∈ rects, Copied db.width db.height r px py)
    ∧ (¬(∀ r ∈ rects, RectOk db.width db.height r) → rects.foldlM flush_rect db = none) := by
  induction rects generalizing db with
  | nil =>
    refine ⟨fun _ => ⟨db, rfl, Painted.none fun px py h => ?_⟩, fun h => absurd ?_ h⟩
    · obtain ⟨r, hr, -⟩ := h
      exact List.not_mem_nil hr
    · exact fun r hr => absurd hr List.not_mem_nil
  | cons r rects ih =>
    have hrect := flush_rect_spec db r
    rw [List.foldlM_cons, List.forall_mem_cons]
    by_cases hr : RectOk db.width db.height r
    · obtain ⟨db₁, hfirst, hpaint⟩ := hrect.1 hr
      have hrest := ih db₁
      rw [hpaint.width, hpaint.height] at hrest
      rw [hfirst]
      constructor
      · intro hok
        obtain ⟨db₂, hflush, hpaint'⟩ := hrest.1 hok.2
        refine ⟨db₂, hflush, (hpaint.trans hpaint').congr fun px py => ?_⟩
        simp
      · intro hbad
        exact hrest.2 fun hok => hbad ⟨hr, hok⟩
    · rw [hrect.2 hr]
      exact ⟨fun hok => absurd hok.1 hr, fun _ => rfl⟩

/-- The list behind the calls of `kgfx_add_dirty_rect`. -/
def add_all (rects : List kgfx_rect_t) : kgfx_dirty_list_t :=
  rects.foldl (fun list r => kgfx_add_dirty_rect list r.x r.y r.w r.h) ⟨[]⟩

theorem add_all_rects (rects : List kgfx_rect_t) :
    (add_all rects).rects = rects.take KGFX_MAX_DIRTY_RECTS := by
  unfold add_all
  induction rects using List.reverseRecOn with
  | nil => rfl
  | append_singleton rects r ih =>
    rw [List.foldl_append, List.foldl_cons, List.foldl_nil, kgfx_add_dirty_rect, ih,
      List.length_take]
    split
    · next hfull => rw [ih, List.take_append_of_le_length (by omega)]
    · next hroom =>
      have hlt : rects.length < KGFX_MAX_DIRTY_RECTS := by omega
      rw [List.take_of_length_le hlt.le, List.take_of_length_le]
      rw [List.length_append]
      exact hlt

/-! ## The screen behind a flush -/

/-- The pixel is in the rectangle. -/
def Covers (r : kgfx_rect_t) (px py : ℕ) : Prop :=
  (r.x.toInt ≤ px ∧ (px : ℤ) < r.x.toInt + r.w.toInt)
    ∧ r.y.toInt ≤ py ∧ (py : ℤ) < r.y.toInt + r.h.toInt

/-- `kgfx_flush_dirty` stays in the buffers and brings the pixels of the rectangles, and only these,
from the back to the front buffer. -/
def Flushes (db : kgfx_double_buffer_t) (rects : List kgfx_rect_t) : Prop :=
  ∃ db', kgfx_flush_dirty db (add_all rects) = some (db', ⟨[]⟩)
    ∧ ∀ px < db.width, ∀ py < db.height,
      ((∃ r ∈ rects, Covers r px py) →
        db'.front_buffer (py * db.width + px) = db.back_buffer (py * db.width + px))
      ∧ (¬(∃ r ∈ rects, Covers r px py) →
        db'.front_buffer (py * db.width + px) = db.front_buffer (py * db.width + px))

/-- The rectangles that the list takes can be copied, and the areas between their edges are together
the pixels of all rectangles. -/
def DirtyOk (width height : ℕ) (rects : List kgfx_rect_t) : Prop :=
  (∀ r ∈ rects.take KGFX_MAX_DIRTY_RECTS, RectOk width height r)
    ∧ ∀ px < width, ∀ py < height,
      (∃ r ∈ rects.take KGFX_MAX_DIRTY_RECTS, Copied width height r px py)
        ↔ ∃ r ∈ rects, Covers r px py

theorem column_row {width px : ℕ} (hpx : px < width) (py : ℕ) :
    (py * width + px) % width = px ∧ (py * width + px) / width = py := by
  rw [Nat.mul_comm, Nat.mul_add_mod, Nat.mod_eq_of_lt hpx, Nat.mul_add_div (by omega),
    Nat.div_eq_of_lt hpx]
  exact ⟨rfl, rfl⟩

theorem flushes_of_dirtyOk {db : kgfx_double_buffer_t} {rects : List kgfx_rect_t}
    (h : DirtyOk db.width db.height rects) : Flushes db rects := by
  obtain ⟨db', hflush, hpaint⟩ := (flush_rects_spec db).1 h.1
  refine ⟨db', ?_, fun px hpx py hpy => ?_⟩
  · unfold kgfx_flush_dirty
    rw [add_all_rects, hflush]
    rfl
  · have hplace := column_row hpx py
    have hcopied := hpaint.copied (py * db.width + px)
    have hkept := hpaint.kept (py * db.width + px)
    rw [hplace.1, hplace.2, h.2 px hpx py hpy] at hcopied hkept
    exact ⟨hcopied, hkept⟩

/-- Where the buffers differ in every pixel, what is copied shows. -/
theorem dirtyOk_of_flushes (db : kgfx_double_buffer_t) {rects : List kgfx_rect_t}
    (hdiffer : ∀ i, db.front_buffer i ≠ db.back_buffer i) (h : Flushes db rects) :
    DirtyOk db.width db.height rects := by
  obtain ⟨db', hflush, hpixels⟩ := h
  unfold kgfx_flush_dirty at hflush
  rw [add_all_rects] at hflush
  obtain ⟨db₁, hrects, heq⟩ := Option.map_eq_some_iff.mp hflush
  obtain rfl := (Prod.mk.inj heq).1
  have hok : ∀ r ∈ rects.take KGFX_MAX_DIRTY_RECTS, RectOk db.width db.height r := by
    by_contra hbad
    rw [(flush_rects_spec db).2 hbad] at hrects
    cases hrects
  obtain ⟨db₂, hrects', hpaint⟩ := (flush_rects_spec db).1 hok
  obtain rfl := Option.some.inj (hrects.symm.trans hrects')
  refine ⟨hok, fun px hpx py hpy => ?_⟩
  have hplace := column_row hpx py
  have hcopied := hpaint.copied (py * db.width + px)
  have hkept := hpaint.kept (py * db.width + px)
  rw [hplace.1, hplace.2] at hcopied hkept
  obtain ⟨hcovered, hother⟩ := hpixels px hpx py hpy
  constructor
  · intro hc
    by_contra hnot
    exact hdiffer _ ((hother hnot).symm.trans (hcopied hc))
  · intro hc
    by_contra hnot
    exact hdiffer _ ((hkept hnot).symm.trans (hcovered hc))

/-- **Dirty rectangles**: whatever the buffers hold, the rectangles are flushed exactly if the list
has room for what is needed, no sum overflows and no near edge is behind a far one, and the areas
between the edges are the rectangles' pixels. -/
theorem flushes_iff (db : kgfx_double_buffer_t) (rects : List kgfx_rect_t) :
    (∀ front back, Flushes { db with front_buffer := front, back_buffer := back } rects)
      ↔ DirtyOk db.width db.height rects := by
  constructor
  · intro h
    have hdiffer : (0 : UInt32) ≠ 1 := by decide
    exact dirtyOk_of_flushes { db with front_buffer := fun _ => 0, back_buffer := fun _ => 1 }
      (fun _ => hdiffer) (h _ _)
  · intro h front back
    exact flushes_of_dirtyOk h

/-- A rectangle with its origin on the screen or at its edge, and an extent that is none or more. -/
structure OnScreen (width height : ℕ) (r : kgfx_rect_t) : Prop where
  x : 0 ≤ r.x.toInt ∧ r.x.toInt ≤ width
  y : 0 ≤ r.y.toInt ∧ r.y.toInt ≤ height
  w : 0 ≤ r.w.toInt ∧ IsInt (r.x.toInt + r.w.toInt)
  h : 0 ≤ r.h.toInt ∧ IsInt (r.y.toInt + r.h.toInt)

/-- With up to 16 of these all is well. -/
theorem dirtyOk_of_onScreen {width height : ℕ} {rects : List kgfx_rect_t}
    (hcount : rects.length ≤ KGFX_MAX_DIRTY_RECTS) (h : ∀ r ∈ rects, OnScreen width height r) :
    DirtyOk width height rects := by
  have hedges {v e : ℤ} {size : ℕ} (hv : 0 ≤ v ∧ v ≤ size) (he : 0 ≤ e) :
      near v = v ∧ far v e size = min (v + e) size := by
    unfold far near
    split
    · omega
    · omega
  unfold DirtyOk
  rw [List.take_of_length_le hcount]
  constructor
  · intro r hr
    obtain ⟨hx, hy, hw, hh⟩ := h r hr
    unfold RectOk ColumnsOk
    rw [(hedges hx hw.1).1, (hedges hy hh.1).1, (hedges hx hw.1).2]
    exact ⟨hw.2, hh.2, fun _ => Or.inl (by omega)⟩
  · intro px hpx py hpy
    refine exists_congr fun r => and_congr_right fun hr => ?_
    obtain ⟨hx, hy, hw, hh⟩ := h r hr
    unfold Copied Covers
    rw [(hedges hx hw.1).1, (hedges hy hh.1).1, (hedges hx hw.1).2, (hedges hy hh.1).2]
    omega

/-- Twenty columns, of which ten are on the screen. -/
def rect_left : kgfx_rect_t := ⟨-10, 0, 20, 1⟩

/-- The pixel in column 15 is copied. -/
theorem not_flushes_left : ¬∀ (db : kgfx_double_buffer_t) (rects : List kgfx_rect_t),
    Flushes db rects := by
  intro h
  have hdiffer : (0 : UInt32) ≠ 1 := by decide
  have hok := dirtyOk_of_flushes ⟨fun _ => 0, fun _ => 1, 800, 600, by decide, by decide⟩
    (fun _ => hdiffer) (h _ [rect_left])
  have hcopied : Copied 800 600 rect_left 15 0 := by
    unfold Copied
    decide
  obtain ⟨r, hr, hcovers⟩ :=
    (hok.2 15 (by decide) 0 (by decide)).mp ⟨rect_left, List.mem_singleton_self _, hcopied⟩
  rw [List.mem_singleton.mp hr] at hcovers
  exact absurd hcovers.1.2 (by decide)

/-- Right of the screen there is no pixel to copy, and the size is out of all bounds. -/
example : ¬RectOk 800 600 ⟨900, 0, 10, 1⟩ := by
  unfold RectOk ColumnsOk
  decide

end SysInC.Kgfx
