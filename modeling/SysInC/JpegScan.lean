/-
The scan of a JPEG file in `load_jpeg_memory` of `src/imgview/imgview.c`: its blocks, the transform
of each one, and the planes of the components.

A component may have several blocks in a unit, and these are not read in the order of its plane. But
what a pixel becomes depends on its place alone, by the block that it is in.
-/
import SysInC.JpegMarkers
import SysInC.JpegBlocks

set_option autoImplicit false

namespace SysInC.Jpeg

open PartialRun BitStream Painting

/-! ## The source -/

def njClip (x : Int32) : UInt8 :=
  if x < 0 then 0 else if 255 < x then 255 else UInt8.ofNat x.toInt.toNat

/-- What `njRowIDCT` and `njColIDCT` have in common, up to the last shift. `int` wraps around. -/
def idct (blk : Fin 8 → Int32) (x0 x1 : Int32) : Fin 8 → Int32 :=
  let x2 := blk 6
  let x3 := blk 2
  let x4 := blk 1
  let x5 := blk 7
  let x6 := blk 5
  let x7 := blk 3
  let x8 := 565 * (x4 + x5)
  let x4 := x8 + 2276 * x4
  let x5 := x8 - 3406 * x5
  let x8 := 2408 * (x6 + x7)
  let x6 := x8 - 799 * x6
  let x7 := x8 - 4017 * x7
  let x8 := x0 + x1
  let x0 := x0 - x1
  let x1 := 1108 * (x3 + x2)
  let x2 := x1 - 3784 * x2
  let x3 := x1 + 1567 * x3
  let x1 := x4 + x6
  let x4 := x4 - x6
  let x6 := x5 + x7
  let x5 := x5 - x7
  let x7 := x8 + x3
  let x8 := x8 - x3
  let x3 := x0 + x2
  let x0 := x0 - x2
  let x2 := (181 * (x4 + x5) + 128) >>> 8
  let x4 := (181 * (x4 - x5) + 128) >>> 8
  ![x7 + x1, x3 + x2, x0 + x4, x8 + x6, x8 - x6, x0 - x4, x3 - x2, x7 - x1]

def njRowIDCT (blk : Fin 8 → Int32) : Fin 8 → Int32 :=
  let x1 := blk 4 <<< 11
  if x1 ||| blk 6 ||| blk 2 ||| blk 1 ||| blk 7 ||| blk 5 ||| blk 3 = 0 then fun _ => blk 0 <<< 3
  else fun i => idct blk ((blk 0 <<< 11) + 128) x1 i >>> 8

/-- The bytes of a column, from its eight numbers. -/
def njColIDCT (blk : Fin 8 → Int32) : Fin 8 → UInt8 :=
  let x1 := blk 4 <<< 8
  if x1 ||| blk 6 ||| blk 2 ||| blk 1 ||| blk 7 ||| blk 5 ||| blk 3 = 0 then
    fun _ => njClip (((blk 0 + 32) >>> 6) + 128)
  else fun i => njClip ((idct blk ((blk 0 <<< 8) + 8192) x1 i >>> 14) + 128)

/-- The bytes of a block, by row and column: its rows are transformed, and then the columns. -/
def transform (block : Fin 64 → ℤ) (y x : Fin 8) : UInt8 :=
  let rows (r : Fin 8) : Fin 8 → Int32 :=
    njRowIDCT fun i => Int32.ofInt (block ⟨8 * r + i, by omega⟩)
  njColIDCT (fun r => rows r x) y

/-- What a scan changes: the reader, `dcpred` and `pixels` of each component. -/
structure scan_state where
  ctx : nj_bits_t
  dcpred : Fin 3 → ℤ
  pixels : Fin 3 → ℕ → UInt8

/-- `out[i] = v;` in a plane of `size` bytes. -/
def write_pixel (size : ℤ) (plane : ℕ → UInt8) (i : ℕ) (v : UInt8) : Option (ℕ → UInt8) :=
  if (i : ℤ) < size then some (Function.update plane i v) else none

/-- The loop over the columns of a block, where `out` is the place `ptr` of the plane. -/
def write_block (size : ℤ) (stride ptr : ℕ) (bytes : Fin 8 → Fin 8 → UInt8) (plane : ℕ → UInt8) :
    Option (ℕ → UInt8) :=
  (List.range 8).foldlM (fun plane (coef : ℕ) =>
    (List.range 8).foldlM (fun plane (row : ℕ) =>
      write_pixel size plane (ptr + coef + row * stride)
        (bytes (Fin.ofNat 8 row) (Fin.ofNat 8 coef))) plane) plane

/-- `njDecodeBlock(ctx, &ctx->comp[i], &ctx->comp[i].pixels[ptr])` -/
def njDecodeBlock (raw : List UInt8) (ctx : nj_context_t) (i ptr : ℕ) (s : scan_state) :
    Option scan_state :=
  (peek ctx.comp i).bind fun c => (peek ctx.vlctab c.dctabsel).bind fun dctab =>
    (peek ctx.vlctab c.actabsel).bind fun actab => (peek ctx.qtab c.qtsel).bind fun qtab =>
      (peek s.dcpred i).bind fun dcpred =>
        (read_coefficients raw dctab actab qtab dcpred s.ctx).bind fun (block, dcpred, bits) =>
          (poke s.dcpred i dcpred).bind fun dcpred => (peek s.pixels i).bind fun plane =>
            (write_block c.pixels c.stride ptr (transform block) plane).bind fun plane =>
              (poke s.pixels i plane).map fun pixels => ⟨bits, dcpred, pixels⟩

/-- The loops over the units, the components and their blocks in a unit. -/
def decode_scan (raw : List UInt8) (ctx : nj_context_t) (s : scan_state) : Option scan_state :=
  (List.range ctx.mbheight).foldlM (fun s mby =>
    (List.range ctx.mbwidth).foldlM (fun s mbx =>
      (List.range ctx.ncomp).foldlM (fun s i =>
        (peek ctx.comp i).bind fun c =>
          (List.range c.ssy).foldlM (fun s ssy =>
            (List.range c.ssx).foldlM (fun s ssx =>
              njDecodeBlock raw ctx i
                (((mby * c.ssy + ssy) * c.stride + (mbx * c.ssx + ssx)) <<< 3) s) s) s) s) s) s

/-! ## The order of the blocks -/

/-- A component, by its index. -/
def component (ctx : nj_context_t) (i : ℕ) : nj_component_t :=
  if h : i < 3 then ctx.comp ⟨i, h⟩ else ctx.comp ⟨0, Nat.succ_pos 2⟩

/-- The blocks of a scan in their order: the component, and the row and the column in its plane. -/
def blocks_of (ctx : nj_context_t) : List (ℕ × ℕ × ℕ) :=
  (List.range ctx.mbheight).flatMap fun mby =>
    (List.range ctx.mbwidth).flatMap fun mbx =>
      (List.range ctx.ncomp).flatMap fun i =>
        (List.range (component ctx i).ssy).flatMap fun ssy =>
          (List.range (component ctx i).ssx).map fun ssx =>
            (i, mby * (component ctx i).ssy + ssy, mbx * (component ctx i).ssx + ssx)

/-- A block is read into its place. -/
def decode_unit (raw : List UInt8) (ctx : nj_context_t) (s : scan_state) (u : ℕ × ℕ × ℕ) :
    Option scan_state :=
  njDecodeBlock raw ctx u.1 ((u.2.1 * (component ctx u.1).stride + u.2.2) <<< 3) s

theorem foldlM_flatMap {α β σ : Type*} (f : σ → β → Option σ) (g : α → List β) (l : List α)
    (s : σ) : (l.flatMap g).foldlM f s = l.foldlM (fun s a => (g a).foldlM f s) s := by
  induction l generalizing s with
  | nil => rfl
  | cons a l ih =>
    rw [List.flatMap_cons, List.foldlM_append, List.foldlM_cons]
    apply bind_congr
    intro s'
    exact ih s'

theorem foldlM_congr_mem {α σ : Type*} {f g : σ → α → Option σ} {l : List α}
    (h : ∀ a ∈ l, ∀ s, f s a = g s a) (s : σ) : l.foldlM f s = l.foldlM g s := by
  induction l generalizing s with
  | nil => rfl
  | cons a l ih =>
    obtain ⟨ha, hl⟩ := List.forall_mem_cons.mp h
    rw [List.foldlM_cons, List.foldlM_cons, ha s]
    apply bind_congr
    intro s'
    exact ih hl s'

theorem peek_component {ctx : nj_context_t} {i : ℕ} (hi : i < 3) :
    peek ctx.comp i = some (component ctx i) := by
  rw [peek_of_lt hi, component, dif_pos hi]

theorem decode_scan_eq (raw : List UInt8) {ctx : nj_context_t} (hncomp : ctx.ncomp ≤ 3)
    (s : scan_state) : decode_scan raw ctx s = (blocks_of ctx).foldlM (decode_unit raw ctx) s := by
  unfold decode_scan blocks_of
  simp only [foldlM_flatMap, List.foldlM_map]
  apply foldlM_congr_mem
  intro mby _ s
  apply foldlM_congr_mem
  intro mbx _ s
  apply foldlM_congr_mem
  intro i hi s
  have hlt : i < ctx.ncomp := List.mem_range.mp hi
  rw [peek_component (hlt.trans_le hncomp)]
  rfl

theorem mem_blocks_of {ctx : nj_context_t} {i y x : ℕ} :
    (i, y, x) ∈ blocks_of ctx ↔ i < ctx.ncomp ∧ y < ctx.mbheight * (component ctx i).ssy
      ∧ x < ctx.mbwidth * (component ctx i).ssx := by
  unfold blocks_of
  simp only [List.mem_flatMap, List.mem_map, List.mem_range, Prod.mk.injEq]
  constructor
  · rintro ⟨mby, hmby, mbx, hmbx, i', hi, ssy, hssy, ssx, hssx, rfl, rfl, rfl⟩
    have hrows := Nat.mul_le_mul_right (component ctx i').ssy (Nat.succ_le_of_lt hmby)
    have hcolumns := Nat.mul_le_mul_right (component ctx i').ssx (Nat.succ_le_of_lt hmbx)
    rw [Nat.succ_mul] at hrows hcolumns
    exact ⟨hi, by omega, by omega⟩
  · rintro ⟨hi, hy, hx⟩
    have hssy : 0 < (component ctx i).ssy := Nat.pos_of_mul_pos_left (Nat.zero_lt_of_lt hy)
    have hssx : 0 < (component ctx i).ssx := Nat.pos_of_mul_pos_left (Nat.zero_lt_of_lt hx)
    exact ⟨y / (component ctx i).ssy, (Nat.div_lt_iff_lt_mul hssy).mpr hy,
      x / (component ctx i).ssx, (Nat.div_lt_iff_lt_mul hssx).mpr hx, i, hi,
      y % (component ctx i).ssy, Nat.mod_lt _ hssy, x % (component ctx i).ssx, Nat.mod_lt _ hssx,
      rfl, Nat.div_add_mod' _ _, Nat.div_add_mod' _ _⟩

/-! ## The place of a block -/

/-- The places of a block in a plane of the stride. -/
def block_places (stride y x : ℕ) : Set ℕ := {n | n / stride / 8 = y ∧ n % stride / 8 = x}

/-- A place by its row and column in the block. -/
theorem block_place {stride x coef : ℕ} (y row : ℕ) (hx : x * 8 + 8 ≤ stride) (hcoef : coef < 8) :
    (((y * stride + x) <<< 3 + coef + row * stride) / stride = y * 8 + row)
      ∧ ((y * stride + x) <<< 3 + coef + row * stride) % stride = x * 8 + coef := by
  have hplace : (y * stride + x) <<< 3 + coef + row * stride
      = (x * 8 + coef) + stride * (y * 8 + row) := by
    rw [Nat.shiftLeft_eq]
    ring
  have hlt : x * 8 + coef < stride := by omega
  rw [hplace, Nat.add_mul_div_left _ _ (Nat.zero_lt_of_lt hlt), Nat.div_eq_of_lt hlt, zero_add,
    Nat.add_mul_mod_self_left, Nat.mod_eq_of_lt hlt]
  exact ⟨rfl, rfl⟩

theorem write_pixel_eq {size : ℤ} {plane : ℕ → UInt8} {i : ℕ} {v : UInt8} {u : ℕ → UInt8}
    (hi : (i : ℤ) < size) (hv : u i = v) :
    write_pixel size plane i v = some (paint {i} (fun i _ => u i) plane) := by
  rw [write_pixel, if_pos hi, update_eq_paint (v := fun i _ => u i) hv]

/-- A block is written into its places. -/
theorem write_block_eq {size : ℤ} {stride y x : ℕ} {bytes : Fin 8 → Fin 8 → UInt8} {u : ℕ → UInt8}
    (hx : x * 8 + 8 ≤ stride) (hsize : (((y * 8 + 8) * stride : ℕ) : ℤ) ≤ size)
    (hu : ∀ row < 8, ∀ coef < 8, u ((y * stride + x) <<< 3 + coef + row * stride)
      = bytes (Fin.ofNat 8 row) (Fin.ofNat 8 coef)) (plane : ℕ → UInt8) :
    write_block size stride ((y * stride + x) <<< 3) bytes plane
      = some (paint (block_places stride y x) (fun n _ => u n) plane) := by
  have hcolumn : ∀ coef < 8, ∀ plane, (List.range 8).foldlM (fun plane (row : ℕ) =>
      write_pixel size plane ((y * stride + x) <<< 3 + coef + row * stride)
        (bytes (Fin.ofNat 8 row) (Fin.ofNat 8 coef))) plane
      = some (paint (places (fun row => {(y * stride + x) <<< 3 + coef + row * stride}) 8)
        (fun n _ => u n) plane) := by
    intro coef hcoef
    apply foldlM_range_paint
    intro row hrow plane
    apply write_pixel_eq
    · -- the place is in a row of the block
      obtain ⟨hdiv, -⟩ := block_place y row hx hcoef
      have hlast : ((y * stride + x) <<< 3 + coef + row * stride) / stride
          < ((y * 8 + 8) * stride) / stride := by
        rw [hdiv, Nat.mul_div_cancel _ (by omega)]
        omega
      have hlt := Nat.lt_of_div_lt_div hlast
      omega
    · exact hu row hrow coef hcoef
  rw [write_block, foldlM_range_paint hcolumn plane]
  congr 2
  ext n
  constructor
  · rintro ⟨coef, hcoef, row, hrow, rfl⟩
    obtain ⟨hdiv, hmod⟩ := block_place y row hx hcoef
    exact ⟨by rw [hdiv]; omega, by rw [hmod]; omega⟩
  · rintro ⟨hrow, hcolumn⟩
    refine ⟨n % stride % 8, Nat.mod_lt _ (by decide), n / stride % 8, Nat.mod_lt _ (by decide), ?_⟩
    have hn := Nat.div_add_mod' n stride
    have hdiv := Nat.div_add_mod' (n / stride) 8
    have hmod := Nat.div_add_mod' (n % stride) 8
    rw [hrow] at hdiv
    rw [hcolumn] at hmod
    rw [Set.mem_singleton_iff, Nat.shiftLeft_eq]
    calc n = (y * 8 + n / stride % 8) * stride + (x * 8 + n % stride % 8) := by
          rw [hdiv, hmod, hn]
      _ = (y * stride + x) * 2 ^ 3 + n % stride % 8 + n / stride % 8 * stride := by ring

/-! ## Images -/

/-- What is coded: for each component its tables, and the coefficients of its blocks by row and
column, in the order of the scan. -/
structure image where
  dc : Fin 3 → huff
  ac : Fin 3 → huff
  quanta : Fin 3 → Fin 64 → UInt8
  blocks : Fin 3 → ℕ → ℕ → ℕ → ℤ
  dc_lt : ∀ i y x, (blocks i y x 0).natAbs < 32768

/-- The code of blocks one after the other; each component has its own `dcpred`. -/
inductive ScanCode (im : image) : (Fin 3 → ℤ) → List (ℕ × ℕ × ℕ) → List Bool → Prop where
  | nil (dcpred : Fin 3 → ℤ) : ScanCode im dcpred [] []
  | cons {dcpred : Fin 3 → ℤ} {i : Fin 3} {y x : ℕ} {units : List (ℕ × ℕ × ℕ)} {w w' : List Bool}
      (hw : BlockCode (im.dc i).Code (im.ac i).Code (dcpred i) (im.blocks i y x) w)
      (h : ScanCode im (Function.update dcpred i (im.blocks i y x 0)) units w') :
      ScanCode im dcpred ((i.val, y, x) :: units) (w ++ w')

/-- The byte of a pixel: it is in one block, and there in one row and column. -/
def image.pixel (im : image) (i : Fin 3) (y x : ℕ) : UInt8 :=
  transform (dequantised (im.quanta i) (im.blocks i (y / 8) (x / 8))) (Fin.ofNat 8 y)
    (Fin.ofNat 8 x)

/-- The segments before the scan are those of the image, and `pixels` has been allocated. -/
structure Announces (ctx : nj_context_t) (im : image) : Prop where
  ncomp : ctx.ncomp ≤ 3
  stride : ∀ i : Fin 3, i.val < ctx.ncomp →
    (ctx.comp i).stride = ctx.mbwidth * (ctx.comp i).ssx * 8
  pixels : ∀ i : Fin 3, i.val < ctx.ncomp → (ctx.comp i).pixels
    = ((ctx.mbheight * (ctx.comp i).ssy * 8 * (ctx.comp i).stride : ℕ) : ℤ)
  dctab : ∀ i : Fin 3, i.val < ctx.ncomp →
    ∃ tab, peek ctx.vlctab (ctx.comp i).dctabsel = some tab ∧ (im.dc i).BuiltIn tab
  actab : ∀ i : Fin 3, i.val < ctx.ncomp →
    ∃ tab, peek ctx.vlctab (ctx.comp i).actabsel = some tab ∧ (im.ac i).BuiltIn tab
  qtab : ∀ i : Fin 3, i.val < ctx.ncomp → peek ctx.qtab (ctx.comp i).qtsel = some (im.quanta i)

section Scan

variable {raw : List UInt8} {ctx : nj_context_t} {im : image} {s : Stream' Bool} {st : scan_state}

theorem component_fin (ctx : nj_context_t) (i : Fin 3) : component ctx i = ctx.comp i :=
  dif_pos i.isLt

/-- The places of a block among those of all planes. -/
def unit_places (ctx : nj_context_t) (u : ℕ × ℕ × ℕ) : Set (Fin 3 × ℕ) :=
  {p | p.1.val = u.1 ∧ p.2 ∈ block_places (ctx.comp p.1).stride u.2.1 u.2.2}

/-- The bytes that the image has in the planes. -/
def plane_byte (ctx : nj_context_t) (im : image) (p : Fin 3 × ℕ) : UInt8 :=
  im.pixel p.1 (p.2 / (ctx.comp p.1).stride) (p.2 % (ctx.comp p.1).stride)

/-- What the blocks leave: the reader is behind their code, and the bytes of the image are in their
places. -/
structure Decoded (raw : List UInt8) (ctx : nj_context_t) (im : image) (s : Stream' Bool)
    (done : Set (Fin 3 × ℕ)) (st st' : scan_state) : Prop where
  reads : Reads raw s st'.ctx
  planes : ∀ p : Fin 3 × ℕ, st'.pixels p.1 p.2
    = paint done (fun p _ => plane_byte ctx im p) (fun p => st.pixels p.1 p.2) p

theorem decode_unit_reads (hctx : Announces ctx im) {i : Fin 3} {y x : ℕ}
    (hu : (i.val, y, x) ∈ blocks_of ctx) {w : List Bool}
    (hw : BlockCode (im.dc i).Code (im.ac i).Code (st.dcpred i) (im.blocks i y x) w)
    (hreads : Reads raw (w ++ₛ s) st.ctx) :
    ∃ st', decode_unit raw ctx st (i.val, y, x) = some st'
      ∧ st'.dcpred = Function.update st.dcpred i (im.blocks i y x 0)
      ∧ Decoded raw ctx im s (unit_places ctx (i.val, y, x)) st st' := by
  obtain ⟨hi, hy, hx⟩ := mem_blocks_of.mp hu
  rw [component_fin] at hy hx
  obtain ⟨dctab, hdctab, hdc⟩ := hctx.dctab i hi
  obtain ⟨actab, hactab, hac⟩ := hctx.actab i hi
  obtain ⟨bits, hread, hbits⟩ := read_coefficients_reads (im.quanta i)
    (fun _ _ h => hdc.finds h) (fun _ _ h => hac.finds h) hw (im.dc_lt i y x) hreads
  have hstride := hctx.stride i hi
  have hcolumns : x * 8 + 8 ≤ (ctx.comp i).stride := by
    rw [hstride]
    omega
  have hrows : (((y * 8 + 8) * (ctx.comp i).stride : ℕ) : ℤ) ≤ (ctx.comp i).pixels := by
    rw [hctx.pixels i hi]
    exact Int.ofNat_le.mpr (Nat.mul_le_mul_right _ (by omega))
  -- a byte of the block is the byte of the image at its place
  have hvalue : ∀ row < 8, ∀ coef < 8,
      plane_byte ctx im (i, (y * (ctx.comp i).stride + x) <<< 3 + coef
        + row * (ctx.comp i).stride)
      = transform (dequantised (im.quanta i) (im.blocks i y x)) (Fin.ofNat 8 row)
        (Fin.ofNat 8 coef) := by
    intro row hrow coef hcoef
    obtain ⟨hdiv, hmod⟩ := block_place y row hcolumns hcoef
    have hrow8 : Fin.ofNat 8 (y * 8 + row) = Fin.ofNat 8 row :=
      Fin.ext (Nat.mul_add_mod' y 8 row)
    have hcoef8 : Fin.ofNat 8 (x * 8 + coef) = Fin.ofNat 8 coef :=
      Fin.ext (Nat.mul_add_mod' x 8 coef)
    unfold plane_byte image.pixel
    dsimp only
    rw [hdiv, hmod, hrow8, hcoef8, show (y * 8 + row) / 8 = y by omega,
      show (x * 8 + coef) / 8 = x by omega]
  have hwrite := write_block_eq (u := fun n => plane_byte ctx im (i, n)) hcolumns hrows hvalue
    (st.pixels i)
  unfold decode_unit njDecodeBlock
  rw [peek_component i.isLt, component_fin, Option.bind_some, hdctab, Option.bind_some, hactab,
    Option.bind_some, hctx.qtab i hi, Option.bind_some, peek_of_lt i.isLt, Option.bind_some, hread,
    Option.bind_some]
  dsimp only
  rw [poke_of_lt i.isLt, Option.bind_some, peek_of_lt i.isLt, Option.bind_some, hwrite,
    Option.bind_some, poke_of_lt i.isLt, Option.map_some]
  refine ⟨_, rfl, rfl, hbits, ?_⟩
  rintro ⟨j, n⟩
  dsimp only
  by_cases hj : j = i
  · subst hj
    rw [Function.update_self]
    by_cases hn : n ∈ block_places (ctx.comp j).stride y x
    · have hmem : (j, n) ∈ unit_places ctx (j.val, y, x) := ⟨rfl, hn⟩
      rw [paint_of_mem hn, paint_of_mem hmem]
    · rw [paint_of_notMem hn, paint_of_notMem fun h => hn h.2]
  · rw [Function.update_of_ne hj, paint_of_notMem fun h => hj (Fin.ext h.1)]

/-- The places of blocks. -/
def all_places (ctx : nj_context_t) (units : List (ℕ × ℕ × ℕ)) : Set (Fin 3 × ℕ) :=
  {p | ∃ u ∈ units, p ∈ unit_places ctx u}

/-- The induction follows the code of the blocks. -/
theorem decode_units_reads (hctx : Announces ctx im) {dcpred : Fin 3 → ℤ}
    {units : List (ℕ × ℕ × ℕ)} {w : List Bool} (hw : ScanCode im dcpred units w)
    (hunits : ∀ u ∈ units, u ∈ blocks_of ctx) (hdcpred : st.dcpred = dcpred)
    (hreads : Reads raw (w ++ₛ s) st.ctx) :
    ∃ st', units.foldlM (decode_unit raw ctx) st = some st'
      ∧ Decoded raw ctx im s (all_places ctx units) st st' := by
  induction hw generalizing st with
  | nil =>
    have hnone : all_places ctx [] = ∅ := by simp [all_places]
    exact ⟨st, rfl, hreads, fun p => by rw [hnone, paint_empty]⟩
  | @cons dcpred i y x units w w' hw h ih =>
    subst hdcpred
    obtain ⟨hu, hrest⟩ := List.forall_mem_cons.mp hunits
    rw [Stream'.append_append_stream] at hreads
    obtain ⟨st₁, hunit, hdcpred₁, h₁⟩ := decode_unit_reads hctx hu hw hreads
    obtain ⟨st', hloop, h₂⟩ := ih hrest hdcpred₁ h₁.reads
    refine ⟨st', ?_, h₂.reads, fun p => ?_⟩
    · rw [List.foldlM_cons, hunit]
      exact hloop
    · have hsplit : all_places ctx ((i.val, y, x) :: units)
          = unit_places ctx (i.val, y, x) ∪ all_places ctx units := by
        ext p
        simp [all_places]
      rw [hsplit, ← paint_paint (settled_const (plane_byte ctx im)), h₂.planes p]
      exact paint_apply_congr (h₁.planes p)

/-- A byte 0 is put behind each 0xFF. -/
def stuff (bytes : List UInt8) : List UInt8 :=
  bytes.flatMap fun b => if b = 0xFF then [0xFF, 0] else [b]

theorem unstuff_stuff (bytes rest : List UInt8) :
    unstuff (stuff bytes ++ rest) = bytes ++ unstuff rest := by
  induction bytes with
  | nil => rfl
  | cons b bytes ih =>
    have hcons : stuff (b :: bytes) ++ rest
        = (if b = 0xFF then [0xFF, 0] else [b]) ++ (stuff bytes ++ rest) := by
      rw [stuff, List.flatMap_cons, List.append_assoc]
      rfl
    rw [hcons, List.cons_append, ← ih]
    by_cases hb : b = 0xFF
    · rw [if_pos hb, hb]
      exact unstuff_stuffed 0 _
    · rw [if_neg hb]
      exact unstuff_cons hb _

end Scan

/-- The code of one symbol, which is 0. -/
def one_code : huff where
  counts := fun r => if r = ⟨0, by decide⟩ then 1 else 0
  values := fun _ => 0
  space_le := by decide +kernel
  codes_le := by decide +kernel

/-- An image without any coefficients. -/
def grey : image where
  dc := fun _ => one_code
  ac := fun _ => one_code
  quanta := fun _ _ => 1
  blocks := fun _ _ _ _ => 0
  dc_lt := fun _ _ _ => by decide

end SysInC.Jpeg
