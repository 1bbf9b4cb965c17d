/-
The loop over the markers of a JPEG file, in `load_jpeg_memory` of `src/imgview/imgview.c`: the
quantisation tables, the frame header, the Huffman tables, the scan header.

`ctx->size` is compared with zero once a turn, before the marker, and with 6 in the frame header,
which reads 8 bytes and more. The lengths, counts and identifiers of the segments are believed.
-/
import SysInC.CInt
import SysInC.WhileLoop
import SysInC.JpegHuffman

set_option autoImplicit false

namespace SysInC.Jpeg

open PartialRun CInt

/-! ## The source -/

/-- What the markers say of a component. `pixels` is what `malloc` is asked for. -/
structure nj_component_t where
  cid : ℕ
  ssx : ℕ
  ssy : ℕ
  width : ℕ
  height : ℕ
  stride : ℕ
  qtsel : ℕ
  actabsel : ℕ
  dctabsel : ℕ
  pixels : ℤ

/-- `pos` is a place in the file. -/
structure nj_context_t where
  pos : ℕ
  size : ℤ
  width : ℕ
  height : ℕ
  mbwidth : ℕ
  mbheight : ℕ
  mbsizex : ℕ
  mbsizey : ℕ
  ncomp : ℕ
  comp : Fin 3 → nj_component_t
  qtab : Fin 4 → Fin 64 → UInt8
  vlctab : Tables

/-- What `calloc` gives, with the file in it. -/
def nj_context (fsize : ℕ) : nj_context_t where
  pos := 0
  size := to_int fsize
  width := 0
  height := 0
  mbwidth := 0
  mbheight := 0
  mbsizex := 0
  mbsizey := 0
  ncomp := 0
  comp := fun _ => ⟨0, 0, 0, 0, 0, 0, 0, 0, 0, 0⟩
  qtab := fun _ _ => 0
  vlctab := fun _ _ => ⟨0, 0⟩

/-- `ctx->pos += n; ctx->size -= n;` -/
def nj_context_t.skip (ctx : nj_context_t) (n : ℕ) : nj_context_t :=
  { ctx with pos := ctx.pos + n, size := ctx.size - n }

/-- `*ctx->pos++; ctx->size--;` -/
def next (raw : List UInt8) (ctx : nj_context_t) : Option (UInt8 × nj_context_t) :=
  (raw[ctx.pos]?).map fun b => (b, ctx.skip 1)

/-- `(raw[i] << 8) | raw[i + 1]` -/
def word (raw : List UInt8) (i : ℕ) : Option ℕ :=
  (raw[i]?).bind fun hi => (raw[i + 1]?).map fun lo => hi.toNat <<< 8 ||| lo.toNat

/-- `a / b` -/
def div (a b : ℕ) : Option ℕ := if b = 0 then none else some (a / b)

/-! ### SOF -/

/-- A component of the frame header, with `max_ssx` and `max_ssy` so far. -/
def read_component (raw : List UInt8) (s : nj_context_t × ℕ × ℕ) (i : ℕ) :
    Option (nj_context_t × ℕ × ℕ) :=
  let (ctx, max_ssx, max_ssy) := s
  (raw[ctx.pos]?).bind fun cid => (raw[ctx.pos + 1]?).bind fun ss =>
    (raw[ctx.pos + 2]?).bind fun qtsel =>
      let ssx := ss.toNat >>> 4
      let ssy := ss.toNat &&& 15
      (peek ctx.comp i).bind fun c =>
        (poke ctx.comp i { c with cid := cid.toNat, ssx, ssy, qtsel := qtsel.toNat }).map
          fun comp => (({ ctx with comp } : nj_context_t).skip 3,
            if max_ssx < ssx then ssx else max_ssx, if max_ssy < ssy then ssy else max_ssy)

/-- The size of the component in pixels. The product for `malloc` is an `int`, and wraps. -/
def size_component (ctx : nj_context_t) (max_ssx max_ssy : ℕ) (comp : Fin 3 → nj_component_t)
    (i : ℕ) : Option (Fin 3 → nj_component_t) :=
  (peek comp i).bind fun c =>
    (div (ctx.width * c.ssx + max_ssx - 1) max_ssx).bind fun width =>
      (div (ctx.height * c.ssy + max_ssy - 1) max_ssy).bind fun height =>
        let stride := (ctx.mbwidth * c.ssx) <<< 3
        poke comp i { c with width, height, stride,
                             pixels := to_int (stride * (ctx.mbheight * c.ssy) <<< 3) }

/-- The frame header behind its 8 bytes and its components. -/
def size_frame (ctx : nj_context_t) (len max_ssx max_ssy : ℕ) : Option nj_context_t :=
  let mbsizex := max_ssx <<< 3
  let mbsizey := max_ssy <<< 3
  (div (ctx.width + mbsizex - 1) mbsizex).bind fun mbwidth =>
    (div (ctx.height + mbsizey - 1) mbsizey).bind fun mbheight =>
      let ctx := { ctx with mbsizex, mbsizey, mbwidth, mbheight }
      ((List.range ctx.ncomp).foldlM (size_component ctx max_ssx max_ssy) ctx.comp).map fun comp =>
        -- `len - 8 - ncomp * 3` more, which may be back
        { ctx with comp, pos := ctx.pos + len - (8 + ctx.ncomp * 3),
                   size := ctx.size - (len - 8 - ctx.ncomp * 3) }

def read_frame (raw : List UInt8) (ctx : nj_context_t) : Option nj_context_t :=
  (word raw ctx.pos).bind fun len => (word raw (ctx.pos + 3)).bind fun height =>
    (word raw (ctx.pos + 5)).bind fun width => (raw[ctx.pos + 7]?).bind fun ncomp =>
      let ctx := ({ ctx with height, width, ncomp := ncomp.toNat } : nj_context_t).skip 8
      ((List.range ncomp.toNat).foldlM (read_component raw) (ctx, 0, 0)).bind
        fun (ctx, max_ssx, max_ssy) => size_frame ctx len max_ssx max_ssy

/-! ### DQT -/

/-- A context with `len`, what is left of a segment. -/
abbrev Segment := nj_context_t × ℤ

def more (s : Segment) : Bool := 0 < s.2

/-- `ctx->qtab[idx][i] = *ctx->pos++; ctx->size--; len--;` -/
def read_quantum (raw : List UInt8) (idx : ℕ) (s : Segment) (i : ℕ) : Option Segment :=
  (next raw s.1).bind fun (b, ctx) =>
    (peek ctx.qtab idx).bind fun table => (poke table i b).bind fun table =>
      (poke ctx.qtab idx table).map fun qtab => ({ ctx with qtab }, s.2 - 1)

def read_qtab (raw : List UInt8) (s : Segment) : Option Segment :=
  (next raw s.1).bind fun (qid, ctx) =>
    (List.range 64).foldlM (read_quantum raw (qid.toNat &&& 15)) (ctx, s.2 - 1)

def read_qtabs (raw : List UInt8) (ctx : nj_context_t) : Option nj_context_t :=
  (word raw ctx.pos).bind fun len =>
    (WhileLoop.run more (read_qtab raw) len (ctx.skip 2, len - 2)).map Prod.fst

/-! ### DHT -/

/-- `counts[i] = *ctx->pos++; ctx->size--; len--; total += counts[i];` -/
def read_count (raw : List UInt8) (s : Segment × (Fin 16 → UInt8) × ℕ) (i : ℕ) :
    Option (Segment × (Fin 16 → UInt8) × ℕ) :=
  let ((ctx, len), counts, total) := s
  (next raw ctx).bind fun (b, ctx) =>
    (poke counts i b).map fun counts => ((ctx, len - 1), counts, total + b.toNat)

/-- `values[i] = *ctx->pos++; ctx->size--; len--;` -/
def read_value (raw : List UInt8) (s : Segment × (Fin 256 → UInt8)) (i : ℕ) :
    Option (Segment × (Fin 256 → UInt8)) :=
  let ((ctx, len), values) := s
  (next raw ctx).bind fun (b, ctx) =>
    (poke values i b).map fun values => ((ctx, len - 1), values)

/-- One Huffman table. What is in the two arrays before them is not read. -/
def read_huff (raw : List UInt8) (s : Segment) : Option Segment :=
  (next raw s.1).bind fun (hid, ctx) =>
    let is_ac := (hid.toNat >>> 4) &&& 1
    let idx := (hid.toNat &&& 15) ||| (if is_ac ≠ 0 then 2 else 0)
    ((List.range 16).foldlM (read_count raw) ((ctx, s.2 - 1), (fun _ => 0), 0)).bind
      fun (s, counts, total) =>
        ((List.range total).foldlM (read_value raw) (s, fun _ => 0)).bind fun (s, values) =>
          (njBuildHuff s.1.vlctab idx counts values).map fun vlctab => ({ s.1 with vlctab }, s.2)

def read_huffs (raw : List UInt8) (ctx : nj_context_t) : Option nj_context_t :=
  (word raw ctx.pos).bind fun len =>
    (WhileLoop.run more (read_huff raw) len (ctx.skip 2, len - 2)).map Prod.fst

/-! ### SOS -/

/-- `if (ctx->comp[j].cid == cid)`: the tables of component `j`. -/
def select_component (cid sel : ℕ) (comp : Fin 3 → nj_component_t) (j : ℕ) :
    Option (Fin 3 → nj_component_t) :=
  (peek comp j).bind fun c =>
    if c.cid = cid then
      poke comp j { c with dctabsel := (sel >>> 4) &&& 15, actabsel := (sel &&& 15) ||| 2 }
    else some comp

def read_selection (raw : List UInt8) (ctx : nj_context_t) (_i : ℕ) : Option nj_context_t :=
  (next raw ctx).bind fun (cid, ctx) => (next raw ctx).bind fun (sel, ctx) =>
    ((List.range ctx.ncomp).foldlM (select_component cid.toNat sel.toNat) ctx.comp).map fun comp =>
      { ctx with comp }

def read_scan (raw : List UInt8) (ctx : nj_context_t) : Option nj_context_t :=
  (word raw ctx.pos).bind fun _ => (next raw (ctx.skip 2)).bind fun (ncomp, ctx) =>
    ((List.range ncomp.toNat).foldlM (read_selection raw) ctx).map fun ctx => ctx.skip 3

/-! ### The loop -/

/-- `while (marker == 0xFF && ctx->size > 0) { marker = *ctx->pos++; ctx->size--; }` -/
def skip_fill (raw : List UInt8) (s : UInt8 × nj_context_t) : Option (UInt8 × nj_context_t) :=
  WhileLoop.run (fun s => s.1 == 0xFF && decide (0 < s.2.size)) (fun s => next raw s.2)
    s.2.size.toNat s

/-- The segment of a marker, and whether the loop is left. -/
def read_segment (raw : List UInt8) (marker : UInt8) (ctx : nj_context_t) :
    Option (nj_context_t × Bool) :=
  if marker = 0xD9 then some (ctx, true)
  else if marker = 0xC0 ∨ marker = 0xC2 then
    if ctx.size < 6 then some (ctx, true) else (read_frame raw ctx).map (·, false)
  else if marker = 0xDB then (read_qtabs raw ctx).map (·, false)
  else if marker = 0xC4 then (read_huffs raw ctx).map (·, false)
  else if marker = 0xDA then (read_scan raw ctx).map (·, true)
  else if 0xE0 ≤ marker ∧ marker ≤ 0xFE then
    (word raw ctx.pos).map fun len => (ctx.skip len, false)
  else some (ctx, false)

/-- `while (ctx->size > 0)`, where the loop is not left. -/
def goes_on (s : nj_context_t × Bool) : Bool := decide (0 < s.1.size) && !s.2

/-- A turn of the loop. -/
def read_marker (raw : List UInt8) (s : nj_context_t × Bool) : Option (nj_context_t × Bool) :=
  (next raw s.1).bind fun (b, ctx) =>
    if b ≠ 0xFF then some (ctx, false)
    else (next raw ctx).bind fun s => (skip_fill raw s).bind fun (marker, ctx) =>
      read_segment raw marker ctx

/-- `load_jpeg_memory` up to the end of the loop, with whether there is memory for the context;
`some none` is `NULL`. A turn reads a byte, so there are at most as many. What is `none` is a read
behind the end of the file, an index outside of an array, or a division by zero. -/
def load_jpeg_markers (calloc : Bool) (raw : List UInt8) : Option (Option (nj_context_t × Bool)) :=
  if raw.length < 4 ∨ raw.getD 0 0 ≠ 0xFF ∨ raw.getD 1 0 ≠ 0xD8 then some none
  else if calloc = false then some none
  else (WhileLoop.run goes_on (read_marker raw) raw.length (nj_context raw.length, false)).map some

end SysInC.Jpeg
