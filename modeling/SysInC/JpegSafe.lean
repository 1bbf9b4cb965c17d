/-
What the loop over the markers of a JPEG file asks of the file.

Each segment has a condition in terms of the bytes that it starts with: that all it announces is
there, that its identifiers are below the sizes of the arrays, and for the frame header that some
component samples in each direction. The loop reads within the file, indexes within its arrays and
divides by no zero exactly when the condition holds of every segment that it comes to; and it ends.
-/
import SysInC.JpegMarkers
import Mathlib.Tactic.Linarith

set_option autoImplicit false

namespace SysInC.Jpeg

open PartialRun CInt

/-! ## Bytes -/

/-- The byte at `i`, where there is one. -/
def byte (raw : List UInt8) (i : ℕ) : ℕ := (raw.getD i 0).toNat

/-- Two bytes, the high one first. -/
def word_at (raw : List UInt8) (i : ℕ) : ℕ := byte raw i <<< 8 ||| byte raw (i + 1)

/-- `ctx'` is `ctx` with `n` bytes read. -/
def Moves (n : ℕ) (ctx ctx' : nj_context_t) : Prop :=
  ctx'.pos = ctx.pos + n ∧ ctx'.size = ctx.size - n ∧ ctx'.ncomp = ctx.ncomp

variable {raw : List UInt8}

theorem moves_skip (ctx : nj_context_t) (n : ℕ) : Moves n ctx (ctx.skip n) := ⟨rfl, rfl, rfl⟩

theorem skip_skip (ctx : nj_context_t) (m n : ℕ) : (ctx.skip m).skip n = ctx.skip (m + n) := by
  unfold nj_context_t.skip
  dsimp only
  rw [Nat.add_assoc, Int.natCast_add, ← sub_sub]

theorem moves_zero (ctx : nj_context_t) : Moves 0 ctx ctx :=
  ⟨rfl, (sub_zero ctx.size).symm, rfl⟩

theorem Moves.trans {m n : ℕ} {a b c : nj_context_t} (h : Moves m a b) (h' : Moves n b c) :
    Moves (m + n) a c := by
  obtain ⟨hpos, hsize, hncomp⟩ := h
  obtain ⟨hpos', hsize', hncomp'⟩ := h'
  exact ⟨by omega, by omega, by omega⟩

theorem returns_byte (raw : List UInt8) (i : ℕ) :
    Returns (raw[i]?) (i < raw.length) fun b => b.toNat = byte raw i := by
  constructor
  · intro h
    exact ⟨_, List.getElem?_eq_getElem h⟩
  · intro b hb
    refine ⟨(List.getElem?_eq_some_iff.mp hb).1, ?_⟩
    rw [byte, List.getD_eq_getElem?_getD, hb, Option.getD_some]

theorem returns_next (raw : List UInt8) (ctx : nj_context_t) :
    Returns (next raw ctx) (ctx.pos < raw.length)
      fun r => r.1.toNat = byte raw ctx.pos ∧ r.2 = ctx.skip 1 :=
  (returns_byte raw ctx.pos).map fun _ hb => ⟨hb, rfl⟩

theorem returns_word (raw : List UInt8) (i : ℕ) :
    Returns (word raw i) (i + 1 < raw.length) fun w => w = word_at raw i := by
  unfold word
  refine ((returns_byte raw i).bind fun hi hhi => (returns_byte raw (i + 1)).map
    (R := fun w => w = word_at raw i) fun lo hlo => ?_).congr (by omega)
  rw [hhi, hlo, word_at]

theorem returns_div (a b : ℕ) : Returns (div a b) (b ≠ 0) fun _ => True := by
  unfold div
  constructor
  · intro h
    exact ⟨_, if_neg h⟩
  · intro v hv
    refine ⟨fun h => ?_, trivial⟩
    rw [if_pos h] at hv
    cases hv

/-! ## SOF -/

/-- The sampling factors of component `i` of the frame header at `p`. -/
def frame_ssx (raw : List UInt8) (p i : ℕ) : ℕ := byte raw (p + 8 + 3 * i + 1) >>> 4

def frame_ssy (raw : List UInt8) (p i : ℕ) : ℕ := byte raw (p + 8 + 3 * i + 1) &&& 15

/-- The frame header at `p` is in the file, has no more components than there is room for, and one
that samples in each direction. -/
def FrameOk (raw : List UInt8) (p : ℕ) : Prop :=
  (p + 8 + 3 * byte raw (p + 7) ≤ raw.length ∧ byte raw (p + 7) ≤ 3) ∧
    (∃ i < byte raw (p + 7), frame_ssx raw p i ≠ 0) ∧
    ∃ i < byte raw (p + 7), frame_ssy raw p i ≠ 0

/-- The components so far, and whether one of them samples. -/
def Read (raw : List UInt8) (p : ℕ) (ctx : nj_context_t) (k : ℕ) (s : nj_context_t × ℕ × ℕ) :
    Prop :=
  Moves (3 * k) ctx s.1 ∧ (s.2.1 ≠ 0 ↔ ∃ i < k, frame_ssx raw p i ≠ 0) ∧
    (s.2.2 ≠ 0 ↔ ∃ i < k, frame_ssy raw p i ≠ 0)

/-- The largest of some numbers is not zero when one of them is not. -/
theorem larger_ne_zero {f : ℕ → ℕ} {k m : ℕ} (h : m ≠ 0 ↔ ∃ i < k, f i ≠ 0) :
    (if m < f k then f k else m) ≠ 0 ↔ ∃ i < k + 1, f i ≠ 0 := by
  rw [Nat.exists_lt_succ_right, ← h]
  split <;> omega

theorem returns_component {p k : ℕ} {ctx : nj_context_t} (hp : ctx.pos = p + 8)
    {s : nj_context_t × ℕ × ℕ} (hs : Read raw p ctx k s) :
    Returns (read_component raw s k) (p + 8 + 3 * k + 2 < raw.length ∧ k < 3)
      (Read raw p ctx (k + 1)) := by
  obtain ⟨cur, max_ssx, max_ssy⟩ := s
  obtain ⟨hmoves, hssx, hssy⟩ := hs
  have hpos : cur.pos = p + 8 + 3 * k := by rw [hmoves.1, hp]
  unfold read_component
  refine ((returns_byte raw _).bind fun cid _ => (returns_byte raw _).bind fun ss hss =>
    (returns_byte raw _).bind fun qtsel _ => (Returns.peek cur.comp k).bind fun c _ =>
      (Returns.poke cur.comp k _).map (R := Read raw p ctx (k + 1)) fun comp _ => ?_).congr ?_
  · rw [hpos] at hss
    rw [hss]
    refine ⟨hmoves.trans ⟨rfl, rfl, rfl⟩, larger_ne_zero hssx, larger_ne_zero hssy⟩
  · omega

theorem returns_components (raw : List UInt8) {p : ℕ} (n : ℕ) {ctx : nj_context_t}
    (hp : ctx.pos = p + 8) :
    Returns ((List.range n).foldlM (read_component raw) (ctx, 0, 0))
      (n = 0 ∨ p + 8 + 3 * n ≤ raw.length ∧ n ≤ 3) (Read raw p ctx n) := by
  have hstart : Read raw p ctx 0 (ctx, 0, 0) := by
    refine ⟨moves_zero ctx, ?_, ?_⟩
    · simp
    · simp
  refine (Returns.range (fun k _ s hs => returns_component hp hs) hstart).congr ?_
  constructor
  · intro h
    rcases Nat.eq_zero_or_pos n with hn | hn
    · exact Or.inl hn
    · obtain ⟨hlast, hk⟩ := h (n - 1) (by omega)
      exact Or.inr ⟨by omega, by omega⟩
  · rintro (rfl | ⟨hlast, hn⟩) k hk
    · exact absurd hk (Nat.not_lt_zero k)
    · exact ⟨by omega, by omega⟩

theorem returns_size_component (ctx : nj_context_t) {max_ssx max_ssy i : ℕ} (hx : max_ssx ≠ 0)
    (hy : max_ssy ≠ 0) (hi : i < 3) (comp : Fin 3 → nj_component_t) :
    Returns (size_component ctx max_ssx max_ssy comp i) True fun _ => True := by
  unfold size_component
  refine ((Returns.peek comp i).bind fun c _ => (returns_div _ _).bind fun width _ =>
    (returns_div _ _).bind fun height _ => Returns.poke comp i _).congr ?_
  exact iff_of_true ⟨hi, hx, hy, hi⟩ trivial

theorem shiftLeft_three_ne_zero (n : ℕ) : n <<< 3 ≠ 0 ↔ n ≠ 0 := by
  rw [Nat.shiftLeft_eq]
  omega

theorem returns_size_frame {ctx : nj_context_t} (hncomp : ctx.ncomp ≤ 3) (len max_ssx max_ssy : ℕ) :
    Returns (size_frame ctx len max_ssx max_ssy) (max_ssx ≠ 0 ∧ max_ssy ≠ 0)
      fun ctx' => ctx'.pos = ctx.pos + len - (8 + ctx.ncomp * 3) ∧
        ctx'.size = ctx.size - (len - 8 - ctx.ncomp * 3) ∧ ctx'.ncomp = ctx.ncomp := by
  by_cases hzero : max_ssx ≠ 0 ∧ max_ssy ≠ 0
  swap
  · -- one of the two divisions for the blocks
    refine ⟨fun h => absurd h hzero, fun ctx' hctx' => absurd ?_ hzero⟩
    obtain ⟨mbwidth, hw, hctx'⟩ := Option.bind_eq_some_iff.mp hctx'
    obtain ⟨mbheight, hh, -⟩ := Option.bind_eq_some_iff.mp hctx'
    have hx := ((returns_div _ _).2 mbwidth hw).1
    have hy := ((returns_div _ _).2 mbheight hh).1
    exact ⟨(shiftLeft_three_ne_zero _).mp hx, (shiftLeft_three_ne_zero _).mp hy⟩
  obtain ⟨hx, hy⟩ := hzero
  unfold size_frame
  refine ((returns_div _ _).bind fun mbwidth _ => (returns_div _ _).bind fun mbheight _ => ?_).congr
    (iff_of_true ⟨(shiftLeft_three_ne_zero _).mpr hx, (shiftLeft_three_ne_zero _).mpr hy, trivial⟩
      ⟨hx, hy⟩)
  refine Returns.map (Q := fun _ => True) (Returns.loop (fun i hi comp _ => ?_) trivial)
    fun comp _ => ⟨rfl, rfl, rfl⟩
  have hlt : i < ctx.ncomp := List.mem_range.mp hi
  exact returns_size_component _ hx hy (by omega) comp

/-- What stands behind a segment of the length that its first two bytes give. -/
def Behind (raw : List UInt8) (ctx ctx' : nj_context_t) : Prop :=
  ctx'.pos = ctx.pos + word_at raw ctx.pos ∧ ctx'.size = ctx.size - word_at raw ctx.pos ∧
    ctx'.ncomp ≤ 3

theorem returns_frame (raw : List UInt8) (ctx : nj_context_t) :
    Returns (read_frame raw ctx) (FrameOk raw ctx.pos) (Behind raw ctx) := by
  unfold read_frame
  set n := byte raw (ctx.pos + 7) with hn
  refine ((returns_word raw _).bind fun len hlen => (returns_word raw _).bind fun height _ =>
    (returns_word raw _).bind fun width _ => (returns_byte raw _).bind
      (H := (n = 0 ∨ ctx.pos + 8 + 3 * n ≤ raw.length ∧ n ≤ 3) ∧
        (∃ i < n, frame_ssx raw ctx.pos i ≠ 0) ∧ ∃ i < n, frame_ssy raw ctx.pos i ≠ 0)
      fun ncomp hncomp => ?_).congr ?_
  · rw [← hn] at hncomp
    rw [hncomp]
    refine (returns_components raw n rfl).keep.bind ?_
    rintro ⟨cur, max_ssx, max_ssy⟩ ⟨hroom, ⟨hpos, hsize, hcount⟩, hssx, hssy⟩
    dsimp only at hpos hsize hcount hssx hssy ⊢
    have hcur : cur.ncomp = n := hcount
    have hle : cur.ncomp ≤ 3 := by
      rcases hroom with hzero | ⟨-, hle⟩
      · rw [hcur, hzero]
        exact Nat.zero_le 3
      · rwa [hcur]
    apply (returns_size_frame hle len max_ssx max_ssy).imp (and_congr hssx hssy)
    clear hssx hssy
    rintro ctx' ⟨hpos', hsize', hcount'⟩
    have hstart : cur.pos = ctx.pos + 8 + 3 * n := hpos
    have hleft : cur.size = ctx.size - 8 - (3 * n : ℕ) := hsize
    exact ⟨by omega, by omega, by omega⟩
  · rw [FrameOk, ← hn]
    constructor
    · rintro ⟨-, -, -, hread, hroom, hsamples⟩
      exact ⟨by omega, hsamples⟩
    · rintro ⟨⟨hread, hroom⟩, hsamples⟩
      exact ⟨by omega, by omega, by omega, by omega, Or.inr ⟨hread, hroom⟩, hsamples⟩

/-! ## Segments of tables -/

/-- The tables from `p` on, one behind the other until no byte of `len` is left; the last of them
may go over it. -/
inductive TablesFrom (Ok : ℕ → Prop) (size : ℕ → ℕ) : ℕ → ℤ → Prop
  | done {p : ℕ} {len : ℤ} (hlen : len ≤ 0) : TablesFrom Ok size p len
  | table {p : ℕ} {len : ℤ} (hlen : 0 < len) (hok : Ok p)
    (hrest : TablesFrom Ok size (p + size p) (len - size p)) : TablesFrom Ok size p len

theorem tablesFrom_iff {Ok : ℕ → Prop} {size : ℕ → ℕ} {p : ℕ} {len : ℤ} (hlen : 0 < len) :
    TablesFrom Ok size p len ↔ Ok p ∧ TablesFrom Ok size (p + size p) (len - size p) := by
  constructor
  · intro h
    cases h with
    | done hle => exact absurd hle (by omega)
    | table _ hok hrest => exact ⟨hok, hrest⟩
  · rintro ⟨hok, hrest⟩
    exact TablesFrom.table hlen hok hrest

/-- `ctx'` is `ctx` with something read. -/
def Advances (ctx ctx' : nj_context_t) : Prop := ∃ n, Moves n ctx ctx'

theorem Advances.trans {a b c : nj_context_t} (h : Advances a b) (h' : Advances b c) :
    Advances a c := by
  obtain ⟨m, hm⟩ := h
  obtain ⟨n, hn⟩ := h'
  exact ⟨m + n, hm.trans hn⟩

/-- What a function does that reads one table. -/
def ReadsTable (read : Segment → Option Segment) (Ok : ℕ → Prop)
    (size : ℕ → ℕ) : Prop :=
  ∀ s, Returns (read s) (Ok s.1.pos)
    fun s' => Moves (size s.1.pos) s.1 s'.1 ∧ s'.2 = s.2 - size s.1.pos

/-- `while (len > 0)` reads them all. -/
theorem returns_tables {read : Segment → Option Segment} {Ok : ℕ → Prop} {size : ℕ → ℕ}
    (hread : ReadsTable read Ok size) (hsize : ∀ p, 0 < size p) {fuel : ℕ} {s : Segment}
    (hfuel : s.2 ≤ fuel) :
    Returns (WhileLoop.run more read fuel s) (TablesFrom Ok size s.1.pos s.2)
      fun t => Advances s.1 t.1 ∧ more t = false := by
  have hmore : ∀ t : Segment, more t = true → 0 < t.2 := fun t => of_decide_eq_true
  have hpos : ∀ t : Segment, Advances s.1 t.1 → more t = true → 0 < t.2.toNat := by
    intro t _ ht
    exact Int.lt_toNat.mpr (hmore t ht)
  have hdone : ∀ t : Segment, more t = false → TablesFrom Ok size t.1.pos t.2 := by
    intro t ht
    exact TablesFrom.done (Int.not_lt.mp (of_decide_eq_false ht))
  have hnext : ∀ t : Segment, Advances s.1 t.1 → more t = true →
      TablesFrom Ok size t.1.pos t.2 → Ok t.1.pos := by
    intro t _ ht hall
    exact ((tablesFrom_iff (hmore t ht)).mp hall).1
  apply WhileLoop.returns_run hpos hdone hnext
  · intro t hadv ht
    refine ⟨(hread t).1, fun t' ht' => ?_⟩
    obtain ⟨hok, hmoves, hlen⟩ := (hread t).2 t' ht'
    have hleft := hmore t ht
    have hsmaller := hsize t.1.pos
    refine ⟨hok, ⟨hadv.trans ⟨_, hmoves⟩, by omega⟩, ?_⟩
    rw [tablesFrom_iff hleft, hmoves.1, hlen, and_iff_right hok]
  · exact ⟨0, moves_zero s.1⟩
  · exact Int.toNat_le.mpr hfuel

/-- So does a segment, which starts with its length. -/
theorem returns_segment {read : Segment → Option Segment} {Ok : ℕ → Prop} {size : ℕ → ℕ}
    (hread : ReadsTable read Ok size) (hsize : ∀ p, 0 < size p) (ctx : nj_context_t) :
    Returns ((word raw ctx.pos).bind fun len =>
        (WhileLoop.run more read len (ctx.skip 2, len - 2)).map Prod.fst)
      (ctx.pos + 2 ≤ raw.length ∧
        TablesFrom Ok size (ctx.pos + 2) (word_at raw ctx.pos - 2)) (Advances ctx) := by
  apply ((returns_word raw ctx.pos).congr (Iff.rfl : _ ↔ ctx.pos + 2 ≤ raw.length)).bind
  rintro len rfl
  refine (returns_tables hread hsize (by dsimp only; omega)).map fun s hs => ?_
  exact Advances.trans ⟨2, moves_skip ctx 2⟩ hs.1

/-! ## DQT -/

/-- The quantisation table at `p` is in the file, and is one of four. -/
def QtabOk (raw : List UInt8) (p : ℕ) : Prop :=
  p + 65 ≤ raw.length ∧ byte raw p &&& 15 < 4

theorem returns_quantum {idx : ℕ} (hidx : idx < 4) {i : ℕ} (hi : i < 64) (s : Segment) :
    Returns (read_quantum raw idx s i) (s.1.pos < raw.length)
      fun s' => Moves 1 s.1 s'.1 ∧ s'.2 = s.2 - 1 := by
  unfold read_quantum
  refine ((returns_next raw s.1).bind fun r hr => ?_).congr (and_iff_left trivial)
  obtain ⟨b, ctx⟩ := r
  obtain ⟨-, rfl⟩ := hr
  refine ((Returns.peek _ idx).bind fun table _ => (Returns.poke table i b).bind fun table _ =>
    (Returns.poke _ idx table).map fun qtab _ => ⟨⟨rfl, rfl, rfl⟩, rfl⟩).congr ?_
  exact iff_of_true ⟨hidx, hi, hidx⟩ trivial

theorem returns_quanta {idx : ℕ} (hidx : idx < 4) (s : Segment) :
    Returns ((List.range 64).foldlM (read_quantum raw idx) s) (s.1.pos + 64 ≤ raw.length)
      fun s' => Moves 64 s.1 s'.1 ∧ s'.2 = s.2 - 64 := by
  have hturn : ∀ k, k < 64 → ∀ s' : Segment, (Moves k s.1 s'.1 ∧ s'.2 = s.2 - k) →
      Returns (read_quantum raw idx s' k) (s.1.pos + k < raw.length)
        fun s'' => Moves (k + 1) s.1 s''.1 ∧ s''.2 = s.2 - (k + 1 : ℕ) := by
    intro k hk s' hs'
    rw [← hs'.1.1]
    apply (returns_quantum hidx hk s').imp Iff.rfl
    rintro s'' ⟨hmoves, hlen⟩
    exact ⟨hs'.1.trans hmoves, by omega⟩
  refine (Returns.range hturn ⟨moves_zero s.1, by omega⟩).congr ?_
  constructor
  · intro h
    have := h 63 (by omega)
    omega
  · intro h k hk
    omega

theorem reads_qtab (raw : List UInt8) :
    ReadsTable (read_qtab raw) (QtabOk raw) fun _ => 65 := by
  intro s
  unfold read_qtab
  by_cases hidx : byte raw s.1.pos &&& 15 < 4
  · refine ((returns_next raw s.1).bind fun r hr => ?_).congr
      (H := QtabOk raw s.1.pos) (G := s.1.pos < raw.length ∧ s.1.pos + 65 ≤ raw.length) ?_
    · obtain ⟨qid, ctx⟩ := r
      obtain ⟨hqid, rfl⟩ := hr
      dsimp only
      rw [hqid]
      apply (returns_quanta hidx _).imp
      · exact (by omega : s.1.pos + 1 + 64 ≤ raw.length ↔ s.1.pos + 65 ≤ raw.length)
      · rintro s' ⟨hmoves, hlen⟩
        exact ⟨(moves_skip s.1 1).trans hmoves, by dsimp only at hlen ⊢; omega⟩
    · rw [QtabOk, and_iff_left hidx]
      omega
  · -- the first quantum has no table to go to
    refine ⟨fun h => absurd h.2 hidx, fun s' hs' => absurd ?_ hidx⟩
    obtain ⟨⟨qid, ctx⟩, hnext, hs'⟩ := Option.bind_eq_some_iff.mp hs'
    obtain ⟨hqid, rfl⟩ := ((returns_next raw s.1).2 _ hnext).2
    dsimp only at hs' hqid
    rw [List.range_succ_eq_map, List.foldlM_cons, hqid] at hs'
    obtain ⟨first, hfirst, -⟩ := Option.bind_eq_some_iff.mp hs'
    obtain ⟨r, -, hfirst⟩ := Option.bind_eq_some_iff.mp hfirst
    obtain ⟨table, htable, -⟩ := Option.bind_eq_some_iff.mp hfirst
    exact ((Returns.peek r.2.qtab _).2 table htable).1

/-- The segment of quantisation tables at `p`, which starts with its length. -/
def QtabsOk (raw : List UInt8) (p : ℕ) : Prop :=
  p + 2 ≤ raw.length ∧ TablesFrom (QtabOk raw) (fun _ => 65) (p + 2) (word_at raw p - 2)

theorem returns_qtabs (raw : List UInt8) (ctx : nj_context_t) :
    Returns (read_qtabs raw ctx) (QtabsOk raw ctx.pos) (Advances ctx) :=
  returns_segment (reads_qtab raw) (fun _ => Nat.succ_pos 64) ctx

/-! ## DHT -/

/-- How many codes the Huffman table at `p` has of length `r + 1`. -/
def huff_counts (raw : List UInt8) (p r : ℕ) : ℕ := byte raw (p + 1 + r)

/-- The bytes of the table. -/
def huff_size (raw : List UInt8) (p : ℕ) : ℕ := 17 + codes (huff_counts raw p) 16

/-- The Huffman table at `p` is in the file, is one of four, and is one of a code with no more
values than there is room for. -/
def HuffOk (raw : List UInt8) (p : ℕ) : Prop :=
  p + huff_size raw p ≤ raw.length ∧ byte raw p &&& 15 < 4 ∧
    code_space (huff_counts raw p) 16 ≤ 65536 ∧ codes (huff_counts raw p) 16 ≤ 256

/-- The table's number has the class in bit 1. -/
theorem index_lt_iff (hid : ℕ) :
    (hid &&& 15) ||| (if (hid >>> 4) &&& 1 ≠ 0 then 2 else 0) < 4 ↔ hid &&& 15 < 4 := by
  constructor
  · exact Nat.left_le_or.trans_lt
  · intro h
    apply Nat.or_lt_two_pow (n := 2) h
    split <;> omega

theorem returns_poke {α : Type*} {n : ℕ} (a : Fin n → α) (i : ℕ) (v : α) :
    Returns (poke a i v) (i < n) fun b =>
      ∀ j (hj : j < n), b ⟨j, hj⟩ = if j = i then v else a ⟨j, hj⟩ := by
  refine ⟨(Returns.poke a i v).1, fun b hb => ?_⟩
  have hi := ((Returns.poke a i v).2 b hb).1
  refine ⟨hi, fun j hj => ?_⟩
  rw [poke_of_lt hi] at hb
  obtain rfl := Option.some.inj hb
  rw [Function.update_apply]
  simp only [Fin.mk.injEq]

/-- The first `k` counts are in the array, and added up. -/
def Counted (raw : List UInt8) (p : ℕ) (s : Segment) (k : ℕ)
    (t : Segment × (Fin 16 → UInt8) × ℕ) : Prop :=
  (Moves k s.1 t.1.1 ∧ t.1.2 = s.2 - k) ∧
    (∀ r (hr : r < 16), r < k → (t.2.1 ⟨r, hr⟩).toNat = huff_counts raw p r) ∧
    t.2.2 = codes (huff_counts raw p) k

theorem returns_count {p k : ℕ} (hk : k < 16) {s : Segment} (hp : s.1.pos = p + 1)
    {t : Segment × (Fin 16 → UInt8) × ℕ} (ht : Counted raw p s k t) :
    Returns (read_count raw t k) (p + 1 + k < raw.length) (Counted raw p s (k + 1)) := by
  obtain ⟨⟨ctx, len⟩, counts, total⟩ := t
  obtain ⟨⟨hmoves, hlen⟩, hcounts, htotal⟩ := ht
  have hpos : ctx.pos = p + 1 + k := by rw [hmoves.1, hp]
  unfold read_count
  rw [← hpos]
  refine ((returns_next raw ctx).bind fun r hr => ?_).congr (and_iff_left trivial)
  obtain ⟨b, ctx'⟩ := r
  obtain ⟨hb, rfl⟩ := hr
  refine ((returns_poke counts k b).congr (iff_of_true hk trivial)).map fun counts' hcounts' => ?_
  have hread : b.toNat = huff_counts raw p k := by rw [hb, hpos, huff_counts]
  refine ⟨⟨hmoves.trans (moves_skip ctx 1), by dsimp only at hlen ⊢; omega⟩, fun r hr hrk => ?_, ?_⟩
  · dsimp only
    rw [hcounts' r hr]
    rcases Nat.lt_succ_iff_lt_or_eq.mp hrk with hlt | rfl
    · rw [if_neg hlt.ne]
      exact hcounts r hr hlt
    · rw [if_pos rfl, hread]
  · dsimp only at htotal ⊢
    rw [codes_succ, htotal, hread]

theorem returns_value (s : Segment) (values : Fin 256 → UInt8) (k : ℕ) :
    Returns (read_value raw (s, values) k) (s.1.pos < raw.length ∧ k < 256)
      fun t => Moves 1 s.1 t.1.1 ∧ t.1.2 = s.2 - 1 := by
  obtain ⟨ctx, len⟩ := s
  unfold read_value
  refine (returns_next raw ctx).bind fun r hr => ?_
  obtain ⟨b, ctx'⟩ := r
  obtain ⟨-, rfl⟩ := hr
  exact (Returns.poke values k b).map fun _ _ => ⟨moves_skip ctx 1, rfl⟩

theorem returns_values (s : Segment) (values : Fin 256 → UInt8) (n : ℕ) :
    Returns ((List.range n).foldlM (read_value raw) (s, values))
      (n = 0 ∨ s.1.pos + n ≤ raw.length ∧ n ≤ 256)
      fun t => Moves n s.1 t.1.1 ∧ t.1.2 = s.2 - n := by
  have hturn : ∀ k, k < n → ∀ t : Segment × (Fin 256 → UInt8),
      (Moves k s.1 t.1.1 ∧ t.1.2 = s.2 - k) →
      Returns (read_value raw t k) (s.1.pos + k < raw.length ∧ k < 256)
        fun t' => Moves (k + 1) s.1 t'.1.1 ∧ t'.1.2 = s.2 - (k + 1 : ℕ) := by
    intro k hk t ht
    rw [← ht.1.1]
    apply (returns_value t.1 t.2 k).imp Iff.rfl
    rintro t' ⟨hmoves, hlen⟩
    exact ⟨ht.1.trans hmoves, by omega⟩
  refine (Returns.range hturn ⟨moves_zero s.1, by simp⟩).congr ?_
  constructor
  · intro h
    rcases Nat.eq_zero_or_pos n with hn | hn
    · exact Or.inl hn
    · obtain ⟨hlast, hk⟩ := h (n - 1) (by omega)
      exact Or.inr ⟨by omega, by omega⟩
  · rintro (rfl | ⟨hlast, hn⟩) k hk
    · exact absurd hk (Nat.not_lt_zero k)
    · exact ⟨by omega, by omega⟩

theorem reads_huff (raw : List UInt8) :
    ReadsTable (read_huff raw) (HuffOk raw) (huff_size raw) := by
  intro s
  set n := huff_counts raw s.1.pos with hn
  have hstart : ∀ len, Counted raw s.1.pos ((s.1.skip 1), len) 0
      (((s.1.skip 1), len), (fun _ => 0), 0) := by
    intro len
    exact ⟨⟨moves_zero _, by simp⟩, fun r _ hr => absurd hr (Nat.not_lt_zero r), rfl⟩
  unfold read_huff
  refine ((returns_next raw s.1).bind
    (H := (∀ k, k < 16 → s.1.pos + 1 + k < raw.length) ∧
      (codes n 16 = 0 ∨ s.1.pos + 17 + codes n 16 ≤ raw.length ∧ codes n 16 ≤ 256) ∧
      byte raw s.1.pos &&& 15 < 4 ∧ code_space n 16 ≤ 65536 ∧ codes n 16 ≤ 256) ?_).congr ?_
  · rintro ⟨hid, ctx⟩ ⟨hhid, rfl⟩
    dsimp only at hhid ⊢
    rw [hhid]
    apply (Returns.range (fun k hk t ht => returns_count hk rfl ht) (hstart (s.2 - 1))).bind
    rintro ⟨⟨ctx, len⟩, counts, total⟩ ⟨⟨hmoves, hlen⟩, hcounts, htotal⟩
    dsimp only at hmoves hlen hcounts htotal ⊢
    have hpos : ctx.pos = s.1.pos + 17 := hmoves.1.trans (Nat.add_assoc _ 1 16)
    rw [htotal, ← hpos]
    apply (returns_values (ctx, len) (fun _ => 0) (codes n 16)).bind
    rintro ⟨⟨ctx', len'⟩, values⟩ ⟨hmoves', hlen'⟩
    dsimp only at hmoves' hlen' ⊢
    refine ((returns_njBuildHuff ctx'.vlctab _ values fun r hr => hcounts r hr hr).congr
      (and_congr_left' (index_lt_iff _))).map fun vlctab _ => ?_
    have hall := ((moves_skip s.1 1).trans hmoves).trans hmoves'
    exact ⟨hall, by rw [huff_size, ← hn]; omega⟩
  · rw [HuffOk, huff_size, ← hn]
    constructor
    · rintro ⟨-, hread, hvalues, hok⟩
      have hlast := hread 15 (by omega)
      exact ⟨by omega, hok⟩
    · rintro ⟨hread, hok⟩
      exact ⟨by omega, fun k hk => by omega, Or.inr ⟨by omega, hok.2.2⟩, hok⟩

/-- The segment of Huffman tables at `p`. -/
def HuffsOk (raw : List UInt8) (p : ℕ) : Prop :=
  p + 2 ≤ raw.length ∧ TablesFrom (HuffOk raw) (huff_size raw) (p + 2) (word_at raw p - 2)

theorem returns_huffs (raw : List UInt8) (ctx : nj_context_t) :
    Returns (read_huffs raw ctx) (HuffsOk raw ctx.pos) (Advances ctx) :=
  returns_segment (reads_huff raw) (fun p => by rw [huff_size]; omega) ctx

/-! ## SOS -/

/-- The scan header at `p` has its selections in the file. -/
def ScanOk (raw : List UInt8) (p : ℕ) : Prop := p + 3 + 2 * byte raw (p + 2) ≤ raw.length

theorem returns_select (cid sel : ℕ) (comp : Fin 3 → nj_component_t) {j : ℕ} (hj : j < 3) :
    Returns (select_component cid sel comp j) True fun _ => True := by
  unfold select_component
  refine ((Returns.peek comp j).congr (iff_of_true hj trivial)).seq fun c _ => ?_
  split
  · exact (Returns.poke comp j _).congr (iff_of_true hj trivial)
  · exact Returns.pure trivial

theorem returns_selection {ctx : nj_context_t} (hncomp : ctx.ncomp ≤ 3) (i : ℕ) :
    Returns (read_selection raw ctx i) (ctx.pos + 2 ≤ raw.length) (Moves 2 ctx) := by
  unfold read_selection
  refine ((returns_next raw ctx).bind (H := ctx.pos + 1 < raw.length) ?_).congr (by omega)
  rintro ⟨cid, first⟩ ⟨-, rfl⟩
  refine ((returns_next raw _).bind ?_).congr (and_iff_left trivial)
  rintro ⟨sel, second⟩ ⟨-, rfl⟩
  refine Returns.map (Q := fun _ => True) (Returns.loop (fun j hj comp _ => ?_) trivial)
    fun comp _ => ⟨rfl, ?_, rfl⟩
  · have hlt : j < ctx.ncomp := List.mem_range.mp hj
    exact returns_select _ _ comp (by omega)
  · dsimp only [nj_context_t.skip]
    omega

theorem returns_scan {ctx : nj_context_t} (hncomp : ctx.ncomp ≤ 3) :
    Returns (read_scan raw ctx) (ScanOk raw ctx.pos) (Advances ctx) := by
  set n := byte raw (ctx.pos + 2) with hn
  have hselect : ∀ k, k < n → ∀ cur, Moves (2 * k) (ctx.skip 3) cur →
      Returns (read_selection raw cur k) (ctx.pos + 3 + 2 * k + 2 ≤ raw.length)
        (Moves (2 * (k + 1)) (ctx.skip 3)) := by
    intro k _ cur hcur
    have hpos : cur.pos = ctx.pos + 3 + 2 * k := hcur.1
    have hcount : cur.ncomp = ctx.ncomp := hcur.2.2
    rw [← hpos]
    exact (returns_selection (by omega) k).imp Iff.rfl fun cur' h => hcur.trans h
  unfold read_scan
  refine ((returns_word raw ctx.pos).bind fun _ _ => (returns_next raw (ctx.skip 2)).bind
    (H := ∀ k, k < n → ctx.pos + 3 + 2 * k + 2 ≤ raw.length) ?_).congr ?_
  · rintro ⟨ncomp, cur⟩ ⟨hncomp', rfl⟩
    have hcount : ncomp.toNat = n := hncomp'
    dsimp only
    rw [hcount, skip_skip]
    refine (Returns.range hselect (moves_zero _)).map fun last hlast => ?_
    exact ⟨_, ((moves_skip ctx 3).trans hlast).trans (moves_skip last 3)⟩
  · rw [ScanOk, ← hn]
    dsimp only [nj_context_t.skip]
    constructor
    · rintro ⟨-, hcount, hall⟩
      rcases Nat.eq_zero_or_pos n with hzero | hpos
      · omega
      · have hlast := hall (n - 1) (by omega)
        omega
    · intro h
      exact ⟨by omega, by omega, fun k hk => by omega⟩

/-! ## The loop -/

/-- What is counted as left is left, and there is room for the components. -/
def Inside (raw : List UInt8) (ctx : nj_context_t) : Prop :=
  (ctx.pos : ℤ) + ctx.size ≤ raw.length ∧ ctx.ncomp ≤ 3

theorem Advances.inside {ctx ctx' : nj_context_t} (h : Advances ctx ctx') (hin : Inside raw ctx) :
    Inside raw ctx' ∧ ctx'.size ≤ ctx.size := by
  obtain ⟨n, hpos, hsize, hncomp⟩ := h
  obtain ⟨hleft, hle⟩ := hin
  exact ⟨⟨by omega, by omega⟩, by omega⟩

theorem Behind.inside {ctx ctx' : nj_context_t} (h : Behind raw ctx ctx') (hin : Inside raw ctx) :
    Inside raw ctx' ∧ ctx'.size ≤ ctx.size := by
  obtain ⟨hpos, hsize, hncomp⟩ := h
  have hleft := hin.1
  exact ⟨⟨by omega, hncomp⟩, by omega⟩

/-- Fill bytes are read within the file, as each is behind a comparison. -/
theorem returns_fill {s : UInt8 × nj_context_t} (hin : Inside raw s.2) :
    Returns (skip_fill raw s) True fun t => Advances s.2 t.2 := by
  unfold skip_fill
  have hpos : ∀ t : UInt8 × nj_context_t, Advances s.2 t.2 →
      (t.1 == 0xFF && decide (0 < t.2.size)) = true → 0 < t.2.size.toNat := by
    intro t _ ht
    exact Int.lt_toNat.mpr (of_decide_eq_true (Bool.and_eq_true_iff.mp ht).2)
  refine (WhileLoop.returns_run (P := fun _ => True) (G := fun _ => True) hpos (fun _ _ => trivial)
    (fun _ _ _ _ => trivial) (fun t hadv ht => ?_) ⟨0, moves_zero s.2⟩ le_rfl).imp Iff.rfl
      fun t ht => ht.1
  have hsize := hpos t hadv ht
  have hleft := (hadv.inside hin).1.1
  apply ((returns_next raw t.2).congr (iff_of_true (by omega) trivial)).imp Iff.rfl
  rintro ⟨marker, ctx⟩ ⟨-, rfl⟩
  refine ⟨⟨hadv.trans ⟨1, moves_skip t.2 1⟩, ?_⟩, Iff.rfl⟩
  dsimp only [nj_context_t.skip]
  omega

/-- The condition of a segment, where `ctx` is behind its marker. -/
structure SegmentOk (raw : List UInt8) (marker : UInt8) (ctx : nj_context_t) : Prop where
  frame : marker = 0xC0 ∨ marker = 0xC2 → 6 ≤ ctx.size → FrameOk raw ctx.pos
  qtabs : marker = 0xDB → QtabsOk raw ctx.pos
  huffs : marker = 0xC4 → HuffsOk raw ctx.pos
  scan : marker = 0xDA → ScanOk raw ctx.pos
  other : 0xE0 ≤ marker → marker ≤ 0xFE → ctx.pos + 2 ≤ raw.length

theorem returns_read_segment (marker : UInt8) {ctx : nj_context_t} (hin : Inside raw ctx) :
    Returns (read_segment raw marker ctx) (SegmentOk raw marker ctx)
      fun r => Inside raw r.1 ∧ r.1.size ≤ ctx.size := by
  have hstay : ∀ left : Bool, Returns (some (ctx, left)) True
      fun r => Inside raw r.1 ∧ r.1.size ≤ ctx.size := fun _ => Returns.pure ⟨hin, le_rfl⟩
  unfold read_segment
  split_ifs with heoi hsof hshort hdqt hdht hsos happ
  · have hok : SegmentOk raw marker ctx := by
      subst heoi
      constructor
      all_goals
        intro h
        exact absurd h (by decide)
    exact (hstay true).congr (iff_of_true trivial hok)
  · -- a frame header in the last bytes of the file ends the loop
    have hok : SegmentOk raw marker ctx := by
      refine ⟨fun _ h => absurd h (by omega), ?_, ?_, ?_, ?_⟩
      all_goals
        intro h
        rcases hsof with rfl | rfl
        · exact absurd h (by decide)
        · exact absurd h (by decide)
    exact (hstay true).congr (iff_of_true trivial hok)
  · refine ((returns_frame raw ctx).congr ?_).map fun ctx' h => h.inside hin
    refine ⟨fun hok => ⟨fun _ _ => hok, ?_, ?_, ?_, ?_⟩, fun h => h.frame hsof (by omega)⟩
    all_goals
      intro h
      rcases hsof with rfl | rfl
      · exact absurd h (by decide)
      · exact absurd h (by decide)
  · subst hdqt
    refine ((returns_qtabs raw ctx).congr ?_).map fun ctx' h => h.inside hin
    refine ⟨fun hok => ⟨?_, fun _ => hok, ?_, ?_, ?_⟩, fun h => h.qtabs rfl⟩
    all_goals
      intro h
      exact absurd h (by decide)
  · subst hdht
    refine ((returns_huffs raw ctx).congr ?_).map fun ctx' h => h.inside hin
    refine ⟨fun hok => ⟨?_, ?_, fun _ => hok, ?_, ?_⟩, fun h => h.huffs rfl⟩
    all_goals
      intro h
      exact absurd h (by decide)
  · subst hsos
    refine ((returns_scan hin.2).congr ?_).map fun ctx' h => h.inside hin
    refine ⟨fun hok => ⟨?_, ?_, ?_, fun _ => hok, ?_⟩, fun h => h.scan rfl⟩
    all_goals
      intro h
      exact absurd h (by decide)
  · refine ((returns_word raw ctx.pos).congr ?_).map fun len _ =>
      Advances.inside ⟨len, moves_skip ctx len⟩ hin
    exact ⟨fun hok => ⟨fun h => absurd h hsof, fun h => absurd h hdqt, fun h => absurd h hdht,
      fun h => absurd h hsos, fun _ _ => hok⟩, fun h => h.other happ.1 happ.2⟩
  · have hok : SegmentOk raw marker ctx := ⟨fun h => absurd h hsof, fun h => absurd h hdqt,
      fun h => absurd h hdht, fun h => absurd h hsos, fun h h' => absurd ⟨h, h'⟩ happ⟩
    exact (hstay false).congr (iff_of_true trivial hok)

/-- The condition of a turn: behind an `FF` there is a byte, and the segment that the first byte
other than `FF` marks meets its condition. -/
def TurnOk (raw : List UInt8) (ctx : nj_context_t) : Prop :=
  raw.getD ctx.pos 0 = 0xFF → ctx.pos + 1 < raw.length ∧
    ∀ marker seg, skip_fill raw (raw.getD (ctx.pos + 1) 0, ctx.skip 2) = some (marker, seg) →
      SegmentOk raw marker seg

theorem returns_marker {s : nj_context_t × Bool} (hin : Inside raw s.1) (hgo : goes_on s = true) :
    Returns (read_marker raw s) (TurnOk raw s.1)
      fun r => Inside raw r.1 ∧ r.1.size.toNat < s.1.size.toNat := by
  have hsize : 0 < s.1.size := of_decide_eq_true (Bool.and_eq_true_iff.mp hgo).1
  have hroom : s.1.pos < raw.length := by
    have := hin.1
    omega
  have hnext := (returns_next raw s.1).congr (iff_of_true hroom trivial)
  unfold read_marker
  refine hnext.seq ?_
  rintro ⟨b, ctx⟩ ⟨hb, rfl⟩
  obtain rfl := UInt8.toNat_inj.mp hb
  dsimp only
  have hone := Advances.inside ⟨1, moves_skip s.1 1⟩ hin
  have hless : (s.1.skip 1).size.toNat < s.1.size.toNat := by
    dsimp only [nj_context_t.skip]
    omega
  by_cases hff : raw.getD s.1.pos 0 = 0xFF
  swap
  · rw [if_pos hff]
    exact (Returns.pure ⟨hone.1, hless⟩).congr (iff_of_true trivial fun h => absurd h hff)
  rw [if_neg (not_not.mpr hff), TurnOk, imp_iff_right hff]
  refine (returns_next raw _).bind ?_
  rintro ⟨m, ctx⟩ ⟨hm, rfl⟩
  obtain rfl := UInt8.toNat_inj.mp hm
  rw [skip_skip]
  have htwo := Advances.inside ⟨2, moves_skip s.1 2⟩ hin
  have hfill := returns_fill (s := (raw.getD (s.1.pos + 1) 0, s.1.skip 2)) htwo.1
  obtain ⟨⟨marker, seg⟩, hseg⟩ := hfill.1 trivial
  have hadv : Advances (s.1.skip 2) seg := (hfill.2 _ hseg).2
  have hthere := hadv.inside htwo.1
  have hshorter : seg.size.toNat < s.1.size.toNat := by
    have hle := hthere.2
    dsimp only [nj_context_t.skip] at hle
    omega
  change Returns ((skip_fill raw (raw.getD (s.1.pos + 1) 0, s.1.skip 2)).bind _) _ _
  rw [hseg, Option.bind_some]
  apply (returns_read_segment marker hthere.1).imp
  · constructor
    · intro hok marker' seg' heq
      obtain ⟨rfl, rfl⟩ := Prod.mk.inj (Option.some.inj heq)
      exact hok
    · intro hall
      exact hall marker seg rfl
  · rintro r ⟨hinside, hle⟩
    exact ⟨hinside, by omega⟩

/-! ## The file -/

theorem to_int_le (n : ℕ) : to_int n ≤ n := by
  unfold to_int
  rw [Int.bmod_def]
  split <;> omega

/-- The checks before the loop. -/
def Starts (raw : List UInt8) : Prop :=
  4 ≤ raw.length ∧ raw.getD 0 0 = 0xFF ∧ raw.getD 1 0 = 0xD8

/-- **The markers.** The loop reads within the file, indexes within its arrays, divides by no zero,
and comes to an end, exactly when every turn that it comes to meets its condition. -/
theorem load_jpeg_markers_iff (calloc : Bool) (raw : List UInt8) :
    (∃ r, load_jpeg_markers calloc raw = some r ∧ ∀ s, r = some s → goes_on s = false) ↔
      (Starts raw → calloc = true → ∀ s, WhileLoop.Reaches goes_on (read_marker raw)
        (nj_context raw.length, false) s → goes_on s = true → TurnOk raw s.1) := by
  have hpos : ∀ s : nj_context_t × Bool, Inside raw s.1 → goes_on s = true →
      0 < s.1.size.toNat := by
    intro s _ hgo
    exact Int.lt_toNat.mpr (of_decide_eq_true (Bool.and_eq_true_iff.mp hgo).1)
  have hstart : Inside raw (nj_context raw.length) := by
    refine ⟨?_, Nat.zero_le 3⟩
    have := to_int_le raw.length
    dsimp only [nj_context]
    omega
  have hfuel : (nj_context raw.length).size.toNat ≤ raw.length := by
    have := to_int_le raw.length
    dsimp only [nj_context]
    omega
  have hloop : Returns (WhileLoop.run goes_on (read_marker raw) raw.length
      (nj_context raw.length, false)) _ _ :=
    WhileLoop.returns_run_reaches hpos (fun s hin hgo => returns_marker hin hgo) hstart hfuel
  unfold load_jpeg_markers
  by_cases hsoi : Starts raw
  swap
  · have hrefused : raw.length < 4 ∨ raw.getD 0 0 ≠ 0xFF ∨ raw.getD 1 0 ≠ 0xD8 := by
      rw [Starts, not_and_or, not_and_or, Nat.not_le] at hsoi
      exact hsoi
    rw [if_pos hrefused]
    refine iff_of_true ⟨none, rfl, fun s h => ?_⟩ fun h => absurd h hsoi
    cases h
  have haccepted : ¬ (raw.length < 4 ∨ raw.getD 0 0 ≠ 0xFF ∨ raw.getD 1 0 ≠ 0xD8) := by
    rintro (h | h | h)
    · exact absurd hsoi.1 (Nat.not_le.mpr h)
    · exact h hsoi.2.1
    · exact h hsoi.2.2
  rw [if_neg haccepted, imp_iff_right hsoi]
  cases calloc with
  | false =>
    rw [if_pos rfl]
    refine iff_of_true ⟨none, rfl, fun s h => ?_⟩ fun h => absurd h Bool.false_ne_true
    cases h
  | true =>
    rw [if_neg (by decide : ¬ true = false), imp_iff_right rfl, ← hloop.iff]
    constructor
    · rintro ⟨r, hr, hend⟩
      obtain ⟨t, ht, rfl⟩ := Option.map_eq_some_iff.mp hr
      exact ⟨t, ht, (hloop.2 t ht).2⟩
    · rintro ⟨t, ht, -, hend⟩
      refine ⟨some t, by rw [ht, Option.map_some], fun s hs => ?_⟩
      obtain rfl := Option.some.inj hs
      exact hend

/-- A frame header of one pixel and without a component, 8 bytes as its length says. -/
def no_components : List UInt8 := [0xFF, 0xD8, 0xFF, 0xC0, 0, 8, 8, 0, 1, 0, 1, 0]

/-- The number of its blocks is divided by the size of one, which is zero. -/
theorem load_jpeg_markers_no_components :
    ¬ ∃ r, load_jpeg_markers true no_components = some r ∧ ∀ s, r = some s → goes_on s = false := by
  have hnone : (load_jpeg_markers true no_components).isNone = true := by
    decide +kernel
  rintro ⟨r, hr, -⟩
  rw [hr] at hnone
  cases hnone

end SysInC.Jpeg
