/-
`kgfx_draw_line`: which pixels it draws, and for which endpoints it comes to an end.

The loop ends only at the second endpoint. The error term leads there, but its double is an `int`,
and so is the error less `|y1 - y0|`: on a long line they overflow, although no difference of the
coordinates does.
-/
import SysInC.Bresenham
import SysInC.Kgfx
import Mathlib.Data.List.Chain
import Mathlib.Data.List.Range

set_option autoImplicit false

namespace SysInC.Kgfx

open CInt Bresenham

/-! ## The source -/

/-- The locals that the loop reads. -/
structure line where
  dx : ℤ
  sx : ℤ
  dy : ℤ
  sy : ℤ
  x1 : ℤ
  y1 : ℤ

/-- The locals that the loop changes. -/
@[ext]
structure cursor where
  x0 : ℤ
  y0 : ℤ
  err : ℤ

/-- `if (e2 >= dy) { err += dy; x0 += sx; }` -/
def move_x (l : line) (e2 : ℤ) (s : cursor) : Option cursor :=
  if l.dy ≤ e2 then
    (int (s.err + l.dy)).bind fun err => (int (s.x0 + l.sx)).map fun x0 => ⟨x0, s.y0, err⟩
  else some s

/-- `if (e2 <= dx) { err += dx; y0 += sy; }` -/
def move_y (l : line) (e2 : ℤ) (s : cursor) : Option cursor :=
  if e2 ≤ l.dx then
    (int (s.err + l.dx)).bind fun err => (int (s.y0 + l.sy)).map fun y0 => ⟨s.x0, y0, err⟩
  else some s

/-- The body of the loop behind the `break`. -/
def turn (l : line) (s : cursor) : Option cursor :=
  (int (2 * s.err)).bind fun e2 => (move_x l e2 s).bind (move_y l e2)

/-- The loop: the pixels that it draws, in their order, and the framebuffer behind them. `none` is
an overflow, or a loop that takes more than `fuel` turns. -/
def line_loop (l : line) (color : UInt32) :
    ℕ → kgfx_fb_t → cursor → Option (List (ℤ × ℤ) × kgfx_fb_t)
  | 0, _, _ => none
  | fuel + 1, fb, s =>
    let fb := kgfx_draw_pixel fb s.x0 s.y0 color
    if s.x0 = l.x1 ∧ s.y0 = l.y1 then some ([(s.x0, s.y0)], fb)
    else
      (turn l s).bind fun s' =>
        (line_loop l color fuel fb s').map fun r => ((s.x0, s.y0) :: r.1, r.2)

/-- What stands in front of the loop. -/
def line_start (x0 y0 x1 y1 : ℤ) : Option (line × cursor) :=
  (int (if x1 > x0 then x1 - x0 else x0 - x1)).bind fun dx =>
    (int (if y1 > y0 then y0 - y1 else y1 - y0)).bind fun dy =>
      (int (dx + dy)).map fun err =>
        ({ dx := dx, sx := if x0 < x1 then 1 else -1, dy := dy, sy := if y0 < y1 then 1 else -1,
           x1 := x1, y1 := y1 }, ⟨x0, y0, err⟩)

def kgfx_draw_line (fuel : ℕ) (fb : kgfx_fb_t) (x0 y0 x1 y1 : Int32) (color : UInt32) :
    Option (List (ℤ × ℤ) × kgfx_fb_t) :=
  (line_start x0.toInt y0.toInt x1.toInt y1.toInt).bind fun s => line_loop s.1 color fuel fb s.2

/-! ## What a line is -/

/-- A pixel and another one beside it or at its corner. -/
def Neighbours (p q : ℤ × ℤ) : Prop := p ≠ q ∧ |q.1 - p.1| ≤ 1 ∧ |q.2 - p.2| ≤ 1

/-- The pixels of a line from `(x0, y0)` to `(x1, y1)`. -/
structure Rasterises (x0 y0 x1 y1 : ℤ) (pixels : List (ℤ × ℤ)) : Prop where
  length : pixels.length = max (x1 - x0).natAbs (y1 - y0).natAbs + 1
  first : pixels.head? = some (x0, y0)
  last : pixels.getLast? = some (x1, y1)
  steps : pixels.IsChain Neighbours
  inside : ∀ p ∈ pixels, (min x0 x1 ≤ p.1 ∧ p.1 ≤ max x0 x1) ∧ min y0 y1 ≤ p.2 ∧ p.2 ≤ max y0 y1

/-! ## A turn of the loop -/

section Turn

variable {l : line} {s s' : cursor} {e2 : ℤ}

theorem turn_iff : turn l s = some s' ↔ IsInt (2 * s.err)
    ∧ (move_x l (2 * s.err) s).bind (move_y l (2 * s.err)) = some s' := by
  unfold turn
  rw [Option.bind_eq_some_iff]
  constructor
  · rintro ⟨e2, he2, hmoves⟩
    obtain ⟨hint, rfl⟩ := int_eq_some.mp he2
    exact ⟨hint, hmoves⟩
  · rintro ⟨hint, hmoves⟩
    exact ⟨_, int_of hint, hmoves⟩

theorem move_x_eq (h : l.dy ≤ e2) (hint : IsInt (s.x0 + l.sx)) :
    move_x l e2 s = (int (s.err + l.dy)).map fun err => ⟨s.x0 + l.sx, s.y0, err⟩ := by
  unfold move_x
  rw [if_pos h, int_of hint, Option.map_eq_bind]
  rfl

theorem move_y_eq (h : e2 ≤ l.dx) (hint : IsInt (s.y0 + l.sy)) :
    move_y l e2 s = (int (s.err + l.dx)).map fun err => ⟨s.x0, s.y0 + l.sy, err⟩ := by
  unfold move_y
  rw [if_pos h, int_of hint, Option.map_eq_bind]
  rfl

theorem map_int_iff {α : Type*} {v : ℤ} {f : ℤ → α} {r : α} :
    (int v).map f = some r ↔ IsInt v ∧ f v = r := by
  rw [Option.map_eq_some_iff]
  constructor
  · rintro ⟨w, hw, hr⟩
    obtain ⟨hint, rfl⟩ := int_eq_some.mp hw
    exact ⟨hint, hr⟩
  · rintro ⟨hint, hr⟩
    exact ⟨v, int_of hint, hr⟩

/-- A turn that moves in `x` only. -/
theorem turn_x_iff (hx : l.dy ≤ 2 * s.err) (hy : ¬2 * s.err ≤ l.dx) (hint : IsInt (s.x0 + l.sx)) :
    turn l s = some s' ↔ (IsInt (2 * s.err) ∧ IsInt (s.err + l.dy))
      ∧ (⟨s.x0 + l.sx, s.y0, s.err + l.dy⟩ : cursor) = s' := by
  have hstay (mid : cursor) : move_y l (2 * s.err) mid = some mid := if_neg hy
  rw [turn_iff, move_x_eq hx hint, Option.bind_congr fun mid _ => hstay mid, Option.bind_fun_some,
    map_int_iff, and_assoc]

/-- A turn that moves in `y` only. -/
theorem turn_y_iff (hx : ¬l.dy ≤ 2 * s.err) (hy : 2 * s.err ≤ l.dx) (hint : IsInt (s.y0 + l.sy)) :
    turn l s = some s' ↔ (IsInt (2 * s.err) ∧ IsInt (s.err + l.dx))
      ∧ (⟨s.x0, s.y0 + l.sy, s.err + l.dx⟩ : cursor) = s' := by
  have hstay : move_x l (2 * s.err) s = some s := if_neg hx
  rw [turn_iff, hstay, Option.bind_some, move_y_eq hy hint, map_int_iff, and_assoc]

/-- A turn that moves in both directions. -/
theorem turn_both_iff (hx : l.dy ≤ 2 * s.err) (hy : 2 * s.err ≤ l.dx)
    (hint : IsInt (s.x0 + l.sx)) (hint' : IsInt (s.y0 + l.sy)) :
    turn l s = some s'
      ↔ (IsInt (2 * s.err) ∧ IsInt (s.err + l.dy) ∧ IsInt (s.err + l.dy + l.dx))
        ∧ (⟨s.x0 + l.sx, s.y0 + l.sy, s.err + l.dy + l.dx⟩ : cursor) = s' := by
  have hlast (err : ℤ) := move_y_eq (l := l) (s := ⟨s.x0 + l.sx, s.y0, err⟩) hy hint'
  rw [turn_iff, move_x_eq hx hint, Option.bind_map]
  constructor
  · rintro ⟨hdouble, hmoves⟩
    obtain ⟨err, herr, hmove⟩ := Option.bind_eq_some_iff.mp hmoves
    obtain ⟨hless, rfl⟩ := int_eq_some.mp herr
    obtain ⟨hmore, heq⟩ := map_int_iff.mp ((hlast _).symm.trans hmove)
    exact ⟨⟨hdouble, hless, hmore⟩, heq⟩
  · rintro ⟨⟨hdouble, hless, hmore⟩, rfl⟩
    refine ⟨hdouble, ?_⟩
    rw [int_of hless, Option.bind_some]
    exact (hlast _).trans (map_int_iff.mpr ⟨hmore, rfl⟩)

end Turn

/-! ## A loop whose course is known -/

section Course

variable {l : line} {course : ℕ → cursor} {ok : ℕ → Prop} {N : ℕ}

/-- The pixels of a course from its `n`-th turn on. -/
def pixels_from (course : ℕ → cursor) (n left : ℕ) : List (ℤ × ℤ) :=
  (List.range' n left).map fun k => ((course k).x0, (course k).y0)

variable (hend : ∀ n ≤ N, ((course n).x0 = l.x1 ∧ (course n).y0 = l.y1) ↔ n = N)
  (hturn : ∀ n < N, ∀ s', turn l (course n) = some s' ↔ ok n ∧ course (n + 1) = s')
include hend hturn

theorem line_loop_some {color : UInt32} {fuel n : ℕ} {fb : kgfx_fb_t}
    {r : List (ℤ × ℤ) × kgfx_fb_t} (hn : n ≤ N)
    (h : line_loop l color fuel fb (course n) = some r) :
    (∀ k, n ≤ k → k < N → ok k) ∧ r.1 = pixels_from course n (N + 1 - n) := by
  induction fuel generalizing n fb r with
  | zero => cases h
  | succ fuel ih =>
    rw [line_loop] at h
    split at h
    · next hlast =>
      obtain rfl := (hend n hn).mp hlast
      obtain rfl := Option.some.inj h
      refine ⟨fun k h1 h2 => absurd h1 (not_le.mpr h2), ?_⟩
      rw [Nat.add_sub_cancel_left]
      rfl
    · next hlast =>
      have hlt : n < N := lt_of_le_of_ne hn fun heq => hlast ((hend n hn).mpr heq)
      obtain ⟨s', hs', hrest⟩ := Option.bind_eq_some_iff.mp h
      obtain ⟨hok, rfl⟩ := (hturn n hlt s').mp hs'
      obtain ⟨r', hr', rfl⟩ := Option.map_eq_some_iff.mp hrest
      obtain ⟨hoks, hpixels⟩ := ih hlt hr'
      refine ⟨fun k h1 h2 => ?_, ?_⟩
      · rcases h1.eq_or_lt with rfl | hgt
        · exact hok
        · exact hoks k hgt h2
      · have hleft : N + 1 - n = (N + 1 - (n + 1)) + 1 := by omega
        rw [hpixels, hleft]
        rfl

theorem line_loop_returns (color : UInt32) {n : ℕ} (hn : n ≤ N) (fb : kgfx_fb_t)
    (hok : ∀ k < N, ok k) : ∃ r, line_loop l color (N + 1 - n) fb (course n) = some r := by
  induction hleft : N - n generalizing n fb with
  | zero =>
    obtain rfl : n = N := by omega
    rw [Nat.add_sub_cancel_left, line_loop]
    exact ⟨_, if_pos ((hend n le_rfl).mpr rfl)⟩
  | succ left ih =>
    have hlt : n < N := by omega
    have hfuel : N + 1 - n = (N + 1 - (n + 1)) + 1 := by omega
    have hnot : ¬((course n).x0 = l.x1 ∧ (course n).y0 = l.y1) := fun h =>
      hlt.ne ((hend n hn).mp h)
    obtain ⟨r, hr⟩ := ih hlt (kgfx_draw_pixel fb (course n).x0 (course n).y0 color) (by omega)
    rw [hfuel, line_loop, if_neg hnot, (hturn n hlt _).mpr ⟨hok n hlt, rfl⟩, Option.bind_some, hr]
    exact ⟨_, rfl⟩

theorem course_iff {x0 y0 x1 y1 : ℤ} (color : UInt32) (fb : kgfx_fb_t)
    (hpixels : Rasterises x0 y0 x1 y1 (pixels_from course 0 (N + 1))) :
    (∃ fuel r, line_loop l color fuel fb (course 0) = some r ∧ Rasterises x0 y0 x1 y1 r.1)
      ↔ ∀ n < N, ok n := by
  constructor
  · rintro ⟨fuel, r, hr, -⟩ n hn
    exact (line_loop_some hend hturn (Nat.zero_le N) hr).1 n (Nat.zero_le n) hn
  · intro hok
    obtain ⟨r, hr⟩ := line_loop_returns hend hturn color (Nat.zero_le N) fb hok
    refine ⟨_, r, hr, ?_⟩
    rw [(line_loop_some hend hturn (Nat.zero_le N) hr).2]
    exact hpixels

end Course

/-! ## The two courses -/

/-- `l` leads from `(x0, y0)` over `a` columns and `b` rows. -/
structure Spans (l : line) (x0 y0 : ℤ) (a b : ℕ) : Prop where
  dx : l.dx = a
  dy : l.dy = -b
  sx : l.sx = 1 ∨ l.sx = -1
  sy : l.sy = 1 ∨ l.sy = -1
  x1 : l.x1 = x0 + l.sx * a
  y1 : l.y1 = y0 + l.sy * b
  first : IsInt x0 ∧ IsInt y0
  last : IsInt l.x1 ∧ IsInt l.y1

/-- The course with a step to the next column in each turn. -/
def x_major (l : line) (x0 y0 : ℤ) (a b n : ℕ) : cursor :=
  ⟨x0 + l.sx * n, y0 + l.sy * minor b a n, error b a n⟩

/-- The course with a step to the next row in each turn. -/
def y_major (l : line) (x0 y0 : ℤ) (a b n : ℕ) : cursor :=
  ⟨x0 + l.sx * minor a b n, y0 + l.sy * n, -error a b n⟩

/-- What does not overflow in a turn of the first course. -/
def x_ok (a b n : ℕ) : Prop :=
  IsInt (2 * error b a n) ∧ IsInt (error b a n - b)
    ∧ (2 * error b a n ≤ a → IsInt (error b a n - b + a))

/-- What does not overflow in a turn of the second course. -/
def y_ok (a b n : ℕ) : Prop :=
  IsInt (-2 * error a b n)
    ∧ (2 * error a b n ≤ b → IsInt (-error a b n - b) ∧ IsInt (-error a b n - b + a))
    ∧ (¬2 * error a b n ≤ b → IsInt (-error a b n + a))

/-- A place between the two ends. -/
theorem isInt_between {v w s : ℤ} {k n : ℕ} (hs : s = 1 ∨ s = -1) (hw : w = v + s * n)
    (hv : IsInt v) (hend : IsInt w) (hk : k ≤ n) : IsInt (v + s * k) := by
  rw [isInt_iff] at hv hend ⊢
  rcases hs with rfl | rfl
  · omega
  · omega

theorem place_inj {v s : ℤ} {m n : ℕ} (hs : s = 1 ∨ s = -1) :
    v + s * (m : ℤ) = v + s * n ↔ m = n := by
  rcases hs with rfl | rfl
  · omega
  · omega

theorem place_succ (v s : ℤ) (n : ℕ) : v + s * (n : ℤ) + s = v + s * ((n + 1 : ℕ) : ℤ) := by
  push_cast
  ring

section Courses

variable {l : line} {x0 y0 : ℤ} {a b : ℕ} (h : Spans l x0 y0 a b)
include h

theorem Spans.isInt_x {k : ℕ} (hk : k ≤ a) : IsInt (x0 + l.sx * k) :=
  isInt_between h.sx h.x1 h.first.1 h.last.1 hk

theorem Spans.isInt_y {k : ℕ} (hk : k ≤ b) : IsInt (y0 + l.sy * k) :=
  isInt_between h.sy h.y1 h.first.2 h.last.2 hk

theorem x_major_end (ha : 0 < a) {n : ℕ} :
    ((x_major l x0 y0 a b n).x0 = l.x1 ∧ (x_major l x0 y0 a b n).y0 = l.y1) ↔ n = a := by
  rw [h.x1, h.y1]
  constructor
  · rintro ⟨hx, -⟩
    exact (place_inj h.sx).mp hx
  · rintro rfl
    refine ⟨rfl, ?_⟩
    unfold x_major
    rw [minor_self ha]

theorem y_major_end (hb : 0 < b) {n : ℕ} :
    ((y_major l x0 y0 a b n).x0 = l.x1 ∧ (y_major l x0 y0 a b n).y0 = l.y1) ↔ n = b := by
  rw [h.x1, h.y1]
  constructor
  · rintro ⟨-, hy⟩
    exact (place_inj h.sy).mp hy
  · rintro rfl
    refine ⟨?_, rfl⟩
    unfold y_major
    rw [minor_self hb]

theorem x_major_turn (hab : b ≤ a) (ha : 0 < a) {n : ℕ} (hn : n < a) (s' : cursor) :
    turn l (x_major l x0 y0 a b n) = some s'
      ↔ x_ok a b n ∧ x_major l x0 y0 a b (n + 1) = s' := by
  have hlow := lt_two_mul_error (S := b) ha n
  have hmin := minor_succ ha hab n
  have herr := error_succ ha hab n
  have hintx := h.isInt_x (Nat.succ_le_of_lt hn)
  have hinty := h.isInt_y (minor_le (S := b) ha (Nat.succ_le_of_lt hn))
  have hcolumn := place_succ x0 l.sx n
  rw [← hcolumn] at hintx
  have hx : l.dy ≤ 2 * error b a n := by
    rw [h.dy]
    omega
  by_cases hy : 2 * error b a n ≤ a
  · rw [if_pos hy] at hmin herr
    have hrow := place_succ y0 l.sy (minor b a n)
    rw [hmin, ← hrow] at hinty
    rw [← h.dx] at hy
    rw [turn_both_iff hx hy hintx hinty]
    unfold x_major x_ok
    dsimp only
    rw [hcolumn, hrow, hmin, herr, ← h.dx, h.dy, ← sub_eq_add_neg]
    simp only [hy, true_imp_iff]
  · rw [if_neg hy] at hmin herr
    rw [← h.dx] at hy
    rw [turn_x_iff hx hy hintx]
    unfold x_major x_ok
    dsimp only
    rw [hcolumn, hmin, herr, ← h.dx, h.dy, ← sub_eq_add_neg]
    simp only [hy, false_imp_iff, and_true]

theorem y_major_turn (hab : a < b) {n : ℕ} (hn : n < b) (s' : cursor) :
    turn l (y_major l x0 y0 a b n) = some s'
      ↔ y_ok a b n ∧ y_major l x0 y0 a b (n + 1) = s' := by
  have hb : 0 < b := Nat.zero_lt_of_lt hab
  have hlow := lt_two_mul_error (S := a) hb n
  have hmin := minor_succ hb hab.le n
  have herr := error_succ hb hab.le n
  have hinty := h.isInt_y (Nat.succ_le_of_lt hn)
  have hintx := h.isInt_x (minor_le (S := a) hb (Nat.succ_le_of_lt hn))
  have hrow := place_succ y0 l.sy n
  rw [← hrow] at hinty
  have hy : 2 * -error a b n ≤ l.dx := by
    rw [h.dx]
    omega
  have hdouble : 2 * -error a b n = -2 * error a b n := by ring
  by_cases hx : 2 * error a b n ≤ b
  · rw [if_pos hx] at hmin herr
    have hcolumn := place_succ x0 l.sx (minor a b n)
    rw [hmin, ← hcolumn] at hintx
    have hx' : l.dy ≤ 2 * -error a b n := by
      rw [h.dy]
      omega
    have hnext : -error a b n - b + a = -(error a b n - a + b) := by ring
    rw [turn_both_iff hx' hy hintx hinty]
    unfold y_major y_ok
    dsimp only
    rw [hcolumn, hrow, hmin, herr, h.dx, h.dy, ← sub_eq_add_neg, hdouble, hnext]
    simp only [hx, true_imp_iff, not_true_eq_false, false_imp_iff, and_true]
  · rw [if_neg hx] at hmin herr
    have hx' : ¬l.dy ≤ 2 * -error a b n := by
      rw [h.dy]
      omega
    have hnext : -error a b n + a = -(error a b n - a) := by ring
    rw [turn_y_iff hx' hy hinty]
    unfold y_major y_ok
    dsimp only
    rw [hrow, hmin, herr, h.dx, hdouble, hnext]
    simp only [hx, false_imp_iff, not_false_eq_true, true_imp_iff, true_and]

end Courses

/-! ## The pixels of a course -/

/-- Columns and rows that grow by at most one in each turn, and one of them in each. -/
structure Staircase (column row : ℕ → ℕ) : Prop where
  first : column 0 = 0 ∧ row 0 = 0
  column_step : ∀ n, column n ≤ column (n + 1) ∧ column (n + 1) ≤ column n + 1
  row_step : ∀ n, row n ≤ row (n + 1) ∧ row (n + 1) ≤ row n + 1
  moves : ∀ n, column n < column (n + 1) ∨ row n < row (n + 1)

theorem minor_step {S L : ℕ} (hL : 0 < L) (hS : S ≤ L) (n : ℕ) :
    minor S L n ≤ minor S L (n + 1) ∧ minor S L (n + 1) ≤ minor S L n + 1 := by
  rw [minor_succ hL hS]
  split
  · omega
  · omega

theorem staircase_x {a b : ℕ} (hab : b ≤ a) (ha : 0 < a) : Staircase id (minor b a) where
  first := ⟨rfl, minor_zero ha⟩
  column_step n := ⟨Nat.le_succ n, le_rfl⟩
  row_step := minor_step ha hab
  moves n := Or.inl (Nat.lt_succ_self n)

theorem staircase_y {a b : ℕ} (hab : a < b) : Staircase (minor a b) id where
  first := ⟨minor_zero (Nat.zero_lt_of_lt hab), rfl⟩
  column_step := minor_step (Nat.zero_lt_of_lt hab) hab.le
  row_step n := ⟨Nat.le_succ n, le_rfl⟩
  moves n := Or.inr (Nat.lt_succ_self n)

theorem abs_place {v s : ℤ} {m n : ℕ} (hs : s = 1 ∨ s = -1) (hstep : m ≤ n ∧ n ≤ m + 1) :
    |v + s * (n : ℤ) - (v + s * m)| ≤ 1 := by
  rw [abs_le]
  rcases hs with rfl | rfl
  · omega
  · omega

theorem place_mem {v s : ℤ} {k n : ℕ} (hs : s = 1 ∨ s = -1) (hk : k ≤ n) :
    min v (v + s * n) ≤ v + s * (k : ℤ) ∧ v + s * (k : ℤ) ≤ max v (v + s * n) := by
  rcases hs with rfl | rfl
  · omega
  · omega

theorem place_natAbs {v s : ℤ} (n : ℕ) (hs : s = 1 ∨ s = -1) : (v + s * n - v).natAbs = n := by
  rcases hs with rfl | rfl
  · omega
  · omega

theorem rasterises_of_staircase {column row : ℕ → ℕ} (hstair : Staircase column row) (x0 y0 : ℤ)
    {sx sy : ℤ} (hsx : sx = 1 ∨ sx = -1) (hsy : sy = 1 ∨ sy = -1) {N : ℕ}
    (hN : N = max (column N) (row N)) :
    Rasterises x0 y0 (x0 + sx * column N) (y0 + sy * row N)
      ((List.range (N + 1)).map fun n => (x0 + sx * (column n : ℤ), y0 + sy * (row n : ℤ))) where
  length := by
    rw [List.length_map, List.length_range, place_natAbs _ hsx, place_natAbs _ hsy, ← hN]
  first := by
    rw [List.range_succ_eq_map, List.map_cons, List.head?_cons, hstair.first.1, hstair.first.2]
    simp
  last := by
    rw [List.range_succ, List.map_append, List.map_singleton, List.getLast?_concat]
  steps := by
    rw [List.isChain_map, List.isChain_range]
    intro n _
    refine ⟨fun heq => ?_, abs_place hsx (hstair.column_step n), abs_place hsy (hstair.row_step n)⟩
    obtain ⟨hcolumn, hrow⟩ := Prod.mk.inj heq
    rw [place_inj hsx] at hcolumn
    rw [place_inj hsy] at hrow
    rcases hstair.moves n with hlt | hlt
    · exact hlt.ne hcolumn
    · exact hlt.ne hrow
  inside := by
    intro p hp
    obtain ⟨n, hn, rfl⟩ := List.mem_map.mp hp
    have hle : n ≤ N := Nat.lt_succ_iff.mp (List.mem_range.mp hn)
    exact ⟨place_mem hsx (monotone_nat_of_le_succ (fun k => (hstair.column_step k).1) hle),
      place_mem hsy (monotone_nat_of_le_succ (fun k => (hstair.row_step k).1) hle)⟩

/-! ## Where nothing overflows -/

/-- A line over `a` columns and `b` rows on which no `int` overflows. -/
def NoOverflow (a b : ℕ) : Prop :=
  if b ≤ a then
    a ≤ 2147483647 ∧ 3 * a ≤ 2147483647 + 2 * b + a % (2 * a.gcd b)
      ∧ 4 * b + a % (2 * a.gcd b) ≤ a + 2 * a.gcd b + 4294967296
  else
    3 * b ≤ 2147483648 + 2 * a + b % (2 * b.gcd a)
      ∧ (0 < a → 3 * b ≤ 4294967296 + b % (2 * b.gcd a))

instance (a b : ℕ) : Decidable (NoOverflow a b) := by
  unfold NoOverflow
  infer_instance

theorem x_ok_iff {a b : ℕ} (hab : b ≤ a) (ha : 0 < a) (hfit : a ≤ 2147483647) :
    (∀ n < a, x_ok a b n) ↔ 3 * a ≤ 2147483647 + 2 * b + a % (2 * a.gcd b)
      ∧ 4 * b + a % (2 * a.gcd b) ≤ a + 2 * a.gcd b + 4294967296 := by
  have hleast := forall_residue_ge_iff (S := b) ha (t := 0) (Nat.dvd_zero _) (by
    have := class_lt (S := b) ha
    have := (gcd_le (S := b) ha).2
    omega) (3 * a - 2 * b - 2147483647)
  have hgreatest := forall_residue_le_iff (S := b) ha (3 * a + 4294967296 - 4 * b)
  simp only [Nat.zero_le, true_imp_iff, Nat.zero_add] at hleast
  constructor
  · intro h
    have h1 := hleast.mp fun n hn => by
      have hdouble := (h n hn).1.2
      rw [two_mul_error] at hdouble
      unfold INT_MAX at hdouble
      omega
    have h2 := hgreatest.mp fun n hn => by
      have hless := (h n hn).2.1.1
      have hdouble := two_mul_error b a n
      unfold INT_MIN at hless
      omega
    omega
  · rintro ⟨h1, h2⟩ n hn
    have hlow (k : ℕ) := lt_two_mul_error (S := b) ha k
    have hdouble (k : ℕ) (hk : k < a) : 2 * error b a k ≤ 2147483647 := by
      have := hleast.mpr (by omega) k hk
      rw [two_mul_error]
      omega
    have hless : -4294967296 + 2 * b ≤ 2 * error b a n := by
      have := hgreatest.mpr (by omega) n hn
      rw [two_mul_error]
      omega
    have h2n := hdouble n hn
    have hlown := hlow n
    refine ⟨?_, ?_, fun hstep => ?_⟩
    · rw [isInt_iff]
      omega
    · rw [isInt_iff]
      omega
    · -- the sum is the error of the turn after, which is doubled then, or of the last pixel
      have hsucc := error_succ ha hab n
      rw [if_pos hstep] at hsucc
      have hlows := hlow (n + 1)
      rw [isInt_iff, ← hsucc]
      have hle : n + 1 ≤ a := hn
      rcases hle.eq_or_lt with hlast | hlt
      · rw [hlast, error_self ha]
        omega
      · have := hdouble (n + 1) hlt
        omega

theorem residue_of_sum {a b n : ℕ} (h : IsInt (-error a b n - b)) :
    5 * b - 2 * a - 4294967296 ≤ residue a b n := by
  have hdouble := two_mul_error a b n
  rw [isInt_iff] at h
  omega

theorem y_ok_iff {a b : ℕ} (hab : a < b) (hfit : b ≤ 2147483648) :
    (∀ n < b, y_ok a b n) ↔ 3 * b ≤ 2147483648 + 2 * a + b % (2 * b.gcd a)
      ∧ (0 < a → 3 * b ≤ 4294967296 + b % (2 * b.gcd a)) := by
  have hb : 0 < b := Nat.zero_lt_of_lt hab
  have hclass := class_lt (S := a) hb
  have hleast := forall_residue_ge_iff (S := a) hb (t := 0) (Nat.dvd_zero _) (by
    have := (gcd_le (S := a) hb).2
    omega) (3 * b - 2 * a - 2147483648)
  simp only [Nat.zero_le, true_imp_iff, Nat.zero_add] at hleast
  -- the turns that go to another column are those with a residue of `2 * (b - a)` at least
  have hstep (n : ℕ) : 2 * error a b n ≤ b ↔ 2 * (b - a) ≤ residue a b n := by
    rw [two_mul_error]
    omega
  have hdvd : 2 * b.gcd a ∣ 2 * (b - a) :=
    Nat.mul_dvd_mul_left 2 (Nat.dvd_sub (Nat.gcd_dvd_left b a) (Nat.gcd_dvd_right b a))
  have hcolumn (ha : 0 < a) := forall_residue_ge_iff (S := a) hb hdvd (by
    have := Nat.gcd_le_right b ha
    omega) (5 * b - 2 * a - 4294967296)
  constructor
  · intro h
    have h1 := hleast.mp fun n hn => by
      have hdouble := (h n hn).1.1
      have := two_mul_error a b n
      unfold INT_MIN at hdouble
      omega
    refine ⟨by omega, fun ha => ?_⟩
    have h2 := (hcolumn ha).mp fun n hn hres =>
      residue_of_sum ((h n hn).2.1 ((hstep n).mpr hres)).1
    omega
  · rintro ⟨h1, h2⟩ n hn
    have hlow := lt_two_mul_error (S := a) hb n
    have hdouble : 2 * error a b n ≤ 2147483648 := by
      have := hleast.mpr (by omega) n hn
      rw [two_mul_error]
      omega
    refine ⟨?_, fun hx => ?_, fun hx => ?_⟩
    · rw [isInt_iff]
      omega
    · have ha : 0 < a := by
        have := residue_lt (S := a) hb n
        have := (hstep n).mp hx
        omega
      have hless := (hcolumn ha).mpr (by have := h2 ha; omega) n hn ((hstep n).mp hx)
      have := two_mul_error a b n
      rw [isInt_iff, isInt_iff]
      omega
    · rw [isInt_iff]
      omega

/-- Where nothing overflows, `dx` and `dy` do not. -/
theorem NoOverflow.fits {a b : ℕ} (h : NoOverflow a b) : a ≤ 2147483647 ∧ b ≤ 2147483648 := by
  unfold NoOverflow at h
  split at h
  · next hab => exact ⟨h.1, by omega⟩
  · next hab =>
    have hlt := not_le.mp hab
    have hclass := class_lt (S := a) (Nat.zero_lt_of_lt hlt)
    have hle : b.gcd a ≤ b - a :=
      Nat.le_of_dvd (by omega) (Nat.dvd_sub (Nat.gcd_dvd_left b a) (Nat.gcd_dvd_right b a))
    omega

/-! ## The line -/

/-- The locals of a line. -/
def line_of (x0 y0 x1 y1 : ℤ) : line where
  dx := (x1 - x0).natAbs
  sx := if x0 < x1 then 1 else -1
  dy := -(y1 - y0).natAbs
  sy := if y0 < y1 then 1 else -1
  x1 := x1
  y1 := y1

theorem line_start_iff {x0 y0 x1 y1 : ℤ} {s : line × cursor} :
    line_start x0 y0 x1 y1 = some s
      ↔ ((x1 - x0).natAbs ≤ 2147483647 ∧ (y1 - y0).natAbs ≤ 2147483648)
        ∧ (line_of x0 y0 x1 y1,
            (⟨x0, y0, (x1 - x0).natAbs - (y1 - y0).natAbs⟩ : cursor)) = s := by
  have hdx : (if x1 > x0 then x1 - x0 else x0 - x1) = (x1 - x0).natAbs := by
    split
    · omega
    · omega
  have hdy : (if y1 > y0 then y0 - y1 else y1 - y0) = -((y1 - y0).natAbs : ℤ) := by
    split
    · omega
    · omega
  unfold line_start line_of
  rw [hdx, hdy]
  constructor
  · intro h
    obtain ⟨dx, hx, h⟩ := Option.bind_eq_some_iff.mp h
    obtain ⟨hintx, rfl⟩ := int_eq_some.mp hx
    obtain ⟨dy, hy, h⟩ := Option.bind_eq_some_iff.mp h
    obtain ⟨hinty, rfl⟩ := int_eq_some.mp hy
    obtain ⟨-, rfl⟩ := map_int_iff.mp h
    rw [isInt_iff] at hintx hinty
    exact ⟨⟨by omega, by omega⟩, rfl⟩
  · rintro ⟨⟨hx, hy⟩, rfl⟩
    rw [int_of (by rw [isInt_iff]; omega), Option.bind_some, int_of (by rw [isInt_iff]; omega),
      Option.bind_some, int_of (by rw [isInt_iff]; omega)]
    rfl

theorem spans_line_of (x0 y0 x1 y1 : ℤ) (h0 : IsInt x0 ∧ IsInt y0) (h1 : IsInt x1 ∧ IsInt y1) :
    Spans (line_of x0 y0 x1 y1) x0 y0 (x1 - x0).natAbs (y1 - y0).natAbs where
  dx := rfl
  dy := rfl
  sx := by
    unfold line_of
    dsimp only
    split
    · exact Or.inl rfl
    · exact Or.inr rfl
  sy := by
    unfold line_of
    dsimp only
    split
    · exact Or.inl rfl
    · exact Or.inr rfl
  x1 := by
    unfold line_of
    dsimp only
    split
    · omega
    · omega
  y1 := by
    unfold line_of
    dsimp only
    split
    · omega
    · omega
  first := h0
  last := h1

section Whole

variable {l : line} {x0 y0 : ℤ} {a b : ℕ} (h : Spans l x0 y0 a b) (color : UInt32)
  (fb : kgfx_fb_t)
include h

theorem pixels_of_staircase (course : ℕ → cursor) {column row : ℕ → ℕ} {N : ℕ}
    (hstair : Staircase column row) (ha : column N = a) (hb : row N = b) (hN : N = max a b)
    (hcourse : ∀ n, (course n).x0 = x0 + l.sx * column n ∧ (course n).y0 = y0 + l.sy * row n) :
    Rasterises x0 y0 l.x1 l.y1 (pixels_from course 0 (N + 1)) := by
  have hpixels := rasterises_of_staircase hstair x0 y0 h.sx h.sy (N := N)
    (by rw [ha, hb]; exact hN)
  rw [ha, hb, ← h.x1, ← h.y1] at hpixels
  unfold pixels_from
  rw [← List.range_eq_range']
  simp only [hcourse]
  exact hpixels

theorem loop_iff (hfit : a ≤ 2147483647 ∧ b ≤ 2147483648) :
    (∃ fuel r, line_loop l color fuel fb ⟨x0, y0, a - b⟩ = some r
      ∧ Rasterises x0 y0 l.x1 l.y1 r.1) ↔ NoOverflow a b := by
  unfold NoOverflow
  rcases Nat.lt_or_ge a b with hab | hab
  · have hb : 0 < b := Nat.zero_lt_of_lt hab
    have hfirst : (⟨x0, y0, a - b⟩ : cursor) = y_major l x0 y0 a b 0 := by
      unfold y_major
      rw [minor_zero hb, error_zero hb]
      ext
      all_goals simp
    have hpixels := pixels_of_staircase h (y_major l x0 y0 a b) (staircase_y hab)
      (minor_self hb) rfl (max_eq_right hab.le).symm fun _ => ⟨rfl, rfl⟩
    rw [if_neg (not_le.mpr hab), hfirst, course_iff (fun n _ => y_major_end h hb)
      (fun n hn s' => y_major_turn h hab hn s') color fb hpixels, y_ok_iff hab hfit.2]
  · rw [if_pos hab, and_iff_right hfit.1]
    rcases Nat.eq_zero_or_pos a with rfl | ha
    · obtain rfl : b = 0 := Nat.le_zero.mp hab
      -- the first pixel is the last one, and any course through it will do
      have hfirst : (⟨x0, y0, (0 : ℕ) - (0 : ℕ)⟩ : cursor) = x_major l x0 y0 1 1 0 := by
        unfold x_major
        rw [minor_zero Nat.one_pos, error_zero Nat.one_pos]
        ext
        all_goals simp
      have hend : ∀ n ≤ 0, ((x_major l x0 y0 1 1 n).x0 = l.x1 ∧ (x_major l x0 y0 1 1 n).y0 = l.y1)
          ↔ n = 0 := by
        intro n hn
        obtain rfl := Nat.le_zero.mp hn
        rw [h.x1, h.y1, ← hfirst]
        exact iff_of_true ⟨by simp, by simp⟩ rfl
      have hturn : ∀ n < 0, ∀ s', turn l (x_major l x0 y0 1 1 n) = some s'
          ↔ True ∧ x_major l x0 y0 1 1 (n + 1) = s' := fun n hn => absurd hn (Nat.not_lt_zero n)
      have hpixels := pixels_of_staircase h (x_major l x0 y0 1 1) (N := 0)
        (staircase_x le_rfl Nat.one_pos) rfl (minor_zero Nat.one_pos) rfl fun _ => ⟨rfl, rfl⟩
      rw [hfirst, course_iff hend hturn color fb hpixels]
      rw [Nat.zero_mod]
      exact iff_of_true (fun _ _ => trivial) ⟨by omega, by omega⟩
    · have hfirst : (⟨x0, y0, a - b⟩ : cursor) = x_major l x0 y0 a b 0 := by
        unfold x_major
        rw [minor_zero ha, error_zero ha]
        ext
        all_goals simp
      have hpixels := pixels_of_staircase h (x_major l x0 y0 a b) (staircase_x hab ha)
        rfl (minor_self ha) (max_eq_left hab).symm fun _ => ⟨rfl, rfl⟩
      rw [hfirst, course_iff (fun n _ => x_major_end h ha)
        (fun n hn s' => x_major_turn h hab ha hn s') color fb hpixels, x_ok_iff hab ha hfit.1]

end Whole

/-- `kgfx_draw_line` comes to an end, and what it has drawn is the line. -/
def Draws (fb : kgfx_fb_t) (x0 y0 x1 y1 : Int32) (color : UInt32) : Prop :=
  ∃ fuel pixels fb', kgfx_draw_line fuel fb x0 y0 x1 y1 color = some (pixels, fb')
    ∧ Rasterises x0.toInt y0.toInt x1.toInt y1.toInt pixels

theorem draws_iff_loop (fb : kgfx_fb_t) (x0 y0 x1 y1 : Int32) (color : UInt32) (a b : ℕ)
    (ha : (x1.toInt - x0.toInt).natAbs = a) (hb : (y1.toInt - y0.toInt).natAbs = b) :
    Draws fb x0 y0 x1 y1 color ↔ (a ≤ 2147483647 ∧ b ≤ 2147483648)
      ∧ ∃ fuel r, line_loop (line_of x0.toInt y0.toInt x1.toInt y1.toInt) color fuel fb
          ⟨x0.toInt, y0.toInt, a - b⟩ = some r
        ∧ Rasterises x0.toInt y0.toInt x1.toInt y1.toInt r.1 := by
  subst ha hb
  unfold Draws kgfx_draw_line
  constructor
  · rintro ⟨fuel, pixels, fb', hdraw, hpixels⟩
    obtain ⟨s, hstart, hloop⟩ := Option.bind_eq_some_iff.mp hdraw
    obtain ⟨hfit, rfl⟩ := line_start_iff.mp hstart
    exact ⟨hfit, fuel, (pixels, fb'), hloop, hpixels⟩
  · rintro ⟨hfit, fuel, ⟨pixels, fb'⟩, hloop, hpixels⟩
    refine ⟨fuel, pixels, fb', ?_, hpixels⟩
    rw [line_start_iff.mpr ⟨hfit, rfl⟩]
    exact hloop

/-- **Lines**: for all endpoints, `kgfx_draw_line` ends behind the pixels of a line between them
exactly where no `int` overflows on the way. -/
theorem draw_line_iff (fb : kgfx_fb_t) (x0 y0 x1 y1 : Int32) (color : UInt32) :
    Draws fb x0 y0 x1 y1 color
      ↔ NoOverflow (x1.toInt - x0.toInt).natAbs (y1.toInt - y0.toInt).natAbs := by
  rw [draws_iff_loop fb x0 y0 x1 y1 color _ _ rfl rfl]
  have hspans := spans_line_of x0.toInt y0.toInt x1.toInt y1.toInt
    ⟨isInt_toInt _, isInt_toInt _⟩ ⟨isInt_toInt _, isInt_toInt _⟩
  constructor
  · rintro ⟨hfit, hloop⟩
    exact (loop_iff hspans color fb hfit).mp hloop
  · intro hno
    exact ⟨hno.fits, (loop_iff hspans color fb hno.fits).mpr hno⟩

/-- The double of the first error, the double of the error behind a step to the next row, and the
error less the rows. -/
example : ¬NoOverflow 1073741824 0 ∧ ¬NoOverflow 1073741823 1
    ∧ ¬NoOverflow 1431655769 1431655768 := by decide

/-- On a row of 2^30 steps the first `2 * err` overflows. -/
theorem not_draws_row : ¬∀ (fb : kgfx_fb_t) (x0 y0 x1 y1 : Int32) (color : UInt32),
    IsInt (x1.toInt - x0.toInt) → IsInt (x0.toInt - x1.toInt) →
      IsInt (y1.toInt - y0.toInt) → IsInt (y0.toInt - y1.toInt) → Draws fb x0 y0 x1 y1 color := by
  intro h
  have hspans := spans_line_of 0 0 1073741824 0 (by decide) (by decide)
  have hdraws := h ⟨none, 0, 0, 0⟩ 0 0 1073741824 0 0 (by decide) (by decide) (by decide)
    (by decide)
  have hloop := ((draws_iff_loop _ 0 0 1073741824 0 0 _ _ rfl rfl).mp hdraws).2
  exact absurd ((loop_iff hspans 0 _ (by decide)).mp hloop) (by decide)

end SysInC.Kgfx
