/-
The snake of `test_os/kernel.c`.

The body moves by one cell, and what its last cell held is lost but for `snake_old_tail`, which is
only drawn over. Where the snake has eaten, `snake_len++` takes in the cell of the array behind the
body as it is.
-/
import SysInC.RunStates
import Mathlib.Algebra.Order.Ring.Int
import Mathlib.Logic.Function.Basic

set_option autoImplicit false

namespace SysInC.KernelSnake

open SysInC.RunStates

/-! ## The source -/

def SNAKE_GRID_W : ℕ := 28

def SNAKE_GRID_H : ℕ := 20

@[ext]
structure snake_pt_t where
  x : ℤ
  y : ℤ
  deriving DecidableEq

structure game where
  os_mode : ℕ
  snake_body : ℕ → snake_pt_t
  snake_len : ℕ
  snake_dir_x : ℤ
  snake_dir_y : ℤ
  snake_food : snake_pt_t
  snake_old_tail : snake_pt_t
  snake_score : ℤ
  snake_gameover : Bool
  snake_last_tick : UInt32

/-- What is static before the first game. -/
def game.boot : game where
  os_mode := 0
  snake_body := fun _ => ⟨0, 0⟩
  snake_len := 4
  snake_dir_x := 1
  snake_dir_y := 0
  snake_food := ⟨15, 10⟩
  snake_old_tail := ⟨0, 0⟩
  snake_score := 0
  snake_gameover := false
  snake_last_tick := 0

/-- The food, where `pit_get_ticks()` is `seed`. -/
def spawn_snake_food (seed : UInt32) : snake_pt_t :=
  ⟨seed.toNat % (SNAKE_GRID_W - 2) + 1, seed.toNat / 7 % (SNAKE_GRID_H - 2) + 1⟩

/-- `for (int i = k; i > 0; i--)` -/
def shift (body : ℕ → snake_pt_t) : ℕ → ℕ → snake_pt_t
  | 0 => body
  | i + 1 => shift (Function.update body (i + 1) (body i)) i

def game.new_head (g : game) : snake_pt_t :=
  ⟨(g.snake_body 0).x + g.snake_dir_x, (g.snake_body 0).y + g.snake_dir_y⟩

section Source

variable (spawn : UInt32 → snake_pt_t)

def start_snake_game (g : game) (seed tick : UInt32) : game :=
  { g with
      os_mode := 4
      snake_len := 4
      snake_score := 0
      snake_gameover := false
      snake_dir_x := 1
      snake_dir_y := 0
      snake_body := fun i => if i < 4 then ⟨10 - i, 10⟩ else g.snake_body i
      snake_food := spawn seed
      snake_last_tick := tick }

def update_snake_game (g : game) (current_tick seed : UInt32) : game :=
  if g.snake_gameover then g
  else if current_tick - g.snake_last_tick < 10 then g
  else if g.new_head.x < 0 ∨ g.new_head.x ≥ (SNAKE_GRID_W : ℤ) ∨ g.new_head.y < 0
      ∨ g.new_head.y ≥ (SNAKE_GRID_H : ℤ) then
    { g with snake_last_tick := current_tick, snake_gameover := true }
  else if (List.range g.snake_len).any fun i => g.snake_body i = g.new_head then
    { g with snake_last_tick := current_tick, snake_gameover := true }
  else
    let moved : game := { g with
      snake_last_tick := current_tick
      snake_old_tail := g.snake_body (g.snake_len - 1)
      snake_body := Function.update (shift g.snake_body (g.snake_len - 1)) 0 g.new_head }
    if g.new_head = g.snake_food then
      { moved with
          snake_len :=
            if g.snake_len < SNAKE_GRID_W * SNAKE_GRID_H - 1 then g.snake_len + 1 else g.snake_len
          snake_score := g.snake_score + 10
          snake_food := spawn seed }
    else moved

/-- A key while the snake is played. -/
def os_handle_keypress (g : game) (c : Char) (seed tick : UInt32) : game :=
  if c = 'w' ∨ c = 'W' then
    if g.snake_dir_y = 0 then { g with snake_dir_x := 0, snake_dir_y := -1 } else g
  else if c = 's' ∨ c = 'S' then
    if g.snake_dir_y = 0 then { g with snake_dir_x := 0, snake_dir_y := 1 } else g
  else if c = 'a' ∨ c = 'A' then
    if g.snake_dir_x = 0 then { g with snake_dir_x := -1, snake_dir_y := 0 } else g
  else if c = 'd' ∨ c = 'D' then
    if g.snake_dir_x = 0 then { g with snake_dir_x := 1, snake_dir_y := 0 } else g
  else if c = ' ' then
    if g.snake_gameover then start_snake_game spawn g seed tick else g
  else if c = Char.ofNat 27 ∨ c = 'q' ∨ c = 'Q' then { g with os_mode := 0 }
  else g

/-! ## Runs -/

/-- A key or a turn of the main loop, with what `pit_get_ticks()` is in it. -/
inductive event where
  | key (c : Char) (seed tick : UInt32)
  | update (current_tick seed : UInt32)

def step (g : game) : event → game
  | .key c seed tick => if g.os_mode = 4 then os_handle_keypress spawn g c seed tick else g
  | .update current_tick seed =>
    if g.os_mode = 4 then update_snake_game spawn g current_tick seed else g

end Source

/-! ## The body -/

/-- A cell of the grid. -/
def Inside (p : snake_pt_t) : Prop :=
  0 ≤ p.x ∧ p.x < SNAKE_GRID_W ∧ 0 ≤ p.y ∧ p.y < SNAKE_GRID_H

/-- Two cells with a side in common. -/
def Adjacent (p q : snake_pt_t) : Prop := (p.x - q.x).natAbs + (p.y - q.y).natAbs = 1

instance (p q : snake_pt_t) : Decidable (Adjacent p q) := inferInstanceAs (Decidable (_ = _))

/-- The first cells lie in the grid, differ, and each two in a row have a side in common. -/
structure Body (cells : ℕ → snake_pt_t) (len : ℕ) : Prop where
  inside : ∀ i < len, Inside (cells i)
  distinct : ∀ i < len, ∀ j < i, cells j ≠ cells i
  adjacent : ∀ i, i + 1 < len → Adjacent (cells i) (cells (i + 1))

/-- While the game is not over, the snake is a body. -/
def Sound (g : game) : Prop := g.snake_gameover = false → Body g.snake_body g.snake_len

/-- On this turn the snake moves to the food and becomes longer. -/
def Grows (g : game) (current_tick : UInt32) : Prop :=
  (g.os_mode = 4 ∧ g.snake_gameover = false ∧ ¬current_tick - g.snake_last_tick < 10)
    ∧ (Inside g.new_head ∧ ∀ i < g.snake_len, g.snake_body i ≠ g.new_head)
    ∧ g.new_head = g.snake_food ∧ g.snake_len < SNAKE_GRID_W * SNAKE_GRID_H - 1

/-- The cell of the array behind the body can take the place of the tail that moves on. -/
def Replaces (g : game) : Prop :=
  Inside (g.snake_body g.snake_len)
    ∧ Adjacent (g.snake_body (g.snake_len - 2)) (g.snake_body g.snake_len)
    ∧ g.snake_body g.snake_len ≠ g.snake_food
    ∧ ∀ i < g.snake_len - 1, g.snake_body i ≠ g.snake_body g.snake_len

/-- Where the snake grows, what is behind its body can take the place of the tail. -/
def Fits (g : game) : event → Prop
  | .key _ _ _ => True
  | .update current_tick _ => Grows g current_tick → Replaces g

/-! ## Cells -/

section Cells

variable {cells : ℕ → snake_pt_t} {len : ℕ}

theorem body_succ_iff (hlen : 0 < len) :
    Body cells (len + 1) ↔ Body cells len ∧ Inside (cells len)
      ∧ Adjacent (cells (len - 1)) (cells len) ∧ ∀ i < len, cells i ≠ cells len := by
  constructor
  · intro h
    refine ⟨⟨?_, ?_, ?_⟩, h.inside len (Nat.lt_succ_self len), ?_,
      h.distinct len (Nat.lt_succ_self len)⟩
    · exact fun i hi => h.inside i (Nat.lt_succ_of_lt hi)
    · exact fun i hi => h.distinct i (Nat.lt_succ_of_lt hi)
    · exact fun i hi => h.adjacent i (Nat.lt_succ_of_lt hi)
    · have hlast := h.adjacent (len - 1)
      rw [Nat.sub_add_cancel hlen] at hlast
      exact hlast (Nat.lt_succ_self len)
  · rintro ⟨h, hinside, hadjacent, hdistinct⟩
    refine ⟨fun i hi => ?_, fun i hi => ?_, fun i hi => ?_⟩
    · rcases Nat.lt_succ_iff_lt_or_eq.mp hi with hi | rfl
      · exact h.inside i hi
      · exact hinside
    · rcases Nat.lt_succ_iff_lt_or_eq.mp hi with hi | rfl
      · exact h.distinct i hi
      · exact hdistinct
    · rcases Nat.lt_succ_iff_lt_or_eq.mp hi with hi | rfl
      · exact h.adjacent i hi
      · exact hadjacent

/-- What the loop has moved: the cells up to `k`, by one. -/
theorem shift_apply (cells : ℕ → snake_pt_t) (k i : ℕ) :
    shift cells k i = if 0 < i ∧ i ≤ k then cells (i - 1) else cells i := by
  induction k generalizing cells with
  | zero =>
      rw [if_neg (by omega)]
      rfl
  | succ k ih =>
      rw [shift, ih]
      by_cases hi : 0 < i ∧ i ≤ k
      · have hne : i - 1 ≠ k + 1 := by omega
        rw [if_pos hi, if_pos ⟨hi.1, Nat.le_succ_of_le hi.2⟩, Function.update_of_ne hne]
      · rw [if_neg hi]
        by_cases hk : i = k + 1
        · subst hk
          rw [if_pos ⟨Nat.succ_pos k, le_rfl⟩, Function.update_self]
          rfl
        · rw [if_neg (by omega), Function.update_of_ne hk]

/-- The cells after a move. -/
def moved (cells : ℕ → snake_pt_t) (len : ℕ) (head : snake_pt_t) : ℕ → snake_pt_t :=
  Function.update (shift cells (len - 1)) 0 head

theorem moved_zero (cells : ℕ → snake_pt_t) (len : ℕ) (head : snake_pt_t) :
    moved cells len head 0 = head :=
  Function.update_self _ _ _

theorem moved_succ (head : snake_pt_t) {i : ℕ} (hi : i + 1 < len) :
    moved cells len head (i + 1) = cells i := by
  rw [moved, Function.update_of_ne (Nat.succ_ne_zero i), shift_apply,
    if_pos ⟨Nat.succ_pos i, Nat.le_sub_one_of_lt hi⟩]
  rfl

/-- The cell behind the body stays what it was. -/
theorem moved_len (head : snake_pt_t) (hlen : 0 < len) : moved cells len head len = cells len := by
  rw [moved, Function.update_of_ne hlen.ne', shift_apply, if_neg (by omega)]

/-- A move to a free cell next to the head. -/
theorem Body.moved (h : Body cells len) {head : snake_pt_t} (hinside : Inside head)
    (hfree : ∀ i < len, cells i ≠ head) (hadjacent : Adjacent head (cells 0)) :
    Body (moved cells len head) len := by
  refine ⟨fun i hi => ?_, fun i hi j hj => ?_, fun i hi => ?_⟩
  · cases i with
    | zero => rwa [moved_zero]
    | succ i =>
        rw [moved_succ head hi]
        exact h.inside i (Nat.lt_of_succ_lt hi)
  · obtain ⟨i, rfl⟩ := Nat.exists_eq_succ_of_ne_zero (Nat.ne_of_gt (Nat.zero_lt_of_lt hj))
    rw [moved_succ head hi]
    cases j with
    | zero =>
        rw [moved_zero]
        exact (hfree i (Nat.lt_of_succ_lt hi)).symm
    | succ j =>
        rw [moved_succ head (hj.trans hi)]
        exact h.distinct i (Nat.lt_of_succ_lt hi) j (Nat.lt_of_succ_lt_succ hj)
  · rw [moved_succ head hi]
    cases i with
    | zero => rwa [moved_zero]
    | succ i =>
        rw [moved_succ head (Nat.lt_of_succ_lt hi)]
        exact h.adjacent i (Nat.lt_of_succ_lt hi)

end Cells

/-! ## A turn of the loop -/

/-- What a game keeps: a body of two cells at least, and a direction. -/
structure Inv (g : game) : Prop where
  body : Body g.snake_body g.snake_len
  two_le : 2 ≤ g.snake_len
  heading : g.snake_dir_x.natAbs + g.snake_dir_y.natAbs = 1

section Update

variable (spawn : UInt32 → snake_pt_t) {g : game} {current_tick seed : UInt32}

theorem outside_iff (p : snake_pt_t) :
    (p.x < 0 ∨ p.x ≥ (SNAKE_GRID_W : ℤ) ∨ p.y < 0 ∨ p.y ≥ (SNAKE_GRID_H : ℤ)) ↔ ¬Inside p := by
  unfold Inside
  omega

theorem hits_iff (g : game) (p : snake_pt_t) :
    ((List.range g.snake_len).any fun i => g.snake_body i = p) = true
      ↔ ¬∀ i < g.snake_len, g.snake_body i ≠ p := by
  simp

/-- What a turn of the loop makes of a game: the body stays as it is, or the snake moves to a free
cell of the grid and may grow. -/
inductive Turn (g : game) (current_tick : UInt32) (u : game) : Prop where
  | stays (hbody : u.snake_body = g.snake_body) (hlen : u.snake_len = g.snake_len)
      (hgrows : ¬Grows g current_tick)
  | moves (hinside : Inside g.new_head) (hfree : ∀ i < g.snake_len, g.snake_body i ≠ g.new_head)
      (hbody : u.snake_body = moved g.snake_body g.snake_len g.new_head)
      (hlen : u.snake_len = g.snake_len) (hgrows : ¬Grows g current_tick)
  | grows (hgrows : Grows g current_tick) (hover : u.snake_gameover = false)
      (hbody : u.snake_body = moved g.snake_body g.snake_len g.new_head)
      (hlen : u.snake_len = g.snake_len + 1)

theorem update_turn (g : game) (current_tick seed : UInt32) (hmode : g.os_mode = 4) :
    Turn g current_tick (update_snake_game spawn g current_tick seed) := by
  unfold update_snake_game
  by_cases hover : g.snake_gameover = true
  · rw [if_pos hover]
    exact .stays rfl rfl fun h => Bool.false_ne_true (h.1.2.1.symm.trans hover)
  rw [if_neg hover]
  by_cases hearly : current_tick - g.snake_last_tick < 10
  · rw [if_pos hearly]
    exact .stays rfl rfl fun h => h.1.2.2 hearly
  rw [if_neg hearly]
  by_cases hinside : Inside g.new_head
  swap
  · rw [if_pos ((outside_iff g.new_head).mpr hinside)]
    exact .stays rfl rfl fun h => hinside h.2.1.1
  rw [if_neg (mt (outside_iff g.new_head).mp (not_not.mpr hinside))]
  by_cases hfree : ∀ i < g.snake_len, g.snake_body i ≠ g.new_head
  swap
  · rw [if_pos ((hits_iff g g.new_head).mpr hfree)]
    exact .stays rfl rfl fun h => hfree h.2.1.2
  rw [if_neg (mt (hits_iff g g.new_head).mp (not_not.mpr hfree))]
  have hplays : g.snake_gameover = false := Bool.eq_false_iff.mpr hover
  by_cases hfood : g.new_head = g.snake_food
  swap
  · rw [if_neg hfood]
    exact .moves hinside hfree rfl rfl fun h => hfood h.2.2.1
  rw [if_pos hfood]
  by_cases hroom : g.snake_len < SNAKE_GRID_W * SNAKE_GRID_H - 1
  · rw [if_pos hroom]
    exact .grows ⟨⟨hmode, hplays, hearly⟩, ⟨hinside, hfree⟩, hfood, hroom⟩ hplays rfl rfl
  · rw [if_neg hroom]
    exact .moves hinside hfree rfl rfl fun h => hroom h.2.2.2

theorem update_dir (g : game) (current_tick seed : UInt32) :
    (update_snake_game spawn g current_tick seed).snake_dir_x = g.snake_dir_x
      ∧ (update_snake_game spawn g current_tick seed).snake_dir_y = g.snake_dir_y := by
  unfold update_snake_game
  split_ifs <;> exact ⟨rfl, rfl⟩

/-- The head moves to the cell beside it. -/
theorem Inv.adjacent (h : Inv g) : Adjacent g.new_head (g.snake_body 0) := by
  have hheading := h.heading
  unfold Adjacent game.new_head
  dsimp only
  omega

theorem Inv.pos (h : Inv g) : 0 < g.snake_len := lt_of_lt_of_le Nat.two_pos h.two_le

theorem Inv.moved (h : Inv g) (hinside : Inside g.new_head)
    (hfree : ∀ i < g.snake_len, g.snake_body i ≠ g.new_head) :
    Body (moved g.snake_body g.snake_len g.new_head) g.snake_len :=
  h.body.moved hinside hfree h.adjacent

/-- A snake that grows is a body where what was behind it can take the place of the tail. -/
theorem Inv.grows_iff (h : Inv g) (hgrows : Grows g current_tick) :
    Body (KernelSnake.moved g.snake_body g.snake_len g.new_head) (g.snake_len + 1)
      ↔ Replaces g := by
  obtain ⟨-, ⟨hinside, hfree⟩, hfood, -⟩ := hgrows
  have hlast : g.snake_len - 1 = g.snake_len - 2 + 1 := by
    have htwo := h.two_le
    omega
  have hlt : g.snake_len - 2 + 1 < g.snake_len := by
    have htwo := h.two_le
    omega
  have hbehind : (∀ i < g.snake_len, KernelSnake.moved g.snake_body g.snake_len g.new_head i
        ≠ g.snake_body g.snake_len)
      ↔ g.snake_body g.snake_len ≠ g.snake_food
        ∧ ∀ i < g.snake_len - 1, g.snake_body i ≠ g.snake_body g.snake_len := by
    constructor
    · intro hne
      refine ⟨?_, fun i hi => ?_⟩
      · have hhead := hne 0 h.pos
        rw [moved_zero, hfood] at hhead
        exact hhead.symm
      · have hi' : i + 1 < g.snake_len := Nat.add_lt_of_lt_sub hi
        have hmoved := hne (i + 1) hi'
        rwa [moved_succ _ hi'] at hmoved
    · rintro ⟨hhead, hne⟩ i hi
      cases i with
      | zero =>
          rw [moved_zero, hfood]
          exact hhead.symm
      | succ i =>
          rw [moved_succ _ hi]
          exact hne i (Nat.lt_sub_of_add_lt hi)
  rw [body_succ_iff h.pos, moved_len _ h.pos, hbehind, hlast, moved_succ _ hlt, ← hlast]
  exact and_iff_right (h.moved hinside hfree)

/-! ## Steps -/

/-- Every game starts with a snake that is a body, whatever was played before. -/
theorem Inv.start (g : game) (seed tick : UInt32) : Inv (start_snake_game spawn g seed tick) := by
  have hcell : ∀ i < 4, (start_snake_game spawn g seed tick).snake_body i = ⟨10 - i, 10⟩ :=
    fun i hi => if_pos hi
  refine ⟨⟨fun i hi => ?_, fun i hi j hj => ?_, fun i hi => ?_⟩, show 2 ≤ 4 by decide, rfl⟩
  · have hi : i < 4 := hi
    rw [hcell i hi]
    simp only [Inside, SNAKE_GRID_W, SNAKE_GRID_H]
    omega
  · have hi : i < 4 := hi
    rw [hcell i hi, hcell j (hj.trans hi)]
    intro heq
    have hx := congrArg snake_pt_t.x heq
    dsimp only at hx
    omega
  · have hi : i + 1 < 4 := hi
    rw [hcell i (Nat.lt_of_succ_lt hi), hcell (i + 1) hi]
    unfold Adjacent
    dsimp only
    omega

/-- A key turns the snake or starts a game. -/
theorem Inv.key (h : Inv g) (c : Char) (seed tick : UInt32) :
    Inv (os_handle_keypress spawn g c seed tick) := by
  unfold os_handle_keypress
  by_cases hw : c = 'w' ∨ c = 'W'
  · rw [if_pos hw]
    split_ifs
    · exact ⟨h.body, h.two_le, rfl⟩
    · exact h
  rw [if_neg hw]
  by_cases hs : c = 's' ∨ c = 'S'
  · rw [if_pos hs]
    split_ifs
    · exact ⟨h.body, h.two_le, rfl⟩
    · exact h
  rw [if_neg hs]
  by_cases ha : c = 'a' ∨ c = 'A'
  · rw [if_pos ha]
    split_ifs
    · exact ⟨h.body, h.two_le, rfl⟩
    · exact h
  rw [if_neg ha]
  by_cases hd : c = 'd' ∨ c = 'D'
  · rw [if_pos hd]
    split_ifs
    · exact ⟨h.body, h.two_le, rfl⟩
    · exact h
  rw [if_neg hd]
  by_cases hblank : c = ' '
  · rw [if_pos hblank]
    split_ifs
    · exact Inv.start spawn g seed tick
    · exact h
  rw [if_neg hblank]
  split_ifs
  · exact ⟨h.body, h.two_le, h.heading⟩
  · exact h

/-- A step whose growth finds a fit cell keeps the invariant. -/
theorem Inv.step (h : Inv g) {e : event} (hfits : Fits g e) : Inv (step spawn g e) := by
  unfold KernelSnake.step
  cases e with
  | key c seed tick =>
      dsimp only
      split_ifs
      · exact h.key spawn c seed tick
      · exact h
  | update current_tick seed =>
      dsimp only
      by_cases hmode : g.os_mode = 4
      swap
      · rw [if_neg hmode]
        exact h
      rw [if_pos hmode]
      obtain ⟨hx, hy⟩ := update_dir spawn g current_tick seed
      have hheading := h.heading
      rw [← hx, ← hy] at hheading
      rcases update_turn spawn g current_tick seed hmode with
        ⟨hbody, hlen, -⟩ | ⟨hinside, hfree, hbody, hlen, -⟩ | ⟨hgrows, -, hbody, hlen⟩
      · exact ⟨by rw [hbody, hlen]; exact h.body, hlen ▸ h.two_le, hheading⟩
      · exact ⟨by rw [hbody, hlen]; exact h.moved hinside hfree, hlen ▸ h.two_le, hheading⟩
      · have hbody' := (h.grows_iff hgrows).mpr (hfits hgrows)
        exact ⟨by rw [hbody, hlen]; exact hbody', hlen ▸ Nat.le_succ_of_le h.two_le, hheading⟩

/-- A step whose growth does not find one leaves a snake that is no body. -/
theorem Inv.not_sound_step (h : Inv g) {e : event} (hfits : ¬Fits g e) :
    ¬Sound (KernelSnake.step spawn g e) := by
  cases e with
  | key c seed tick => exact absurd trivial hfits
  | update current_tick seed =>
      obtain ⟨hgrows, hreplaces⟩ := Classical.not_imp.mp hfits
      unfold KernelSnake.step
      dsimp only
      rw [if_pos hgrows.1.1]
      intro hsound
      rcases update_turn spawn g current_tick seed hgrows.1.1 with
        ⟨-, -, hnot⟩ | ⟨-, -, -, -, hnot⟩ | ⟨-, hover, hbody, hlen⟩
      · exact hnot hgrows
      · exact hnot hgrows
      · have hsnake := hsound hover
        rw [hbody, hlen] at hsnake
        exact hreplaces ((h.grows_iff hgrows).mp hsnake)

end Update

/-- **The body of the snake**: since the start of a game, and whatever food is spawned, the snake is
a body in every state with the game not over, exactly where each tick on which it eats and grows
finds behind the body a cell that can take the place of the tail. -/
theorem snake_body_iff (spawn : UInt32 → snake_pt_t) (g : game) (seed tick : UInt32)
    (events : List event) :
    (∀ u ∈ states (step spawn) (start_snake_game spawn g seed tick) events, Sound u)
      ↔ ∀ p ∈ steps (step spawn) (start_snake_game spawn g seed tick) events, Fits p.1 p.2 :=
  states_iff (fun _ h _ => h.body) (fun _ _ h hfits => h.step spawn hfits)
    (fun _ _ h hfits => h.not_sound_step spawn hfits) (Inv.start spawn g seed tick) events

/-- In the first game, with food right in front of the snake, the cell that is taken in is the
corner of the grid. -/
theorem snake_body_corner :
    ¬∀ (g : game) (seed tick : UInt32) (events : List event),
      ∀ u ∈ states (step spawn_snake_food) (start_snake_game spawn_snake_food g seed tick) events,
        Sound u := by
  intro h
  have hgame := h .boot 192 192 [.update 202 202] _ (List.mem_cons_of_mem _ List.mem_cons_self)
  have hlast := (hgame (by decide)).adjacent 3 (by decide)
  exact absurd hlast (by decide)

end SysInC.KernelSnake
