/-
`freestanding/kringbuf.c`, a ring buffer of bytes behind a pointer of the caller's.

The counters never exceed the capacity, so that no sum of `size_t` wraps. Write offset, read offset
and count are kept apart; what ties them together is `Rep`.
-/
import SysInC.RingQueue

set_option autoImplicit false

namespace SysInC.Kringbuf

open RingQueue

/-! ## The source -/

structure kringbuf_t where
  /-- The bytes behind the pointer, if it is not null. -/
  buffer : Option (ℕ → UInt8)
  capacity : ℕ
  head : ℕ
  tail : ℕ
  count : ℕ

/-- A descriptor that is not initialised yet, with static storage. -/
def kringbuf_t.zero : kringbuf_t := ⟨none, 0, 0, 0, 0⟩

def kringbuf_init (rb : kringbuf_t) (buffer : Option (ℕ → UInt8)) (capacity : ℕ) : kringbuf_t :=
  if buffer.isNone ∨ capacity = 0 then rb else ⟨buffer, capacity, 0, 0, 0⟩

def kringbuf_push (rb : kringbuf_t) (byte : UInt8) : kringbuf_t × ℤ :=
  match rb.buffer with
  | none => (rb, -1)
  | some cells =>
    if rb.capacity ≤ rb.count then (rb, -1)
    else
      ({ rb with
          buffer := some (Function.update cells rb.head byte)
          head := (rb.head + 1) % rb.capacity
          count := rb.count + 1 }, 0)

/-- With `out_byte`, if it is not null: what is stored there. -/
def kringbuf_pop (rb : kringbuf_t) (out_byte : Bool) : kringbuf_t × ℤ × Option UInt8 :=
  match rb.buffer with
  | none => (rb, -1, none)
  | some cells =>
    if rb.count = 0 then (rb, -1, none)
    else
      ({ rb with tail := (rb.tail + 1) % rb.capacity, count := rb.count - 1 }, 0,
        if out_byte then some (cells rb.tail) else none)

def kringbuf_peek (rb : kringbuf_t) (out_byte : Bool) : ℤ × Option UInt8 :=
  match rb.buffer with
  | none => (-1, none)
  | some cells =>
    if rb.count = 0 then (-1, none) else (0, if out_byte then some (cells rb.tail) else none)

def kringbuf_is_empty (rb : kringbuf_t) : Bool := rb.count = 0

def kringbuf_is_full (rb : kringbuf_t) : Bool := rb.capacity ≤ rb.count

def kringbuf_count (rb : kringbuf_t) : ℕ := rb.count

/-! ## Runs -/

/-- A call, with an `out_byte` or without. -/
inductive call where
  | push (byte : UInt8)
  | pop (out_byte : Bool)
  | peek (out_byte : Bool)
  | is_empty
  | is_full
  | count

/-- What a call returns and stores. -/
structure answer where
  ret : ℤ
  out : Option UInt8
  deriving DecidableEq

def kringbuf_t.serve (rb : kringbuf_t) : call → kringbuf_t × answer
  | .push byte => ((kringbuf_push rb byte).1, ⟨(kringbuf_push rb byte).2, none⟩)
  | .pop out => ((kringbuf_pop rb out).1, ⟨(kringbuf_pop rb out).2.1, (kringbuf_pop rb out).2.2⟩)
  | .peek out => (rb, ⟨(kringbuf_peek rb out).1, (kringbuf_peek rb out).2⟩)
  | .is_empty => (rb, ⟨if kringbuf_is_empty rb then 1 else 0, none⟩)
  | .is_full => (rb, ⟨if kringbuf_is_full rb then 1 else 0, none⟩)
  | .count => (rb, ⟨kringbuf_count rb, none⟩)

section Runs

variable {σ : Type*} (serve : σ → call → σ × answer)

/-- The answers to one call after the other. -/
def answers (s : σ) : List call → List answer
  | [] => []
  | c :: calls => (serve s c).2 :: answers (serve s c).1 calls

def after (s : σ) (calls : List call) : σ := calls.foldl (fun s c => (serve s c).1) s

end Runs

/-! ## Bounded queues -/

/-- What the calls mean for a queue of at most `capacity` bytes, the oldest first. -/
def serve_queue (capacity : ℕ) (q : List UInt8) : call → List UInt8 × answer
  | .push byte => if q.length < capacity then (q ++ [byte], ⟨0, none⟩) else (q, ⟨-1, none⟩)
  | .pop out =>
    match q with
    | [] => ([], ⟨-1, none⟩)
    | x :: q => (q, ⟨0, if out then some x else none⟩)
  | .peek out =>
    match q with
    | [] => ([], ⟨-1, none⟩)
    | x :: q => (x :: q, ⟨0, if out then some x else none⟩)
  | .is_empty => (q, ⟨if q.length = 0 then 1 else 0, none⟩)
  | .is_full => (q, ⟨if capacity ≤ q.length then 1 else 0, none⟩)
  | .count => (q, ⟨q.length, none⟩)

theorem serve_push (capacity : ℕ) (q : List UInt8) (byte : UInt8) :
    serve_queue capacity q (.push byte)
      = if q.length < capacity then (q ++ [byte], ⟨0, none⟩) else (q, ⟨-1, none⟩) := rfl

/-! ## The representation -/

/-- A buffer of the given capacity holds the bytes of a queue. Without a capacity it was not
initialised. -/
inductive Rep (capacity : ℕ) (q : List UInt8) (rb : kringbuf_t) : Prop where
  | empty (hcap : capacity = 0) (hq : q = []) (hrb : rb = .zero)
  | cells (cells : ℕ → UInt8) (hbuffer : rb.buffer = some cells)
      (hcap : rb.capacity = capacity) (htail : rb.tail < capacity) (hcount : rb.count ≤ capacity)
      (hhead : rb.head = (rb.tail + rb.count) % capacity)
      (hq : contents capacity cells rb.tail rb.count = q)

variable {capacity : ℕ} {q : List UInt8} {rb : kringbuf_t}

theorem Rep.length_le (h : Rep capacity q rb) : q.length ≤ capacity := by
  rcases h with ⟨-, rfl, -⟩ | ⟨cells, -, -, -, hcount, -, rfl⟩
  · exact Nat.zero_le _
  · rwa [length_contents]

theorem Rep.init (rb : kringbuf_t) (cells : ℕ → UInt8) (capacity : ℕ)
    (h : capacity = 0 → rb = .zero) :
    Rep capacity [] (kringbuf_init rb (some cells) capacity) := by
  unfold kringbuf_init
  by_cases hcap : capacity = 0
  · rw [if_pos (Or.inr hcap)]
    exact .empty hcap rfl (h hcap)
  · rw [if_neg (by simpa using hcap)]
    exact .cells cells rfl rfl (Nat.pos_of_ne_zero hcap) (Nat.zero_le _)
      (Nat.zero_mod _).symm rfl

/-- **Push**: the byte becomes the latest one, unless the buffer is full. -/
theorem Rep.push (h : Rep capacity q rb) (byte : UInt8) :
    Rep capacity (serve_queue capacity q (.push byte)).1 (rb.serve (.push byte)).1
      ∧ (rb.serve (.push byte)).2 = (serve_queue capacity q (.push byte)).2 := by
  rcases h with ⟨rfl, rfl, rfl⟩ | ⟨cells, hbuffer, hcap, htail, hcount, hhead, hq⟩
  · exact ⟨.empty rfl rfl rfl, rfl⟩
  · have hlen : q.length = rb.count := by rw [← hq, length_contents]
    unfold kringbuf_t.serve kringbuf_push serve_queue
    rw [hbuffer, hcap, hlen]
    dsimp only
    by_cases hfull : capacity ≤ rb.count
    · rw [if_pos hfull, if_neg (not_lt.mpr hfull)]
      exact ⟨.cells cells hbuffer hcap htail hcount hhead hq, rfl⟩
    · have hroom : rb.count < capacity := not_le.mp hfull
      rw [if_neg hfull, if_pos hroom]
      refine ⟨.cells _ rfl rfl htail hroom ?_ ?_, rfl⟩
      · rw [hhead, Nat.mod_add_mod, Nat.add_assoc]
      · rw [hhead, contents_push hroom, hq]

/-- **Pop**: the oldest byte leaves. -/
theorem Rep.pop (h : Rep capacity q rb) (out : Bool) :
    Rep capacity (serve_queue capacity q (.pop out)).1 (rb.serve (.pop out)).1
      ∧ (rb.serve (.pop out)).2 = (serve_queue capacity q (.pop out)).2 := by
  rcases h with ⟨rfl, rfl, rfl⟩ | ⟨cells, hbuffer, hcap, htail, hcount, hhead, hq⟩
  · exact ⟨.empty rfl rfl rfl, rfl⟩
  · unfold kringbuf_t.serve kringbuf_pop
    rw [hbuffer, hcap]
    dsimp only
    subst hq
    cases hrb : rb.count with
    | zero =>
        have hnil : contents capacity cells rb.tail 0 = [] := rfl
        rw [if_pos rfl, hnil]
        exact ⟨.cells cells hbuffer hcap htail hcount hhead (by rw [hrb]; rfl), rfl⟩
    | succ count =>
        rw [if_neg (Nat.succ_ne_zero count), contents_pop, Nat.mod_eq_of_lt htail]
        refine ⟨.cells cells rfl rfl (Nat.mod_lt _ (by omega)) (by dsimp only; omega) ?_ rfl,
          rfl⟩
        dsimp only
        rw [hhead, hrb, Nat.mod_add_mod]
        congr 1
        omega

theorem Rep.peek (h : Rep capacity q rb) (out : Bool) :
    Rep capacity (serve_queue capacity q (.peek out)).1 (rb.serve (.peek out)).1
      ∧ (rb.serve (.peek out)).2 = (serve_queue capacity q (.peek out)).2 := by
  rcases h with ⟨rfl, rfl, rfl⟩ | ⟨cells, hbuffer, hcap, htail, hcount, hhead, hq⟩
  · exact ⟨.empty rfl rfl rfl, rfl⟩
  · have hrep : Rep capacity q rb := .cells cells hbuffer hcap htail hcount hhead hq
    unfold kringbuf_t.serve kringbuf_peek
    rw [hbuffer]
    dsimp only
    cases hrb : rb.count with
    | zero =>
        obtain rfl : q = [] := by rw [← hq, hrb]; rfl
        rw [if_pos rfl]
        exact ⟨hrep, rfl⟩
    | succ count =>
        rw [hrb, contents_pop, Nat.mod_eq_of_lt htail] at hq
        subst hq
        rw [if_neg (Nat.succ_ne_zero count)]
        exact ⟨hrep, rfl⟩

/-- The count is that of the queue. -/
theorem Rep.count_eq (h : Rep capacity q rb) : rb.count = q.length := by
  rcases h with ⟨-, rfl, rfl⟩ | ⟨cells, -, -, -, -, -, rfl⟩
  · rfl
  · rw [length_contents]

theorem Rep.capacity_eq (h : Rep capacity q rb) : rb.capacity = capacity := by
  rcases h with ⟨rfl, -, rfl⟩ | ⟨-, -, hcap, -⟩
  · rfl
  · exact hcap

/-- Each call is answered as by the queue, and the buffer goes on to hold its bytes. -/
theorem Rep.serve (h : Rep capacity q rb) (c : call) :
    Rep capacity (serve_queue capacity q c).1 (rb.serve c).1
      ∧ (rb.serve c).2 = (serve_queue capacity q c).2 := by
  cases c with
  | push byte => exact h.push byte
  | pop out => exact h.pop out
  | peek out => exact h.peek out
  | is_empty =>
      refine ⟨h, ?_⟩
      simp [kringbuf_t.serve, serve_queue, kringbuf_is_empty, h.count_eq]
  | is_full =>
      refine ⟨h, ?_⟩
      simp [kringbuf_t.serve, serve_queue, kringbuf_is_full, h.count_eq, h.capacity_eq]
  | count =>
      refine ⟨h, ?_⟩
      simp [kringbuf_t.serve, serve_queue, kringbuf_count, h.count_eq]

/-- So are all the calls of a run. -/
theorem Rep.run (h : Rep capacity q rb) (calls : List call) :
    Rep capacity (after (serve_queue capacity) q calls) (after kringbuf_t.serve rb calls)
      ∧ answers kringbuf_t.serve rb calls = answers (serve_queue capacity) q calls := by
  induction calls generalizing q rb with
  | nil => exact ⟨h, rfl⟩
  | cons c calls ih =>
      obtain ⟨hrep, hanswer⟩ := h.serve c
      obtain ⟨hafter, hrest⟩ := ih hrep
      exact ⟨hafter, by rw [answers, answers, hanswer, hrest]⟩

/-! ## Runs of a buffer -/

/-- A call that fails changes nothing. -/
theorem serve_failed {c : call} (h : (rb.serve c).2.ret = -1) : (rb.serve c).1 = rb := by
  cases c with
  | push byte =>
      unfold kringbuf_t.serve kringbuf_push at h ⊢
      cases hbuffer : rb.buffer with
      | none => rfl
      | some cells =>
          rw [hbuffer] at h
          dsimp only at h ⊢
          split_ifs at h ⊢ with hfull
          rfl
  | pop out =>
      unfold kringbuf_t.serve kringbuf_pop at h ⊢
      cases hbuffer : rb.buffer with
      | none => rfl
      | some cells =>
          rw [hbuffer] at h
          dsimp only at h ⊢
          split_ifs at h ⊢ with hempty
          rfl
  | peek out => rfl
  | is_empty => rfl
  | is_full => rfl
  | count => rfl

/-- A buffer that is initialised answers every run as a queue of at most `capacity` bytes does; a
push fails exactly where the queue is full, and what fails changes nothing. -/
theorem kringbuf_refines (rb : kringbuf_t) (cells : ℕ → UInt8) (capacity : ℕ)
    (h : capacity = 0 → rb = .zero) (calls : List call) :
    answers kringbuf_t.serve (kringbuf_init rb (some cells) capacity) calls
        = answers (serve_queue capacity) [] calls
      ∧ (∀ byte, ((after kringbuf_t.serve (kringbuf_init rb (some cells) capacity) calls).serve
            (.push byte)).2.ret = -1
          ↔ (after (serve_queue capacity) [] calls).length = capacity)
      ∧ ∀ c, ((after kringbuf_t.serve (kringbuf_init rb (some cells) capacity) calls).serve
            c).2.ret = -1 →
          ((after kringbuf_t.serve (kringbuf_init rb (some cells) capacity) calls).serve c).1
            = after kringbuf_t.serve (kringbuf_init rb (some cells) capacity) calls := by
  obtain ⟨hrep, hanswers⟩ := (Rep.init rb cells capacity h).run calls
  refine ⟨hanswers, fun byte => ?_, fun c => serve_failed⟩
  have hle := hrep.length_le
  rw [(hrep.serve (.push byte)).2]
  generalize after (serve_queue capacity) [] calls = q at hle ⊢
  rw [serve_push]
  by_cases hroom : q.length < capacity
  · rw [if_pos hroom]
    exact iff_of_false (fun hret => absurd hret (show ¬ (0 : ℤ) = -1 by decide)) hroom.ne
  · rw [if_neg hroom]
    exact iff_of_true rfl (le_antisymm hle (not_lt.mp hroom))

/-- Three pushes to a buffer of two bytes. -/
theorem kringbuf_refines_two :
    answers kringbuf_t.serve (kringbuf_init .zero (some fun _ => 0) 2)
        [.push 1, .push 2, .push 3, .pop true, .peek true]
      = [⟨0, none⟩, ⟨0, none⟩, ⟨-1, none⟩, ⟨0, some 1⟩, ⟨0, some 2⟩] :=
  (kringbuf_refines .zero (fun _ => 0) 2 (fun h => absurd h (by decide))
    [.push 1, .push 2, .push 3, .pop true, .peek true]).1.trans (by decide)

/-! ## Order -/

/-- The bytes that are taken in, in order. -/
def pushed : List (call × answer) → List UInt8
  | [] => []
  | (.push byte, a) :: log => if a.ret = 0 then byte :: pushed log else pushed log
  | _ :: log => pushed log

/-- The bytes that are given back by pops. -/
def popped : List (call × answer) → List UInt8
  | [] => []
  | (.pop _, a) :: log => a.out.toList ++ popped log
  | _ :: log => popped log

/-- Where every pop stores its byte, the bytes that were taken in are those that were given back
and behind them those that are left. -/
theorem pushed_eq (capacity : ℕ) (q : List UInt8) (calls : List call)
    (hout : call.pop false ∉ calls) :
    q ++ pushed (calls.zip (answers (serve_queue capacity) q calls))
      = popped (calls.zip (answers (serve_queue capacity) q calls))
        ++ after (serve_queue capacity) q calls := by
  induction calls generalizing q with
  | nil => simp [pushed, popped, after]
  | cons c calls ih =>
      have ih' := ih (serve_queue capacity q c).1 fun hmem => hout (List.mem_cons_of_mem c hmem)
      have hafter : after (serve_queue capacity) q (c :: calls)
          = after (serve_queue capacity) (serve_queue capacity q c).1 calls := rfl
      rw [answers, List.zip_cons_cons, hafter]
      cases c with
      | push byte =>
          unfold pushed popped
          by_cases hroom : q.length < capacity
          · rw [serve_push, if_pos hroom] at ih' ⊢
            rw [if_pos rfl, ← ih', List.append_assoc, List.singleton_append]
          · rw [serve_push, if_neg hroom] at ih' ⊢
            rw [if_neg (show ¬ (-1 : ℤ) = 0 by decide), ← ih']
      | pop out =>
          obtain rfl : out = true := by
            cases out with
            | false => exact absurd List.mem_cons_self hout
            | true => rfl
          cases q with
          | nil => exact ih'
          | cons x q =>
              unfold pushed popped
              exact congrArg (List.cons x) ih'
      | peek out =>
          cases q with
          | nil => exact ih'
          | cons x q => exact ih'
      | is_empty => exact ih'
      | is_full => exact ih'
      | count => exact ih'

end SysInC.Kringbuf
