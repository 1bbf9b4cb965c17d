/-
What `kmalloc` does to the block list.

`take_block_spec` is the statement about memory: the stores of a whole allocation carve the
block that is taken, in place, and reach nothing beyond that block and the headers of the
blocks behind it. `kmalloc_spec` puts the first-fit walk in front of it.

The proofs read the assigned fields back one by one through `get_set_*`. Everything else
is left where it was, and that is one statement about bytes (`split_block_frame`,
`claim_frame`) and not one per field.
-/
import SysInC.KmemList

set_option autoImplicit false

namespace SysInC.Kmem

open SysInC.ByteMem

variable {abi : Abi}

/-! ## `kmalloc`'s block -/

/-- `split_block` as a sequence of stores of known values: nothing it reads has been
overwritten by the time it reads it. -/
theorem split_block_eq {m : Mem} {b : blk} {p n req : ℕ} (hb : Header abi m b p n)
    (hroom : req + 4 * abi.sizeof_ptr + 32 ≤ b.size) (hstop : b.stop abi ≤ abi.size_mod) :
    split_block abi m b.addr req =
      let new_block := b.addr + 4 * abi.sizeof_ptr + req
      let m := set abi m new_block .size (b.size - req - 4 * abi.sizeof_ptr)
      let m := set abi m new_block .is_free 1
      let m := set abi m new_block .next n
      let m := set abi m new_block .prev b.addr
      let m := if n ≠ 0 then set abi m n .prev new_block else m
      let m := set abi m b.addr .next new_block
      set abi m b.addr .size req := by
  rw [blk.stop] at hstop
  have h4 := abi.four_le
  have hnew : (b.addr + 4 * abi.sizeof_ptr + req) % abi.size_mod
      = b.addr + 4 * abi.sizeof_ptr + req := Nat.mod_eq_of_lt (by omega)
  have hrest : (b.size + 2 * abi.size_mod - req - 4 * abi.sizeof_ptr) % abi.size_mod
      = b.size - req - 4 * abi.sizeof_ptr := by
    rw [show b.size + 2 * abi.size_mod - req - 4 * abi.sizeof_ptr
      = b.size - req - 4 * abi.sizeof_ptr + abi.size_mod + abi.size_mod by omega,
      Nat.add_mod_right, Nat.add_mod_right, Nat.mod_eq_of_lt (by omega)]
  have hapart : HeaderApart abi (b.addr + 4 * abi.sizeof_ptr + req) b.addr := Or.inr (by omega)
  simp only [split_block, BLOCK_HEADER_SIZE_eq, hnew, hb.size, hrest, get_set_apart hapart,
    hb.next]

/-- The stores of a split: inside the block, and one `prev` word behind it. -/
theorem split_block_frame {m : Mem} {b : blk} {p n req : ℕ} (hb : Header abi m b p n)
    (hroom : req + 4 * abi.sizeof_ptr + 32 ≤ b.size) (hstop : b.stop abi ≤ abi.size_mod) (i : ℕ)
    (hi : i < b.addr ∨ b.stop abi ≤ i)
    (hn : n = 0 ∨ i < n + 3 * abi.sizeof_ptr ∨ n + 4 * abi.sizeof_ptr ≤ i) :
    split_block abi m b.addr req i = m i := by
  rw [split_block_eq hb hroom hstop]
  rw [blk.stop] at hi
  have hcurr : i < b.addr ∨ b.addr + 4 * abi.sizeof_ptr ≤ i := by omega
  have hnew : i < b.addr + 4 * abi.sizeof_ptr + req
      ∨ b.addr + 4 * abi.sizeof_ptr + req + 4 * abi.sizeof_ptr ≤ i := by omega
  have hprev : ∀ m' : Mem, (if n ≠ 0 then
      set abi m' n .prev (b.addr + 4 * abi.sizeof_ptr + req) else m') i = m' i := by
    intro m'
    split_ifs with h
    · refine set_of_not_mem ?_
      simp only [field.offset, field.width]
      omega
    · rfl
  simp only [set_of_not_header hcurr, hprev, set_of_not_header hnew]

/-- The headers a split leaves: the block cut to `req`, the new block, and the block
behind them with its `prev` moved. -/
theorem split_block_headers {m : Mem} {b : blk} {p n req : ℕ} (hb : Header abi m b p n)
    (hroom : req + 4 * abi.sizeof_ptr + 32 ≤ b.size) (hstop : b.stop abi ≤ abi.size_mod)
    (hpos : 0 < b.addr) (hn : n = 0 ∨ n + 4 * abi.sizeof_ptr ≤ b.addr ∨ b.stop abi ≤ n)
    (hnlt : n < abi.size_mod) :
    Header abi (split_block abi m b.addr req) ⟨b.addr, req, b.free⟩ p
        (b.addr + 4 * abi.sizeof_ptr + req)
      ∧ Header abi (split_block abi m b.addr req)
        ⟨b.addr + 4 * abi.sizeof_ptr + req, b.size - req - 4 * abi.sizeof_ptr, true⟩ b.addr n
      ∧ ∀ (c : blk) (nc : ℕ), c.addr = n → n ≠ 0 → Header abi m c b.addr nc →
        Header abi (split_block abi m b.addr req) c (b.addr + 4 * abi.sizeof_ptr + req) nc := by
  have h4 := abi.four_le
  rw [split_block_eq hb hroom hstop]
  rw [blk.stop] at hstop hn
  set nb := b.addr + 4 * abi.sizeof_ptr + req with hnb
  have hbn : HeaderApart abi b.addr nb := Or.inl (by omega)
  have hnb' : HeaderApart abi nb b.addr := Or.inr (by omega)
  have hcn : n ≠ 0 → HeaderApart abi n b.addr ∧ HeaderApart abi n nb
      ∧ HeaderApart abi b.addr n ∧ HeaderApart abi nb n := by
    intro h
    simp only [HeaderApart]
    omega
  -- the middle store is the only one whose presence depends on the list
  have hmid : ∀ (m' : Mem) (x : ℕ) (f : field), (n ≠ 0 → HeaderApart abi n x) →
      get abi (if n ≠ 0 then set abi m' n .prev nb else m') x f = get abi m' x f := by
    intro m' x f hx
    split_ifs with h
    · exact get_set_apart (hx h)
    · rfl
  have hmidb := fun (m' : Mem) (f : field) => hmid m' b.addr f (fun h => (hcn h).1)
  have hmidn := fun (m' : Mem) (f : field) => hmid m' nb f (fun h => (hcn h).2.1)
  refine ⟨⟨?_, ?_, ?_, ?_⟩, ⟨?_, ?_, ?_, ?_⟩, ?_⟩
  · exact get_set_word (by decide) (by omega)
  · rw [get_set_field (by decide), get_set_field (by decide), hmidb, get_set_apart hnb',
      get_set_apart hnb', get_set_apart hnb', get_set_apart hnb', hb.is_free]
  · rw [get_set_field (by decide), get_set_word (by decide) (by omega)]
  · rw [get_set_field (by decide), get_set_field (by decide), hmidb, get_set_apart hnb',
      get_set_apart hnb', get_set_apart hnb', get_set_apart hnb', hb.prev]
  · rw [get_set_apart hbn, get_set_apart hbn, hmidn, get_set_field (by decide),
      get_set_field (by decide), get_set_field (by decide),
      get_set_word (by decide) (by omega)]
  · rw [get_set_apart hbn, get_set_apart hbn, hmidn, get_set_field (by decide),
      get_set_field (by decide), get_set_flag le_rfl]
    rfl
  · rw [get_set_apart hbn, get_set_apart hbn, hmidn, get_set_field (by decide),
      get_set_word (by decide) (by omega)]
  · rw [get_set_apart hbn, get_set_apart hbn, hmidn, get_set_word (by decide) (by omega)]
  · intro c nc hc hn0 hcm
    subst hc
    obtain ⟨-, -, hbc, hnc⟩ := hcn hn0
    simp only [if_pos hn0]
    refine ⟨?_, ?_, ?_, ?_⟩
    · rw [get_set_apart hbc, get_set_apart hbc, get_set_field (by decide)]
      simp only [get_set_apart hnc, hcm.size]
    · rw [get_set_apart hbc, get_set_apart hbc, get_set_field (by decide)]
      simp only [get_set_apart hnc, hcm.is_free]
    · rw [get_set_apart hbc, get_set_apart hbc, get_set_field (by decide)]
      simp only [get_set_apart hnc, hcm.next]
    · rw [get_set_apart hbc, get_set_apart hbc, get_set_word (by decide) (by omega)]

/-- The blocks that `take_block` makes of one free block. -/
def carve (abi : Abi) (req : ℕ) (b : blk) : List blk :=
  if req + 4 * abi.sizeof_ptr + 32 ≤ b.size then
    [⟨b.addr, req, false⟩,
      ⟨b.addr + 4 * abi.sizeof_ptr + req, b.size - req - 4 * abi.sizeof_ptr, true⟩]
  else [⟨b.addr, b.size, false⟩]

/-- `take_block` after its split: the flag, then the back pointer. -/
theorem take_block_eq {m : Mem} {b : blk} {p n req : ℕ} (hb : Header abi m b p n)
    (hreq : req ≤ b.size) (hptr : abi.sizeof_ptr < req) (hstop : b.stop abi ≤ abi.size_mod)
    (hwrap : req + 4 * abi.sizeof_ptr + 32 < abi.size_mod) :
    take_block abi m b.addr req =
      (store (set abi (if req + 4 * abi.sizeof_ptr + 32 ≤ b.size then
            split_block abi m b.addr req else m) b.addr .is_free 0)
          (b.addr + 4 * abi.sizeof_ptr) abi.sizeof_ptr b.addr,
        b.addr + 5 * abi.sizeof_ptr) := by
  rw [blk.stop] at hstop
  have hpay : (b.addr + 4 * abi.sizeof_ptr + abi.sizeof_ptr) % abi.size_mod
      = b.addr + 5 * abi.sizeof_ptr := by
    rw [Nat.mod_eq_of_lt (by omega)]
    ring
  have hslot : back_slot abi (b.addr + 5 * abi.sizeof_ptr) = b.addr + 4 * abi.sizeof_ptr := by
    rw [back_slot, show b.addr + 5 * abi.sizeof_ptr + abi.size_mod - abi.sizeof_ptr
      = b.addr + 4 * abi.sizeof_ptr + abi.size_mod by omega, Nat.add_mod_right,
      Nat.mod_eq_of_lt (by omega)]
  simp only [take_block, BLOCK_HEADER_SIZE_eq, Nat.mod_eq_of_lt hwrap, hb.size, hpay, hslot]

/-- The flag and the back pointer of a block touch no other header. -/
theorem claim_frame (m : Mem) (b i : ℕ)
    (hi : i < b ∨ b + 5 * abi.sizeof_ptr ≤ i) :
    store (set abi m b .is_free 0) (b + 4 * abi.sizeof_ptr) abi.sizeof_ptr b i = m i := by
  rw [store_of_not_mem _ _ _ _ _ (by omega), set_of_not_header (by omega)]

/-- The header of the block that is claimed. -/
theorem claim_header {m : Mem} {b : blk} {p n : ℕ} (hb : Header abi m b p n) :
    Header abi (store (set abi m b.addr .is_free 0) (b.addr + 4 * abi.sizeof_ptr)
      abi.sizeof_ptr b.addr) ⟨b.addr, b.size, false⟩ p n := by
  refine Header.congr (m := set abi m b.addr .is_free 0) ⟨?_, ?_, ?_, ?_⟩ ?_
  · rw [get_set_field (by decide), hb.size]
  · exact get_set_flag (Nat.zero_le _)
  · rw [get_set_field (by decide), hb.next]
  · rw [get_set_field (by decide), hb.prev]
  · intro i h1 h2
    exact store_of_not_mem _ _ _ _ _ (Or.inl h2)

/-- Taking a block changes no byte outside it but in the `prev` word behind it. -/
theorem take_block_frame {m : Mem} {b : blk} {p n req : ℕ} (hb : Header abi m b p n)
    (hreq : req ≤ b.size) (hptr : abi.sizeof_ptr < req) (hstop : b.stop abi ≤ abi.size_mod)
    (hwrap : req + 4 * abi.sizeof_ptr + 32 < abi.size_mod) (i : ℕ)
    (hi : i < b.addr ∨ b.stop abi ≤ i)
    (hn : n = 0 ∨ i < n + 3 * abi.sizeof_ptr ∨ n + 4 * abi.sizeof_ptr ≤ i) :
    (take_block abi m b.addr req).1 i = m i := by
  have hclaim : i < b.addr ∨ b.addr + 5 * abi.sizeof_ptr ≤ i := by
    rw [blk.stop] at hi
    omega
  rw [take_block_eq hb hreq hptr hstop hwrap]
  dsimp only
  rw [claim_frame _ _ _ hclaim]
  split_ifs with hsplit
  · exact split_block_frame hb hsplit hstop i hi hn
  · rfl

/-- The blocks that the taken block is carved into stand in memory between its neighbours, and
the one behind it points back to the last of them. -/
theorem take_block_headers {m : Mem} {b : blk} {p n req : ℕ} (hb : Header abi m b p n)
    (hreq : req ≤ b.size) (hptr : abi.sizeof_ptr < req) (hstop : b.stop abi ≤ abi.size_mod)
    (hwrap : req + 4 * abi.sizeof_ptr + 32 < abi.size_mod) (hpos : 0 < b.addr)
    (hn : n = 0 ∨ n + 4 * abi.sizeof_ptr ≤ b.addr ∨ b.stop abi ≤ n) (hnlt : n < abi.size_mod) :
    Linked abi (take_block abi m b.addr req).1 p (carve abi req b) n
      ∧ ∀ (c : blk) (nc : ℕ), c.addr = n → n ≠ 0 → Header abi m c b.addr nc →
        Header abi (take_block abi m b.addr req).1 c (final p (carve abi req b)) nc := by
  rw [take_block_eq hb hreq hptr hstop hwrap, carve]
  dsimp only
  -- the block behind lies outside what the claim writes
  have hkeep {m1 : Mem} {c : blk} {q nc : ℕ} (hc : c.addr = n) (hn0 : n ≠ 0)
      (h : Header abi m1 c q nc) :
      Header abi (store (set abi m1 b.addr .is_free 0) (b.addr + 4 * abi.sizeof_ptr)
        abi.sizeof_ptr b.addr) c q nc := by
    apply h.congr
    intro i h1 h2
    rw [blk.stop] at hn
    exact claim_frame _ _ _ (by omega)
  -- with a split, the header behind was rewritten once already
  split_ifs with hsplit
  · obtain ⟨hs1, hs2, hs3⟩ := split_block_headers hb hsplit hstop hpos hn hnlt
    refine ⟨⟨claim_header hs1, ?_, trivial⟩,
      fun c nc hc hn0 hcm => hkeep hc hn0 (hs3 c nc hc hn0 hcm)⟩
    apply hs2.congr
    intro i h1 h2
    dsimp only at h1 h2
    exact claim_frame _ _ _ (by omega)
  · exact ⟨⟨claim_header hb, trivial⟩, fun c nc hc hn0 hcm => hkeep hc hn0 hcm⟩

/-- **What taking a block does.** The block is carved in place, its payload starts
behind the back pointer, and no byte changes outside the block and the other headers. -/
theorem take_block_spec {m : Mem} {pre post : List blk} {b : blk} {req : ℕ}
    (hl : Linked abi m 0 (pre ++ b :: post) 0) (hp : Placed abi (pre ++ b :: post))
    (hreq : req ≤ b.size) (hptr : abi.sizeof_ptr < req)
    (hwrap : req + 4 * abi.sizeof_ptr + 32 < abi.size_mod) :
    (take_block abi m b.addr req).2 = b.addr + 5 * abi.sizeof_ptr
      ∧ Linked abi (take_block abi m b.addr req).1 0 (pre ++ (carve abi req b ++ post)) 0
      ∧ load (take_block abi m b.addr req).1 (b.addr + 4 * abi.sizeof_ptr) abi.sizeof_ptr = b.addr
      ∧ ∀ i, (i < b.addr ∨ b.stop abi ≤ i)
        → (∀ c ∈ post, i < c.addr ∨ c.addr + 4 * abi.sizeof_ptr ≤ i)
        → (take_block abi m b.addr req).1 i = m i := by
  obtain ⟨-, hhb, -⟩ := (linked_append m 0 pre (b :: post) 0).mp hl
  obtain ⟨hbpos, hbstop⟩ := hp.bounds b (List.mem_append_right _ List.mem_cons_self)
  obtain ⟨hn, hnlt⟩ := hp.first_behind
  obtain ⟨hcarve, hhead⟩ := take_block_headers hhb hreq hptr hbstop hwrap hbpos hn hnlt
  have hframe := take_block_frame hhb hreq hptr hbstop hwrap
  refine ⟨?_, ?_, ?_, ?_⟩
  · rw [take_block_eq hhb hreq hptr hbstop hwrap]
  -- `Linked.splice` does the rest of the list
  · refine Linked.splice [b] (carve abi req b) hl hp (fun n => ?_) hcarve ?_ ?_
    · rw [carve]
      split_ifs <;> rfl
    · intro c hc nc hcm
      have hfirst : c.addr = first post 0 := by
        cases post with
        | nil => cases hc
        | cons c' post =>
            cases hc
            rfl
      have hcpos := (hp.bounds c (by simp [List.mem_of_mem_head? hc])).1
      exact hhead c nc hfirst (by omega) hcm
    · intro i hi hn
      exact hframe i (hi b List.mem_cons_self) (hn.imp_right (Or.imp_left fun h => by omega))
  · rw [take_block_eq hhb hreq hptr hbstop hwrap]
    apply load_store_of_lt
    rw [← abi.size_mod_eq]
    rw [blk.stop] at hbstop
    omega
  · intro i hi hc
    apply hframe i hi
    cases post with
    | nil => exact Or.inl rfl
    | cons c post =>
        have hout := hc c List.mem_cons_self
        rw [first]
        omega

/-! ## The first-fit walk -/

/-- `kmalloc` passes this block over. -/
def TooSmall (req : ℕ) (b : blk) : Prop := b.free = false ∨ b.size < req

theorem kmalloc_loop_none {m : Mem} {p req fuel : ℕ} {bs : List blk} (hl : Linked abi m p bs 0)
    (hp : Placed abi bs) (hfuel : bs.length < fuel) (hall : ∀ b ∈ bs, TooSmall req b) :
    kmalloc_loop abi m req fuel (first bs 0) = some (m, 0) := by
  induction bs generalizing p fuel with
  | nil =>
      obtain ⟨fuel, rfl⟩ := Nat.exists_eq_succ_of_ne_zero (by omega : fuel ≠ 0)
      simp [kmalloc_loop, first]
  | cons b bs ih =>
      obtain ⟨fuel, rfl⟩ := Nat.exists_eq_succ_of_ne_zero (by omega : fuel ≠ 0)
      have hpos := (hp.bounds b List.mem_cons_self).1
      have hskip : ¬(b.free.toNat ≠ 0 ∧ req ≤ b.size) := by
        rintro ⟨hfree, hsize⟩
        rcases hall b List.mem_cons_self with h | h
        · exact hfree (by rw [h]; rfl)
        · omega
      rw [List.length_cons] at hfuel
      rw [first, kmalloc_loop, if_neg (by omega), hl.1.is_free, hl.1.size, if_neg hskip, hl.1.next]
      exact ih hl.2 (hp.of_append_right [b]) (by omega)
        (fun c hc => hall c (List.mem_cons_of_mem _ hc))

theorem kmalloc_loop_some {m : Mem} {p req : ℕ} (fuel : ℕ) {pre post : List blk} {b : blk}
    (hl : Linked abi m p (pre ++ b :: post) 0) (hp : Placed abi (pre ++ b :: post))
    (hfuel : pre.length < fuel) (hpre : ∀ c ∈ pre, TooSmall req c) (hfree : b.free = true)
    (hreq : req ≤ b.size) :
    kmalloc_loop abi m req fuel (first (pre ++ b :: post) 0)
      = some (take_block abi m b.addr req) := by
  induction pre generalizing p fuel with
  | nil =>
      obtain ⟨fuel, rfl⟩ := Nat.exists_eq_succ_of_ne_zero (by omega : fuel ≠ 0)
      have hpos := (hp.bounds b List.mem_cons_self).1
      have htake : b.free.toNat ≠ 0 ∧ req ≤ b.size := ⟨by rw [hfree]; decide, hreq⟩
      rw [List.nil_append, first, kmalloc_loop, if_neg (by omega), hl.1.is_free, hl.1.size,
        if_pos htake]
  | cons c pre ih =>
      obtain ⟨fuel, rfl⟩ := Nat.exists_eq_succ_of_ne_zero (by omega : fuel ≠ 0)
      have hpos := (hp.bounds c List.mem_cons_self).1
      have hrest : Placed abi (pre ++ b :: post) := hp.of_append_right [c]
      have hskip : ¬(c.free.toNat ≠ 0 ∧ req ≤ c.size) := by
        rintro ⟨hfree, hsize⟩
        rcases hpre c List.mem_cons_self with h | h
        · exact hfree (by rw [h]; rfl)
        · omega
      rw [List.length_cons] at hfuel
      rw [List.cons_append, first, kmalloc_loop, if_neg (by omega), hl.1.is_free, hl.1.size,
        if_neg hskip, hl.1.next]
      exact ih fuel hl.2 hrest (by omega) (fun x hx => hpre x (List.mem_cons_of_mem _ hx))

/-- The first block that fits, if there is one. -/
theorem first_fit (req : ℕ) (bs : List blk) : (∀ b ∈ bs, TooSmall req b)
    ∨ ∃ pre b post, bs = pre ++ b :: post ∧ (∀ c ∈ pre, TooSmall req c)
      ∧ b.free = true ∧ req ≤ b.size := by
  induction bs with
  | nil => exact Or.inl (fun b hb => absurd hb List.not_mem_nil)
  | cons b bs ih =>
      by_cases hb : b.free = true ∧ req ≤ b.size
      · exact Or.inr ⟨[], b, bs, rfl, fun c hc => absurd hc List.not_mem_nil, hb.1, hb.2⟩
      · have hsmall : TooSmall req b := by
          by_cases hfree : b.free = true
          · exact Or.inr (not_le.mp (fun h => hb ⟨hfree, h⟩))
          · exact Or.inl (Bool.not_eq_true _ ▸ hfree)
        rcases ih with hall | ⟨pre, c, post, rfl, hpre, hfree, hsize⟩
        · exact Or.inl (List.forall_mem_cons.mpr ⟨hsmall, hall⟩)
        · exact Or.inr ⟨b :: pre, c, post, rfl, List.forall_mem_cons.mpr ⟨hsmall, hpre⟩,
            hfree, hsize⟩

/-! ## The carved list -/

theorem carve_bounds {req : ℕ} {b c : blk} (hc : c ∈ carve abi req b) :
    b.addr ≤ c.addr ∧ c.stop abi ≤ b.stop abi := by
  unfold carve at hc
  split_ifs at hc with hsplit
  · rcases List.mem_pair.mp hc with rfl | rfl <;> simp only [blk.stop] <;> omega
  · obtain rfl := List.mem_singleton.mp hc
    simp only [blk.stop]
    omega

theorem Placed.carve (req : ℕ) {pre post : List blk} {b : blk}
    (hp : Placed abi (pre ++ b :: post)) : Placed abi (pre ++ (carve abi req b ++ post)) := by
  have hb := hp.bounds b (List.mem_append_right _ List.mem_cons_self)
  refine hp.replace [b] _ ⟨?_, ?_⟩ ?_
  · intro c hc
    have hbc := carve_bounds hc
    omega
  · unfold Kmem.carve
    split_ifs with hsplit
    · refine List.pairwise_pair.mpr (Or.inl ?_)
      simp only [blk.stop]
      omega
    · exact List.pairwise_singleton _ _
  · intro c hc x hx
    have hbc := hp.apart_of_mem hc
    have hxb := carve_bounds hx
    omega

/-- The block that is handed out is the first of the carved ones, and the only used one. -/
theorem carve_eq_cons (abi : Abi) (req : ℕ) (b : blk) (hreq : req ≤ b.size) :
    ∃ size rest, carve abi req b = ⟨b.addr, size, false⟩ :: rest ∧ req ≤ size
      ∧ b.addr + 4 * abi.sizeof_ptr + size ≤ b.stop abi ∧ ∀ c ∈ rest, c.free = true := by
  unfold carve
  split_ifs with hsplit
  · refine ⟨req, _, rfl, le_rfl, ?_, ?_⟩
    · rw [blk.stop]
      omega
    · intro c hc
      rw [List.mem_singleton.mp hc]
  · exact ⟨b.size, [], rfl, hreq, le_rfl, fun c hc => absurd hc List.not_mem_nil⟩

/-! ## `kmalloc` -/

/-- No block of the heap is free and as large as `req`. -/
def NothingFits (abi : Abi) (s : kheap) (req : ℕ) : Prop :=
  ∀ bs, Represents abi s bs → ∀ b ∈ bs, TooSmall req b

/-- The sums of `kmalloc(size)` do not wrap, or no block gets as far as the second one. -/
def kmalloc_ok (abi : Abi) (s : kheap) (size : ℕ) : Prop :=
  (size + 7) / 8 * 8 + 5 * abi.sizeof_ptr + 32 < abi.size_mod
    ∨ NothingFits abi s (required_space abi size)

theorem required_space_eq {size : ℕ}
    (h : (size + 7) / 8 * 8 + 5 * abi.sizeof_ptr + 32 < abi.size_mod) :
    required_space abi size = (size + 7) / 8 * 8 + abi.sizeof_ptr := by
  rw [required_space, ALIGN8_eq (by omega), Nat.mod_eq_of_lt (by omega)]

/-- What a successful `kmalloc` leaves: `pre` and `post` as they were, `b` carved, and the
payload's back pointer naming `b`. -/
structure Taken (abi : Abi) (s s' : kheap) (pre : List blk) (b : blk) (post : List blk)
    (req : ℕ) : Prop where
  represents : Represents abi s' (pre ++ (carve abi req b ++ post))
  back : load s'.mem (b.addr + 4 * abi.sizeof_ptr) abi.sizeof_ptr = b.addr
  frame : ∀ i, (i < b.addr ∨ b.stop abi ≤ i)
    → (∀ c ∈ post, i < c.addr ∨ c.addr + 4 * abi.sizeof_ptr ≤ i) → s'.mem i = s.mem i

theorem kmalloc_null {s : kheap} {bs : List blk} {size : ℕ} (hr : Represents abi s bs)
    (hp : Placed abi bs) (hall : ∀ b ∈ bs, TooSmall (required_space abi size) b) :
    kmalloc abi s size = some (s, 0) := by
  have hloop := kmalloc_loop_none hr.2 hp hp.length_lt hall
  rw [← hr.1] at hloop
  rw [kmalloc, hloop]
  split_ifs <;> rfl

/-- **`kmalloc`** returns, either `NULL` with the heap as it was, or the first block that
fits. -/
theorem kmalloc_spec {s : kheap} {bs : List blk} {size : ℕ} (hr : Represents abi s bs)
    (hp : Placed abi bs) (hok : kmalloc_ok abi s size) :
    kmalloc abi s size = some (s, 0)
      ∨ ∃ pre b post s', bs = pre ++ b :: post ∧ b.free = true
        ∧ (size + 7) / 8 * 8 + abi.sizeof_ptr ≤ b.size
        ∧ kmalloc abi s size = some (s', b.addr + 5 * abi.sizeof_ptr)
        ∧ Taken abi s s' pre b post ((size + 7) / 8 * 8 + abi.sizeof_ptr) := by
  have h4 := abi.four_le
  rcases hok with hwrap | hnofit
  · rcases first_fit (required_space abi size) bs with hall | ⟨pre, b, post, rfl, hpre, hfree, hreq⟩
    · exact Or.inl (kmalloc_null hr hp hall)
    · by_cases hnull : size = 0 ∨ s.head_block = 0
      · exact Or.inl (if_pos hnull)
      have hlen := hp.length_lt
      have hloop := kmalloc_loop_some abi.size_mod hr.2 hp
        (by rw [List.length_append] at hlen; omega) hpre hfree hreq
      rw [← hr.1] at hloop
      rw [required_space_eq hwrap] at hreq hloop
      obtain ⟨hpay, hlink, hback, hframe⟩ := take_block_spec hr.2 hp hreq (by omega) (by omega)
      refine Or.inr ⟨pre, b, post, { s with mem := (take_block abi s.mem b.addr
        ((size + 7) / 8 * 8 + abi.sizeof_ptr)).1 }, rfl, hfree, hreq, ?_, ?_, hback, hframe⟩
      · rw [kmalloc, if_neg hnull, required_space_eq hwrap, hloop, Option.map_some, hpay]
      · refine ⟨?_, hlink⟩
        obtain ⟨size', rest, hcarve, -⟩ := carve_eq_cons abi _ b hreq
        rw [hcarve]
        refine hr.1.trans ?_
        simp only [first_append]
        rfl
  · exact Or.inl (kmalloc_null hr hp (hnofit bs hr))

end SysInC.Kmem
