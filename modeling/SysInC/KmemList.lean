/-
The block list of the kernel heap, as memory holds it.

`Represents` reads a heap as a list of blocks, and says of the memory everything the
code relies on: sizes, flags, and `next` and `prev` as each other's inverses, ended by
`NULL` on both sides. `Placed` says where the blocks may lie. Together they make every
walk of the source finite and tell what it finds; what the operations do to the list is
said in `KmemAlloc` and `KmemFree`.
-/
import SysInC.Kmem
import Mathlib.Data.List.Basic
import Mathlib.Data.Finset.Card
import Mathlib.Order.Interval.Finset.Nat
import Mathlib.Tactic.NormNum

set_option autoImplicit false

namespace SysInC.Kmem

open SysInC.ByteMem

variable {abi : Abi}

/-! ## Word facts -/

theorem Abi.facts (abi : Abi) : (abi.sizeof_ptr = 4 ∧ abi.size_mod = 4294967296)
    ∨ (abi.sizeof_ptr = 8 ∧ abi.size_mod = 18446744073709551616) := by
  cases abi
  · exact Or.inl ⟨rfl, rfl⟩
  · exact Or.inr ⟨rfl, rfl⟩

theorem Abi.four_le (abi : Abi) : 4 ≤ abi.sizeof_ptr := by
  rcases abi.facts with ⟨h, -⟩ | ⟨h, -⟩ <;> omega

theorem Abi.size_mod_eq (abi : Abi) : abi.size_mod = 256 ^ abi.sizeof_ptr := by
  cases abi <;> norm_num [Abi.size_mod, Abi.sizeof_ptr]

theorem Abi.size_mod_two_pow (abi : Abi) :
    ∃ n, 32 ≤ n ∧ abi.size_mod = 2 ^ n := by
  cases abi
  · exact ⟨32, by norm_num, by norm_num [Abi.size_mod]⟩
  · exact ⟨64, by norm_num, by norm_num [Abi.size_mod]⟩

/-- `ALIGN8` rounds up, as long as the sum it masks does not wrap. -/
theorem ALIGN8_eq {x : ℕ} (h : x + 7 < abi.size_mod) : ALIGN8 abi x = (x + 7) / 8 * 8 := by
  obtain ⟨n, hn, hmod⟩ := abi.size_mod_two_pow
  rw [ALIGN8, Nat.mod_eq_of_lt h, hmod]
  rw [hmod] at h
  exact and_mask_eq n 3 (x + 7) h (by omega)

@[simp] theorem BLOCK_HEADER_SIZE_eq : BLOCK_HEADER_SIZE abi = 4 * abi.sizeof_ptr := by
  rw [BLOCK_HEADER_SIZE, sizeof_block]
  rcases abi.facts with ⟨h, hm⟩ | ⟨h, hm⟩
  · rw [ALIGN8_eq (by omega), h]
  · rw [ALIGN8_eq (by omega), h]

/-! ## Reading one field back -/

theorem field.range_lt (abi : Abi) (f : field) :
    f.offset abi + f.width abi ≤ 4 * abi.sizeof_ptr := by
  have h4 := abi.four_le
  cases f <;> simp only [field.offset, field.width] <;> omega

/-- Two headers do not meet. -/
def HeaderApart (abi : Abi) (b c : ℕ) : Prop :=
  b + 4 * abi.sizeof_ptr ≤ c ∨ c + 4 * abi.sizeof_ptr ≤ b

theorem get_congr {m m' : Mem} {b : ℕ} (f : field)
    (h : ∀ i, b ≤ i → i < b + 4 * abi.sizeof_ptr → m' i = m i) :
    get abi m' b f = get abi m b f := by
  have hf := f.range_lt abi
  refine load_congr _ _ _ _ ?_
  intro i h1 h2
  exact h i (by omega) (by omega)

theorem get_set_apart {m : Mem} {b c : ℕ} {f g : field} {v : ℕ} (h : HeaderApart abi b c) :
    get abi (set abi m b f v) c g = get abi m c g := by
  have hf := f.range_lt abi
  have hg := g.range_lt abi
  rw [HeaderApart] at h
  refine load_store_of_apart _ _ _ _ _ _ ?_
  rw [Apart]
  omega

theorem get_set_field {m : Mem} {b : ℕ} {f g : field} {v : ℕ} (h : f ≠ g) :
    get abi (set abi m b f v) b g = get abi m b g := by
  have h4 := abi.four_le
  refine load_store_of_apart _ _ _ _ _ _ ?_
  rw [Apart]
  cases f <;> cases g <;>
    first
      | exact absurd rfl h
      | (simp only [field.offset, field.width]; omega)

theorem get_set_word {m : Mem} {b : ℕ} {f : field} {v : ℕ} (hf : f ≠ .is_free)
    (h : v < abi.size_mod) : get abi (set abi m b f v) b f = v := by
  have hw : f.width abi = abi.sizeof_ptr := by
    cases f <;> first | rfl | exact absurd rfl hf
  rw [get, set, load_store_of_lt]
  rw [hw, ← abi.size_mod_eq]
  exact h

theorem get_set_flag {m : Mem} {b v : ℕ} (h : v ≤ 1) :
    get abi (set abi m b .is_free v) b .is_free = v := by
  rw [get, set, load_store_of_lt]
  show v < 256 ^ 4
  omega

theorem set_of_not_mem {m : Mem} {b v i : ℕ} {f : field}
    (h : i < b + f.offset abi ∨ b + f.offset abi + f.width abi ≤ i) : set abi m b f v i = m i :=
  store_of_not_mem _ _ _ _ _ h

/-- A store into a header is invisible outside that header. -/
theorem set_of_not_header {m : Mem} {b v i : ℕ} {f : field}
    (h : i < b ∨ b + 4 * abi.sizeof_ptr ≤ i) : set abi m b f v i = m i := by
  have hf := f.range_lt abi
  exact set_of_not_mem (by omega)

/-! ## The list in memory -/

/-- A block of the heap: its header's address, its payload's size, its flag. -/
structure blk where
  addr : ℕ
  size : ℕ
  free : Bool
  deriving DecidableEq

/-- The first address behind a block. -/
def blk.stop (abi : Abi) (b : blk) : ℕ := b.addr + 4 * abi.sizeof_ptr + b.size

/-- The address a `next` field holds in front of the list `bs`. -/
def first : List blk → ℕ → ℕ
  | [], n => n
  | b :: _, _ => b.addr

/-- The address a `prev` field holds behind the list `bs`. -/
def final : ℕ → List blk → ℕ
  | p, [] => p
  | _, b :: bs => final b.addr bs

/-- The header of `b` in memory. -/
structure Header (abi : Abi) (m : Mem) (b : blk) (prev next : ℕ) : Prop where
  size : get abi m b.addr .size = b.size
  is_free : get abi m b.addr .is_free = b.free.toNat
  next : get abi m b.addr .next = next
  prev : get abi m b.addr .prev = prev

/-- The blocks of `bs` are linked in this order, between the addresses `p` and `n`. -/
def Linked (abi : Abi) (m : Mem) : ℕ → List blk → ℕ → Prop
  | _, [], _ => True
  | p, b :: bs, n => Header abi m b p (first bs n) ∧ Linked abi m b.addr bs n

/-- The heap `s` consists of the blocks `bs`. -/
def Represents (abi : Abi) (s : kheap) (bs : List blk) : Prop :=
  s.head_block = first bs 0 ∧ Linked abi s.mem 0 bs 0

@[simp] theorem first_append (xs ys : List blk) (n : ℕ) :
    first (xs ++ ys) n = first xs (first ys n) := by
  cases xs <;> rfl

@[simp] theorem final_append (p : ℕ) (xs ys : List blk) :
    final p (xs ++ ys) = final (final p xs) ys := by
  induction xs generalizing p with
  | nil => rfl
  | cons x xs ih => exact ih x.addr

theorem linked_append (m : Mem) (p : ℕ) (xs ys : List blk) (n : ℕ) :
    Linked abi m p (xs ++ ys) n
      ↔ Linked abi m p xs (first ys n) ∧ Linked abi m (final p xs) ys n := by
  induction xs generalizing p with
  | nil => simp [Linked, final]
  | cons x xs ih => simp only [List.cons_append, Linked, first_append, ih, final, and_assoc]

theorem Header.congr {m m' : Mem} {b : blk} {p n : ℕ} (h : Header abi m b p n)
    (hm : ∀ i, b.addr ≤ i → i < b.addr + 4 * abi.sizeof_ptr → m' i = m i) :
    Header abi m' b p n where
  size := (get_congr .size hm).trans h.size
  is_free := (get_congr .is_free hm).trans h.is_free
  next := (get_congr .next hm).trans h.next
  prev := (get_congr .prev hm).trans h.prev

theorem Linked.congr {m m' : Mem} {p n : ℕ} {bs : List blk} (h : Linked abi m p bs n)
    (hm : ∀ b ∈ bs, ∀ i, b.addr ≤ i → i < b.addr + 4 * abi.sizeof_ptr → m' i = m i) :
    Linked abi m' p bs n := by
  induction bs generalizing p with
  | nil => trivial
  | cons b bs ih =>
      exact ⟨h.1.congr (hm b List.mem_cons_self),
        ih h.2 (fun c hc => hm c (List.mem_cons_of_mem _ hc))⟩

/-- Where the blocks may lie: inside the address space, off `NULL`, and off each other. -/
structure Placed (abi : Abi) (bs : List blk) : Prop where
  bounds : ∀ b ∈ bs, 0 < b.addr ∧ b.stop abi ≤ abi.size_mod
  apart : bs.Pairwise fun b c => b.stop abi ≤ c.addr ∨ c.stop abi ≤ b.addr

theorem first_eq_zero {bs : List blk} (h : Placed abi bs) : first bs 0 = 0 ↔ bs = [] := by
  cases bs with
  | nil => simp [first]
  | cons b bs =>
      have := (h.bounds b List.mem_cons_self).1
      simp only [first, reduceCtorEq, iff_false]
      omega

/-! ## Lists of placed blocks -/

theorem Placed.of_append_right (xs : List blk) {ys : List blk} (h : Placed abi (xs ++ ys)) :
    Placed abi ys where
  bounds b hb := h.bounds b (List.mem_append_right _ hb)
  apart := (List.pairwise_append.mp h.apart).2.1

/-- Two different blocks of the heap lie off each other. -/
theorem Placed.off {bs : List blk} (h : Placed abi bs) {b c : blk} (hb : b ∈ bs) (hc : c ∈ bs)
    (hne : b ≠ c) : b.stop abi ≤ c.addr ∨ c.stop abi ≤ b.addr := by
  have hsymm : Std.Symm fun b c : blk => b.stop abi ≤ c.addr ∨ c.stop abi ≤ b.addr :=
    ⟨fun _ _ => Or.symm⟩
  exact h.apart.forall hb hc hne

/-- Everything in front of and behind a block lies off it. -/
theorem Placed.apart_of_mem {pre post : List blk} {b c : blk}
    (h : Placed abi (pre ++ b :: post)) (hc : c ∈ pre ∨ c ∈ post) :
    b.stop abi ≤ c.addr ∨ c.stop abi ≤ b.addr := by
  obtain ⟨-, hpb, hcross⟩ := List.pairwise_append.mp h.apart
  rcases hc with hc | hc
  · exact (hcross c hc b List.mem_cons_self).symm
  · exact (List.pairwise_cons.mp hpb).1 c hc

/-- Behind a block the list ends, or goes on off the block and inside the address space. -/
theorem Placed.first_behind {pre post : List blk} {b : blk} (hp : Placed abi (pre ++ b :: post)) :
    (first post 0 = 0 ∨ first post 0 + 4 * abi.sizeof_ptr ≤ b.addr ∨ b.stop abi ≤ first post 0)
      ∧ first post 0 < abi.size_mod := by
  have h4 := abi.four_le
  obtain ⟨hbpos, hbstop⟩ := hp.bounds b (List.mem_append_right _ List.mem_cons_self)
  cases post with
  | nil =>
      rw [blk.stop] at hbstop
      exact ⟨Or.inl rfl, (by omega : 0 < abi.size_mod)⟩
  | cons c post =>
      have hbc := hp.apart_of_mem (c := c) (Or.inr List.mem_cons_self)
      have hc := (hp.bounds c (by simp)).2
      simp only [blk.stop, first] at hbc hc ⊢
      omega

/-- **Splicing.** A stretch of the list is replaced in memory. Nothing is written outside the
stretch but into the header of the block behind it, which keeps all of it but `prev`. -/
theorem Linked.splice {m m' : Mem} (mid mid' : List blk) {pre post : List blk}
    (hl : Linked abi m 0 (pre ++ (mid ++ post)) 0) (hp : Placed abi (pre ++ (mid ++ post)))
    (hfirst : ∀ n, first mid' n = first mid n)
    (hmid : Linked abi m' (final 0 pre) mid' (first post 0))
    (hhead : ∀ c ∈ post.head?, ∀ n, Header abi m c (final (final 0 pre) mid) n →
      Header abi m' c (final (final 0 pre) mid') n)
    (hframe : ∀ i, (∀ b ∈ mid, i < b.addr ∨ b.stop abi ≤ i) →
      (first post 0 = 0 ∨ i < first post 0 ∨ first post 0 + 4 * abi.sizeof_ptr ≤ i) →
      m' i = m i) :
    Linked abi m' 0 (pre ++ (mid' ++ post)) 0 := by
  obtain ⟨-, hpmp, hcross⟩ := List.pairwise_append.mp hp.apart
  obtain ⟨-, hpp, hmp⟩ := List.pairwise_append.mp hpmp
  -- a block off the stretch and off the block behind it keeps its header
  have hkeep (x : blk) (hxb : ∀ b ∈ mid, b.stop abi ≤ x.addr ∨ x.stop abi ≤ b.addr)
      (hxc : ∀ c ∈ post.head?, c.stop abi ≤ x.addr ∨ x.stop abi ≤ c.addr) (i : ℕ)
      (h1 : x.addr ≤ i) (h2 : i < x.addr + 4 * abi.sizeof_ptr) : m' i = m i := by
    apply hframe i
    · intro b hb
      have hoff := hxb b hb
      simp only [blk.stop] at hoff ⊢
      omega
    · cases post with
      | nil => exact Or.inl rfl
      | cons c post =>
          have hoff := hxc c rfl
          simp only [blk.stop, first] at hoff ⊢
          omega
  rw [linked_append, linked_append, first_append] at hl ⊢
  refine ⟨?_, hmid, ?_⟩
  · rw [hfirst]
    apply hl.1.congr
    intro x hx
    exact hkeep x (fun b hb => (hcross x hx b (List.mem_append_left _ hb)).symm)
      fun c hc => (hcross x hx c (List.mem_append_right _ (List.mem_of_mem_head? hc))).symm
  · cases post with
    | nil => trivial
    | cons c post =>
        refine ⟨hhead c rfl _ hl.2.2.1, hl.2.2.2.congr fun x hx => ?_⟩
        refine hkeep x (fun b hb => hmp b hb x (List.mem_cons_of_mem _ hx)) fun d hd => ?_
        cases hd
        exact (List.pairwise_cons.mp hpp).1 x hx

/-- The one way blocks are rearranged: a stretch of the list is replaced by blocks that
lie off everything that stays. -/
theorem Placed.replace (mid mid' : List blk) {pre post : List blk}
    (h : Placed abi (pre ++ (mid ++ post)))
    (hmid : Placed abi mid')
    (hoff : ∀ c, c ∈ pre ∨ c ∈ post → ∀ b ∈ mid', b.stop abi ≤ c.addr ∨ c.stop abi ≤ b.addr) :
    Placed abi (pre ++ (mid' ++ post)) := by
  obtain ⟨hpre, hmp, hcross⟩ := List.pairwise_append.mp h.apart
  obtain ⟨-, hpost, -⟩ := List.pairwise_append.mp hmp
  refine ⟨?_, ?_⟩
  · intro b hb
    rcases List.mem_append.mp hb with hb | hb
    · exact h.bounds b (List.mem_append_left _ hb)
    · rcases List.mem_append.mp hb with hb | hb
      · exact hmid.bounds b hb
      · exact h.bounds b (by simp [hb])
  · refine List.pairwise_append.mpr ⟨hpre, List.pairwise_append.mpr ⟨hmid.apart, hpost, ?_⟩, ?_⟩
    · intro b hb c hc
      exact hoff c (Or.inr hc) b hb
    · intro c hc b hb
      rcases List.mem_append.mp hb with hb | hb
      · exact (hoff c (Or.inl hc) b hb).symm
      · exact hcross c hc b (List.mem_append_right _ hb)

theorem Placed.addr_nodup {bs : List blk} (h : Placed abi bs) : (bs.map blk.addr).Nodup := by
  have h4 := abi.four_le
  rw [List.Nodup, List.pairwise_map]
  refine h.apart.imp ?_
  intro b c hbc
  simp only [blk.stop] at hbc
  omega

/-- There are fewer blocks than addresses, so no walk is cut off. -/
theorem Placed.length_lt {bs : List blk} (h : Placed abi bs) : bs.length < abi.size_mod := by
  have h4 := abi.four_le
  have hmod : 0 < abi.size_mod := by rcases abi.facts with ⟨-, h⟩ | ⟨-, h⟩ <;> omega
  have hsub : (bs.map blk.addr).toFinset ⊆ Finset.Ico 1 abi.size_mod := by
    intro a ha
    obtain ⟨b, hb, rfl⟩ := List.mem_map.mp (List.mem_toFinset.mp ha)
    have hbounds := h.bounds b hb
    rw [blk.stop] at hbounds
    rw [Finset.mem_Ico]
    omega
  have hcard := Finset.card_le_card hsub
  rw [List.toFinset_card_of_nodup h.addr_nodup, List.length_map, Nat.card_Ico] at hcard
  omega

/-! ## Walks -/

/-- The sizes that a walk with this test adds up. -/
def sizes (test : ℕ → Bool) (bs : List blk) : ℕ :=
  ((bs.filter fun b => test b.free.toNat).map blk.size).sum

theorem sum_bytes_spec {m : Mem} {p : ℕ} {bs : List blk} (hl : Linked abi m p bs 0)
    (hp : Placed abi bs) (test : ℕ → Bool) {fuel acc : ℕ} (hfuel : bs.length < fuel)
    (hacc : acc + sizes test bs < abi.size_mod) :
    sum_bytes abi m test fuel (first bs 0) acc = some (acc + sizes test bs) := by
  induction bs generalizing p fuel acc with
  | nil =>
      obtain ⟨fuel, rfl⟩ := Nat.exists_eq_succ_of_ne_zero (by omega : fuel ≠ 0)
      simp [sum_bytes, first, sizes]
  | cons b bs ih =>
      obtain ⟨fuel, rfl⟩ := Nat.exists_eq_succ_of_ne_zero (by omega : fuel ≠ 0)
      have hpos := (hp.bounds b List.mem_cons_self).1
      rw [first, sum_bytes, if_neg (by omega), hl.1.is_free, hl.1.next, hl.1.size]
      rw [List.length_cons] at hfuel
      -- the running sum stays below the modulus because the whole sum does
      by_cases ht : test b.free.toNat = true
      · have hs : sizes test (b :: bs) = b.size + sizes test bs := by simp [sizes, ht]
        rw [if_pos ht, Nat.mod_eq_of_lt (by omega),
          ih hl.2 (hp.of_append_right [b]) (by omega) (by omega), hs, Nat.add_assoc]
      · have hs : sizes test (b :: bs) = sizes test bs := by simp [sizes, ht]
        rw [if_neg ht, ih hl.2 (hp.of_append_right [b]) (by omega) (by omega), hs]

theorem last_block_spec {m : Mem} {p : ℕ} {bs : List blk} {b : blk} (fuel : ℕ)
    (hl : Linked abi m p (bs ++ [b]) 0) (hp : Placed abi (bs ++ [b]))
    (hfuel : bs.length < fuel) :
    last_block abi m fuel (first (bs ++ [b]) 0) = some b.addr := by
  induction bs generalizing p fuel with
  | nil =>
      obtain ⟨fuel, rfl⟩ := Nat.exists_eq_succ_of_ne_zero (by omega : fuel ≠ 0)
      have hn : get abi m b.addr .next = 0 := hl.1.next
      simp [last_block, first, hn]
  | cons c bs ih =>
      obtain ⟨fuel, rfl⟩ := Nat.exists_eq_succ_of_ne_zero (by omega : fuel ≠ 0)
      have hrest : Placed abi (bs ++ [b]) := hp.of_append_right [c]
      have hnext : get abi m c.addr .next = first (bs ++ [b]) 0 := hl.1.next
      have hne : first (bs ++ [b]) 0 ≠ 0 := by
        rw [ne_eq, first_eq_zero hrest]
        simp
      rw [List.length_cons] at hfuel
      rw [List.cons_append, first, last_block, hnext, if_neg hne]
      exact ih fuel hl.2 hrest (by omega)

/-! ## What a new region is -/

/-- The two fields that `region_header` assigns, and the one it leaves as it was. -/
theorem region_header_get (m : Mem) (start : ℕ) {size : ℕ}
    (hsize : ALIGN8 abi (size - 4 * abi.sizeof_ptr) < abi.size_mod) :
    get abi (region_header abi m start size) start .size = ALIGN8 abi (size - 4 * abi.sizeof_ptr)
      ∧ get abi (region_header abi m start size) start .is_free = 1
      ∧ get abi (region_header abi m start size) start .next = get abi m start .next := by
  unfold region_header
  rw [BLOCK_HEADER_SIZE_eq]
  refine ⟨?_, get_set_flag le_rfl, ?_⟩
  · rw [get_set_field (by decide), get_set_word (by decide) hsize]
  · rw [get_set_field (by decide), get_set_field (by decide)]

theorem region_header_frame {m : Mem} {start size i : ℕ}
    (hi : i < start ∨ start + 4 * abi.sizeof_ptr ≤ i) :
    region_header abi m start size i = m i := by
  unfold region_header
  rw [set_of_not_header hi, set_of_not_header hi]

theorem kmem_init_spec {s : kheap} {heap_start heap_size : ℕ} (hstart : heap_start ≠ 0)
    (hmin : 4 * abi.sizeof_ptr + 32 ≤ heap_size) (hmax : heap_size < abi.size_mod) :
    Represents abi (kmem_init abi s heap_start heap_size)
      [⟨heap_start, ALIGN8 abi (heap_size - 4 * abi.sizeof_ptr), true⟩] := by
  have h4 := abi.four_le
  have hsize : ALIGN8 abi (heap_size - 4 * abi.sizeof_ptr) < abi.size_mod := by
    rw [ALIGN8_eq (by omega)]
    omega
  obtain ⟨hget1, hget2, -⟩ := region_header_get s.mem heap_start hsize
  rw [kmem_init, BLOCK_HEADER_SIZE_eq, if_neg (by omega)]
  refine ⟨rfl, ⟨?_, ?_, ?_, ?_⟩, trivial⟩
  · rw [get_set_field (by decide), get_set_field (by decide), hget1]
  · rw [get_set_field (by decide), get_set_field (by decide), hget2]
    rfl
  · rw [get_set_field (by decide), get_set_word (by decide) (by omega)]
    rfl
  · exact get_set_word (by decide) (by omega)

end SysInC.Kmem
