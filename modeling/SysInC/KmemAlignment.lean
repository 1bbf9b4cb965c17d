/-
Where the payloads of `kmalloc` lie modulo 8.

The memory documentation promises an 8-byte alignment of payloads. A payload lies one header
and one pointer behind the start of its block, and on one region the start of a block is the
start of the heap plus the headers and sizes in front of it (`Tiles.sum`). With 8-byte
pointers all of these are multiples of 8, since `kmalloc` cuts blocks to a rounded size plus
a pointer (`WordSizes`). With 4-byte pointers the header still is one, but the back pointer
is not, and the payload is aligned only where the sizes in front happen to make up for it.
-/
import SysInC.KmemSingle
import Mathlib.Data.List.TakeWhile
import Mathlib.Algebra.BigOperators.Ring.List

set_option autoImplicit false

namespace SysInC.Kmem

open SysInC.ByteMem

variable {abi : Abi}

/-! ## The sizes of blocks -/

/-- Every block is a number of words long. -/
def WordSizes (abi : Abi) (bs : List blk) : Prop := ∀ b ∈ bs, abi.sizeof_ptr ∣ b.size

theorem sizeof_ptr_dvd_header : abi.sizeof_ptr ∣ 4 * abi.sizeof_ptr := Nat.dvd_mul_left _ _

/-- A pointer divides 8, so rounding up to 8 leaves a number of words. -/
theorem sizeof_ptr_dvd_round (n : ℕ) : abi.sizeof_ptr ∣ n * 8 + abi.sizeof_ptr := by
  rcases abi.facts with ⟨h, -⟩ | ⟨h, -⟩ <;> rw [h] <;> omega

theorem WordSizes.take {pre post : List blk} {b : blk} {req : ℕ}
    (h : WordSizes abi (pre ++ b :: post)) (hreq : abi.sizeof_ptr ∣ req) :
    WordSizes abi (pre ++ (carve abi req b ++ post)) := by
  intro c hc
  rcases List.mem_append.mp hc with hc | hc
  · exact h c (by simp [hc])
  rcases List.mem_append.mp hc with hc | hc
  · have hb := h b (by simp)
    unfold carve at hc
    split_ifs at hc with hsplit
    · rcases List.mem_pair.mp hc with rfl | rfl
      · exact hreq
      · exact Nat.dvd_sub (Nat.dvd_sub hb hreq) sizeof_ptr_dvd_header
    · obtain rfl := List.mem_singleton.mp hc
      exact hb
  · exact h c (by simp [hc])

theorem WordSizes.give {pre post : List blk} {b : blk} (h : WordSizes abi (pre ++ b :: post))
    (hnext : ∀ c ∈ post.head?, c.free = true → b.stop abi = c.addr)
    (hprev : ∀ a ∈ pre.getLast?, a.free = true → a.stop abi = b.addr) :
    WordSizes abi (release abi pre b post) := by
  refine release_induction (P := WordSizes abi) ?_ ?_ hnext hprev
  · intro c hc
    simp only [List.mem_append, List.mem_cons] at hc
    rcases hc with hc | rfl | hc
    · exact h c (by simp [hc])
    · exact h b (by simp)
    · exact h c (by simp [hc])
  · intro pre x y post _ hxy c hc
    simp only [List.mem_append, List.mem_cons] at hc
    rcases hc with hc | rfl | hc
    · exact hxy c (by simp [hc])
    · have hx := hxy x (by simp)
      have hy := hxy y (by simp)
      exact Nat.dvd_add (Nat.dvd_add hx sizeof_ptr_dvd_header) hy
    · exact hxy c (by simp [hc])

/-! ## Runs -/

/-- The invariant of runs on one region, with the sizes. -/
structure SizedInv (abi : Abi) (heap_start heap_size : ℕ) (c : client) (bs : List blk) : Prop
    extends SingleInv abi heap_start heap_size c bs where
  words : WordSizes abi bs

section Step

variable {heap_start heap_size : ℕ} {c : client} {bs : List blk}

/-- An allocation that asks for a number of words. -/
theorem SizedInv.granted (h : SizedInv abi heap_start heap_size c bs) {req size : ℕ}
    {res : Option (kheap × ℕ)} (hreq : abi.sizeof_ptr ∣ req)
    (hg : Granted abi c bs req size res) :
    ∃ r bs', res = some r ∧ SizedInv abi heap_start heap_size (c.receive size r) bs' := by
  cases hg with
  | null =>
      refine ⟨_, bs, rfl, ⟨⟨h.inv.represents, h.inv.placed, h.inv.owns⟩, h.tiles,
        h.no_adjacent_free⟩, h.words⟩
  | block pre b post s ptr hbs hfree hle hptr hinv hkeep =>
      subst hbs
      have hchange : Change abi (pre ++ b :: post) (pre ++ (carve abi req b ++ post)) :=
        Change.take pre b post req rfl hfree hle
      refine ⟨_, _, rfl, ⟨?_, h.tiles.change hchange, h.no_adjacent_free.change hchange⟩,
        h.words.take hreq⟩
      rw [receive_of_pos hptr]
      exact hinv

/-- One request keeps the sizes. -/
theorem SizedInv.step (h : SizedInv abi heap_start heap_size c bs) {r : request}
    (hok : single_ok abi c r) :
    ∃ c' bs', serve abi c r = some c' ∧ SizedInv abi heap_start heap_size c' bs' := by
  obtain ⟨hlegal, hwrap, hregion⟩ := hok
  cases r with
  | kmalloc size =>
      obtain ⟨r, bs', hres, hbs'⟩ :=
        h.granted (sizeof_ptr_dvd_round _) (granted_kmalloc h.inv hwrap)
      exact ⟨_, bs', by rw [serve, hres, Option.map_some], hbs'⟩
  | kzalloc size =>
      obtain ⟨r, bs', hres, hbs'⟩ :=
        h.granted (sizeof_ptr_dvd_round _) (granted_kzalloc h.inv hwrap)
      exact ⟨_, bs', by rw [serve, hres, Option.map_some], hbs'⟩
  | kmalloc_aligned size alignment =>
      obtain ⟨r, bs', hres, hbs'⟩ :=
        h.granted (sizeof_ptr_dvd_round _) (granted_kmalloc_aligned h.inv hlegal.2 hwrap)
      exact ⟨_, bs', by rw [serve, hres, Option.map_some], hbs'⟩
  | kfree ptr =>
      obtain ⟨size, hq⟩ := hlegal
      obtain ⟨b, hb, hused, howner, -⟩ := h.inv.block hq
      obtain ⟨pre, post, rfl⟩ := List.append_of_mem hb
      obtain ⟨hnext, hprev⟩ := h.tiles.merges_touch _ pre b post rfl howner.symm
      have hchange : Change abi (pre ++ b :: post) (release abi pre b post) :=
        Change.give pre b post rfl hused hnext hprev
      exact ⟨_, _, rfl, ⟨h.inv.give hused hq howner hnext hprev, h.tiles.change hchange,
        h.no_adjacent_free.change hchange⟩, h.words.give hnext hprev⟩
  | write addr value =>
      exact ⟨_, bs, rfl, ⟨h.inv.write hlegal, h.tiles, h.no_adjacent_free⟩, h.words⟩
  | kmem_add_region start size => exact hregion.elim

end Step

/-- The one block of `kmem_init` is a number of words long. -/
theorem sized_init (s : kheap) {heap_start heap_size : ℕ} (h : Region abi heap_start heap_size) :
    SizedInv abi heap_start heap_size (init_client abi s heap_start heap_size)
      [⟨heap_start, ALIGN8 abi (heap_size - 4 * abi.sizeof_ptr), true⟩] := by
  refine ⟨init_inv s h, ?_⟩
  intro b hb
  obtain rfl := List.mem_singleton.mp hb
  have hround := h.init_size
  have hmin := h.min
  rw [BLOCK_HEADER_SIZE_eq] at hmin
  dsimp only
  rcases abi.facts with ⟨hp, -⟩ | ⟨hp, -⟩ <;> rw [hp] at hround hmin ⊢ <;> omega

theorem sized_run {s : kheap} {heap_start heap_size : ℕ} {c : client}
    (h : Region abi heap_start heap_size) (hrun : SingleRun abi s heap_start heap_size c) :
    ∃ bs, SizedInv abi heap_start heap_size c bs := by
  induction hrun with
  | refl => exact ⟨_, sized_init s h⟩
  | tail _ hstep ih =>
      obtain ⟨bs, hbs⟩ := ih
      obtain ⟨r, hok, hserve⟩ := hstep
      obtain ⟨c', bs', hserve', hbs'⟩ := hbs.step hok
      rw [hserve] at hserve'
      obtain rfl := Option.some.inj hserve'
      exact ⟨bs', hbs'⟩

/-! ## The alignment of payloads -/

/-- The blocks in front of the first one that is free and as large as `req`. -/
def passed_over (req : ℕ) (bs : List blk) : List blk :=
  bs.takeWhile fun b => !(b.free && decide (req ≤ b.size))

/-- Where `kmalloc(size)` finds an aligned payload: with 8-byte pointers everywhere, with
4-byte pointers behind blocks whose sizes add up to 4 modulo 8, or it returns `NULL`. -/
def AlignsNext (abi : Abi) (bs : List blk) (size : ℕ) : Prop :=
  size = 0 ∨ abi.sizeof_ptr = 8 ∨ passed_over (required_space abi size) bs = bs
    ∨ ((passed_over (required_space abi size) bs).map blk.size).sum % 8 = 4

theorem TooSmall.passes {req : ℕ} {b : blk} (h : TooSmall req b) :
    (!(b.free && decide (req ≤ b.size))) = true := by
  rcases h with h | h
  · simp [h]
  · simp [Nat.not_le.mpr h]

theorem passed_over_all {req : ℕ} {bs : List blk} (h : ∀ b ∈ bs, TooSmall req b) :
    passed_over req bs = bs :=
  List.takeWhile_eq_self_iff.mpr fun b hb => (h b hb).passes

theorem passed_over_append {req : ℕ} {pre post : List blk} {b : blk}
    (hpre : ∀ c ∈ pre, TooSmall req c) (hfree : b.free = true) (hreq : req ≤ b.size) :
    passed_over req (pre ++ b :: post) = pre := by
  rw [passed_over, List.takeWhile_append_of_pos fun c hc => (hpre c hc).passes,
    List.takeWhile_cons_of_neg (by simp [hfree, hreq]), List.append_nil]

/-- The payload of a block in a tiling, modulo 8. -/
theorem SizedInv.payload_dvd {heap_start heap_size : ℕ} {c : client} {pre post : List blk}
    {b : blk} (h : SizedInv abi heap_start heap_size c (pre ++ b :: post)) (h8 : 8 ∣ heap_start) :
    8 ∣ b.addr + 5 * abi.sizeof_ptr ↔
      abi.sizeof_ptr = 8 ∨ (pre.map blk.size).sum % 8 = 4 := by
  obtain ⟨mid, hpre, haddr, -⟩ := tiles_append.mp h.tiles
  have hsum := hpre.sum
  have hwords : abi.sizeof_ptr ∣ (pre.map blk.size).sum := by
    refine List.dvd_sum ?_
    intro n hn
    obtain ⟨d, hd, rfl⟩ := List.mem_map.mp hn
    exact h.words d (List.mem_append_left _ hd)
  rw [haddr]
  -- a header is a multiple of 8 on both ABIs, a pointer only on one
  rcases abi.facts with ⟨hp, -⟩ | ⟨hp, -⟩
  · rw [hp] at hsum hwords ⊢
    omega
  · rw [hp] at hsum hwords ⊢
    omega

/-- **Alignment.** In every state of every run on one region with an aligned start, `kmalloc`
returns, and the pointer it returns is 8-byte aligned exactly where `AlignsNext` says so. -/
theorem single_run_aligned_iff {s : kheap} {heap_start heap_size : ℕ} {c : client}
    (h : Region abi heap_start heap_size) (h8 : 8 ∣ heap_start)
    (hrun : SingleRun abi s heap_start heap_size c) :
    ∃ bs, Represents abi c.heap bs ∧ ∀ size, ∃ s' ptr,
      kmalloc abi c.heap size = some (s', ptr) ∧ (8 ∣ ptr ↔ AlignsNext abi bs size) := by
  obtain ⟨bs, hbs⟩ := sized_run h hrun
  have hrep := hbs.inv.represents
  have hplaced := hbs.inv.placed
  refine ⟨bs, hrep, ?_⟩
  intro size
  by_cases hsize : size = 0
  · exact ⟨c.heap, 0, if_pos (Or.inl hsize), iff_of_true (dvd_zero 8) (Or.inl hsize)⟩
  rcases first_fit (required_space abi size) bs with hall | ⟨pre, b, post, rfl, hpre, hfree, hreq⟩
  · exact ⟨c.heap, 0, kmalloc_null hrep hplaced hall,
      iff_of_true (dvd_zero 8) (Or.inr (Or.inr (Or.inl (passed_over_all hall))))⟩
  · have hbpos := (hplaced.bounds b (by simp)).1
    have hhead : c.heap.head_block ≠ 0 := by
      rw [hrep.1, ne_eq, first_eq_zero hplaced]
      simp
    have hlen := hplaced.length_lt
    have hloop := kmalloc_loop_some abi.size_mod hrep.2 hplaced
      (by rw [List.length_append] at hlen; omega) hpre hfree hreq
    rw [← hrep.1] at hloop
    refine ⟨{ c.heap with mem := (take_block abi c.heap.mem b.addr (required_space abi size)).1 },
      (take_block abi c.heap.mem b.addr (required_space abi size)).2, ?_, ?_⟩
    · rw [kmalloc, if_neg (not_or.mpr ⟨hsize, hhead⟩), hloop, Option.map_some]
    · -- the address wraps at a multiple of 8
      have hmod : 8 ∣ abi.size_mod := by
        rcases abi.facts with ⟨-, hm⟩ | ⟨-, hm⟩ <;> rw [hm] <;> decide
      have hpayload : (take_block abi c.heap.mem b.addr (required_space abi size)).2
          = (b.addr + 5 * abi.sizeof_ptr) % abi.size_mod := by
        rw [take_block, BLOCK_HEADER_SIZE_eq]
        dsimp only
        congr 1
        ring
      have hne : passed_over (required_space abi size) (pre ++ b :: post) ≠ pre ++ b :: post := by
        rw [passed_over_append hpre hfree hreq]
        intro heq
        have hl := congrArg List.length heq
        simp at hl
      rw [hpayload, Nat.dvd_mod_iff hmod, hbs.payload_dvd h8, AlignsNext,
        or_iff_right hsize, or_iff_right hne, passed_over_append hpre hfree hreq]

/-- On a fresh page. -/
theorem single_run_aligned_page : ∃ bs, Represents .x86_64
      (init_client .x86_64 empty_heap 4096 4096).heap bs ∧ ∀ size, ∃ s' ptr,
        kmalloc .x86_64 (init_client .x86_64 empty_heap 4096 4096).heap size = some (s', ptr)
          ∧ (8 ∣ ptr ↔ AlignsNext .x86_64 bs size) :=
  single_run_aligned_iff example_region (by decide) Relation.ReflTransGen.refl

/-- With 4-byte pointers the first payload of a page is misaligned: from 4096 on, it lies at
4116. -/
theorem first_payload_misaligned :
    ¬∀ abi s heap_start heap_size c, Region abi heap_start heap_size → 8 ∣ heap_start →
      SingleRun abi s heap_start heap_size c → ∀ size s' ptr,
        kmalloc abi c.heap size = some (s', ptr) → 8 ∣ ptr := by
  intro hall
  have hvals : (kmalloc .i386 (init_client .i386 empty_heap 4096 4096).heap 24).map Prod.snd
      = some 4116 := by
    decide
  obtain ⟨⟨s', ptr⟩, hres, hptr⟩ := Option.map_eq_some_iff.mp hvals
  have hdvd := hall .i386 empty_heap 4096 4096 _ ⟨by decide, by decide, by decide⟩ (by decide)
    Relation.ReflTransGen.refl 24 s' ptr hres
  dsimp only at hptr
  omega

end SysInC.Kmem
