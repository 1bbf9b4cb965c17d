/-
Runs on a heap with one region.

With one region the block list tiles it (`Tiles`), so list neighbours touch, `kfree`'s
merges are what they are meant to be, and every admissible run keeps the tiling and the
absence of adjacent free blocks (`single_run`). The three results at the end are read off
that: where the live payloads lie, how many bytes a returned pointer owns, and what the
byte counts add up to.

Two things the source does not check show here. The sum `ALIGN8(size) + sizeof(void *)`
may wrap, and then the block that is handed out is smaller than the request. And
`kmem_init` rounds the region's size up, so a region whose size is no multiple of 8 is
tiled past its end.
-/
import SysInC.KmemRun
import Mathlib.Data.List.Chain
import Mathlib.Algebra.BigOperators.Group.List.Basic

set_option autoImplicit false

namespace SysInC.Kmem

open SysInC.ByteMem

variable {abi : Abi}

/-! ## The tiling -/

/-- The blocks follow each other without a gap from `start` to `stop`. -/
def Tiles (abi : Abi) (stop : ℕ) : ℕ → List blk → Prop
  | start, [] => start = stop
  | start, b :: bs => b.addr = start ∧ Tiles abi stop (b.stop abi) bs

/-- No block and the one behind it are both free. -/
def NoAdjacentFree (bs : List blk) : Prop := bs.IsChain fun b c => b.free = false ∨ c.free = false

section

-- the equations of these are made here, and not by each proof anew
attribute [local simp] Tiles blk.stop carve absorb release BLOCK_HEADER_SIZE sizes

end

theorem tiles_append {stop start : ℕ} {xs ys : List blk} :
    Tiles abi stop start (xs ++ ys) ↔ ∃ mid, Tiles abi mid start xs ∧ Tiles abi stop mid ys := by
  induction xs generalizing start with
  | nil => simp [Tiles]
  | cons x xs ih => simp only [List.cons_append, Tiles, ih, exists_and_left, and_assoc]

theorem Tiles.le {stop start : ℕ} {bs : List blk} (h : Tiles abi stop start bs) :
    start ≤ stop := by
  induction bs generalizing start with
  | nil => exact Nat.le_of_eq h
  | cons b bs ih =>
      have hrest := ih h.2
      have haddr := h.1
      rw [blk.stop] at hrest
      omega

/-- Every block lies between the ends. -/
theorem Tiles.inside {stop start : ℕ} {bs : List blk} (h : Tiles abi stop start bs) {b : blk}
    (hb : b ∈ bs) : start ≤ b.addr ∧ b.stop abi ≤ stop := by
  obtain ⟨pre, post, rfl⟩ := List.append_of_mem hb
  obtain ⟨mid, hpre, haddr, hpost⟩ := tiles_append.mp h
  have h1 := hpre.le
  have h2 := hpost.le
  omega

/-- What the tiling amounts to in bytes. -/
theorem Tiles.sum {stop start : ℕ} {bs : List blk} (h : Tiles abi stop start bs) :
    start + (bs.map blk.size).sum + bs.length * (4 * abi.sizeof_ptr) = stop := by
  induction bs generalizing start with
  | nil => simpa [Tiles] using h
  | cons b bs ih =>
      have hrest := ih h.2
      have haddr := h.1
      rw [blk.stop] at hrest
      rw [List.map_cons, List.sum_cons, List.length_cons, Nat.add_mul]
      omega

/-- A stretch of the tiling is retiled. -/
theorem Tiles.replace (mid mid' : List blk) {stop start : ℕ} {pre post : List blk}
    (h : Tiles abi stop start (pre ++ (mid ++ post)))
    (hmid : ∀ s t, Tiles abi t s mid → Tiles abi t s mid') :
    Tiles abi stop start (pre ++ (mid' ++ post)) := by
  obtain ⟨s, hpre, hrest⟩ := tiles_append.mp h
  obtain ⟨t, hm, hpost⟩ := tiles_append.mp hrest
  exact tiles_append.mpr ⟨s, hpre, tiles_append.mpr ⟨t, hmid s t hm, hpost⟩⟩

/-- Neighbours in a tiling touch, so `kfree` merges only what it may. -/
theorem Tiles.merges_touch {stop start : ℕ} {bs : List blk} (h : Tiles abi stop start bs)
    (addr : ℕ) : MergesTouch abi bs addr := by
  rintro pre b post rfl -
  obtain ⟨mid, hpre, haddr, hpost⟩ := tiles_append.mp h
  refine ⟨?_, ?_⟩
  · rintro c hc -
    cases post with
    | nil => cases hc
    | cons d post =>
        obtain rfl := Option.some.inj hc
        exact hpost.1.symm
  · rintro a ha -
    obtain ⟨pre, rfl⟩ := List.getLast?_eq_some_iff.mp ha
    obtain ⟨mid', -, hlast⟩ := tiles_append.mp hpre
    rw [haddr]
    exact hlast.2

theorem Tiles.change {stop start : ℕ} {bs bs' : List blk} (h : Tiles abi stop start bs)
    (hc : Change abi bs bs') : Tiles abi stop start bs' := by
  cases hc with
  | same => exact h
  | take pre b post req hbs hfree hreq =>
      rw [hbs] at h
      refine h.replace [b] _ ?_
      rintro s t ⟨haddr, hstop⟩
      unfold carve
      rw [blk.stop] at hstop
      split_ifs with hsplit
      · refine ⟨haddr, rfl, ?_⟩
        simp only [Tiles, blk.stop] at hstop ⊢
        omega
      · exact ⟨haddr, hstop⟩
  | give pre b post hbs hused hnext hprev =>
      rw [hbs] at h
      refine release_induction (P := Tiles abi stop start) ?_ ?_ hnext hprev
      · exact h.replace [b] [{ b with free := true }] (fun s t ht => ht)
      · intro pre x y post _ hxy
        refine hxy.replace [x, y] [absorb abi x y] ?_
        rintro s t ⟨hx, hy, hstop⟩
        refine ⟨hx, ?_⟩
        simp only [Tiles, blk.stop, absorb] at hy hstop ⊢
        omega

/-! ## No two adjacent free blocks -/

theorem NoAdjacentFree.take {pre post : List blk} {b : blk} {req : ℕ} (hfree : b.free = true)
    (h : NoAdjacentFree (pre ++ b :: post)) :
    NoAdjacentFree (pre ++ (carve abi req b ++ post)) := by
  obtain ⟨hpre, hb, hcross⟩ := List.isChain_append.mp h
  obtain ⟨hhead, hpost⟩ := List.isChain_cons.mp hb
  unfold NoAdjacentFree carve
  split_ifs with hsplit
  · refine List.isChain_append.mpr ⟨hpre, ?_, fun x _ y hy => Or.inr ?_⟩
    · refine List.isChain_cons_cons.mpr ⟨Or.inl rfl, List.isChain_cons.mpr ⟨?_, hpost⟩⟩
      intro y hy
      exact Or.inr ((hhead y hy).resolve_left (by simp [hfree]))
    · cases hy
      rfl
  · refine List.isChain_append.mpr ⟨hpre, List.isChain_cons.mpr ⟨fun y _ => Or.inl rfl, hpost⟩,
      fun x _ y hy => Or.inr ?_⟩
    cases hy
    rfl

/-- After the first merge, whatever is behind the freed block is in use. -/
theorem NoAdjacentFree.join_next (abi : Abi) {b : blk} {post : List blk} (h : NoAdjacentFree post) :
    NoAdjacentFree (join_next abi b post)
      ∧ ∀ c ∈ (Kmem.join_next abi b post).tail.head?, c.free = false := by
  cases post with
  | nil => exact ⟨List.isChain_singleton _, fun c hc => nomatch hc⟩
  | cons c post =>
      obtain ⟨hhead, hpost⟩ := List.isChain_cons.mp h
      rw [Kmem.join_next]
      split_ifs with hfree
      · have hused : ∀ d ∈ post.head?, d.free = false :=
          fun d hd => (hhead d hd).resolve_left (by simp [hfree])
        exact ⟨List.isChain_cons.mpr ⟨fun d hd => Or.inr (hused d hd), hpost⟩, hused⟩
      · have hused : c.free = false := Bool.eq_false_iff.mpr hfree
        refine ⟨List.isChain_cons_cons.mpr ⟨Or.inr hused, h⟩, ?_⟩
        intro d hd
        cases hd
        exact hused

theorem NoAdjacentFree.give {pre post : List blk} {b : blk}
    (h : NoAdjacentFree (pre ++ b :: post)) : NoAdjacentFree (release abi pre b post) := by
  obtain ⟨hpre, hb, -⟩ := List.isChain_append.mp h
  obtain ⟨-, hpost⟩ := List.isChain_cons.mp hb
  obtain ⟨hjoin, hused⟩ := NoAdjacentFree.join_next abi (b := { b with free := true }) hpost
  obtain ⟨b', post', hcons, -⟩ := join_next_eq_cons abi { b with free := true } post
  rw [hcons] at hjoin hused
  rw [release, hcons]
  rcases List.eq_nil_or_concat' pre with rfl | ⟨pre, a, rfl⟩
  · exact hjoin
  · obtain ⟨hpre', -, hlast⟩ := List.isChain_append.mp hpre
    obtain ⟨-, hpost'⟩ := List.isChain_cons.mp hjoin
    rw [join_prev_concat]
    split_ifs with hfree
    · refine List.isChain_append.mpr ⟨hpre', List.isChain_cons.mpr ⟨?_, hpost'⟩, ?_⟩
      · exact fun c hc => Or.inr (hused c hc)
      · intro x hx y hy
        cases hy
        exact Or.inl ((hlast x hx a rfl).resolve_right (by simp [hfree]))
    · have haused : a.free = false := Bool.eq_false_iff.mpr hfree
      refine List.isChain_append.mpr ⟨hpre', List.isChain_cons_cons.mpr ⟨Or.inl haused, hjoin⟩, ?_⟩
      intro x _ y hy
      cases hy
      exact Or.inr haused

theorem NoAdjacentFree.change {bs bs' : List blk} (h : NoAdjacentFree bs)
    (hc : Change abi bs bs') : NoAdjacentFree bs' := by
  cases hc with
  | same => exact h
  | take pre b post req hbs hfree hreq => exact NoAdjacentFree.take hfree (hbs ▸ h)
  | give pre b post hbs hused hnext hprev => exact NoAdjacentFree.give (hbs ▸ h)

/-! ## Runs -/

/-- A region that `kmem_init` takes, and that, as it rounds the size, is in the address
space. -/
structure Region (abi : Abi) (heap_start heap_size : ℕ) : Prop where
  start_ne : heap_start ≠ 0
  min : BLOCK_HEADER_SIZE abi + 32 ≤ heap_size
  max : heap_start + (heap_size + 7) / 8 * 8 ≤ abi.size_mod

/-- The client before its first request. -/
def init_client (abi : Abi) (s : kheap) (heap_start heap_size : ℕ) : client where
  heap := kmem_init abi s heap_start heap_size
  live := []
  regions := [(heap_start, heap_size)]

/-- What a run on one region may ask. -/
def single_ok (abi : Abi) (c : client) (r : request) : Prop :=
  Legal abi c r ∧ NoWrap abi c r ∧ NoRegion r

/-- The runs from `kmem_init` on, on one region. -/
def SingleRun (abi : Abi) (s : kheap) (heap_start heap_size : ℕ) (c : client) : Prop :=
  Relation.ReflTransGen (Step abi (single_ok abi)) (init_client abi s heap_start heap_size) c

/-- The invariant of these runs. -/
structure SingleInv (abi : Abi) (heap_start heap_size : ℕ) (c : client) (bs : List blk) :
    Prop where
  inv : Inv abi c bs
  tiles : Tiles abi (heap_start + (heap_size + 7) / 8 * 8) heap_start bs
  no_adjacent_free : NoAdjacentFree bs

/-- `kmem_init` rounds the size of its block, and with it the region's. -/
theorem Region.init_size {heap_start heap_size : ℕ} (h : Region abi heap_start heap_size) :
    ALIGN8 abi (heap_size - 4 * abi.sizeof_ptr) + 4 * abi.sizeof_ptr = (heap_size + 7) / 8 * 8 := by
  obtain ⟨hstart, hmin, hmax⟩ := h
  rw [BLOCK_HEADER_SIZE_eq] at hmin
  rcases abi.facts with ⟨hp, -⟩ | ⟨hp, -⟩
  · rw [ALIGN8_eq (by omega), hp] at *
    omega
  · rw [ALIGN8_eq (by omega), hp] at *
    omega

theorem init_inv (s : kheap) {heap_start heap_size : ℕ} (h : Region abi heap_start heap_size) :
    SingleInv abi heap_start heap_size (init_client abi s heap_start heap_size)
      [⟨heap_start, ALIGN8 abi (heap_size - 4 * abi.sizeof_ptr), true⟩] := by
  have hsize := h.init_size
  obtain ⟨hstart, hmin, hmax⟩ := h
  rw [BLOCK_HEADER_SIZE_eq] at hmin
  have hinit := kmem_init_spec (s := s) hstart hmin (by omega : heap_size < abi.size_mod)
  refine ⟨⟨hinit, ⟨?_, List.pairwise_singleton _ _⟩, ⟨List.Perm.nil, ?_⟩⟩, ⟨rfl, ?_⟩,
    List.isChain_singleton _⟩
  · intro b hb
    obtain rfl := List.mem_singleton.mp hb
    simp only [blk.stop]
    omega
  · exact fun q hq => absurd hq List.not_mem_nil
  · simp only [Tiles, blk.stop]
    omega

/-- One request on one region. -/
theorem single_step {heap_start heap_size : ℕ} {c : client} {bs : List blk} {r : request}
    (h : SingleInv abi heap_start heap_size c bs) (hok : single_ok abi c r) :
    ∃ c' bs', serve abi c r = some c' ∧ SingleInv abi heap_start heap_size c' bs' := by
  obtain ⟨hlegal, hwrap, hregion⟩ := hok
  obtain ⟨c', bs', hserve, hinv, hchange, -⟩ :=
    serve_spec h.inv hlegal hwrap hregion (fun ptr _ => h.tiles.merges_touch _)
  exact ⟨c', bs', hserve, hinv, h.tiles.change hchange, h.no_adjacent_free.change hchange⟩

/-- The invariant holds in every state of every run. -/
theorem single_run {s : kheap} {heap_start heap_size : ℕ} {c : client}
    (h : Region abi heap_start heap_size) (hrun : SingleRun abi s heap_start heap_size c) :
    ∃ bs, SingleInv abi heap_start heap_size c bs := by
  induction hrun with
  | refl => exact ⟨_, init_inv s h⟩
  | tail _ hstep ih =>
      obtain ⟨bs, hbs⟩ := ih
      obtain ⟨r, hok, hserve⟩ := hstep
      obtain ⟨c', bs', hserve', hbs'⟩ := single_step hbs hok
      rw [hserve] at hserve'
      obtain rfl := Option.some.inj hserve'
      exact ⟨bs', hbs'⟩

/-- No run gets stuck: every admissible request is served. -/
theorem single_run_serves {s : kheap} {heap_start heap_size : ℕ} {c : client} {r : request}
    (h : Region abi heap_start heap_size) (hrun : SingleRun abi s heap_start heap_size c)
    (hok : single_ok abi c r) : ∃ c', serve abi c r = some c' := by
  obtain ⟨bs, hbs⟩ := single_run h hrun
  obtain ⟨c', -, hserve, -⟩ := single_step hbs hok
  exact ⟨c', hserve⟩

/-! ## The layout of the heap -/

/-- The block list tiles the region and is linked both ways, and the live payloads lie in
the region and off each other. -/
def WellLaidOut (abi : Abi) (heap_start heap_size : ℕ) (c : client) : Prop :=
  (∃ bs, Represents abi c.heap bs ∧ Tiles abi (heap_start + heap_size) heap_start bs)
    ∧ c.live.Pairwise RangesApart
    ∧ ∀ q ∈ c.live, heap_start ≤ q.1 ∧ q.1 + q.2 ≤ heap_start + heap_size

/-- **Layout.** On a region whose size is a multiple of 8, every run whose sizes do not wrap
keeps the heap laid out. -/
theorem single_run_laid_out {s : kheap} {heap_start heap_size : ℕ} {c : client}
    (h : Region abi heap_start heap_size) (h8 : 8 ∣ heap_size)
    (hrun : SingleRun abi s heap_start heap_size c) : WellLaidOut abi heap_start heap_size c := by
  obtain ⟨bs, hinv, htiles, -⟩ := single_run h hrun
  rw [show (heap_size + 7) / 8 * 8 = heap_size by omega] at htiles
  refine ⟨⟨bs, hinv.represents, htiles⟩, hinv.live_apart, ?_⟩
  intro q hq
  obtain ⟨b, hb, -, -, hb1, hb2, -⟩ := hinv.block hq
  have hin := htiles.inside hb
  omega

/-- A heap before `kmem_init`, over cleared memory. -/
def empty_heap : kheap := ⟨fun _ => 0, 0, 0⟩

theorem example_region : Region .x86_64 4096 4096 := ⟨by decide, by decide, by decide⟩

/-- Two allocations on one page, the first of them aligned. -/
theorem single_run_laid_out_page : ∃ c, SingleRun .x86_64 empty_heap 4096 4096 c
    ∧ c.live = [(4384, 24), (4160, 100)] ∧ WellLaidOut .x86_64 4096 4096 c := by
  have hok1 : single_ok .x86_64 (init_client .x86_64 empty_heap 4096 4096)
      (.kmalloc_aligned 100 64) :=
    ⟨⟨by decide, by decide⟩, Or.inr (Or.inl ⟨by decide, Or.inl (by decide)⟩), trivial⟩
  obtain ⟨c1, h1⟩ := single_run_serves example_region Relation.ReflTransGen.refl hok1
  have hrun1 : SingleRun .x86_64 empty_heap 4096 4096 c1 :=
    Relation.ReflTransGen.single ⟨_, hok1, h1⟩
  have hok2 : single_ok .x86_64 c1 (.kmalloc 24) :=
    ⟨(by decide : 24 < Abi.x86_64.size_mod), Or.inl (by decide), trivial⟩
  obtain ⟨c2, h2⟩ := single_run_serves example_region hrun1 hok2
  have hrun2 : SingleRun .x86_64 empty_heap 4096 4096 c2 := hrun1.tail ⟨_, hok2, h2⟩
  have hlive : ((serve .x86_64 (init_client .x86_64 empty_heap 4096 4096)
      (.kmalloc_aligned 100 64)).bind fun c => (serve .x86_64 c (.kmalloc 24)).map client.live)
      = some [(4384, 24), (4160, 100)] := by
    decide
  rw [h1, Option.bind_some, h2, Option.map_some] at hlive
  exact ⟨c2, hrun2, Option.some.inj hlive,
    single_run_laid_out example_region (by decide) hrun2⟩

/-- The sizes for which the rounding to 8 and the sum of `kmalloc_aligned` do not wrap. -/
def RoundUpOk (abi : Abi) : request → Prop
  | .kmalloc size => size + 7 < abi.size_mod
  | .kzalloc size => size + 7 < abi.size_mod
  | .kmalloc_aligned size alignment => aligned_sum abi size alignment < abi.size_mod
  | _ => True

/-- That is not enough: `kmalloc` adds the back pointer to the rounded size, and for
`SIZE_MAX - 7` this wraps to 0. The block is cut to nothing, and its back pointer is written
over the size of the next one. -/
theorem round_up_not_enough :
    ¬∀ c, Relation.ReflTransGen
        (Step .x86_64 fun c r => Legal .x86_64 c r ∧ RoundUpOk .x86_64 r ∧ NoRegion r)
        (init_client .x86_64 empty_heap 4096 4096) c → WellLaidOut .x86_64 4096 4096 c := by
  intro hall
  have hvals : (serve .x86_64 (init_client .x86_64 empty_heap 4096 4096)
      (.kmalloc 18446744073709551608)).map
        (fun c => (get .x86_64 c.heap.mem 4096 .size, get .x86_64 c.heap.mem 4128 .size))
      = some (0, 4096) := by
    decide
  obtain ⟨c, hserve, hsizes⟩ := Option.map_eq_some_iff.mp hvals
  obtain ⟨hsize1, hsize2⟩ := Prod.mk.inj hsizes
  obtain ⟨⟨bs, hrep, htiles⟩, -⟩ := hall c (Relation.ReflTransGen.single
    ⟨.kmalloc 18446744073709551608, ⟨(by decide : _ < Abi.x86_64.size_mod),
      (by decide : _ < Abi.x86_64.size_mod), trivial⟩, hserve⟩)
  -- the second block would end behind the region
  match bs, hrep.2, htiles with
  | [], _, htiles => exact absurd htiles (by simp [Tiles])
  | [b], ⟨hb, _⟩, ⟨haddr, hstop⟩ =>
      have hsz := hb.size
      rw [haddr, hsize1] at hsz
      simp only [Tiles, blk.stop, haddr, ← hsz, Abi.sizeof_ptr] at hstop
      omega
  | b :: d :: rest, ⟨hb, hd, _⟩, ⟨haddr, hdaddr, hstop⟩ =>
      have hsz := hb.size
      rw [haddr, hsize1] at hsz
      simp only [blk.stop, haddr, ← hsz, Abi.sizeof_ptr] at hdaddr
      have hdsz := hd.size
      rw [hdaddr, hsize2] at hdsz
      have hle := hstop.le
      simp only [blk.stop, hdaddr, ← hdsz, Abi.sizeof_ptr] at hle
      omega

/-! ## The room of an allocation -/

/-- The first address behind the block that a pointer names. -/
def owner_end (abi : Abi) (m : Mem) (ptr : ℕ) : ℕ :=
  owner abi m ptr + BLOCK_HEADER_SIZE abi + get abi m (owner abi m ptr) .size

/-- An allocation returned, and if it returned a pointer, `size` bytes behind it are its
block's. -/
def HasRoom (abi : Abi) (size : ℕ) (res : Option (kheap × ℕ)) : Prop :=
  ∃ s ptr, res = some (s, ptr) ∧ (ptr ≠ 0 → ptr + size ≤ owner_end abi s.mem ptr)

/-- A pointer that was served has its room. -/
theorem Served.has_room {c : client} {bs : List blk} {size : ℕ} {res : Option (kheap × ℕ)}
    (h : Served abi c bs size res) : HasRoom abi size res := by
  obtain ⟨⟨s, ptr⟩, bs', hres, hinv, -⟩ := h
  refine ⟨s, ptr, hres, ?_⟩
  intro hptr
  rw [receive_of_pos (Nat.pos_of_ne_zero hptr)] at hinv
  obtain ⟨b, hb, -, howner, -, hroom, -⟩ := hinv.block (q := (ptr, size)) List.mem_cons_self
  obtain ⟨pre, post, rfl⟩ := List.append_of_mem hb
  have hheader := ((linked_append _ _ _ _ _).mp hinv.represents.2).2.1
  dsimp only at howner hroom hheader
  rw [owner_end, howner, hheader.size, BLOCK_HEADER_SIZE_eq]
  exact hroom

/-- `kmalloc_aligned` returns multiples of the alignment. -/
theorem kmalloc_aligned_dvd {s s' : kheap} {size alignment ptr : ℕ}
    (hal : alignment < abi.size_mod)
    (hres : kmalloc_aligned abi s size alignment = some (s', ptr)) : alignment ∣ ptr := by
  rw [kmalloc_aligned] at hres
  split_ifs at hres with hguard
  · obtain ⟨-, rfl⟩ := Prod.mk.inj (Option.some.inj hres)
    exact Nat.dvd_zero _
  · rw [not_or, not_or, not_not] at hguard
    obtain ⟨k, rfl⟩ := (Nat.and_sub_one_eq_zero_iff_isPowerOfTwo hguard.2.1).mp hguard.2.2
    obtain ⟨r, -, hr⟩ := Option.map_eq_some_iff.mp hres
    split_ifs at hr with hnull
    · rw [hr] at hnull
      exact Dvd.intro 0 hnull.symm
    · obtain ⟨-, rfl⟩ := Prod.mk.inj hr
      have hmod : 0 < abi.size_mod := lt_of_le_of_lt (Nat.zero_le _) hal
      rw [round_up_eq hal (Nat.mod_lt _ hmod)]
      exact Nat.dvd_mul_left _ _

/-- **Room.** In every state of every run whose sizes do not wrap, an allocation whose sizes
do not wrap returns, a pointer it returns has the requested bytes in front of the end of
its block, and an aligned one is a multiple of the alignment. -/
theorem single_run_room {s : kheap} {heap_start heap_size : ℕ} {c : client}
    (h : Region abi heap_start heap_size) (hrun : SingleRun abi s heap_start heap_size c) :
    (∀ size, kmalloc_ok abi c.heap size →
      HasRoom abi size (kmalloc abi c.heap size) ∧ HasRoom abi size (kzalloc abi c.heap size))
      ∧ ∀ size alignment, alignment < abi.size_mod → aligned_ok abi c.heap size alignment →
        HasRoom abi size (kmalloc_aligned abi c.heap size alignment)
          ∧ ∀ s' ptr, kmalloc_aligned abi c.heap size alignment = some (s', ptr) →
            alignment ∣ ptr := by
  obtain ⟨bs, hinv, -⟩ := single_run h hrun
  refine ⟨?_, ?_⟩
  · intro size hok
    exact ⟨(serve_kmalloc hinv hok).has_room, (serve_kzalloc hinv hok).has_room⟩
  · intro size alignment hal hok
    exact ⟨(serve_kmalloc_aligned hinv hal hok).has_room,
      fun s' ptr hres => kmalloc_aligned_dvd hal hres⟩

/-- On a fresh page, an aligned allocation of 100 bytes. -/
theorem single_run_room_page :
    HasRoom .x86_64 100
      (kmalloc_aligned .x86_64 (kmem_init .x86_64 empty_heap 4096 4096) 100 64) :=
  ((single_run_room (s := empty_heap) example_region Relation.ReflTransGen.refl).2 100 64
    (by decide) (Or.inr (Or.inl ⟨by decide, Or.inl (by decide)⟩))).1

/-- Not so for `SIZE_MAX`: it rounds up to 0, and the block that is handed out holds the
back pointer and nothing else. -/
theorem size_max_has_no_room :
    ¬∀ c, SingleRun .x86_64 empty_heap 4096 4096 c →
      ∀ size, size < Abi.size_mod .x86_64 → HasRoom .x86_64 size (kmalloc .x86_64 c.heap size) := by
  intro hall
  have hvals : (kmalloc .x86_64 (kmem_init .x86_64 empty_heap 4096 4096)
      18446744073709551615).map (fun r => (r.2, owner_end .x86_64 r.1.mem r.2))
      = some (4136, 4136) := by
    decide
  obtain ⟨s, ptr, hres, hroom⟩ := hall _ Relation.ReflTransGen.refl 18446744073709551615 (by decide)
  have hheap : (init_client .x86_64 empty_heap 4096 4096).heap
      = kmem_init .x86_64 empty_heap 4096 4096 := rfl
  rw [hheap] at hres
  rw [hres, Option.map_some] at hvals
  obtain ⟨hptr, hend⟩ := Prod.mk.inj (Option.some.inj hvals)
  dsimp only at hptr hend
  rw [hend, hptr] at hroom
  have := hroom (by decide)
  omega

/-! ## Bytes and coalescing -/

/-- The byte counts of `kmem.c` and the headers add up to the region, no two adjacent
blocks are free, and a heap without live pointers is the one block of `kmem_init`. -/
def Conserved (abi : Abi) (heap_start heap_size : ℕ) (c : client) : Prop :=
  ∃ bs free_bytes used_bytes, Represents abi c.heap bs ∧ NoAdjacentFree bs
    ∧ kmem_get_free_bytes abi c.heap = some free_bytes
    ∧ kmem_get_used_bytes abi c.heap = some used_bytes
    ∧ free_bytes + used_bytes + bs.length * BLOCK_HEADER_SIZE abi = heap_size
    ∧ (c.live = [] →
      bs = [⟨heap_start, ALIGN8 abi (heap_size - BLOCK_HEADER_SIZE abi), true⟩])

/-- Every block is counted once, as free or as used. -/
theorem sizes_add (bs : List blk) :
    sizes (fun is_free => is_free != 0) bs + sizes (fun is_free => is_free == 0) bs
      = (bs.map blk.size).sum := by
  induction bs with
  | nil => rfl
  | cons b bs ih =>
      rw [List.map_cons, List.sum_cons, ← ih]
      unfold sizes
      cases hfree : b.free
      · simp [hfree]
        omega
      · simp [hfree]
        omega

/-- The two counts of the source, on a heap whose blocks together fit a word. -/
theorem bytes_spec {s : kheap} {bs : List blk} (hr : Represents abi s bs) (hp : Placed abi bs)
    (hsum : (bs.map blk.size).sum < abi.size_mod) :
    kmem_get_free_bytes abi s = some (sizes (fun is_free => is_free != 0) bs)
      ∧ kmem_get_used_bytes abi s = some (sizes (fun is_free => is_free == 0) bs) := by
  have hadd := sizes_add bs
  unfold kmem_get_free_bytes kmem_get_used_bytes
  rw [hr.1, sum_bytes_spec hr.2 hp _ hp.length_lt (by omega),
    sum_bytes_spec hr.2 hp _ hp.length_lt (by omega), Nat.zero_add, Nat.zero_add]
  exact ⟨rfl, rfl⟩

/-- With all pointers freed, the tiling without adjacent free blocks is one block. -/
theorem SingleInv.eq_singleton {heap_start heap_size : ℕ} {c : client} {bs : List blk}
    (h : SingleInv abi heap_start heap_size c bs) (hregion : Region abi heap_start heap_size)
    (hlive : c.live = []) :
    bs = [⟨heap_start, ALIGN8 abi (heap_size - 4 * abi.sizeof_ptr), true⟩] := by
  have hsize := hregion.init_size
  have hused : used bs = [] := by
    have hperm := h.inv.owns.owners
    rw [hlive] at hperm
    exact List.map_eq_nil_iff.mp hperm.nil_eq.symm
  have hfree : ∀ b ∈ bs, b.free = true := by
    intro b hb
    by_contra hne
    have hmem : b ∈ used bs := mem_used.mpr ⟨hb, Bool.eq_false_iff.mpr hne⟩
    rw [hused] at hmem
    exact List.not_mem_nil hmem
  have htiles := h.tiles
  have hmin := hregion.min
  match bs, h.no_adjacent_free, htiles, hfree with
  | [], _, htiles, _ =>
      simp only [Tiles] at htiles
      omega
  | [b], _, ⟨haddr, hstop⟩, hfree =>
      simp only [Tiles, blk.stop] at hstop
      have hb := hfree b List.mem_cons_self
      obtain ⟨addr, size, free⟩ := b
      dsimp only at haddr hstop hb
      have hsz : size = ALIGN8 abi (heap_size - 4 * abi.sizeof_ptr) := by omega
      rw [haddr, hsz, hb]
  | b :: d :: bs, hadj, _, hfree =>
      have h1 := hfree b List.mem_cons_self
      have h2 := hfree d (List.mem_cons_of_mem _ List.mem_cons_self)
      rcases (List.isChain_cons_cons.mp hadj).1 with h | h
      · exact absurd (h1.symm.trans h) Bool.noConfusion
      · exact absurd (h2.symm.trans h) Bool.noConfusion

/-- **Conservation.** The byte counts of every run come to the region's size, and freeing
everything restores the block of `kmem_init`, exactly for the regions whose size is a
multiple of 8. -/
theorem single_runs_conserved_iff {s : kheap} {heap_start heap_size : ℕ}
    (h : Region abi heap_start heap_size) :
    (∀ c, SingleRun abi s heap_start heap_size c → Conserved abi heap_start heap_size c)
      ↔ 8 ∣ heap_size := by
  have hsize := h.init_size
  have hmax := h.max
  have hne := h.start_ne
  have h8 : 8 ∣ 4 * abi.sizeof_ptr := by
    rcases abi.facts with ⟨hp, -⟩ | ⟨hp, -⟩ <;> rw [hp] <;> decide
  refine ⟨?_, ?_⟩
  · -- the state `kmem_init` leaves already decides it
    intro hall
    obtain ⟨bs, f, u, -, -, hf, hu, hsum, -⟩ := hall _ Relation.ReflTransGen.refl
    have hinit := (init_inv s h).inv
    obtain ⟨hf', hu'⟩ := bytes_spec hinit.represents hinit.placed (by simp; omega)
    have hfeq := Option.some.inj (hf.symm.trans hf')
    have hueq := Option.some.inj (hu.symm.trans hu')
    simp only [sizes, Bool.toNat_true, List.filter_cons, List.filter_nil] at hfeq hueq
    simp only [bne_iff_ne, ne_eq, one_ne_zero, not_false_eq_true, if_true, List.map_cons,
      List.map_nil, List.sum_cons, List.sum_nil] at hfeq
    have hu0 : u = 0 := hueq
    obtain ⟨k, hk⟩ := h8
    rw [BLOCK_HEADER_SIZE_eq, hk] at hsum
    have hmul : bs.length * (8 * k) = 8 * (bs.length * k) := by ring
    omega
  · intro h8size c hrun
    obtain ⟨bs, hbs⟩ := single_run h hrun
    have hsum := hbs.tiles.sum
    obtain ⟨hf, hu⟩ := bytes_spec hbs.inv.represents hbs.inv.placed (by omega)
    have hadd := sizes_add bs
    refine ⟨bs, _, _, hbs.inv.represents, hbs.no_adjacent_free, hf, hu, ?_, ?_⟩
    · rw [BLOCK_HEADER_SIZE_eq]
      omega
    · intro hlive
      rw [BLOCK_HEADER_SIZE_eq]
      exact hbs.eq_singleton h hlive

/-- A page is a multiple of 8, so its bytes are all accounted for after an allocation. -/
theorem single_runs_conserved_page : ∃ c, SingleRun .x86_64 empty_heap 4096 4096 c
    ∧ c.live = [(4136, 24)] ∧ Conserved .x86_64 4096 4096 c := by
  have hok : single_ok .x86_64 (init_client .x86_64 empty_heap 4096 4096) (.kmalloc 24) :=
    ⟨(by decide : 24 < Abi.x86_64.size_mod), Or.inl (by decide), trivial⟩
  obtain ⟨c, hserve⟩ := single_run_serves example_region Relation.ReflTransGen.refl hok
  have hrun : SingleRun .x86_64 empty_heap 4096 4096 c :=
    Relation.ReflTransGen.single ⟨_, hok, hserve⟩
  have hlive : (serve .x86_64 (init_client .x86_64 empty_heap 4096 4096) (.kmalloc 24)).map
      client.live = some [(4136, 24)] := by
    decide
  rw [hserve, Option.map_some] at hlive
  exact ⟨c, hrun, Option.some.inj hlive,
    (single_runs_conserved_iff example_region).mpr (by decide) c hrun⟩

/-- A region of 100 bytes: the block of `kmem_init` has 72, its header 32. -/
theorem region_100_not_conserved :
    ¬∀ c, SingleRun .x86_64 empty_heap 4096 100 c → Conserved .x86_64 4096 100 c := by
  intro hall
  obtain ⟨bs, f, u, -, -, hf, hu, hsum, -⟩ := hall _ Relation.ReflTransGen.refl
  have hfree : kmem_get_free_bytes .x86_64 (init_client .x86_64 empty_heap 4096 100).heap
      = some 72 := by
    decide
  have hused : kmem_get_used_bytes .x86_64 (init_client .x86_64 empty_heap 4096 100).heap
      = some 0 := by
    decide
  have hf' := Option.some.inj (hf.symm.trans hfree)
  have hu' := Option.some.inj (hu.symm.trans hused)
  rw [BLOCK_HEADER_SIZE_eq, Abi.sizeof_ptr] at hsum
  omega

end SysInC.Kmem
