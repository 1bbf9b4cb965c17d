/-
Runs on a heap with several regions.

`kmem_add_region` links the new region's block behind the last one, wherever the region
lies. From then on list neighbours need not touch, and three things the source leaves
unchecked matter: `kfree` merges free list neighbours without asking whether they touch, the
`next` field of the new header is whatever the region's memory held, and the region's size
is rounded up. `multi_ok` rules these out, request by request, and `multi_run` is
what holds then: the list stays linked and no block leaves the regions. The run behind
`merge_leaves_regions` is the shortest one for the first of the three.
-/
import SysInC.KmemSingle

set_option autoImplicit false

namespace SysInC.Kmem

open SysInC.ByteMem

variable {abi : Abi}

/-! ## `kmem_add_region` -/

/-- A block is linked behind the last one. -/
theorem link_last {m : Mem} {bs : List blk} {l d : blk} {p : ℕ}
    (hl : Linked abi m 0 (bs ++ [l]) 0) (hp : Placed abi (bs ++ [l] ++ [d]))
    (hd : Header abi m d p 0) :
    Linked abi (set abi (set abi m l.addr .next d.addr) d.addr .prev l.addr) 0
      (bs ++ [l] ++ [d]) 0 := by
  obtain ⟨hpl, -, hcross⟩ := List.pairwise_append.mp hp.apart
  have hdmax := (hp.bounds d (by simp)).2
  have hlmax := (hp.bounds l (by simp)).2
  have hld := hcross l (by simp) d List.mem_cons_self
  simp only [blk.stop] at hdmax hlmax hld
  have h4 := abi.four_le
  have hdl : HeaderApart abi d.addr l.addr := by
    rw [HeaderApart]
    omega
  have hld' : HeaderApart abi l.addr d.addr := hdl.symm
  obtain ⟨hbs, hheader, -⟩ := (linked_append _ _ _ _ _).mp hl
  rw [linked_append, linked_append, final_append]
  refine ⟨⟨hbs.congr ?_, ⟨?_, ?_, ?_, ?_⟩, trivial⟩, ⟨?_, ?_, ?_, ?_⟩, trivial⟩
  · intro b hb i h1 h2
    have hbl := (List.pairwise_append.mp hpl).2.2 b hb l List.mem_cons_self
    have hbd := hcross b (List.mem_append_left _ hb) d List.mem_cons_self
    simp only [blk.stop] at hbl hbd
    rw [set_of_not_header (by omega), set_of_not_header (by omega)]
  · rw [get_set_apart hdl, get_set_field (by decide), hheader.size]
  · rw [get_set_apart hdl, get_set_field (by decide), hheader.is_free]
  · rw [get_set_apart hdl, get_set_word (by decide) (by omega)]
    rfl
  · rw [get_set_apart hdl, get_set_field (by decide), hheader.prev]
  · rw [get_set_field (by decide), get_set_apart hld', hd.size]
  · rw [get_set_field (by decide), get_set_apart hld', hd.is_free]
  · rw [get_set_field (by decide), get_set_apart hld', hd.next]
    rfl
  · exact get_set_word (by decide) (by omega)

/-- **`kmem_add_region`** appends the region's block, if the region's memory holds `NULL`
where its header's `next` comes to lie. -/
theorem kmem_add_region_spec {s : kheap} {bs : List blk} {start size : ℕ}
    (hr : Represents abi s bs) (hmin : 4 * abi.sizeof_ptr + 32 ≤ size)
    (hp : Placed abi (bs ++ [⟨start, ALIGN8 abi (size - 4 * abi.sizeof_ptr), true⟩]))
    (hnext : s.head_block = 0 ∨ get abi s.mem start .next = 0) :
    ∃ s', kmem_add_region abi s start size = some (s', 0)
      ∧ Represents abi s' (bs ++ [⟨start, ALIGN8 abi (size - 4 * abi.sizeof_ptr), true⟩])
      ∧ ∀ i, ¬InHeader abi (bs ++ [⟨start, ALIGN8 abi (size - 4 * abi.sizeof_ptr), true⟩]) i →
        s'.mem i = s.mem i := by
  have h4 := abi.four_le
  have hnew := hp.bounds _ (List.mem_append_right bs List.mem_cons_self)
  simp only [blk.stop] at hnew
  have hguard : ¬(start = 0 ∨ size < BLOCK_HEADER_SIZE abi + 32) := by
    rw [BLOCK_HEADER_SIZE_eq]
    omega
  obtain ⟨hget1, hget2, hget3⟩ := region_header_get s.mem start
    (by omega : ALIGN8 abi (size - 4 * abi.sizeof_ptr) < abi.size_mod)
  have hstart : ∀ i, ¬InHeader abi (bs ++
      [⟨start, ALIGN8 abi (size - 4 * abi.sizeof_ptr), true⟩]) i →
      i < start ∨ start + 4 * abi.sizeof_ptr ≤ i :=
    fun i hi => off_header hi (List.mem_append_right _ List.mem_cons_self)
  rw [kmem_add_region, if_neg hguard]
  rcases List.eq_nil_or_concat' bs with rfl | ⟨bs, l, rfl⟩
  · -- the first region: `next` is assigned
    have hhead : s.head_block = 0 := hr.1
    rw [if_pos hhead]
    refine ⟨_, rfl, ⟨rfl, ⟨?_, ?_, ?_, ?_⟩, trivial⟩, ?_⟩
    · rw [get_set_field (by decide), get_set_field (by decide), hget1]
    · rw [get_set_field (by decide), get_set_field (by decide), hget2]
      rfl
    · exact get_set_word (by decide) (by omega)
    · rw [get_set_field (by decide), get_set_word (by decide) (by omega)]
    · intro i hi
      dsimp only
      rw [set_of_not_header (hstart i hi), set_of_not_header (hstart i hi),
        region_header_frame (hstart i hi)]
  · have hpl : Placed abi (bs ++ [l]) :=
      ⟨fun b hb => hp.bounds b (List.mem_append_left _ hb), (List.pairwise_append.mp hp.apart).1⟩
    have hne : s.head_block ≠ 0 := by
      rw [hr.1, ne_eq, first_eq_zero hpl]
      simp
    have hnull : get abi s.mem start .next = 0 := hnext.resolve_left hne
    set m1 := set abi (region_header abi s.mem start size) start .prev 0 with hm1
    have hframe1 : ∀ i, (i < start ∨ start + 4 * abi.sizeof_ptr ≤ i) → m1 i = s.mem i := by
      intro i hi
      rw [hm1, set_of_not_header hi, region_header_frame hi]
    -- the new header lies off every block of the heap
    have hlink1 : Linked abi m1 0 (bs ++ [l]) 0 := by
      apply hr.2.congr
      intro b hb i h1 h2
      have hoff := (List.pairwise_append.mp hp.apart).2.2 b hb _ List.mem_cons_self
      simp only [blk.stop] at hoff
      exact hframe1 i (by omega)
    have hnew1 : Header abi m1 ⟨start, ALIGN8 abi (size - 4 * abi.sizeof_ptr), true⟩ 0 0 := by
      refine ⟨?_, ?_, ?_, ?_⟩
      · rw [get_set_field (by decide), hget1]
      · rw [get_set_field (by decide), hget2]
        rfl
      · rw [get_set_field (by decide), hget3, hnull]
      · exact get_set_word (by decide) (by omega)
    have hlen := hpl.length_lt
    rw [List.length_append] at hlen
    have hlast := last_block_spec abi.size_mod hlink1 hpl (by omega)
    rw [← hr.1] at hlast
    rw [if_neg hne, hlast, Option.map_some]
    refine ⟨_, rfl, ⟨?_, link_last hlink1 hp hnew1⟩, ?_⟩
    · rw [List.append_assoc]
      refine hr.1.trans ?_
      simp only [first_append]
      rfl
    · intro i hi
      dsimp only
      rw [set_of_not_header (hstart i hi), set_of_not_header (off_header hi (by simp))]
      exact hframe1 i (hstart i hi)

/-! ## What the regions allow -/

/-- No block reaches out of the regions. -/
def Covered (abi : Abi) (regions : List (ℕ × ℕ)) (bs : List blk) : Prop :=
  ∀ b ∈ bs, ∀ i, b.addr ≤ i → i < b.stop abi → ∃ r ∈ regions, r.1 ≤ i ∧ i < r.1 + r.2

/-- The free list neighbours of `block`, which `kfree(block)` would merge with it, touch it. -/
def MergesInPlace (abi : Abi) (m : Mem) (block : ℕ) : Prop :=
  (get abi m block .next ≠ 0 → get abi m (get abi m block .next) .is_free ≠ 0 →
      block + BLOCK_HEADER_SIZE abi + get abi m block .size = get abi m block .next)
    ∧ (get abi m block .prev ≠ 0 → get abi m (get abi m block .prev) .is_free ≠ 0 →
      get abi m block .prev + BLOCK_HEADER_SIZE abi + get abi m (get abi m block .prev) .size
        = block)

/-- What several regions ask of a request. -/
def RegionsOk (abi : Abi) (c : client) : request → Prop
  | .kfree ptr => MergesInPlace abi c.heap.mem (owner abi c.heap.mem ptr)
  | .kmem_add_region start size =>
    8 ∣ size ∧ (c.heap.head_block = 0 ∨ get abi c.heap.mem start .next = 0)
  | _ => True

def multi_ok (abi : Abi) (c : client) (r : request) : Prop :=
  Legal abi c r ∧ NoWrap abi c r ∧ RegionsOk abi c r

/-- The runs from `kmem_init` on, with any number of regions. -/
def MultiRun (abi : Abi) (s : kheap) (heap_start heap_size : ℕ) (c : client) : Prop :=
  Relation.ReflTransGen (Step abi (multi_ok abi)) (init_client abi s heap_start heap_size) c

/-- What the code reads of a block's neighbours, on the list. -/
theorem MergesInPlace.merges_touch {s : kheap} {bs : List blk} {addr : ℕ}
    (hr : Represents abi s bs) (hp : Placed abi bs) (h : MergesInPlace abi s.mem addr) :
    MergesTouch abi bs addr := by
  rintro pre b post rfl rfl
  obtain ⟨-, hb, hpost⟩ := (linked_append _ _ _ _ _).mp hr.2
  obtain ⟨hnext, hprev⟩ := h
  rw [hb.next, hb.size, BLOCK_HEADER_SIZE_eq] at hnext
  rw [hb.prev, BLOCK_HEADER_SIZE_eq] at hprev
  refine ⟨?_, ?_⟩
  · intro c hc hfree
    cases post with
    | nil => cases hc
    | cons d post =>
        obtain rfl := Option.some.inj hc
        have hd := (hp.bounds d (by simp)).1
        refine hnext (by simp only [first]; omega) ?_
        rw [first, hpost.1.is_free, hfree]
        decide
  · intro a ha hfree
    obtain ⟨pre, rfl⟩ := List.getLast?_eq_some_iff.mp ha
    have ha0 := (hp.bounds a (by simp)).1
    have hla := hr.2
    rw [List.append_assoc, linked_append] at hla
    have hheader := hla.2.1
    have hfinal : final 0 (pre ++ [a]) = a.addr := by
      rw [final_append]
      rfl
    rw [hfinal, hheader.is_free, hheader.size, hfree] at hprev
    exact hprev (by omega) (by decide)

theorem Covered.change {regions : List (ℕ × ℕ)} {bs bs' : List blk}
    (h : Covered abi regions bs) (hc : Change abi bs bs') : Covered abi regions bs' := by
  cases hc with
  | same => exact h
  | take pre b post req hbs hfree hreq =>
      subst hbs
      intro c hc i h1 h2
      rcases List.mem_append.mp hc with hc | hc
      · exact h c (by simp [hc]) i h1 h2
      · rcases List.mem_append.mp hc with hc | hc
        · have hbounds := carve_bounds hc
          exact h b (by simp) i (by omega) (by omega)
        · exact h c (by simp [hc]) i h1 h2
  | give pre b post hbs hused hnext hprev =>
      subst hbs
      refine release_induction (P := Covered abi regions) ?_ ?_ hnext hprev
      · intro c hc i h1 h2
        simp only [List.mem_append, List.mem_cons] at hc
        rcases hc with hc | rfl | hc
        · exact h c (by simp [hc]) i h1 h2
        · exact h b (by simp) i h1 h2
        · exact h c (by simp [hc]) i h1 h2
      · -- the merged block covers what the two covered, since they touch
        intro pre x y post htouch hxy c hc i h1 h2
        simp only [List.mem_append, List.mem_cons] at hc
        rcases hc with hc | rfl | hc
        · exact hxy c (by simp [hc]) i h1 h2
        · simp only [absorb, blk.stop] at h1 h2 htouch
          by_cases hi : i < x.stop abi
          · exact hxy x (by simp) i h1 hi
          · refine hxy y (by simp) i ?_ ?_ <;> simp only [blk.stop] at hi ⊢ <;> omega
        · exact hxy c (by simp [hc]) i h1 h2

/-- A region off all the others is off every block. -/
theorem Covered.apart {regions : List (ℕ × ℕ)} {bs : List blk} (h : Covered abi regions bs)
    {start size : ℕ} (hsize : 0 < size) (hoff : ∀ r ∈ regions, RangesApart (start, size) r)
    {b : blk} (hb : b ∈ bs) : b.stop abi ≤ start ∨ start + size ≤ b.addr := by
  have h4 := abi.four_le
  by_contra hmeet
  rw [not_or] at hmeet
  have hpos : b.addr < b.stop abi := by
    rw [blk.stop]
    omega
  -- the first common address lies in an old region and in the new one
  obtain ⟨r, hr, hr1, hr2⟩ := h b hb (max b.addr start) (by omega) (by omega)
  have hroff := hoff r hr
  simp only [RangesApart] at hroff
  omega

/-! ## Runs -/

/-- The invariant of these runs. -/
structure MultiInv (abi : Abi) (c : client) (bs : List blk) : Prop where
  inv : Inv abi c bs
  covered : Covered abi c.regions bs

/-- Adding a region keeps the invariant; a region that is too small changes nothing. -/
theorem serve_kmem_add_region {c : client} {bs : List blk} {start size : ℕ}
    (h : MultiInv abi c bs) (hlegal : Legal abi c (.kmem_add_region start size))
    (hok : RegionsOk abi c (.kmem_add_region start size)) :
    ∃ c' bs', serve abi c (.kmem_add_region start size) = some c' ∧ MultiInv abi c' bs' := by
  have h4 := abi.four_le
  obtain ⟨hmax, hoff⟩ := hlegal
  obtain ⟨h8, hnext⟩ := hok
  by_cases hguard : start = 0 ∨ size < BLOCK_HEADER_SIZE abi + 32
  · refine ⟨c, bs, ?_, h⟩
    rw [serve, kmem_add_region, if_pos hguard]
    rfl
  rw [BLOCK_HEADER_SIZE_eq] at hguard
  have hregion : Region abi start size := by
    refine ⟨by omega, ?_, by omega⟩
    rw [BLOCK_HEADER_SIZE_eq]
    omega
  have hround := hregion.init_size
  -- the new region is off the old ones, so its block is off all blocks
  have hnewp : Placed abi (bs ++ [⟨start, ALIGN8 abi (size - 4 * abi.sizeof_ptr), true⟩]) := by
    refine ⟨?_, List.pairwise_append.mpr ⟨h.inv.placed.apart, List.pairwise_singleton _ _, ?_⟩⟩
    · intro b hb
      rcases List.mem_append.mp hb with hb | hb
      · exact h.inv.placed.bounds b hb
      · obtain rfl := List.mem_singleton.mp hb
        simp only [blk.stop]
        omega
    · intro b hb d hd
      obtain rfl := List.mem_singleton.mp hd
      have hbo := h.covered.apart (by omega : 0 < size) hoff hb
      simp only [blk.stop] at hbo ⊢
      omega
  obtain ⟨s', hres, hrep, hframe⟩ :=
    kmem_add_region_spec h.inv.represents (by omega) hnewp hnext
  refine ⟨{ c with heap := s', regions := (start, size) :: c.regions }, _, ?_,
    ⟨hrep, hnewp, ?_⟩, ?_⟩
  · rw [serve, hres]
    rfl
  · -- the header that was linked in, and the one it was linked to, are no payload
    have hused : used (bs ++ [⟨start, ALIGN8 abi (size - 4 * abi.sizeof_ptr), true⟩])
        = used bs := by
      rw [used_append, used_cons_free rfl]
      exact List.append_nil _
    rw [hused]
    refine h.inv.owns_congr ?_
    intro q hq i hi1 hi2
    refine hframe i ?_
    rintro ⟨e, he, he1, he2⟩
    obtain ⟨d, hd, -, -, hd1, hd2, -⟩ := h.inv.block hq
    by_cases hde : d = e
    · rw [hde] at hd1
      omega
    · have hdoff := hnewp.off (List.mem_append_left _ hd) he hde
      simp only [blk.stop] at hdoff hd2
      omega
  · intro b hb i h1 h2
    rcases List.mem_append.mp hb with hb | hb
    · obtain ⟨r, hr, hri⟩ := h.covered b hb i h1 h2
      exact ⟨r, List.mem_cons_of_mem _ hr, hri⟩
    · obtain rfl := List.mem_singleton.mp hb
      refine ⟨(start, size), List.mem_cons_self, h1, ?_⟩
      simp only [blk.stop] at h2 ⊢
      omega

/-- One request, with any number of regions. -/
theorem multi_step {c : client} {bs : List blk} {r : request} (h : MultiInv abi c bs)
    (hok : multi_ok abi c r) : ∃ c' bs', serve abi c r = some c' ∧ MultiInv abi c' bs' := by
  obtain ⟨hlegal, hwrap, hregions⟩ := hok
  by_cases hnew : NoRegion r
  · have htouch : ∀ ptr, r = .kfree ptr → MergesTouch abi bs (owner abi c.heap.mem ptr) := by
      rintro ptr rfl
      exact MergesInPlace.merges_touch h.inv.represents h.inv.placed hregions
    obtain ⟨c', bs', hserve, hinv, hchange, hsame⟩ := serve_spec h.inv hlegal hwrap hnew htouch
    refine ⟨c', bs', hserve, hinv, ?_⟩
    rw [hsame]
    exact h.covered.change hchange
  · cases r with
    | kmem_add_region start size => exact serve_kmem_add_region h hlegal hregions
    | _ => exact absurd trivial hnew

theorem multi_init {s : kheap} {heap_start heap_size : ℕ} (h : Region abi heap_start heap_size)
    (h8 : 8 ∣ heap_size) :
    MultiInv abi (init_client abi s heap_start heap_size)
      [⟨heap_start, ALIGN8 abi (heap_size - 4 * abi.sizeof_ptr), true⟩] := by
  have hround := h.init_size
  refine ⟨(init_inv s h).inv, ?_⟩
  intro b hb i h1 h2
  obtain rfl := List.mem_singleton.mp hb
  refine ⟨(heap_start, heap_size), List.mem_cons_self, h1, ?_⟩
  simp only [blk.stop] at h2 ⊢
  omega

/-- The invariant holds in every state of every run. -/
theorem multi_run {s : kheap} {heap_start heap_size : ℕ} {c : client}
    (h : Region abi heap_start heap_size) (h8 : 8 ∣ heap_size)
    (hrun : MultiRun abi s heap_start heap_size c) : ∃ bs, MultiInv abi c bs := by
  induction hrun with
  | refl => exact ⟨_, multi_init h h8⟩
  | tail _ hstep ih =>
      obtain ⟨bs, hbs⟩ := ih
      obtain ⟨r, hok, hserve⟩ := hstep
      obtain ⟨c', bs', hserve', hbs'⟩ := multi_step hbs hok
      rw [hserve] at hserve'
      obtain rfl := Option.some.inj hserve'
      exact ⟨bs', hbs'⟩

/-- No run gets stuck: every admissible request is served. -/
theorem multi_run_serves {s : kheap} {heap_start heap_size : ℕ} {c : client} {r : request}
    (h : Region abi heap_start heap_size) (h8 : 8 ∣ heap_size)
    (hrun : MultiRun abi s heap_start heap_size c) (hok : multi_ok abi c r) :
    ∃ c', serve abi c r = some c' := by
  obtain ⟨bs, hbs⟩ := multi_run h h8 hrun
  obtain ⟨c', -, hserve, -⟩ := multi_step hbs hok
  exact ⟨c', hserve⟩

/-- The heap is a linked list of blocks, none of them outside the regions. -/
def WithinRegions (abi : Abi) (c : client) : Prop :=
  ∃ bs, Represents abi c.heap bs ∧ Covered abi c.regions bs

/-- **Regions.** Every admissible run keeps the list linked and inside the regions. -/
theorem multi_run_within {s : kheap} {heap_start heap_size : ℕ} {c : client}
    (h : Region abi heap_start heap_size) (h8 : 8 ∣ heap_size)
    (hrun : MultiRun abi s heap_start heap_size c) : WithinRegions abi c := by
  obtain ⟨bs, hbs⟩ := multi_run h h8 hrun
  exact ⟨bs, hbs.inv.represents, hbs.covered⟩

/-- Two pages that do not touch, and an allocation. -/
theorem multi_run_within_pages : ∃ c, MultiRun .x86_64 empty_heap 4096 4096 c
    ∧ c.live = [(4136, 24)] ∧ c.regions = [(16384, 4096), (4096, 4096)]
    ∧ WithinRegions .x86_64 c := by
  have hok1 : multi_ok .x86_64 (init_client .x86_64 empty_heap 4096 4096)
      (.kmem_add_region 16384 4096) := by
    refine ⟨⟨by decide, ?_⟩, trivial, by decide, Or.inr (by decide)⟩
    intro r hr
    rw [List.mem_singleton.mp hr]
    exact Or.inr (by decide)
  obtain ⟨c1, h1⟩ := multi_run_serves example_region (by decide) Relation.ReflTransGen.refl hok1
  have hrun1 : MultiRun .x86_64 empty_heap 4096 4096 c1 :=
    Relation.ReflTransGen.single ⟨_, hok1, h1⟩
  have hok2 : multi_ok .x86_64 c1 (.kmalloc 24) :=
    ⟨(by decide : 24 < Abi.x86_64.size_mod), Or.inl (by decide), trivial⟩
  obtain ⟨c2, h2⟩ := multi_run_serves example_region (by decide) hrun1 hok2
  have hrun2 : MultiRun .x86_64 empty_heap 4096 4096 c2 := hrun1.tail ⟨_, hok2, h2⟩
  have hvals : ((serve .x86_64 (init_client .x86_64 empty_heap 4096 4096)
      (.kmem_add_region 16384 4096)).bind fun c =>
        (serve .x86_64 c (.kmalloc 24)).map fun c => (c.live, c.regions))
      = some ([(4136, 24)], [(16384, 4096), (4096, 4096)]) := by
    decide
  rw [h1, Option.bind_some, h2, Option.map_some] at hvals
  obtain ⟨hlive, hregions⟩ := Prod.mk.inj (Option.some.inj hvals)
  exact ⟨c2, hrun2, hlive, hregions, multi_run_within example_region (by decide) hrun2⟩

/-- Without the condition on `kfree`: two pages with a gap, the first allocated whole and
freed again. The block that results runs across the gap. -/
theorem merge_leaves_regions :
    ¬∀ c, Relation.ReflTransGen (Step .x86_64 (Legal .x86_64))
        (init_client .x86_64 empty_heap 4096 4096) c → WithinRegions .x86_64 c := by
  intro hall
  have hvals : ((serve .x86_64 (init_client .x86_64 empty_heap 4096 4096)
      (.kmem_add_region 16384 4096)).bind fun c1 =>
        (serve .x86_64 c1 (.kmalloc 4056)).bind fun c2 =>
          (serve .x86_64 c2 (.kfree 4136)).map fun c3 =>
            (c2.live, c3.heap.head_block, get .x86_64 c3.heap.mem 4096 .size, c3.regions))
      = some ([(4136, 4056)], 4096, 8160, [(16384, 4096), (4096, 4096)]) := by
    decide +kernel
  obtain ⟨c1, h1, hvals⟩ := Option.bind_eq_some_iff.mp hvals
  obtain ⟨c2, h2, hvals⟩ := Option.bind_eq_some_iff.mp hvals
  obtain ⟨c3, h3, hvals⟩ := Option.map_eq_some_iff.mp hvals
  simp only [Prod.mk.injEq] at hvals
  obtain ⟨hlive, hhead, hsize, hregions⟩ := hvals
  have hlegal1 : Legal .x86_64 (init_client .x86_64 empty_heap 4096 4096)
      (.kmem_add_region 16384 4096) := by
    refine ⟨by decide, ?_⟩
    intro r hr
    rw [List.mem_singleton.mp hr]
    exact Or.inr (by decide)
  have hlegal2 : Legal .x86_64 c1 (.kmalloc 4056) := (by decide : 4056 < Abi.x86_64.size_mod)
  have hlegal3 : Legal .x86_64 c2 (.kfree 4136) := ⟨4056, by rw [hlive]; exact List.mem_cons_self⟩
  have hrun : Relation.ReflTransGen (Step .x86_64 (Legal .x86_64))
      (init_client .x86_64 empty_heap 4096 4096) c3 :=
    ((Relation.ReflTransGen.single ⟨_, hlegal1, h1⟩).tail
      ⟨_, hlegal2, h2⟩).tail ⟨_, hlegal3, h3⟩
  obtain ⟨bs, hrep, hcov⟩ := hall c3 hrun
  -- the block at 4096 reaches to 12288, over the gap from 8192 on
  match bs, hrep, hcov with
  | [], hrep, _ =>
      have hzero : c3.heap.head_block = 0 := hrep.1
      omega
  | b :: rest, hrep, hcov =>
      have haddr : c3.heap.head_block = b.addr := hrep.1
      have hsz := hrep.2.1.size
      rw [← haddr, hhead, hsize] at hsz
      have hstop : 8192 < b.stop .x86_64 := by
        rw [blk.stop, ← haddr, hhead, ← hsz]
        decide
      obtain ⟨r, hr, h1, h2⟩ := hcov b List.mem_cons_self 8192 (by omega) hstop
      rw [hregions] at hr
      rcases List.mem_pair.mp hr with rfl | rfl <;> omega

end SysInC.Kmem
