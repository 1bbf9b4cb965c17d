/-
`krealloc`, and runs of the heap that use it.

`krealloc` takes the size of the block for the size of the allocation. The two differ by
whatever lies in front of the payload: the back pointer, and for an aligned pointer the
offset too. So a pointer may be returned as it is with too little room behind it
(`RoomInPlace` says when not), and that is all that is wrong: where the allocation moves,
more bytes are copied than it has, but they are copied into the new payload, and those it has
arrive (`kmemcpy_copied`). `krealloc_spec` puts this together, and `realloc_run` carries it
along the runs that keep to `RoomInPlace`, on any number of regions.
-/
import SysInC.KmemRegions

set_option autoImplicit false

namespace SysInC.Kmem

open SysInC.ByteMem

variable {abi : Abi}

/-! ## Copying -/

/-- `rep movsl`. -/
def rep_movsl (m : Mem) (d s : ℕ) : ℕ → Mem
  | 0 => m
  | dwords + 1 => rep_movsl (store m d 4 (load m s 4)) (d + 4) (s + 4) dwords

/-- `while (n--) *d++ = *s++;` -/
def copy_bytes (m : Mem) (d s : ℕ) : ℕ → Mem
  | 0 => m
  | n + 1 => copy_bytes (Function.update m d (m s)) (d + 1) (s + 1) n

def kmemcpy (m : Mem) (dest src n : ℕ) : Mem :=
  if 4 ≤ n then
    copy_bytes (rep_movsl m dest src (n / 4)) (dest + 4 * (n / 4)) (src + 4 * (n / 4)) (n % 4)
  else copy_bytes m dest src n

theorem store_load_byte (m m' : Mem) (d s n j : ℕ) (hj : j < n) :
    store m d n (load m' s n) (d + j) = m' (s + j) := by
  induction n generalizing m d s j with
  | zero => omega
  | succ n ih =>
      have hdiv : ((m' s).toNat + 256 * load m' (s + 1) n) / 256 = load m' (s + 1) n := by
        have := (m' s).toNat_lt
        omega
      rw [load, store, hdiv]
      cases j with
      | zero =>
          simp only [Nat.add_zero]
          rw [store_of_not_mem _ _ _ _ _ (by omega), Function.update_self]
          apply UInt8.toNat_inj.mp
          have := (m' s).toNat_lt
          rw [UInt8.toNat_ofNat']
          omega
      | succ j =>
          have hstep := ih (Function.update m d
            (UInt8.ofNat ((m' s).toNat + 256 * load m' (s + 1) n))) (d + 1) (s + 1) j (by omega)
          rw [show d + (j + 1) = d + 1 + j by omega, show s + (j + 1) = s + 1 + j by omega]
          exact hstep

theorem rep_movsl_frame (m : Mem) (d s dwords i : ℕ) (hi : i < d ∨ d + 4 * dwords ≤ i) :
    rep_movsl m d s dwords i = m i := by
  induction dwords generalizing m d s with
  | zero => rfl
  | succ dwords ih => rw [rep_movsl, ih _ _ _ (by omega), store_of_not_mem _ _ _ _ _ (by omega)]

theorem copy_bytes_frame (m : Mem) (d s n i : ℕ) (hi : i < d ∨ d + n ≤ i) :
    copy_bytes m d s n i = m i := by
  induction n generalizing m d s with
  | zero => rfl
  | succ n ih => rw [copy_bytes, ih _ _ _ (by omega), Function.update_of_ne (by omega)]

/-- `kmemcpy` writes its destination only. -/
theorem kmemcpy_frame (m : Mem) (dest src n i : ℕ) (hi : i < dest ∨ dest + n ≤ i) :
    kmemcpy m dest src n i = m i := by
  unfold kmemcpy
  split_ifs with hn
  · rw [copy_bytes_frame _ _ _ _ _ (by omega), rep_movsl_frame _ _ _ _ _ (by omega)]
  · exact copy_bytes_frame _ _ _ _ _ hi

/-- A byte arrives if it does not lie in the destination, even when other bytes of the source
do: the dwords are moved in ascending order. -/
theorem rep_movsl_copied (m : Mem) (d s dwords i : ℕ) (hi : i < 4 * dwords)
    (hoff : s + i < d ∨ d + 4 * dwords ≤ s + i) :
    rep_movsl m d s dwords (d + i) = m (s + i) := by
  induction dwords generalizing m d s i with
  | zero => omega
  | succ dwords ih =>
      rw [rep_movsl]
      by_cases hfirst : i < 4
      · rw [rep_movsl_frame _ _ _ _ _ (by omega)]
        exact store_load_byte m m d s 4 i hfirst
      · have hrest := ih (store m d 4 (load m s 4)) (d + 4) (s + 4) (i - 4) (by omega) (by omega)
        rw [show d + 4 + (i - 4) = d + i by omega, show s + 4 + (i - 4) = s + i by omega,
          store_of_not_mem _ _ _ _ _ (by omega)] at hrest
        exact hrest

theorem copy_bytes_copied (m : Mem) (d s n i : ℕ) (hi : i < n)
    (hoff : s + i < d ∨ d + n ≤ s + i) : copy_bytes m d s n (d + i) = m (s + i) := by
  induction n generalizing m d s i with
  | zero => omega
  | succ n ih =>
      rw [copy_bytes]
      cases i with
      | zero =>
          simp only [Nat.add_zero]
          rw [copy_bytes_frame _ _ _ _ _ (by omega), Function.update_self]
      | succ i =>
          have hrest := ih (Function.update m d (m s)) (d + 1) (s + 1) i (by omega) (by omega)
          rw [show d + 1 + i = d + (i + 1) by omega, show s + 1 + i = s + (i + 1) by omega,
            Function.update_of_ne (by omega)] at hrest
          exact hrest

theorem kmemcpy_copied (m : Mem) (dest src n i : ℕ) (hi : i < n)
    (hoff : src + i < dest ∨ dest + n ≤ src + i) :
    kmemcpy m dest src n (dest + i) = m (src + i) := by
  unfold kmemcpy
  split_ifs with hn
  · by_cases hdword : i < 4 * (n / 4)
    · rw [copy_bytes_frame _ _ _ _ _ (by omega)]
      exact rep_movsl_copied m dest src _ i hdword (by omega)
    · have hodd := copy_bytes_copied (rep_movsl m dest src (n / 4)) (dest + 4 * (n / 4))
        (src + 4 * (n / 4)) (n % 4) (i - 4 * (n / 4)) (by omega) (by omega)
      rw [show dest + 4 * (n / 4) + (i - 4 * (n / 4)) = dest + i by omega,
        show src + 4 * (n / 4) + (i - 4 * (n / 4)) = src + i by omega,
        rep_movsl_frame _ _ _ _ _ (by omega)] at hodd
      exact hodd
  · exact copy_bytes_copied m dest src n i hi hoff

/-! ## `krealloc` -/

def krealloc (abi : Abi) (s : kheap) (ptr size : ℕ) : Option (kheap × ℕ) :=
  if ptr = 0 then kmalloc abi s size
  else if size = 0 then some (kfree abi s ptr, 0)
  else
    let block := load s.mem (back_slot abi ptr) abi.sizeof_ptr
    let old_size := get abi s.mem block .size
    if size ≤ old_size then some (s, ptr)
    else
      (kmalloc abi s size).map fun r =>
        if r.2 ≠ 0 then (kfree abi { r.1 with mem := kmemcpy r.1.mem r.2 ptr old_size } ptr, r.2)
        else r

/-- The `old_size` of `krealloc`. -/
def block_size (abi : Abi) (m : Mem) (ptr : ℕ) : ℕ := get abi m (owner abi m ptr) .size

/-- What a reallocation of `old` bytes to `size` bytes is to do. -/
structure Reallocated (abi : Abi) (c : client) (ptr old size : ℕ) (s' : kheap) (ptr' : ℕ) :
    Prop where
  room : ptr' ≠ 0 → ptr' + size ≤ owner_end abi s'.mem ptr'
  contents : ptr' ≠ 0 → ∀ i < min old size, s'.mem (ptr' + i) = c.heap.mem (ptr + i)
  others : ∀ q ∈ c.live, q.1 ≠ ptr → ∀ i < q.2, s'.mem (q.1 + i) = c.heap.mem (q.1 + i)
  intact : ptr' = 0 → 0 < size → s' = c.heap

/-- `krealloc` does not return a pointer as it is unless there is room behind it. -/
def RoomInPlace (abi : Abi) (m : Mem) (ptr size : ℕ) : Prop :=
  size ≤ block_size abi m ptr → ptr + size ≤ owner_end abi m ptr

/-- The old allocation goes back to the heap. -/
def GivesBack (abi : Abi) (m : Mem) (ptr size : ℕ) : Prop :=
  size = 0 ∨ block_size abi m ptr < size

/-! ## What the parts keep -/

section Parts

variable {c : client} {bs : List blk}

/-- Where the block of a live pointer ends, and how long it is, as memory has it. -/
theorem Inv.block_header (h : Inv abi c bs) {q : ℕ × ℕ} (hq : q ∈ c.live) :
    ∃ b ∈ bs, b.free = false ∧ owner abi c.heap.mem q.1 = b.addr
      ∧ block_size abi c.heap.mem q.1 = b.size ∧ owner_end abi c.heap.mem q.1 = b.stop abi
      ∧ b.addr + 5 * abi.sizeof_ptr ≤ q.1 ∧ q.1 + q.2 ≤ b.stop abi := by
  obtain ⟨b, hb, hused, howner, h1, h2, -⟩ := h.block hq
  obtain ⟨pre, post, rfl⟩ := List.append_of_mem hb
  have hsize := ((linked_append _ _ _ _ _).mp h.represents.2).2.1.size
  refine ⟨b, hb, hused, howner, ?_, ?_, h1, h2⟩
  · rw [block_size, howner, hsize]
  · rw [owner_end, howner, hsize, BLOCK_HEADER_SIZE_eq, blk.stop]

/-- The back pointers and payloads of live pointers are no part of a header. -/
theorem Inv.off_headers (h : Inv abi c bs) {q : ℕ × ℕ} (hq : q ∈ c.live) {i : ℕ}
    (hi1 : q.1 ≤ i + abi.sizeof_ptr) (hi2 : i < q.1 + q.2) : ¬InHeader abi bs i := by
  obtain ⟨d, hd, -, -, hd1, hd2, -⟩ := h.block hq
  rintro ⟨e, he, he1, he2⟩
  by_cases hde : d = e
  · rw [hde] at hd1
    omega
  · have hoff := h.placed.off hd he hde
    simp only [blk.stop] at hoff hd2
    omega

/-- No payload meets another one or the back pointer of any. -/
theorem Inv.off_payload (h : Inv abi c bs) {q r : ℕ × ℕ} (hq : q ∈ c.live) (hr : r ∈ c.live)
    {i : ℕ} (hi1 : r.1 ≤ i + abi.sizeof_ptr) (hi2 : i < r.1 + r.2) (hqr : i < r.1 ∨ q ≠ r) :
    i < q.1 ∨ q.1 + q.2 ≤ i := by
  obtain ⟨b, hb, -, hbo, hb1, hb2, -⟩ := h.block hq
  obtain ⟨d, hd, -, hdo, hd1, hd2, -⟩ := h.block hr
  by_cases heq : q = r
  · rw [← heq] at hqr
    exact Or.inl (hqr.resolve_right (by simp))
  · have hne : b ≠ d := by
      rintro rfl
      exact heq (List.inj_on_of_nodup_map h.owners_nodup hq hr (hbo.trans hdo.symm))
    have hoff := h.placed.off hb hd hne
    simp only [blk.stop] at hoff hb2 hd2
    omega

/-- Stores into a live payload, any number of them, keep the invariant. -/
theorem Inv.rewrite (h : Inv abi c bs) {q : ℕ × ℕ} (hq : q ∈ c.live) {m : Mem}
    (hm : ∀ i, (i < q.1 ∨ q.1 + q.2 ≤ i) → m i = c.heap.mem i) :
    Inv abi { c with heap := { c.heap with mem := m } } bs := by
  obtain ⟨b, hb, -, -, hb1, hb2, -⟩ := h.block hq
  refine ⟨h.represents.payload h.placed hb ?_, h.placed, h.owns_congr ?_⟩
  · intro i hi
    exact hm i (by omega)
  · intro r hr i hi1 hi2
    exact hm i (h.off_payload hq hr hi2 (Nat.lt_add_right _ hi1) (Or.inl hi1))

/-- `u` and `v` touch, if freeing the block at `addr` would merge them. -/
def Touch (abi : Abi) (addr : ℕ) (u v : blk) : Prop :=
  (u.addr = addr ∧ v.free = true ∨ v.addr = addr ∧ u.free = true) → u.stop abi = v.addr

theorem mergesTouch_iff {bs : List blk} {addr : ℕ} :
    MergesTouch abi bs addr ↔ bs.IsChain (Touch abi addr) := by
  rw [List.isChain_iff_forall_rel_of_append_cons_cons]
  refine ⟨?_, ?_⟩
  · rintro h u v pre post rfl (⟨rfl, hfree⟩ | ⟨rfl, hfree⟩)
    · exact (h pre u (v :: post) rfl rfl).1 v rfl hfree
    · have hsplit : pre ++ u :: v :: post = (pre ++ [u]) ++ v :: post := by simp
      exact (h (pre ++ [u]) v post hsplit rfl).2 u (by simp) hfree
  · rintro h pre b post rfl rfl
    refine ⟨?_, ?_⟩
    · intro d hd hfree
      obtain ⟨post, rfl⟩ := List.head?_eq_some_iff.mp hd
      exact h rfl (Or.inl ⟨rfl, hfree⟩)
    · intro a ha hfree
      obtain ⟨pre, rfl⟩ := List.getLast?_eq_some_iff.mp ha
      exact h (List.append_assoc pre [a] (b :: post)) (Or.inr ⟨rfl, hfree⟩)

/-- Taking a free block leaves what a used one would be merged with touching it. -/
theorem MergesTouch.take {pre post : List blk} {x : blk} {req addr : ℕ}
    (h : MergesTouch abi (pre ++ x :: post) addr) (hfree : x.free = true)
    (hoff : addr < x.addr ∨ x.stop abi ≤ addr) :
    MergesTouch abi (pre ++ (carve abi req x ++ post)) addr := by
  have h4 := abi.four_le
  rw [mergesTouch_iff] at h ⊢
  obtain ⟨hpre, hx, hcross⟩ := List.isChain_append.mp h
  obtain ⟨hhead, hpost⟩ := List.isChain_cons.mp hx
  rw [blk.stop] at hoff
  -- no carved block is the one at `addr`, and the first of them is not free
  have hfirst : ∀ (size : ℕ), ∀ u ∈ pre.getLast?, Touch abi addr u ⟨x.addr, size, false⟩ := by
    rintro size u - (⟨-, hf⟩ | ⟨ha, -⟩)
    · exact absurd hf Bool.noConfusion
    · dsimp only at ha
      omega
  unfold carve
  split_ifs with hsplit
  · refine List.isChain_append.mpr ⟨hpre, List.isChain_cons_cons.mpr ⟨?_, ?_⟩, ?_⟩
    · rintro (⟨ha, -⟩ | ⟨ha, -⟩) <;> dsimp only at ha <;> omega
    · refine List.isChain_cons.mpr ⟨?_, hpost⟩
      rintro v hv (⟨ha, -⟩ | ⟨ha, -⟩)
      · dsimp only at ha
        omega
      · have htouch := hhead v hv (Or.inr ⟨ha, hfree⟩)
        simp only [blk.stop] at htouch ⊢
        omega
    · intro u hu v hv
      cases hv
      exact hfirst _ u hu
  · refine List.isChain_append.mpr ⟨hpre, List.isChain_cons.mpr ⟨?_, hpost⟩, ?_⟩
    · rintro v hv (⟨ha, -⟩ | ⟨-, hf⟩)
      · dsimp only at ha
        omega
      · exact absurd hf Bool.noConfusion
    · intro u hu v hv
      cases hv
      exact hfirst _ u hu

/-- Freeing one pointer leaves the bytes of the others, and its own. -/
theorem Inv.give_keeps {ptr size : ℕ} (h : Inv abi c bs) (hq : (ptr, size) ∈ c.live)
    (htouch : MergesTouch abi bs (owner abi c.heap.mem ptr)) {q : ℕ × ℕ} (hq' : q ∈ c.live)
    {i : ℕ} (hi1 : q.1 ≤ i + abi.sizeof_ptr) (hi2 : i < q.1 + q.2) :
    (kfree abi c.heap ptr).mem i = c.heap.mem i := by
  have h4 := abi.four_le
  obtain ⟨b, hb, -, howner, hfit, -⟩ := h.block hq
  dsimp only at howner hfit
  obtain ⟨pre, post, rfl⟩ := List.append_of_mem hb
  obtain ⟨hnext, hprev⟩ := htouch pre b post rfl howner.symm
  have hspec := kfree_spec h.represents h.placed (by omega) howner hnext hprev
  exact hspec.2.2 i (h.off_headers hq' hi1 hi2)

/-- A live pointer stands for another number of bytes of its block. -/
theorem Inv.resize {ptr old size : ℕ} (h : Inv abi c bs) (hq : (ptr, old) ∈ c.live)
    (hroom : ptr + size ≤ owner_end abi c.heap.mem ptr) :
    Inv abi { c with live := (ptr, size) :: c.live.eraseP (fun q => q.1 = ptr) } bs := by
  obtain ⟨b, hb, hused, howner, -, hend, hfit, -⟩ := h.block_header hq
  obtain ⟨q, l1, l2, -, hqptr, hlive, herase⟩ :=
    List.exists_of_eraseP (p := fun q : ℕ × ℕ => decide (q.1 = ptr)) hq (by simp)
  rw [decide_eq_true_eq] at hqptr
  refine ⟨h.represents, h.placed, ?_, ?_⟩
  · have hperm := h.owns.owners
    rw [hlive] at hperm
    rw [herase]
    simp only [List.map_append, List.map_cons] at hperm ⊢
    rw [hqptr] at hperm
    exact List.perm_middle.symm.trans hperm
  · intro r hr
    rcases List.mem_cons.mp hr with rfl | hr
    · exact ⟨b, mem_used.mpr ⟨hb, hused⟩, howner, hfit, by rw [← hend]; exact hroom⟩
    · exact h.owns.fits r (List.mem_of_mem_eraseP hr)

end Parts

/-! ## What `krealloc` does -/

/-- What the client does with the result of `krealloc`. -/
def client.reallocate (c : client) (ptr size : ℕ) (r : kheap × ℕ) : client :=
  { c with
    heap := r.1
    live :=
      if r.2 ≠ 0 then (r.2, size) :: c.live.eraseP (fun q => q.1 = ptr)
      else if size = 0 then c.live.eraseP (fun q => q.1 = ptr)
      else c.live }

/-- What serving a reallocation comes to. -/
def ReallocServed (abi : Abi) (c : client) (bs : List blk) (ptr old size : ℕ) : Prop :=
  ∃ s' ptr' bs', krealloc abi c.heap ptr size = some (s', ptr')
    ∧ Reallocated abi c ptr old size s' ptr' ∧ Inv abi (c.reallocate ptr size (s', ptr')) bs'
    ∧ Relation.ReflTransGen (Change abi) bs bs'

section Spec

variable {c : client} {bs : List blk} {ptr old size : ℕ}

/-- `krealloc(ptr, 0)`. -/
theorem Inv.realloc_free (h : Inv abi c bs) (hq : (ptr, old) ∈ c.live)
    (htouch : MergesTouch abi bs (owner abi c.heap.mem ptr)) :
    ReallocServed abi c bs ptr old 0 := by
  have h4 := abi.four_le
  obtain ⟨b, hb, hused, howner, hfit, -⟩ := h.block hq
  dsimp only at howner hfit
  obtain ⟨pre, post, rfl⟩ := List.append_of_mem hb
  obtain ⟨hnext, hprev⟩ := htouch pre b post rfl howner.symm
  refine ⟨kfree abi c.heap ptr, 0, release abi pre b post, ?_, ⟨?_, ?_, ?_, ?_⟩,
    h.give hused hq howner hnext hprev,
    Relation.ReflTransGen.single (Change.give pre b post rfl hused hnext hprev)⟩
  · rw [krealloc, if_neg (by omega), if_pos rfl]
  · exact fun hne => absurd rfl hne
  · exact fun hne => absurd rfl hne
  · intro q hq' _ i hi
    exact h.give_keeps hq htouch hq' (by omega) (by omega)
  · exact fun _ hpos => absurd hpos (lt_irrefl 0)

/-- A pointer that is returned as it is. -/
theorem Inv.realloc_in_place (h : Inv abi c bs) (hq : (ptr, old) ∈ c.live) (hsize : size ≠ 0)
    (hle : size ≤ block_size abi c.heap.mem ptr)
    (hroom : ptr + size ≤ owner_end abi c.heap.mem ptr) :
    ReallocServed abi c bs ptr old size := by
  have h4 := abi.four_le
  obtain ⟨b, -, -, -, hfit, -⟩ := h.block hq
  have hptr : ptr ≠ 0 := by
    dsimp only at hfit
    omega
  refine ⟨c.heap, ptr, bs, ?_, ⟨?_, ?_, ?_, ?_⟩, ?_, Relation.ReflTransGen.refl⟩
  · rw [krealloc, if_neg hptr, if_neg hsize]
    exact if_pos hle
  · exact fun _ => hroom
  · exact fun _ i _ => rfl
  · exact fun q _ _ i _ => rfl
  · exact fun hnull => absurd hnull hptr
  · rw [client.reallocate, if_pos hptr]
    exact h.resize hq hroom

/-- An allocation that is moved, or cannot be. -/
theorem Inv.realloc_move (h : Inv abi c bs) (hq : (ptr, old) ∈ c.live)
    (hlt : block_size abi c.heap.mem ptr < size) (hok : kmalloc_ok abi c.heap size)
    (htouch : MergesTouch abi bs (owner abi c.heap.mem ptr)) :
    ReallocServed abi c bs ptr old size := by
  have h4 := abi.four_le
  obtain ⟨b, hb, hused, howner, hbsize, -, hfit, hfit'⟩ := h.block_header hq
  dsimp only at howner hfit hfit'
  have hptr : ptr ≠ 0 := by omega
  have hsize : size ≠ 0 := by omega
  have hres : krealloc abi c.heap ptr size = (kmalloc abi c.heap size).map fun r =>
      if r.2 ≠ 0 then
        (kfree abi { r.1 with mem := kmemcpy r.1.mem r.2 ptr (block_size abi c.heap.mem ptr) } ptr,
          r.2)
      else r := by
    rw [krealloc, if_neg hptr, if_neg hsize]
    exact if_neg (Nat.not_le.mpr hlt)
  have hgrant := granted_kmalloc h hok
  rw [hbsize] at hres hlt
  generalize kmalloc abi c.heap size = res at hres hgrant
  cases hgrant with
  | null =>
      refine ⟨c.heap, 0, bs, hres, ⟨?_, ?_, ?_, ?_⟩, ?_, Relation.ReflTransGen.refl⟩
      · exact fun hne => absurd rfl hne
      · exact fun hne => absurd rfl hne
      · exact fun q _ _ i _ => rfl
      · exact fun _ _ => rfl
      · rw [client.reallocate, if_neg (by simp), if_neg hsize]
        exact h
  | block pre x post s ptr' hbs hfree hreq hptr' hinv hkeep =>
      rw [Option.map_some, if_pos hptr'.ne'] at hres
      set n := b.size
      set m := kmemcpy s.mem ptr' ptr n
      -- the copy stays inside the new payload
      have hcopy : ∀ i, (i < ptr' ∨ ptr' + size ≤ i) → m i = s.mem i :=
        fun i hi => kmemcpy_frame _ _ _ _ _ (by omega)
      have hinv2 := hinv.rewrite (q := (ptr', size)) List.mem_cons_self hcopy
      dsimp only at hinv2
      have hq2 : (ptr, old) ∈ (ptr', size) :: c.live := List.mem_cons_of_mem _ hq
      have hne : ptr' ≠ ptr := by
        rintro rfl
        have hnodup := hinv.owners_nodup
        rw [List.map_cons, List.nodup_cons] at hnodup
        exact hnodup.1 (List.mem_map.mpr ⟨(ptr', old), hq, rfl⟩)
      have hoff {q : ℕ × ℕ} (hq' : q ∈ c.live) {i : ℕ} (hi1 : q.1 ≤ i + abi.sizeof_ptr)
          (hi2 : i < q.1 + q.2) : i < ptr' ∨ ptr' + size ≤ i := by
        refine hinv.off_payload (q := (ptr', size)) List.mem_cons_self
          (List.mem_cons_of_mem _ hq') hi1 hi2 (Or.inr ?_)
        rintro rfl
        have hnodup := hinv.owners_nodup
        rw [List.map_cons, List.nodup_cons] at hnodup
        exact hnodup.1 (List.mem_map.mpr ⟨(ptr', size), hq', rfl⟩)
      -- the old block is none of those that were carved, and keeps its neighbours
      have hxb : x ≠ b := by
        rintro rfl
        rw [hfree] at hused
        exact Bool.noConfusion hused
      have howner2 : owner abi m ptr = b.addr := by
        rw [← howner]
        refine h.owner_congr hq ?_
        intro i hi1 hi2
        rw [hcopy i (hoff hq hi2 (Nat.lt_add_right _ hi1)),
          hkeep _ hq i hi2 (Nat.lt_add_right _ hi1)]
      have htouch2 : MergesTouch abi (pre ++ (carve abi ((size + 7) / 8 * 8 + abi.sizeof_ptr) x
          ++ post)) (owner abi m ptr) := by
        rw [howner, hbs] at htouch
        rw [howner2]
        refine htouch.take hfree ?_
        have hplaced := h.placed
        rw [hbs] at hb hplaced
        have hapart := hplaced.off (by simp) hb hxb
        simp only [blk.stop] at hapart ⊢
        omega
      obtain ⟨d, hd, hdused, hdowner, -⟩ := hinv2.block hq2
      dsimp only at hdowner
      obtain ⟨pre', post', hsplit⟩ := List.append_of_mem hd
      rw [hsplit] at htouch2 hinv2
      obtain ⟨hnext, hprev⟩ := htouch2 pre' d post' rfl hdowner.symm
      have hgive := hinv2.give hdused hq2 hdowner hnext hprev
      have hkfree {q : ℕ × ℕ} (hq' : q ∈ (ptr', size) :: c.live) {i : ℕ}
          (hi1 : q.1 ≤ i + abi.sizeof_ptr) (hi2 : i < q.1 + q.2) :
          (kfree abi { s with mem := m } ptr).mem i = m i :=
        hinv2.give_keeps hq2 htouch2 hq' hi1 hi2
      have hlive : ((ptr', size) :: c.live).eraseP (fun q => decide (q.1 = ptr))
          = (ptr', size) :: c.live.eraseP (fun q => decide (q.1 = ptr)) :=
        List.eraseP_cons_of_neg (by simp [hne])
      dsimp only at hgive
      rw [hlive] at hgive
      refine ⟨_, _, _, hres, ⟨?_, ?_, ?_, ?_⟩, ?_,
        (Relation.ReflTransGen.single (Change.take pre x post _ hbs hfree hreq)).tail
          (Change.give pre' d post' hsplit hdused hnext hprev)⟩
      · intro _
        obtain ⟨e, -, -, -, -, hend, -, hroom⟩ :=
          hgive.block_header (q := (ptr', size)) List.mem_cons_self
        dsimp only at hend hroom
        rw [hend]
        exact hroom
      · intro _ i hi
        rw [hkfree (q := (ptr', size)) List.mem_cons_self (by dsimp only; omega)
          (by dsimp only; omega)]
        have hsrc := hoff hq (i := ptr + i) (by dsimp only; omega) (by dsimp only; omega)
        rw [blk.stop] at hfit'
        have hcopied : m (ptr' + i) = s.mem (ptr + i) :=
          kmemcpy_copied _ _ _ _ _ (by omega) (by omega)
        exact hcopied.trans (hkeep _ hq _ (by dsimp only; omega) (by dsimp only; omega))
      · intro q hq' hqne i hi
        rw [hkfree (List.mem_cons_of_mem _ hq') (by omega) (by omega),
          hcopy _ (hoff hq' (by omega) (by omega)), hkeep q hq' _ (by omega) (by omega)]
      · exact fun hnull => absurd hnull hptr'.ne'
      · rw [client.reallocate, if_pos hptr'.ne']
        exact hgive

/-- **One reallocation.** -/
theorem Inv.realloc (h : Inv abi c bs) (hq : (ptr, old) ∈ c.live)
    (htouch : GivesBack abi c.heap.mem ptr size → MergesTouch abi bs (owner abi c.heap.mem ptr))
    (hok : block_size abi c.heap.mem ptr < size → kmalloc_ok abi c.heap size)
    (hroom : RoomInPlace abi c.heap.mem ptr size) : ReallocServed abi c bs ptr old size := by
  by_cases hsize : size = 0
  · subst hsize
    exact h.realloc_free hq (htouch (Or.inl rfl))
  by_cases hle : size ≤ block_size abi c.heap.mem ptr
  · exact h.realloc_in_place hq hsize hle (hroom hle)
  · have hlt := Nat.not_le.mp hle
    exact h.realloc_move hq hlt (hok hlt) (htouch (Or.inr hlt))

/-- Where the pointer is returned as it is, the room behind it is all that matters. -/
theorem Inv.realloc_room (h : Inv abi c bs) (hq : (ptr, old) ∈ c.live) {s' : kheap} {ptr' : ℕ}
    (hres : krealloc abi c.heap ptr size = some (s', ptr'))
    (hre : Reallocated abi c ptr old size s' ptr') : RoomInPlace abi c.heap.mem ptr size := by
  have h4 := abi.four_le
  intro hle
  obtain ⟨b, -, -, -, -, hend, hfit, hfit'⟩ := h.block_header hq
  dsimp only at hend hfit hfit'
  by_cases hsize : size = 0
  · rw [hend]
    omega
  · have hsame : krealloc abi c.heap ptr size = some (c.heap, ptr) := by
      rw [krealloc, if_neg (by omega), if_neg hsize]
      exact if_pos hle
    rw [hres] at hsame
    obtain ⟨rfl, rfl⟩ := Prod.mk.inj (Option.some.inj hsame)
    exact hre.room (by omega)

end Spec

/-! ## Runs -/

/-- A request, or a call of `krealloc`. -/
inductive call where
  | request (r : request)
  | krealloc (ptr size : ℕ)

def serve_call (abi : Abi) (c : client) : call → Option client
  | .request r => serve abi c r
  | .krealloc ptr size => (krealloc abi c.heap ptr size).map (c.reallocate ptr size)

/-- What a call of `krealloc` must not run into: its own sums do not wrap where it
allocates, and where it frees, the blocks that are merged touch. -/
def MoveOk (abi : Abi) (c : client) (ptr size : ℕ) : Prop :=
  (GivesBack abi c.heap.mem ptr size → MergesInPlace abi c.heap.mem (owner abi c.heap.mem ptr))
    ∧ (block_size abi c.heap.mem ptr < size → kmalloc_ok abi c.heap size)

/-- What a run may ask: requests as on several regions, and `krealloc` of `NULL` or of a live
pointer, where it keeps to its room. -/
def call_ok (abi : Abi) (c : client) : call → Prop
  | .request r => multi_ok abi c r
  | .krealloc ptr size => size < abi.size_mod
    ∧ (ptr = 0 ∧ kmalloc_ok abi c.heap size
      ∨ (∃ old, (ptr, old) ∈ c.live) ∧ MoveOk abi c ptr size
        ∧ RoomInPlace abi c.heap.mem ptr size)

def ReallocRun (abi : Abi) (s : kheap) (heap_start heap_size : ℕ) (c : client) : Prop :=
  Relation.ReflTransGen (fun c c' => ∃ r, call_ok abi c r ∧ serve_call abi c r = some c')
    (init_client abi s heap_start heap_size) c

theorem Covered.changes {regions : List (ℕ × ℕ)} {bs bs' : List blk}
    (h : Covered abi regions bs) (hc : Relation.ReflTransGen (Change abi) bs bs') :
    Covered abi regions bs' := by
  induction hc with
  | refl => exact h
  | tail _ hstep ih => exact ih.change hstep

/-- A client without a pointer at `NULL` takes what `krealloc(NULL, size)` returns as it takes
what `kmalloc(size)` returns. -/
theorem reallocate_null {c : client} {bs : List blk} (h : Inv abi c bs) (size : ℕ)
    (r : kheap × ℕ) : c.reallocate 0 size r = c.receive size r := by
  have h4 := abi.four_le
  have herase : c.live.eraseP (fun q => decide (q.1 = 0)) = c.live := by
    refine List.eraseP_of_forall_not ?_
    intro q hq
    obtain ⟨b, -, -, -, hfit, -⟩ := h.block hq
    rw [decide_eq_true_eq]
    omega
  rw [client.reallocate, client.receive, herase, ite_self]
  by_cases hr : r.2 = 0
  · rw [if_neg (not_not.mpr hr), if_pos hr]
  · rw [if_pos hr, if_neg hr]

theorem MultiInv.call_step {c : client} {bs : List blk} {r : call} (h : MultiInv abi c bs)
    (hok : call_ok abi c r) : ∃ c' bs', serve_call abi c r = some c' ∧ MultiInv abi c' bs' := by
  cases r with
  | request r => exact multi_step h hok
  | krealloc ptr size =>
      obtain ⟨hword, ⟨rfl, hwrap⟩ | ⟨⟨old, hq⟩, ⟨hmerge, hwrap⟩, hroom⟩⟩ := hok
      · obtain ⟨r, bs', hres, hinv, hchange⟩ := serve_kmalloc h.inv hwrap
        refine ⟨_, bs', ?_, hinv, h.covered.change hchange⟩
        rw [serve_call, krealloc, if_pos rfl, hres, Option.map_some, reallocate_null h.inv]
      · obtain ⟨s', ptr', bs', hres, -, hinv, hchange⟩ := h.inv.realloc hq
          (fun hgive => (hmerge hgive).merges_touch h.inv.represents h.inv.placed) hwrap hroom
        exact ⟨_, bs', by rw [serve_call, hres, Option.map_some], hinv,
          h.covered.changes hchange⟩

theorem realloc_run {s : kheap} {heap_start heap_size : ℕ} {c : client}
    (h : Region abi heap_start heap_size) (h8 : 8 ∣ heap_size)
    (hrun : ReallocRun abi s heap_start heap_size c) : ∃ bs, MultiInv abi c bs := by
  induction hrun with
  | refl => exact ⟨_, multi_init h h8⟩
  | tail _ hstep ih =>
      obtain ⟨bs, hbs⟩ := ih
      obtain ⟨r, hok, hserve⟩ := hstep
      obtain ⟨c', bs', hserve', hbs'⟩ := hbs.call_step hok
      rw [hserve] at hserve'
      obtain rfl := Option.some.inj hserve'
      exact ⟨bs', hbs'⟩

/-- **Reallocation.** In every state of every run, `krealloc` of a live pointer returns, and
it reallocates exactly where it does not return a pointer with too little room. -/
theorem realloc_run_iff {s : kheap} {heap_start heap_size : ℕ} {c : client}
    (h : Region abi heap_start heap_size) (h8 : 8 ∣ heap_size)
    (hrun : ReallocRun abi s heap_start heap_size c) {ptr old size : ℕ}
    (hq : (ptr, old) ∈ c.live) (hok : MoveOk abi c ptr size) :
    (∃ s' ptr', krealloc abi c.heap ptr size = some (s', ptr')
      ∧ Reallocated abi c ptr old size s' ptr') ↔ RoomInPlace abi c.heap.mem ptr size := by
  obtain ⟨bs, hbs⟩ := realloc_run h h8 hrun
  refine ⟨?_, ?_⟩
  · rintro ⟨s', ptr', hres, hre⟩
    exact hbs.inv.realloc_room hq hres hre
  · intro hroom
    obtain ⟨s', ptr', -, hres, hre, -⟩ := hbs.inv.realloc hq
      (fun hgive => (hok.1 hgive).merges_touch hbs.inv.represents hbs.inv.placed) hok.2 hroom
    exact ⟨s', ptr', hres, hre⟩

/-- The first allocation of a page: 24 bytes in a block of 32. -/
theorem page_24 : ∃ c, ReallocRun .x86_64 empty_heap 4096 4096 c ∧ c.live = [(4136, 24)]
    ∧ owner .x86_64 c.heap.mem 4136 = 4096 ∧ get .x86_64 c.heap.mem 4096 .size = 32
    ∧ get .x86_64 c.heap.mem 4096 .next = 4160 ∧ get .x86_64 c.heap.mem 4096 .prev = 0 := by
  have hok : multi_ok .x86_64 (init_client .x86_64 empty_heap 4096 4096) (.kmalloc 24) :=
    ⟨(by decide : 24 < Abi.x86_64.size_mod), Or.inl (by decide), trivial⟩
  have hvals : (serve .x86_64 (init_client .x86_64 empty_heap 4096 4096) (.kmalloc 24)).map
      (fun c => (c.live, owner .x86_64 c.heap.mem 4136, get .x86_64 c.heap.mem 4096 .size,
        get .x86_64 c.heap.mem 4096 .next, get .x86_64 c.heap.mem 4096 .prev))
      = some ([(4136, 24)], 4096, 32, 4160, 0) := by
    decide
  obtain ⟨c, hserve, hc⟩ := Option.map_eq_some_iff.mp hvals
  simp only [Prod.mk.injEq] at hc
  exact ⟨c, Relation.ReflTransGen.single ⟨.request (.kmalloc 24), hok, hserve⟩, hc⟩

/-- These 24 bytes grow to 100 and move. -/
theorem realloc_run_page : ∃ c, c.live = [(4136, 24)]
    ∧ ((∃ s' ptr', krealloc .x86_64 c.heap 4136 100 = some (s', ptr')
      ∧ Reallocated .x86_64 c 4136 24 100 s' ptr') ↔ RoomInPlace .x86_64 c.heap.mem 4136 100) := by
  obtain ⟨c, hrun, hlive, howner, hsize, hnext, hprev⟩ := page_24
  refine ⟨c, hlive, realloc_run_iff example_region (by decide) hrun
    (show (4136, 24) ∈ c.live by rw [hlive]; exact List.mem_cons_self)
    ⟨?_, fun _ => Or.inl (by decide)⟩⟩
  intro _
  rw [howner]
  refine ⟨fun _ _ => ?_, fun hne => absurd hprev hne⟩
  rw [hsize, hnext]
  decide

/-- They do not move to grow to 32, since the block has 32 bytes; but 8 of these are its back
pointer's. -/
theorem grown_without_room :
    ¬∀ c, ReallocRun .x86_64 empty_heap 4096 4096 c → ∀ ptr old size, (ptr, old) ∈ c.live →
      size < Abi.size_mod .x86_64 → ∃ s' ptr', krealloc .x86_64 c.heap ptr size = some (s', ptr')
        ∧ Reallocated .x86_64 c ptr old size s' ptr' := by
  intro hall
  obtain ⟨c, hrun, hlive, howner, hsize, -⟩ := page_24
  have hq : (4136, 24) ∈ c.live := by
    rw [hlive]
    exact List.mem_cons_self
  obtain ⟨s', ptr', hres, hre⟩ := hall c hrun 4136 24 32 hq (by decide)
  have hblock : block_size .x86_64 c.heap.mem 4136 = 32 := by rw [block_size, howner, hsize]
  have hsame : krealloc .x86_64 c.heap 4136 32 = some (c.heap, 4136) := by
    rw [krealloc, if_neg (by decide), if_neg (by decide)]
    exact if_pos hblock.ge
  rw [hres] at hsame
  obtain ⟨rfl, rfl⟩ := Prod.mk.inj (Option.some.inj hsame)
  have hroom := hre.room (by decide)
  rw [owner_end, howner, hsize] at hroom
  exact absurd hroom (by decide)

end SysInC.Kmem
