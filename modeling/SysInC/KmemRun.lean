/-
Runs of the kernel heap and its client.

The heap alone has no runs worth speaking of: what may be freed, and what memory may be
written behind its back, depends on who holds which pointer. A `client` is the heap
together with the pointers it has handed out and not taken back, and `serve` lets it make
one request. `Inv` ties the two: the pointers that are out and the blocks in use are the
same things, one for one. `serve_spec` is the step lemma: an admissible request is
served, `Inv` holds again, and the block list changed in one of four ways (`Change`).
What holds of all runs is then a matter of those four.
-/
import SysInC.KmemAlloc
import SysInC.KmemFree
import Mathlib.Data.List.Perm.Basic
import Mathlib.Logic.Relation

set_option autoImplicit false

namespace SysInC.Kmem

open SysInC.ByteMem

variable {abi : Abi}

/-! ## The heap's client -/

/-- A call of the heap's interface, or a store of the client's own. -/
inductive request where
  | kmalloc (size : ℕ)
  | kzalloc (size : ℕ)
  | kmalloc_aligned (size alignment : ℕ)
  | kfree (ptr : ℕ)
  | write (addr : ℕ) (value : UInt8)
  | kmem_add_region (heap_start heap_size : ℕ)

/-- The heap, the pointers out with the sizes they were requested with, and the regions
given to the heap. -/
structure client where
  heap : kheap
  live : List (ℕ × ℕ)
  regions : List (ℕ × ℕ)

/-- What the client does with the result of an allocation. -/
def client.receive (c : client) (size : ℕ) (r : kheap × ℕ) : client :=
  { c with heap := r.1, live := if r.2 = 0 then c.live else (r.2, size) :: c.live }

/-- One request. `none` is a call that does not return. -/
def serve (abi : Abi) (c : client) : request → Option client
  | .kmalloc size => (kmalloc abi c.heap size).map (c.receive size)
  | .kzalloc size => (kzalloc abi c.heap size).map (c.receive size)
  | .kmalloc_aligned size alignment =>
    (kmalloc_aligned abi c.heap size alignment).map (c.receive size)
  | .kfree ptr =>
    some { c with heap := kfree abi c.heap ptr, live := c.live.eraseP (fun q => q.1 = ptr) }
  | .write addr value =>
    some { c with heap := { c.heap with mem := Function.update c.heap.mem addr value } }
  | .kmem_add_region heap_start heap_size =>
    (kmem_add_region abi c.heap heap_start heap_size).map fun (r : kheap × ℤ) =>
      { c with
        heap := r.1
        regions := if r.2 = 0 then (heap_start, heap_size) :: c.regions else c.regions }

/-- The ranges of two pairs (address, length) do not meet. -/
def RangesApart (q r : ℕ × ℕ) : Prop := q.1 + q.2 ≤ r.1 ∨ r.1 + r.2 ≤ q.1

/-- What a client may ask: arguments are words, only live pointers are freed and only
live payloads written, and a new region is in the address space and off the others. -/
def Legal (abi : Abi) (c : client) : request → Prop
  | .kmalloc size => size < abi.size_mod
  | .kzalloc size => size < abi.size_mod
  | .kmalloc_aligned size alignment => size < abi.size_mod ∧ alignment < abi.size_mod
  | .kfree ptr => ∃ size, (ptr, size) ∈ c.live
  | .write addr _ => ∃ q ∈ c.live, q.1 ≤ addr ∧ addr < q.1 + q.2
  | .kmem_add_region heap_start heap_size => heap_start + heap_size ≤ abi.size_mod
    ∧ ∀ r ∈ c.regions, RangesApart (heap_start, heap_size) r

/-- The size that `kmalloc_aligned` asks `kmalloc` for, before it wraps. -/
def aligned_sum (abi : Abi) (size alignment : ℕ) : ℕ :=
  (size + 7) / 8 * 8 + alignment + 5 * abi.sizeof_ptr

/-- The sums of `kmalloc_aligned(size, alignment)` do not wrap, or it gets no block. -/
def aligned_ok (abi : Abi) (s : kheap) (size alignment : ℕ) : Prop :=
  (alignment &&& (alignment - 1) ≠ 0)
    ∨ (aligned_sum abi size alignment < abi.size_mod
      ∧ kmalloc_ok abi s (aligned_sum abi size alignment))
    ∨ NothingFits abi s (required_space abi (aligned_space abi size alignment))

/-- The sizes of a request stay within a word. -/
def NoWrap (abi : Abi) (c : client) : request → Prop
  | .kmalloc size => kmalloc_ok abi c.heap size
  | .kzalloc size => kmalloc_ok abi c.heap size
  | .kmalloc_aligned size alignment => aligned_ok abi c.heap size alignment
  | _ => True

/-- One step of a run whose requests all satisfy `ok`. -/
def Step (abi : Abi) (ok : client → request → Prop) (c c' : client) : Prop :=
  ∃ r, ok c r ∧ serve abi c r = some c'

/-! ## Owners -/

/-- The block that a pointer names. -/
def owner (abi : Abi) (m : Mem) (ptr : ℕ) : ℕ := load m (back_slot abi ptr) abi.sizeof_ptr

def used (bs : List blk) : List blk := bs.filter fun b => !b.free

/-- The pointers `live` and the blocks `us` are the same things: each pointer names one
block, no two the same one, and its payload lies in that block behind the back pointer. -/
structure Owns (abi : Abi) (m : Mem) (live : List (ℕ × ℕ)) (us : List blk) : Prop where
  owners : (live.map fun q => owner abi m q.1).Perm (us.map blk.addr)
  fits : ∀ q ∈ live, ∃ b ∈ us, owner abi m q.1 = b.addr
    ∧ b.addr + 5 * abi.sizeof_ptr ≤ q.1 ∧ q.1 + q.2 ≤ b.stop abi

/-- The invariant of every admissible run. -/
structure Inv (abi : Abi) (c : client) (bs : List blk) : Prop where
  represents : Represents abi c.heap bs
  placed : Placed abi bs
  owns : Owns abi c.heap.mem c.live (used bs)

@[simp] theorem used_append (xs ys : List blk) : used (xs ++ ys) = used xs ++ used ys :=
  List.filter_append _ _

theorem used_cons_free {b : blk} (h : b.free = true) (bs : List blk) :
    used (b :: bs) = used bs := by
  simp [used, h]

theorem used_cons_used {b : blk} (h : b.free = false) (bs : List blk) :
    used (b :: bs) = b :: used bs := by
  simp [used, h]

theorem mem_used {b : blk} {bs : List blk} : b ∈ used bs ↔ b ∈ bs ∧ b.free = false := by
  simp [used]

theorem Placed.used_nodup {bs : List blk} (h : Placed abi bs) :
    ((used bs).map blk.addr).Nodup :=
  h.addr_nodup.sublist (List.filter_sublist.map _)

theorem back_slot_eq {ptr : ℕ} (h1 : abi.sizeof_ptr ≤ ptr) (h2 : ptr ≤ abi.size_mod) :
    back_slot abi ptr = ptr - abi.sizeof_ptr := by
  have h4 := abi.four_le
  rw [back_slot, show ptr + abi.size_mod - abi.sizeof_ptr
    = ptr - abi.sizeof_ptr + abi.size_mod by omega, Nat.add_mod_right, Nat.mod_eq_of_lt (by omega)]

/-- The payload that `kmalloc` returns keeps its back pointer right behind the header. -/
theorem owner_payload {m : Mem} {b : ℕ} (h : b + 5 * abi.sizeof_ptr ≤ abi.size_mod) :
    owner abi m (b + 5 * abi.sizeof_ptr) = load m (b + 4 * abi.sizeof_ptr) abi.sizeof_ptr := by
  rw [owner, back_slot_eq (by omega) h]
  congr 1
  omega

/-- A block of a represented heap keeps its header when only payload bytes change. -/
theorem Represents.payload {s : kheap} {bs : List blk} {b : blk} {m : Mem}
    (hr : Represents abi s bs) (hp : Placed abi bs) (hb : b ∈ bs)
    (hm : ∀ i, (i < b.addr + 4 * abi.sizeof_ptr ∨ b.stop abi ≤ i) → m i = s.mem i) :
    Represents abi { s with mem := m } bs := by
  refine ⟨hr.1, hr.2.congr ?_⟩
  intro c hc i h1 h2
  refine hm i ?_
  by_cases hcb : c = b
  · rw [hcb] at h1 h2
    omega
  · have hoff := hp.off hc hb hcb
    simp only [blk.stop] at hoff ⊢
    omega

namespace Inv

variable {c : client} {bs : List blk}

/-- Where the block of a live pointer is. -/
theorem block (h : Inv abi c bs) {q : ℕ × ℕ} (hq : q ∈ c.live) :
    ∃ b ∈ bs, b.free = false ∧ owner abi c.heap.mem q.1 = b.addr
      ∧ b.addr + 5 * abi.sizeof_ptr ≤ q.1 ∧ q.1 + q.2 ≤ b.stop abi ∧ b.stop abi ≤ abi.size_mod := by
  obtain ⟨b, hb, howner, h1, h2⟩ := h.owns.fits q hq
  obtain ⟨hmem, hused⟩ := mem_used.mp hb
  exact ⟨b, hmem, hused, howner, h1, h2, (h.placed.bounds b hmem).2⟩

theorem owners_nodup (h : Inv abi c bs) :
    (c.live.map fun q => owner abi c.heap.mem q.1).Nodup := by
  exact h.owns.owners.nodup_iff.mpr h.placed.used_nodup

/-- The block of a pointer stays where it is as long as the back pointer does. -/
theorem owner_congr (h : Inv abi c bs) {m : Mem} {q : ℕ × ℕ} (hq : q ∈ c.live)
    (hm : ∀ i, i < q.1 → q.1 ≤ i + abi.sizeof_ptr → m i = c.heap.mem i) :
    owner abi m q.1 = owner abi c.heap.mem q.1 := by
  obtain ⟨b, -, -, -, h1, h2, h3⟩ := h.block hq
  rw [owner, owner, back_slot_eq (by omega) (by omega)]
  refine load_congr _ _ _ _ ?_
  intro i hi1 hi2
  exact hm i (by omega) (by omega)

/-- The pointers keep their blocks when no back pointer of theirs is written. -/
theorem owns_congr (h : Inv abi c bs) {m : Mem}
    (hm : ∀ q ∈ c.live, ∀ i, i < q.1 → q.1 ≤ i + abi.sizeof_ptr → m i = c.heap.mem i) :
    Owns abi m c.live (used bs) := by
  have hown : ∀ q ∈ c.live, owner abi m q.1 = owner abi c.heap.mem q.1 :=
    fun q hq => h.owner_congr hq (hm q hq)
  refine ⟨?_, ?_⟩
  · rw [List.map_congr_left hown]
    exact h.owns.owners
  · intro q hq
    rw [hown q hq]
    exact h.owns.fits q hq

/-- The payloads of live pointers do not meet. -/
theorem live_apart (h : Inv abi c bs) : c.live.Pairwise RangesApart := by
  have hnodup := h.owners_nodup
  rw [List.Nodup, List.pairwise_map] at hnodup
  refine hnodup.imp_of_mem ?_
  intro q r hq hr hne
  obtain ⟨b, hb, -, hbo, hb1, hb2, -⟩ := h.block hq
  obtain ⟨d, hd, -, hdo, hd1, hd2, -⟩ := h.block hr
  have hbd : b ≠ d := by
    rintro rfl
    exact hne (hbo.trans hdo.symm)
  have hoff := h.placed.off hb hd hbd
  simp only [blk.stop] at hoff hb2 hd2
  rw [RangesApart]
  omega

end Inv

/-! ## What one request can do -/

/-- The ways the block list changes. -/
inductive Change (abi : Abi) (bs : List blk) : List blk → Prop where
  | same : Change abi bs bs
  | take (pre : List blk) (b : blk) (post : List blk) (req : ℕ) (hbs : bs = pre ++ b :: post)
      (hfree : b.free = true) (hreq : req ≤ b.size) :
      Change abi bs (pre ++ (carve abi req b ++ post))
  | give (pre : List blk) (b : blk) (post : List blk) (hbs : bs = pre ++ b :: post)
      (hused : b.free = false)
      (hnext : ∀ c ∈ post.head?, c.free = true → b.stop abi = c.addr)
      (hprev : ∀ a ∈ pre.getLast?, a.free = true → a.stop abi = b.addr) :
      Change abi bs (release abi pre b post)

/-- The pointers that are out when a block is taken keep their back pointers and payloads:
their blocks lie off it. -/
theorem Inv.keeps {c : client} {pre post : List blk} {b : blk} {s' : kheap} {m : Mem}
    {req : ℕ} (h : Inv abi c (pre ++ b :: post)) (hfree : b.free = true)
    (hreq : req ≤ b.size) (ht : Taken abi c.heap s' pre b post req)
    (hm : ∀ i, (i < b.addr + 4 * abi.sizeof_ptr ∨ b.addr + 4 * abi.sizeof_ptr + req ≤ i) →
      m i = s'.mem i) {q : ℕ × ℕ} (hq : q ∈ c.live) {i : ℕ} (hi1 : q.1 ≤ i + abi.sizeof_ptr)
    (hi2 : i < q.1 + q.2) : m i = c.heap.mem i := by
  obtain ⟨d, hd, hdused, -, hd1, hd2, -⟩ := h.block hq
  have hdb : d ≠ b := by
    rintro rfl
    rw [hfree] at hdused
    exact Bool.noConfusion hdused
  have hoff := h.placed.off hd (by simp) hdb
  have hposts : ∀ e ∈ post, i < e.addr ∨ e.addr + 4 * abi.sizeof_ptr ≤ i := by
    intro e he
    by_cases hde : d = e
    · rw [← hde]
      omega
    · have hoffe := h.placed.off hd (by simp [he]) hde
      simp only [blk.stop] at hoffe hd2
      omega
  simp only [blk.stop] at hoff hd2
  rw [hm i (by omega)]
  refine ht.frame i ?_ hposts
  rw [blk.stop]
  omega

/-- A taken block is handed out: the pointer names it, and whatever was written on the way
(a second back pointer, zeroes) was written into its payload. -/
theorem Inv.take {c : client} {pre post : List blk} {b : blk} {s' : kheap} {m : Mem}
    {req size ptr : ℕ} (h : Inv abi c (pre ++ b :: post)) (hfree : b.free = true)
    (hreq : req ≤ b.size) (ht : Taken abi c.heap s' pre b post req)
    (hm : ∀ i, (i < b.addr + 4 * abi.sizeof_ptr ∨ b.addr + 4 * abi.sizeof_ptr + req ≤ i) →
      m i = s'.mem i)
    (howner : owner abi m ptr = b.addr) (h1 : b.addr + 5 * abi.sizeof_ptr ≤ ptr)
    (h2 : ptr + size ≤ b.addr + 4 * abi.sizeof_ptr + req) :
    Inv abi { c with heap := { s' with mem := m }, live := (ptr, size) :: c.live }
      (pre ++ (carve abi req b ++ post)) := by
  obtain ⟨size', rest, hcarve, hsize, hstop, hrest⟩ := carve_eq_cons abi req b hreq
  have hpc := h.placed.carve req
  have hkeep : ∀ q ∈ c.live, ∀ i, i < q.1 → q.1 ≤ i + abi.sizeof_ptr → m i = c.heap.mem i :=
    fun q hq i hi1 hi2 => h.keeps hfree hreq ht hm hq hi2 (Nat.lt_add_right _ hi1)
  have howns := h.owns_congr hkeep
  have hused : used (pre ++ (carve abi req b ++ post))
      = used pre ++ ⟨b.addr, size', false⟩ :: used post := by
    have hrest' : used rest = [] := by
      rw [used, List.filter_eq_nil_iff]
      intro x hx
      simp [hrest x hx]
    rw [used_append, used_append, hcarve, used_cons_used rfl, hrest', List.singleton_append]
  have hused0 : used (pre ++ b :: post) = used pre ++ used post := by
    rw [used_append, used_cons_free hfree]
  rw [hused0] at howns
  refine ⟨?_, hpc, ?_, ?_⟩
  · refine ht.represents.payload (b := ⟨b.addr, size', false⟩) hpc (by simp [hcarve]) ?_
    intro i hi
    simp only [blk.stop] at hi
    exact hm i (by omega)
  · rw [hused, List.map_cons, howner, List.map_append, List.map_cons]
    refine (List.Perm.cons _ ?_).trans List.perm_middle.symm
    rw [← List.map_append]
    exact howns.owners
  · rw [hused]
    refine List.forall_mem_cons.mpr ⟨⟨⟨b.addr, size', false⟩, by simp, howner, h1, ?_⟩, ?_⟩
    · simp only [blk.stop]
      omega
    · intro q hq
      obtain ⟨d, hd, hdo⟩ := howns.fits q hq
      refine ⟨d, ?_, hdo⟩
      simp only [List.mem_append, List.mem_cons] at hd ⊢
      exact hd.imp id Or.inr

/-- What serving an allocation comes to. -/
def Served (abi : Abi) (c : client) (bs : List blk) (size : ℕ) (res : Option (kheap × ℕ)) : Prop :=
  ∃ r bs', res = some r ∧ Inv abi (c.receive size r) bs' ∧ Change abi bs bs'

theorem receive_of_pos {c : client} {size ptr : ℕ} {s : kheap} (h : 0 < ptr) :
    c.receive size (s, ptr) = { c with heap := s, live := (ptr, size) :: c.live } := by
  rw [client.receive, if_neg (by omega)]

/-- What an allocation comes to that asks for `req` bytes of a block: `NULL` and the heap as
it was, or a pointer into the block that was carved, and the bytes of the other pointers as
they were. -/
inductive Granted (abi : Abi) (c : client) (bs : List blk) (req size : ℕ) :
    Option (kheap × ℕ) → Prop where
  | null : Granted abi c bs req size (some (c.heap, 0))
  | block (pre : List blk) (b : blk) (post : List blk) (s : kheap) (ptr : ℕ)
      (hbs : bs = pre ++ b :: post) (hfree : b.free = true) (hreq : req ≤ b.size)
      (hptr : 0 < ptr)
      (hinv : Inv abi { c with heap := s, live := (ptr, size) :: c.live }
        (pre ++ (carve abi req b ++ post)))
      (hkeep : ∀ q ∈ c.live, ∀ i, q.1 ≤ i + abi.sizeof_ptr → i < q.1 + q.2 →
        s.mem i = c.heap.mem i) :
      Granted abi c bs req size (some (s, ptr))

theorem Granted.served {c : client} {bs : List blk} {req size : ℕ} {res : Option (kheap × ℕ)}
    (h : Inv abi c bs) (hg : Granted abi c bs req size res) : Served abi c bs size res := by
  cases hg with
  | null => exact ⟨_, bs, rfl, ⟨h.represents, h.placed, h.owns⟩, Change.same⟩
  | block pre b post s ptr hbs hfree hreq hptr hinv hkeep =>
      refine ⟨_, _, rfl, ?_, Change.take pre b post req hbs hfree hreq⟩
      rw [receive_of_pos hptr]
      exact hinv

theorem granted_kmalloc {c : client} {bs : List blk} {size : ℕ} (h : Inv abi c bs)
    (hok : kmalloc_ok abi c.heap size) :
    Granted abi c bs ((size + 7) / 8 * 8 + abi.sizeof_ptr) size (kmalloc abi c.heap size) := by
  have h4 := abi.four_le
  rcases kmalloc_spec h.represents h.placed hok with
    hnull | ⟨pre, b, post, s', rfl, hfree, hreq, hres, htaken⟩
  · rw [hnull]
    exact Granted.null
  · have hbound := (h.placed.bounds b (by simp)).2
    rw [blk.stop] at hbound
    rw [hres]
    refine Granted.block pre b post _ _ rfl hfree hreq (by omega) ?_ ?_
    · refine h.take (m := s'.mem) hfree hreq htaken (fun i _ => rfl) ?_ le_rfl (by omega)
      exact (owner_payload (by omega)).trans htaken.back
    · intro q hq i hi1 hi2
      exact h.keeps hfree hreq htaken (fun i _ => rfl) hq hi1 hi2

theorem serve_kmalloc {c : client} {bs : List blk} {size : ℕ} (h : Inv abi c bs)
    (hok : kmalloc_ok abi c.heap size) : Served abi c bs size (kmalloc abi c.heap size) :=
  (granted_kmalloc h hok).served h

/-! ### Zeroing -/

theorem rep_stosl_frame (m : Mem) (p val32 dwords i : ℕ) (hi : i < p ∨ p + 4 * dwords ≤ i) :
    rep_stosl m p val32 dwords i = m i := by
  induction dwords generalizing m p with
  | zero => rfl
  | succ dwords ih => rw [rep_stosl, ih _ _ (by omega), store_of_not_mem _ _ _ _ _ (by omega)]

theorem set_bytes_frame (m : Mem) (p : ℕ) (byte_val : UInt8) (n i : ℕ) (hi : i < p ∨ p + n ≤ i) :
    set_bytes m p byte_val n i = m i := by
  induction n generalizing m p with
  | zero => rfl
  | succ n ih => rw [set_bytes, ih _ _ (by omega), Function.update_of_ne (by omega)]

/-- `kmemset` writes its range only: the dwords and the odd bytes behind them. -/
theorem kmemset_frame (m : Mem) (s : ℕ) (c : UInt8) (n i : ℕ) (hi : i < s ∨ s + n ≤ i) :
    kmemset m s c n i = m i := by
  unfold kmemset
  split_ifs with hn
  · rw [set_bytes_frame _ _ _ _ _ (by omega), rep_stosl_frame _ _ _ _ _ (by omega)]
  · exact set_bytes_frame _ _ _ _ _ hi

theorem granted_kzalloc {c : client} {bs : List blk} {size : ℕ} (h : Inv abi c bs)
    (hok : kmalloc_ok abi c.heap size) :
    Granted abi c bs ((size + 7) / 8 * 8 + abi.sizeof_ptr) size (kzalloc abi c.heap size) := by
  have h4 := abi.four_le
  rcases kmalloc_spec h.represents h.placed hok with
    hnull | ⟨pre, b, post, s', rfl, hfree, hreq, hres, htaken⟩
  · rw [kzalloc, hnull]
    exact Granted.null
  · have hbound := (h.placed.bounds b (by simp)).2
    rw [blk.stop] at hbound
    have hpos : b.addr + 5 * abi.sizeof_ptr ≠ 0 := by omega
    rw [kzalloc, hres, Option.map_some, if_pos hpos]
    have hzero : ∀ i, (i < b.addr + 4 * abi.sizeof_ptr
        ∨ b.addr + 4 * abi.sizeof_ptr + ((size + 7) / 8 * 8 + abi.sizeof_ptr) ≤ i) →
        kmemset s'.mem (b.addr + 5 * abi.sizeof_ptr) 0 size i = s'.mem i := by
      intro i hi
      exact kmemset_frame _ _ _ _ _ (by omega)
    refine Granted.block pre b post _ _ rfl hfree hreq (by omega) ?_ ?_
    · refine h.take hfree hreq htaken hzero ?_ le_rfl (by omega)
      -- the back pointer lies in front of the zeroed bytes
      refine (owner_payload (by omega)).trans (Eq.trans ?_ htaken.back)
      refine load_congr _ _ _ _ ?_
      intro i hi1 hi2
      exact kmemset_frame _ _ _ _ _ (by omega)
    · intro q hq i hi1 hi2
      exact h.keeps hfree hreq htaken hzero hq hi1 hi2

theorem serve_kzalloc {c : client} {bs : List blk} {size : ℕ} (h : Inv abi c bs)
    (hok : kmalloc_ok abi c.heap size) : Served abi c bs size (kzalloc abi c.heap size) :=
  (granted_kzalloc h hok).served h

/-! ### Aligned allocation -/

/-- An address rounded up to a power of two that is a word. -/
theorem round_up_eq {k x : ℕ} (hk : 2 ^ k < abi.size_mod) (hx : x < abi.size_mod) :
    x &&& (abi.size_mod - 2 ^ k) = x / 2 ^ k * 2 ^ k := by
  obtain ⟨n, -, hmod⟩ := abi.size_mod_two_pow
  rw [hmod] at hk hx ⊢
  exact and_mask_eq n k x hx (Nat.pow_lt_pow_iff_right (by omega) |>.mp hk).le

theorem aligned_space_eq {size alignment : ℕ} (h : aligned_sum abi size alignment < abi.size_mod) :
    aligned_space abi size alignment = aligned_sum abi size alignment := by
  have h4 := abi.four_le
  rw [aligned_sum] at h
  rw [aligned_space, BLOCK_HEADER_SIZE_eq, ALIGN8_eq (by omega), aligned_sum,
    Nat.mod_eq_of_lt (by omega)]
  omega

/-- `kmalloc_aligned` behind its guards, when `kmalloc` gave it the block at `b`. -/
theorem kmalloc_aligned_eq {s s' : kheap} {b k size : ℕ} (hsize : size ≠ 0)
    (hk : 2 ^ k < abi.size_mod)
    (hres : kmalloc abi s (aligned_space abi size (2 ^ k)) = some (s', b + 5 * abi.sizeof_ptr))
    (hback : load s'.mem (b + 4 * abi.sizeof_ptr) abi.sizeof_ptr = b)
    (hbound : b + 6 * abi.sizeof_ptr + 2 ^ k ≤ abi.size_mod) :
    kmalloc_aligned abi s size (2 ^ k) =
      let ptr := (b + 6 * abi.sizeof_ptr + 2 ^ k - 1) / 2 ^ k * 2 ^ k
      some ({ s' with mem := store s'.mem (ptr - abi.sizeof_ptr) abi.sizeof_ptr b }, ptr) := by
  have h4 := abi.four_le
  have hpow := Nat.two_pow_pos k
  have hguard : ¬(size = 0 ∨ 2 ^ k = 0 ∨ (2 ^ k &&& (2 ^ k - 1)) ≠ 0) := by
    have hand := (Nat.and_sub_one_eq_zero_iff_isPowerOfTwo hpow.ne').mpr ⟨k, rfl⟩
    omega
  have hown := owner_payload (m := s'.mem) (b := b) (by omega : _ ≤ abi.size_mod)
  rw [owner, hback] at hown
  have hsum : b + 5 * abi.sizeof_ptr + abi.sizeof_ptr + 2 ^ k - 1
      = b + 6 * abi.sizeof_ptr + 2 ^ k - 1 := by
    omega
  have hle := Nat.div_mul_le_self (b + 6 * abi.sizeof_ptr + 2 ^ k - 1) (2 ^ k)
  have hge := Nat.lt_div_mul_add hpow (a := b + 6 * abi.sizeof_ptr + 2 ^ k - 1)
  rw [kmalloc_aligned, if_neg hguard, hres, Option.map_some, if_neg (by omega)]
  dsimp only
  rw [hown, hsum, Nat.mod_eq_of_lt (by omega), round_up_eq hk (by omega),
    back_slot_eq (by omega) (by omega)]

theorem granted_kmalloc_aligned {c : client} {bs : List blk} {size alignment : ℕ}
    (h : Inv abi c bs) (hal : alignment < abi.size_mod)
    (hok : aligned_ok abi c.heap size alignment) :
    Granted abi c bs ((aligned_sum abi size alignment + 7) / 8 * 8 + abi.sizeof_ptr) size
      (kmalloc_aligned abi c.heap size alignment) := by
  have h4 := abi.four_le
  by_cases hguard : size = 0 ∨ alignment = 0 ∨ (alignment &&& (alignment - 1)) ≠ 0
  · rw [kmalloc_aligned, if_pos hguard]
    exact Granted.null
  have hnull : kmalloc abi c.heap (aligned_space abi size alignment) = some (c.heap, 0) →
      Granted abi c bs ((aligned_sum abi size alignment + 7) / 8 * 8 + abi.sizeof_ptr) size
        (kmalloc_aligned abi c.heap size alignment) := by
    intro hres
    rw [kmalloc_aligned, if_neg hguard, hres]
    exact Granted.null
  rw [not_or, not_or, not_not] at hguard
  obtain ⟨hsize, hal0, hpow2⟩ := hguard
  rcases hok with hbad | ⟨hsum, hok⟩ | hnofit
  · exact absurd hpow2 hbad
  · obtain ⟨k, rfl⟩ := (Nat.and_sub_one_eq_zero_iff_isPowerOfTwo hal0).mp hpow2
    rw [← aligned_space_eq hsum] at hok
    rcases kmalloc_spec h.represents h.placed hok with
      hres | ⟨pre, b, post, s', rfl, hfree, hreq, hres, htaken⟩
    · exact hnull hres
    · have hbound := (h.placed.bounds b (by simp)).2
      rw [aligned_space_eq hsum] at hreq htaken
      rw [blk.stop] at hbound
      have hpow := Nat.two_pow_pos k
      have hreq' := hreq
      simp only [aligned_sum] at hreq'
      have hres' := kmalloc_aligned_eq hsize hal hres htaken.back (by omega)
      dsimp only at hres'
      -- the returned address lies at most one alignment behind the inner payload
      have hle := Nat.div_mul_le_self (b.addr + 6 * abi.sizeof_ptr + 2 ^ k - 1) (2 ^ k)
      have hge := Nat.lt_div_mul_add hpow (a := b.addr + 6 * abi.sizeof_ptr + 2 ^ k - 1)
      rw [hres']
      set ptr := (b.addr + 6 * abi.sizeof_ptr + 2 ^ k - 1) / 2 ^ k * 2 ^ k
      have hback : ∀ i, (i < b.addr + 4 * abi.sizeof_ptr ∨ b.addr + 4 * abi.sizeof_ptr
          + ((aligned_sum abi size (2 ^ k) + 7) / 8 * 8 + abi.sizeof_ptr) ≤ i) →
          store s'.mem (ptr - abi.sizeof_ptr) abi.sizeof_ptr b.addr i = s'.mem i := by
        intro i hi
        simp only [aligned_sum] at hi
        exact store_of_not_mem _ _ _ _ _ (by omega)
      refine Granted.block pre b post _ _ rfl hfree hreq (by omega) ?_ ?_
      · refine h.take hfree hreq htaken hback ?_ (by omega) (by simp only [aligned_sum]; omega)
        rw [owner, back_slot_eq (by omega) (by omega), load_store_of_lt]
        rw [← abi.size_mod_eq]
        omega
      · intro q hq i hi1 hi2
        exact h.keeps hfree hreq htaken hback hq hi1 hi2
  · exact hnull (kmalloc_null h.represents h.placed (hnofit bs h.represents))

theorem serve_kmalloc_aligned {c : client} {bs : List blk} {size alignment : ℕ}
    (h : Inv abi c bs) (hal : alignment < abi.size_mod)
    (hok : aligned_ok abi c.heap size alignment) :
    Served abi c bs size (kmalloc_aligned abi c.heap size alignment) :=
  (granted_kmalloc_aligned h hal hok).served h

/-! ### Freeing -/

theorem used_join_next (abi : Abi) {b : blk} (hfree : b.free = true) (post : List blk) :
    used (join_next abi b post) = used post := by
  cases post with
  | nil => exact used_cons_free hfree []
  | cons c post =>
      by_cases hc : c.free = true
      · rw [join_next, if_pos hc, used_cons_free (b := absorb abi b c) hfree, used_cons_free hc]
      · rw [join_next, if_neg hc, used_cons_free hfree]

theorem used_join_prev (pre : List blk) {b : blk} (hfree : b.free = true) (post : List blk) :
    used (join_prev abi pre (b :: post)) = used pre ++ used post := by
  rcases List.eq_nil_or_concat' pre with rfl | ⟨pre, a, rfl⟩
  · exact used_cons_free hfree post
  · rw [join_prev_concat]
    split_ifs with ha
    · rw [used_append, used_append, used_cons_free (b := absorb abi a b) ha, used_cons_free ha]
      simp [used]
    · rw [used_append, used_append, used_cons_used (Bool.eq_false_iff.mpr ha),
        used_cons_used (Bool.eq_false_iff.mpr ha), used_cons_free hfree, List.append_assoc]
      rfl

/-- Freeing takes one block out of the used ones. -/
theorem used_release (pre : List blk) (b : blk) (post : List blk) :
    used (release abi pre b post) = used pre ++ used post := by
  have hjoin := used_join_next abi (b := { b with free := true }) rfl post
  obtain ⟨b', post', hcons, -, hfree, -⟩ :=
    join_next_eq_cons abi { b with free := true } post
  rw [hcons, used_cons_free hfree] at hjoin
  rw [release, hcons, used_join_prev pre hfree, hjoin]

/-- `kfree` of a live pointer, when the blocks it merges touch. -/
theorem Inv.give {c : client} {pre post : List blk} {b : blk} {ptr size : ℕ}
    (h : Inv abi c (pre ++ b :: post)) (hused : b.free = false) (hq : (ptr, size) ∈ c.live)
    (howner : owner abi c.heap.mem ptr = b.addr)
    (hnext : ∀ c ∈ post.head?, c.free = true → b.stop abi = c.addr)
    (hprev : ∀ a ∈ pre.getLast?, a.free = true → a.stop abi = b.addr) :
    Inv abi { c with heap := kfree abi c.heap ptr, live := c.live.eraseP (fun q => q.1 = ptr) }
      (release abi pre b post) := by
  have h4 := abi.four_le
  have hptr : ptr ≠ 0 := by
    obtain ⟨d, -, -, -, hd, -⟩ := h.block hq
    dsimp only at hd
    omega
  obtain ⟨hrep, hplaced, hframe⟩ := kfree_spec h.represents h.placed hptr howner hnext hprev
  -- no back pointer lies in a header
  have hkeep : ∀ q ∈ c.live, ∀ i, i < q.1 → q.1 ≤ i + abi.sizeof_ptr →
      (kfree abi c.heap ptr).mem i = c.heap.mem i := by
    intro q hqlive i hi1 hi2
    obtain ⟨d, hd, -, -, hd1, hd2, -⟩ := h.block hqlive
    refine hframe i ?_
    rintro ⟨e, he, he1, he2⟩
    by_cases hde : d = e
    · rw [hde] at hd1
      omega
    · have hoff := h.placed.off hd he hde
      simp only [blk.stop] at hoff hd2
      omega
  have howns := h.owns_congr hkeep
  have hown : owner abi (kfree abi c.heap ptr).mem ptr = b.addr :=
    (h.owner_congr hq (hkeep _ hq)).trans howner
  obtain ⟨q, l1, l2, -, hqptr, hlive, herase⟩ :=
    List.exists_of_eraseP (p := fun q : ℕ × ℕ => decide (q.1 = ptr)) hq (by simp)
  rw [decide_eq_true_eq] at hqptr
  have hsplit : used (pre ++ b :: post) = used pre ++ b :: used post := by
    rw [used_append, used_cons_used hused]
  rw [hsplit, hlive] at howns
  have hperm : ((l1 ++ l2).map fun q => owner abi (kfree abi c.heap ptr).mem q.1).Perm
      ((used pre ++ used post).map blk.addr) := by
    have hall := howns.owners
    simp only [List.map_append, List.map_cons] at hall ⊢
    rw [hqptr, hown] at hall
    exact List.Perm.cons_inv (List.perm_middle.symm.trans (hall.trans List.perm_middle))
  refine ⟨hrep, hplaced, ?_⟩
  rw [used_release]
  dsimp only
  rw [herase]
  refine ⟨hperm, ?_⟩
  intro r hr
  obtain ⟨d, hd, hdo, hdfit⟩ := howns.fits r (by
    rcases List.mem_append.mp hr with hr | hr
    · exact List.mem_append_left _ hr
    · simp [hr])
  refine ⟨d, ?_, hdo, hdfit⟩
  -- a pointer left over names another block than the one that was freed
  rcases List.mem_append.mp hd with hd | hd
  · exact List.mem_append_left _ hd
  · rcases List.mem_cons.mp hd with rfl | hd
    · have hmem : d.addr ∈ (used pre ++ used post).map blk.addr := by
        refine hperm.subset ?_
        rw [← hdo]
        exact List.mem_map_of_mem hr
      have hnodup := h.placed.used_nodup
      rw [hsplit, (List.perm_middle.map blk.addr).nodup_iff] at hnodup
      exact absurd hmem (List.nodup_cons.mp hnodup).1
    · exact List.mem_append_right _ hd

/-! ### Writing -/

/-- A store into a live payload touches no header and no back pointer. -/
theorem Inv.write {c : client} {bs : List blk} {addr : ℕ} {value : UInt8} (h : Inv abi c bs)
    (hw : ∃ q ∈ c.live, q.1 ≤ addr ∧ addr < q.1 + q.2) :
    Inv abi { c with heap := { c.heap with mem := Function.update c.heap.mem addr value } } bs := by
  obtain ⟨q, hq, hq1, hq2⟩ := hw
  obtain ⟨b, hb, -, hbo, hb1, hb2, -⟩ := h.block hq
  refine ⟨h.represents.payload h.placed hb ?_, h.placed, h.owns_congr ?_⟩
  · intro i hi
    exact Function.update_of_ne (by omega) _ _
  · intro r hr i hi1 hi2
    refine Function.update_of_ne ?_ _ _
    rintro rfl
    obtain ⟨d, hd, -, hdo, hd1, hd2, -⟩ := h.block hr
    by_cases hqr : q = r
    · rw [← hqr] at hi1
      omega
    · have hne : b ≠ d := by
        rintro rfl
        exact hqr (List.inj_on_of_nodup_map h.owners_nodup hq hr (hbo.trans hdo.symm))
      have hoff := h.placed.off hb hd hne
      simp only [blk.stop] at hoff hb2 hd2
      omega

/-- The blocks that `kfree` would merge with the one at `addr` touch it. -/
def MergesTouch (abi : Abi) (bs : List blk) (addr : ℕ) : Prop :=
  ∀ pre b post, bs = pre ++ b :: post → b.addr = addr →
    (∀ c ∈ post.head?, c.free = true → b.stop abi = c.addr)
      ∧ ∀ a ∈ pre.getLast?, a.free = true → a.stop abi = b.addr

/-- The requests of a heap that has all its regions. -/
def NoRegion : request → Prop
  | .kmem_add_region _ _ => False
  | _ => True

/-- **One request.** An admissible request returns, the invariant holds again, and the
list changed in one of the ways of `Change`. -/
theorem serve_spec {c : client} {bs : List blk} {r : request} (h : Inv abi c bs)
    (hlegal : Legal abi c r) (hwrap : NoWrap abi c r) (hregion : NoRegion r)
    (htouch : ∀ ptr, r = .kfree ptr → MergesTouch abi bs (owner abi c.heap.mem ptr)) :
    ∃ c' bs', serve abi c r = some c' ∧ Inv abi c' bs' ∧ Change abi bs bs'
      ∧ c'.regions = c.regions := by
  cases r with
  | kmalloc size =>
      obtain ⟨r, bs', hres, hinv, hchange⟩ := serve_kmalloc h hwrap
      exact ⟨_, bs', by rw [serve, hres, Option.map_some], hinv, hchange, rfl⟩
  | kzalloc size =>
      obtain ⟨r, bs', hres, hinv, hchange⟩ := serve_kzalloc h hwrap
      exact ⟨_, bs', by rw [serve, hres, Option.map_some], hinv, hchange, rfl⟩
  | kmalloc_aligned size alignment =>
      obtain ⟨r, bs', hres, hinv, hchange⟩ := serve_kmalloc_aligned h hlegal.2 hwrap
      exact ⟨_, bs', by rw [serve, hres, Option.map_some], hinv, hchange, rfl⟩
  | kfree ptr =>
      obtain ⟨size, hq⟩ := hlegal
      obtain ⟨b, hb, hused, howner, -⟩ := h.block hq
      obtain ⟨pre, post, rfl⟩ := List.append_of_mem hb
      obtain ⟨hnext, hprev⟩ := htouch ptr rfl pre b post rfl howner.symm
      exact ⟨_, _, rfl, h.give hused hq howner hnext hprev,
        Change.give pre b post rfl hused hnext hprev, rfl⟩
  | write addr value => exact ⟨_, bs, rfl, h.write hlegal, Change.same, rfl⟩
  | kmem_add_region heap_start heap_size => exact hregion.elim

end SysInC.Kmem
