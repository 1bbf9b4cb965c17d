/-
`freestanding/kmem.c`, the kernel heap, over the byte memory of `ByteMem`.

Block headers live in the memory the allocator manages, and so they do here: a
`kmem_block_t` is four fields at fixed offsets from its address, every assignment of
the C code is one store, and the assignments come in the source's order, because a
later one may read what an earlier one wrote. `size_t` and pointer arithmetic wraps at
`size_mod`. Both ABIs the repository builds for are covered (`build_iso.sh` compiles
`kmem.c` with `-m32`, the host test without): on both, the header is four pointers wide.

A list walk is `while (curr)`. A walk that has made `size_mod` steps has visited some
address twice without having changed the memory, so it never ends; the walks below give
up exactly then, and `none` stands for a call that does not return. The lock hooks touch
no heap state and are left out.
-/
import SysInC.ByteMem

set_option autoImplicit false

namespace SysInC.Kmem

open SysInC.ByteMem

/-! ## The data model -/

inductive Abi where
  | i386
  | x86_64
  deriving DecidableEq

/-- `sizeof(void *)` and `sizeof(size_t)`. -/
def Abi.sizeof_ptr : Abi → ℕ
  | .i386 => 4
  | .x86_64 => 8

/-- `SIZE_MAX + 1`. -/
def Abi.size_mod : Abi → ℕ
  | .i386 => 4294967296
  | .x86_64 => 18446744073709551616

/-- The fields of `kmem_block_t`. -/
inductive field where
  | size
  | is_free
  | next
  | prev
  deriving DecidableEq

def field.offset (abi : Abi) : field → ℕ
  | .size => 0
  | .is_free => abi.sizeof_ptr
  | .next => 2 * abi.sizeof_ptr
  | .prev => 3 * abi.sizeof_ptr

/-- `is_free` is an `int`, the others are words. -/
def field.width (abi : Abi) : field → ℕ
  | .is_free => 4
  | _ => abi.sizeof_ptr

/-- `b->f`. -/
def get (abi : Abi) (m : Mem) (b : ℕ) (f : field) : ℕ := load m (b + f.offset abi) (f.width abi)

/-- `b->f = v`. -/
def set (abi : Abi) (m : Mem) (b : ℕ) (f : field) (v : ℕ) : Mem :=
  store m (b + f.offset abi) (f.width abi) v

def ALIGN8 (abi : Abi) (x : ℕ) : ℕ := ((x + 7) % abi.size_mod) &&& (abi.size_mod - 8)

/-- `sizeof(kmem_block_t)`, with the padding after `is_free`. -/
def sizeof_block (abi : Abi) : ℕ := 4 * abi.sizeof_ptr

def BLOCK_HEADER_SIZE (abi : Abi) : ℕ := ALIGN8 abi (sizeof_block abi)

/-- `((kmem_block_t **)p)[-1]`: where a payload keeps the address of its block. -/
def back_slot (abi : Abi) (p : ℕ) : ℕ := (p + abi.size_mod - abi.sizeof_ptr) % abi.size_mod

/-- The memory and the static variables of `kmem.c`. -/
structure kheap where
  mem : Mem
  head_block : ℕ
  total_heap_bytes : ℕ

/-! ## Setting regions up -/

/-- The first three assignments of a new region's header. -/
def region_header (abi : Abi) (m : Mem) (heap_start heap_size : ℕ) : Mem :=
  let m := set abi m heap_start .size (ALIGN8 abi (heap_size - BLOCK_HEADER_SIZE abi))
  set abi m heap_start .is_free 1

def kmem_init (abi : Abi) (s : kheap) (heap_start heap_size : ℕ) : kheap :=
  if heap_start = 0 ∨ heap_size < BLOCK_HEADER_SIZE abi + 32 then s
  else
    let m := region_header abi s.mem heap_start heap_size
    let m := set abi m heap_start .next 0
    let m := set abi m heap_start .prev 0
    { mem := m, head_block := heap_start, total_heap_bytes := heap_size }

/-- `while (curr->next) curr = curr->next;` -/
def last_block (abi : Abi) (m : Mem) : ℕ → ℕ → Option ℕ
  | 0, _ => none
  | fuel + 1, curr =>
    if get abi m curr .next = 0 then some curr else last_block abi m fuel (get abi m curr .next)

/-- The heap, and the value returned. On a heap that already has a block, the new
header's `next` is not assigned. -/
def kmem_add_region (abi : Abi) (s : kheap) (heap_start heap_size : ℕ) : Option (kheap × ℤ) :=
  if heap_start = 0 ∨ heap_size < BLOCK_HEADER_SIZE abi + 32 then some (s, -1)
  else
    let m := region_header abi s.mem heap_start heap_size
    let m := set abi m heap_start .prev 0
    let total := (s.total_heap_bytes + heap_size) % abi.size_mod
    if s.head_block = 0 then
      let m := set abi m heap_start .next 0
      some ({ mem := m, head_block := heap_start, total_heap_bytes := total }, 0)
    else
      (last_block abi m abi.size_mod s.head_block).map fun curr =>
        let m := set abi m curr .next heap_start
        let m := set abi m heap_start .prev curr
        ({ s with mem := m, total_heap_bytes := total }, 0)

/-! ## Allocation -/

def required_space (abi : Abi) (size : ℕ) : ℕ :=
  (ALIGN8 abi size + abi.sizeof_ptr) % abi.size_mod

/-- The body of the split test. -/
def split_block (abi : Abi) (m : Mem) (curr required : ℕ) : Mem :=
  let new_block := (curr + BLOCK_HEADER_SIZE abi + required) % abi.size_mod
  let rest := (get abi m curr .size + 2 * abi.size_mod - required - BLOCK_HEADER_SIZE abi)
    % abi.size_mod
  let m := set abi m new_block .size rest
  let m := set abi m new_block .is_free 1
  let m := set abi m new_block .next (get abi m curr .next)
  let m := set abi m new_block .prev curr
  let m := if get abi m curr .next ≠ 0 then
      set abi m (get abi m curr .next) .prev new_block
    else m
  let m := set abi m curr .next new_block
  set abi m curr .size required

/-- What happens to the first block that fits: the memory, and the payload returned. -/
def take_block (abi : Abi) (m : Mem) (curr required : ℕ) : Mem × ℕ :=
  let m := if (required + BLOCK_HEADER_SIZE abi + 32) % abi.size_mod ≤ get abi m curr .size then
      split_block abi m curr required
    else m
  let m := set abi m curr .is_free 0
  let payload := (curr + BLOCK_HEADER_SIZE abi + abi.sizeof_ptr) % abi.size_mod
  (store m (back_slot abi payload) abi.sizeof_ptr curr, payload)

/-- The first-fit walk; a returned pointer `0` is `NULL`. -/
def kmalloc_loop (abi : Abi) (m : Mem) (required : ℕ) : ℕ → ℕ → Option (Mem × ℕ)
  | 0, _ => none
  | fuel + 1, curr =>
    if curr = 0 then some (m, 0)
    else if get abi m curr .is_free ≠ 0 ∧ required ≤ get abi m curr .size then
      some (take_block abi m curr required)
    else kmalloc_loop abi m required fuel (get abi m curr .next)

def kmalloc (abi : Abi) (s : kheap) (size : ℕ) : Option (kheap × ℕ) :=
  if size = 0 ∨ s.head_block = 0 then some (s, 0)
  else
    (kmalloc_loop abi s.mem (required_space abi size) abi.size_mod s.head_block).map fun r =>
      ({ s with mem := r.1 }, r.2)

/-- `rep stosl`. -/
def rep_stosl (m : Mem) (p val32 : ℕ) : ℕ → Mem
  | 0 => m
  | dwords + 1 => rep_stosl (store m p 4 val32) (p + 4) val32 dwords

/-- `while (n--) *p++ = byte_val;` -/
def set_bytes (m : Mem) (p : ℕ) (byte_val : UInt8) : ℕ → Mem
  | 0 => m
  | n + 1 => set_bytes (Function.update m p byte_val) (p + 1) byte_val n

def kmemset (m : Mem) (s : ℕ) (c : UInt8) (n : ℕ) : Mem :=
  if 4 ≤ n then
    let val32 := (c.toNat <<< 24) ||| (c.toNat <<< 16) ||| (c.toNat <<< 8) ||| c.toNat
    set_bytes (rep_stosl m s val32 (n / 4)) (s + 4 * (n / 4)) c (n % 4)
  else set_bytes m s c n

def kzalloc (abi : Abi) (s : kheap) (size : ℕ) : Option (kheap × ℕ) :=
  (kmalloc abi s size).map fun r =>
    if r.2 ≠ 0 then ({ r.1 with mem := kmemset r.1.mem r.2 0 size }, r.2) else r

/-- `ALIGN8(size) + alignment + sizeof(kmem_block_t *) + BLOCK_HEADER_SIZE`. -/
def aligned_space (abi : Abi) (size alignment : ℕ) : ℕ :=
  (ALIGN8 abi size + alignment + abi.sizeof_ptr + BLOCK_HEADER_SIZE abi) % abi.size_mod

def kmalloc_aligned (abi : Abi) (s : kheap) (size alignment : ℕ) : Option (kheap × ℕ) :=
  if size = 0 ∨ alignment = 0 ∨ (alignment &&& (alignment - 1)) ≠ 0 then some (s, 0)
  else
    (kmalloc abi s (aligned_space abi size alignment)).map fun r =>
      if r.2 = 0 then r
      else
        let aligned_addr := ((r.2 + abi.sizeof_ptr + alignment - 1) % abi.size_mod)
          &&& (abi.size_mod - alignment)
        let original_block := load r.1.mem (back_slot abi r.2) abi.sizeof_ptr
        ({ r.1 with
            mem := store r.1.mem (back_slot abi aligned_addr) abi.sizeof_ptr original_block },
          aligned_addr)

/-! ## Release -/

/-- The first merge of `kfree`: the block after `block`. -/
def merge_next (abi : Abi) (m : Mem) (block : ℕ) : Mem :=
  if get abi m block .next ≠ 0 ∧ get abi m (get abi m block .next) .is_free ≠ 0 then
    let m := set abi m block .size
      ((get abi m block .size + BLOCK_HEADER_SIZE abi + get abi m (get abi m block .next) .size)
        % abi.size_mod)
    let m := set abi m block .next (get abi m (get abi m block .next) .next)
    if get abi m block .next ≠ 0 then set abi m (get abi m block .next) .prev block else m
  else m

/-- The second merge of `kfree`: the block before `block`. -/
def merge_prev (abi : Abi) (m : Mem) (block : ℕ) : Mem :=
  if get abi m block .prev ≠ 0 ∧ get abi m (get abi m block .prev) .is_free ≠ 0 then
    let m := set abi m (get abi m block .prev) .size
      ((get abi m (get abi m block .prev) .size + BLOCK_HEADER_SIZE abi + get abi m block .size)
        % abi.size_mod)
    let m := set abi m (get abi m block .prev) .next (get abi m block .next)
    if get abi m block .next ≠ 0 then
      set abi m (get abi m block .next) .prev (get abi m block .prev)
    else m
  else m

def kfree (abi : Abi) (s : kheap) (ptr : ℕ) : kheap :=
  if ptr = 0 then s
  else
    let block := load s.mem (back_slot abi ptr) abi.sizeof_ptr
    if block = 0 then s
    else
      let m := set abi s.mem block .is_free 1
      let m := merge_next abi m block
      { s with mem := merge_prev abi m block }

/-! ## Metrics -/

/-- The walk of `kmem_get_free_bytes` and `kmem_get_used_bytes`, which add up the
blocks whose `is_free` passes the test. -/
def sum_bytes (abi : Abi) (m : Mem) (test : ℕ → Bool) : ℕ → ℕ → ℕ → Option ℕ
  | 0, _, _ => none
  | fuel + 1, curr, bytes =>
    if curr = 0 then some bytes
    else
      sum_bytes abi m test fuel (get abi m curr .next)
        (if test (get abi m curr .is_free) then (bytes + get abi m curr .size) % abi.size_mod
          else bytes)

def kmem_get_free_bytes (abi : Abi) (s : kheap) : Option ℕ :=
  sum_bytes abi s.mem (fun is_free => is_free != 0) abi.size_mod s.head_block 0

def kmem_get_used_bytes (abi : Abi) (s : kheap) : Option ℕ :=
  sum_bytes abi s.mem (fun is_free => is_free == 0) abi.size_mod s.head_block 0

end SysInC.Kmem
