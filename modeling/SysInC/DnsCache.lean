/-
The cache of `heavy_utils/dnsserver.c`: `find_in_cache`, `save_to_cache`, the answer that `main`
sends from an entry, and the key that clears the cache.

Clearing only takes `cache_count` back, so slots behind it stay in use with what they held, and a
slot that is saved to keeps the bytes of the old packet behind the new one. What holds of every slot
in all of this: if it is in use, it holds one of the answers that have been saved. The name it holds
is cut at 127 bytes, so it is the name of the answer only when that is no longer.
-/
import SysInC.CString
import SysInC.CText
import Mathlib.Data.Int.Notation
import Mathlib.Logic.Function.Basic

set_option autoImplicit false

namespace SysInC.DnsCache

open CString PartialRun

/-! ## The source -/

def MAX_CACHE : ℕ := 256
def DNS_PACKET_MAX : ℕ := 512

/-- A string that is passed to a function. -/
abbrev Str := { s : List UInt8 // 0 ∉ s }

structure DNSCacheEntry where
  domain : Buf 128
  qtype : UInt16
  packet : Buf DNS_PACKET_MAX
  packet_len : ℕ
  expire_time : ℤ
  is_used : Bool

structure Cache where
  dns_cache : Fin MAX_CACHE → DNSCacheEntry
  cache_count : ℕ

/-- Static memory. -/
def initial : Cache where
  dns_cache := fun _ => ⟨zeros _, 0, zeros _, 0, 0, false⟩
  cache_count := 0

/-- `dns_cache[i].is_used && dns_cache[i].qtype == qtype && strcasecmp(...) == 0` -/
def is_entry_of (domain : Str) (qtype : UInt16) (e : DNSCacheEntry) : Option Bool :=
  if e.is_used && e.qtype == qtype then
    (c_str e.domain 0).map fun s => CText.strcaseeq s domain.val
  else some false

/-- The loop of `find_in_cache` over these slots; the slot that is found. -/
def find_loop (now : ℤ) (domain : Str) (qtype : UInt16) :
    List ℕ → Cache → Option (Option ℕ × Cache)
  | [], c => some (none, c)
  | i :: is, c => do
    let e ← peek c.dns_cache i
    let found ← is_entry_of domain qtype e
    if found then
      if now ≤ e.expire_time then some (some i, c)
      else do
        let dns_cache ← poke c.dns_cache i { e with is_used := false }
        find_loop now domain qtype is { c with dns_cache := dns_cache }
    else find_loop now domain qtype is c

def find_in_cache (now : ℤ) (domain : Str) (qtype : UInt16) (c : Cache) :
    Option (Option ℕ × Cache) :=
  find_loop now domain qtype (List.range c.cache_count) c

/-- The first of these slots that is not in use or has expired. -/
def free_slot (now : ℤ) (c : Cache) : List ℕ → Option (Option ℕ)
  | [] => some none
  | i :: is => do
    let e ← peek c.dns_cache i
    if !e.is_used || decide (e.expire_time < now) then some (some i) else free_slot now c is

/-- What is passed to `save_to_cache`, and what `time` and `rand` return in it. -/
structure Save where
  now : ℤ
  domain : Str
  qtype : UInt16
  packet : List UInt8
  ttl : UInt32
  rand : ℕ

/-- `now + (ttl > 0 ? ttl : 60)` -/
def Save.expire_time (s : Save) : ℤ := s.now + if 0 < s.ttl then (s.ttl.toNat : ℤ) else 60

/-- The last lines of `save_to_cache`. -/
def fill_slot (s : Save) (slot : ℕ) (c : Cache) : Option Cache := do
  let e ← peek c.dns_cache slot
  let domain ← strncpy e.domain s.domain.val (128 - 1)
  let packet ← write e.packet 0 s.packet
  let dns_cache ← poke c.dns_cache slot
    ⟨domain, s.qtype, packet, s.packet.length, s.expire_time, true⟩
  some { c with dns_cache := dns_cache }

def save_to_cache (s : Save) (c : Cache) : Option Cache :=
  if DNS_PACKET_MAX < s.packet.length then some c
  else do
    let free ← free_slot s.now c (List.range c.cache_count)
    match free with
    | some i => fill_slot s i c
    | none =>
      if c.cache_count < MAX_CACHE then
        fill_slot s c.cache_count { c with cache_count := c.cache_count + 1 }
      else fill_slot s (s.rand % MAX_CACHE) c

/-- A request that gets this far in `main`. -/
structure Query where
  now : ℤ
  domain : Str
  qtype : UInt16
  id : Buf 2

/-- `c_hdr->id = hdr->id;` and what is sent, if the cache has it. -/
def answer (q : Query) (c : Cache) : Option (Option (List UInt8) × Cache) := do
  let (found, c) ← find_in_cache q.now q.domain q.qtype c
  match found with
  | none => some (none, c)
  | some i =>
    let e ← peek c.dns_cache i
    let packet ← write e.packet 0 q.id.val
    let dns_cache ← poke c.dns_cache i { e with packet := packet }
    some (some (packet.val.take e.packet_len), { c with dns_cache := dns_cache })

/-- `cache_count = 0;` -/
def clear (c : Cache) : Cache := { c with cache_count := 0 }

inductive Event where
  | save (s : Save)
  | query (q : Query)
  | clear

def step (c : Cache) : Event → Option Cache
  | .save s => save_to_cache s c
  | .query q => (answer q c).map Prod.snd
  | .clear => some (clear c)

/-! ## What the slots hold -/

/-- The entry is what is left of an answer that was saved: the name up to the end of its field, and
the packet behind the transaction id. -/
structure Holds (e : DNSCacheEntry) (s : Save) : Prop where
  domain : text e.domain = s.domain.val.take (128 - 1)
  qtype : e.qtype = s.qtype
  fits : s.packet.length ≤ DNS_PACKET_MAX
  packet_len : e.packet_len = s.packet.length
  packet : (e.packet.val.take e.packet_len).drop 2 = s.packet.drop 2
  expire_time : e.expire_time = s.expire_time

/-- A name that ends in its field, and something saved if the slot is in use. -/
def Sound (saved : List Save) (e : DNSCacheEntry) : Prop :=
  Closed e.domain ∧ (e.is_used = true → ∃ s ∈ saved, Holds e s)

structure Inv (saved : List Save) (c : Cache) : Prop where
  count_le : c.cache_count ≤ MAX_CACHE
  sound : ∀ i, Sound saved (c.dns_cache i)

theorem inv_initial : Inv [] initial where
  count_le := Nat.zero_le _
  sound := by
    intro i
    refine ⟨closed_zeros 127, ?_⟩
    intro hused
    cases hused

theorem Sound.mono {saved more : List Save} {e : DNSCacheEntry} (h : Sound saved e) :
    Sound (saved ++ more) e := by
  refine ⟨h.1, fun hused => ?_⟩
  obtain ⟨s, hs, hholds⟩ := h.2 hused
  exact ⟨s, List.mem_append_left more hs, hholds⟩

theorem Inv.mono {saved more : List Save} {c : Cache} (h : Inv saved c) : Inv (saved ++ more) c :=
  ⟨h.count_le, fun i => (h.sound i).mono⟩

/-- One slot is written. -/
theorem Inv.update {saved : List Save} {c : Cache} (h : Inv saved c) (i : Fin MAX_CACHE)
    {e : DNSCacheEntry} (he : Sound saved e) {count : ℕ} (hcount : count ≤ MAX_CACHE) :
    Inv saved ⟨Function.update c.dns_cache i e, count⟩ := by
  refine ⟨hcount, fun j => ?_⟩
  change Sound saved (Function.update c.dns_cache i e j)
  by_cases hj : j = i
  · rw [hj, Function.update_self]
    exact he
  · rw [Function.update_of_ne hj]
    exact h.sound j

theorem Inv.lt_of_mem_range {saved : List Save} {c : Cache} (h : Inv saved c) :
    ∀ i ∈ List.range c.cache_count, i < MAX_CACHE :=
  fun _ hi => (List.mem_range.mp hi).trans_le h.count_le

/-! ## Finding -/

/-- The slot is in use, of this type and name, and has not expired. -/
def Hits (now : ℤ) (domain : Str) (qtype : UInt16) (e : DNSCacheEntry) : Prop :=
  e.is_used = true ∧ e.qtype = qtype ∧ CText.strcaseeq (text e.domain) domain.val = true ∧
    now ≤ e.expire_time

theorem is_entry_of_some {e : DNSCacheEntry} (hclosed : Closed e.domain) (domain : Str)
    (qtype : UInt16) :
    is_entry_of domain qtype e =
      some (e.is_used && e.qtype == qtype && CText.strcaseeq (text e.domain) domain.val) := by
  unfold is_entry_of
  split
  · next hboth => rw [hclosed.c_str_zero, hboth, Option.map_some, Bool.true_and]
  · next hboth => rw [Bool.eq_false_iff.mpr hboth, Bool.false_and]

theorem find_loop_sound {saved : List Save} (now : ℤ) (domain : Str) (qtype : UInt16)
    {is : List ℕ} (his : ∀ i ∈ is, i < MAX_CACHE) {c : Cache} (hc : Inv saved c) :
    ∃ found c', find_loop now domain qtype is c = some (found, c') ∧ Inv saved c' ∧
      ∀ i, found = some i → ∃ hi : i < MAX_CACHE, Hits now domain qtype (c'.dns_cache ⟨i, hi⟩) := by
  induction is generalizing c with
  | nil => exact ⟨none, c, rfl, hc, fun i hi => absurd hi (Option.some_ne_none i).symm⟩
  | cons i is ih =>
    have hi := his i List.mem_cons_self
    have hrest : ∀ j ∈ is, j < MAX_CACHE := fun j hj => his j (List.mem_cons_of_mem i hj)
    have hsound := hc.sound ⟨i, hi⟩
    simp only [find_loop, peek_of_lt hi, Option.bind_eq_bind, Option.bind_some,
      is_entry_of_some hsound.1]
    split
    · next hfound =>
      rw [Bool.and_eq_true, Bool.and_eq_true, beq_iff_eq] at hfound
      obtain ⟨⟨hused, htype⟩, hname⟩ := hfound
      split
      · next hnow =>
        refine ⟨some i, c, rfl, hc, ?_⟩
        rintro j hj
        obtain rfl := Option.some.inj hj
        exact ⟨hi, hused, htype, hname, hnow⟩
      · -- an entry that has expired is given up, and the loop goes on
        rw [poke_of_lt hi, Option.bind_some]
        have hgone : Sound saved { c.dns_cache ⟨i, hi⟩ with is_used := false } :=
          ⟨hsound.1, fun hused => absurd hused Bool.false_ne_true⟩
        exact ih hrest (hc.update ⟨i, hi⟩ hgone hc.count_le)
    · exact ih hrest hc

theorem find_in_cache_sound {saved : List Save} (now : ℤ) (domain : Str) (qtype : UInt16)
    {c : Cache} (hc : Inv saved c) :
    ∃ found c', find_in_cache now domain qtype c = some (found, c') ∧ Inv saved c' ∧
      ∀ i, found = some i → ∃ hi : i < MAX_CACHE, Hits now domain qtype (c'.dns_cache ⟨i, hi⟩) :=
  find_loop_sound now domain qtype hc.lt_of_mem_range hc

/-! ## Saving -/

theorem free_slot_some (now : ℤ) (c : Cache) {is : List ℕ} (his : ∀ i ∈ is, i < MAX_CACHE) :
    ∃ free, free_slot now c is = some free ∧ ∀ i, free = some i → i < MAX_CACHE := by
  induction is with
  | nil => exact ⟨none, rfl, fun i hi => absurd hi (Option.some_ne_none i).symm⟩
  | cons i is ih =>
    have hi := his i List.mem_cons_self
    simp only [free_slot, peek_of_lt hi, Option.bind_eq_bind, Option.bind_some]
    split
    · exact ⟨some i, rfl, fun j hj => Option.some.inj hj ▸ hi⟩
    · exact ih fun j hj => his j (List.mem_cons_of_mem i hj)

theorem holds_saved {s : Save} (hlen : s.packet.length ≤ DNS_PACKET_MAX) {domain : Buf 128}
    (hdomain : text domain = s.domain.val.take (128 - 1)) {old packet : Buf DNS_PACKET_MAX}
    (hpacket : write old 0 s.packet = some packet) :
    Holds ⟨domain, s.qtype, packet, s.packet.length, s.expire_time, true⟩ s where
  domain := hdomain
  qtype := rfl
  fits := hlen
  packet_len := rfl
  packet := by
    simp only
    rw [(write_some hpacket).2, List.take_zero, List.nil_append, List.take_left]
  expire_time := rfl

/-- Whichever slot it is, it is overwritten as a whole, the bytes behind the packet apart. -/
theorem fill_slot_sound {saved : List Save} (s : Save) (hlen : s.packet.length ≤ DNS_PACKET_MAX)
    {slot : ℕ} (hslot : slot < MAX_CACHE) {c : Cache} (hc : Inv saved c) :
    ∃ c', fill_slot s slot c = some c' ∧ Inv (saved ++ [s]) c' := by
  obtain ⟨domain, hdomain, hclosed, htext⟩ := (hc.sound ⟨slot, hslot⟩).1.strncpy s.domain.val
  have hfit : 0 + s.packet.length ≤ DNS_PACKET_MAX := (Nat.zero_add _).le.trans hlen
  obtain ⟨packet, hpacket, -⟩ := write_of_le (c.dns_cache ⟨slot, hslot⟩).packet s.packet hfit
  simp only [fill_slot, peek_of_lt hslot, poke_of_lt hslot, Option.bind_eq_bind, Option.bind_some,
    hdomain, hpacket]
  have hholds := holds_saved hlen (htext s.domain.property) hpacket
  have hmem : s ∈ saved ++ [s] := List.mem_append_right saved (List.mem_singleton_self s)
  exact ⟨_, rfl, hc.mono.update ⟨slot, hslot⟩ ⟨hclosed, fun _ => ⟨s, hmem, hholds⟩⟩ hc.count_le⟩

theorem save_to_cache_sound {saved : List Save} (s : Save) {c : Cache} (hc : Inv saved c) :
    ∃ c', save_to_cache s c = some c' ∧ Inv (saved ++ [s]) c' := by
  unfold save_to_cache
  split
  · exact ⟨c, rfl, hc.mono⟩
  · next hlong =>
    have hlen : s.packet.length ≤ DNS_PACKET_MAX := Nat.le_of_not_lt hlong
    obtain ⟨free, hfree, hlt⟩ := free_slot_some s.now c hc.lt_of_mem_range
    simp only [hfree, Option.bind_eq_bind, Option.bind_some]
    cases free with
    | some i => exact fill_slot_sound s hlen (hlt i rfl) hc
    | none =>
      by_cases hroom : c.cache_count < MAX_CACHE
      · simp only [if_pos hroom]
        exact fill_slot_sound s hlen hroom ⟨hroom, hc.sound⟩
      · simp only [if_neg hroom]
        exact fill_slot_sound s hlen (Nat.mod_lt _ (by decide)) hc

/-! ## Answering -/

/-- What is sent is something that was saved for this name and type and has not expired, the
transaction id apart. A miss is always right. -/
def Genuine (saved : List Save) (q : Query) : Option (List UInt8) → Prop
  | none => True
  | some bytes => ∃ s ∈ saved, CText.strcaseeq s.domain.val q.domain.val = true ∧
      s.qtype = q.qtype ∧ q.now ≤ s.expire_time ∧ bytes.length = s.packet.length ∧
      bytes.drop 2 = s.packet.drop 2

/-- The name as its field holds it. -/
def Save.cut (s : Save) : Save :=
  { s with domain := ⟨s.domain.val.take (128 - 1), fun h =>
      s.domain.property (List.mem_of_mem_take h)⟩ }

/-- The transaction id of an entry is overwritten, and nothing else that counts. -/
theorem Holds.set_id {e : DNSCacheEntry} {s : Save} (h : Holds e s) {id : Buf 2}
    {packet : Buf DNS_PACKET_MAX} (hpacket : write e.packet 0 id.val = some packet) :
    Holds { e with packet := packet } s := by
  have hbehind : packet.val.drop 2 = e.packet.val.drop 2 :=
    write_drop hpacket (by rw [Nat.zero_add, length_val])
  refine ⟨h.domain, h.qtype, h.fits, h.packet_len, ?_, h.expire_time⟩
  calc (packet.val.take e.packet_len).drop 2
      = (packet.val.drop 2).take (e.packet_len - 2) := List.drop_take
    _ = (e.packet.val.drop 2).take (e.packet_len - 2) := by rw [hbehind]
    _ = (e.packet.val.take e.packet_len).drop 2 := List.drop_take.symm
    _ = s.packet.drop 2 := h.packet

theorem Holds.genuine {saved : List Save} {e : DNSCacheEntry} {s : Save} (h : Holds e s)
    (hs : s ∈ saved) {q : Query} (hhits : Hits q.now q.domain q.qtype e) :
    Genuine (saved.map Save.cut) q (some (e.packet.val.take e.packet_len)) := by
  obtain ⟨-, htype, hname, hnow⟩ := hhits
  refine ⟨s.cut, List.mem_map_of_mem hs, ?_, h.qtype.symm.trans htype, ?_, ?_, h.packet⟩
  · rw [h.domain] at hname
    exact hname
  · rw [h.expire_time] at hnow
    exact hnow
  · rw [List.length_take, length_val, h.packet_len]
    exact Nat.min_eq_left h.fits

theorem answer_sound {saved : List Save} (q : Query) {c : Cache} (hc : Inv saved c) :
    ∃ reply c', answer q c = some (reply, c') ∧ Inv saved c' ∧
      Genuine (saved.map Save.cut) q reply := by
  obtain ⟨found, c', hfind, hinv, hfound⟩ := find_in_cache_sound q.now q.domain q.qtype hc
  simp only [answer, hfind, Option.bind_eq_bind, Option.bind_some]
  cases found with
  | none => exact ⟨none, c', rfl, hinv, trivial⟩
  | some i =>
    obtain ⟨hi, hhits⟩ := hfound i rfl
    have hfit : 0 + q.id.val.length ≤ DNS_PACKET_MAX := by
      rw [length_val]
      decide
    obtain ⟨packet, hpacket, -⟩ := write_of_le (c'.dns_cache ⟨i, hi⟩).packet q.id.val hfit
    obtain ⟨s, hs, hholds⟩ := (hinv.sound ⟨i, hi⟩).2 hhits.1
    have hnew := hholds.set_id hpacket
    have hsound : Sound saved { c'.dns_cache ⟨i, hi⟩ with packet := packet } :=
      ⟨(hinv.sound ⟨i, hi⟩).1, fun _ => ⟨s, hs, hnew⟩⟩
    simp only [peek_of_lt hi, poke_of_lt hi, Option.bind_some, hpacket]
    exact ⟨_, _, rfl, hinv.update ⟨i, hi⟩ hsound hinv.count_le, hnew.genuine hs hhits⟩

/-! ## Runs -/

/-- What the events save, in order. -/
def saves : List Event → List Save
  | [] => []
  | .save s :: es => s :: saves es
  | _ :: es => saves es

theorem step_sound {saved : List Save} (e : Event) {c : Cache} (hc : Inv saved c) :
    ∃ c', step c e = some c' ∧ Inv (saved ++ saves [e]) c' := by
  cases e with
  | save s => exact save_to_cache_sound s hc
  | query q =>
    obtain ⟨reply, c', hanswer, hinv, -⟩ := answer_sound q hc
    rw [step, hanswer, Option.map_some]
    exact ⟨c', rfl, hinv.mono⟩
  | clear => exact ⟨clear c, rfl, Inv.mono ⟨Nat.zero_le _, hc.sound⟩⟩

theorem saves_cons (e : Event) (es : List Event) : saves (e :: es) = saves [e] ++ saves es := by
  cases e with
  | save s => rfl
  | query q => rfl
  | clear => rfl

theorem run_sound (es : List Event) {saved : List Save} {c : Cache} (hc : Inv saved c) :
    ∃ c', es.foldlM step c = some c' ∧ Inv (saved ++ saves es) c' := by
  induction es generalizing saved c with
  | nil => exact ⟨c, rfl, hc.mono⟩
  | cons e es ih =>
    obtain ⟨c₁, hstep, hinv⟩ := step_sound e hc
    obtain ⟨c', hrun, hfinal⟩ := ih hinv
    rw [List.foldlM_cons, hstep, saves_cons, ← List.append_assoc]
    exact ⟨c', hrun, hfinal⟩

theorem Save.cut_of_short {s : Save} (hlen : s.domain.val.length ≤ 127) : s.cut = s := by
  unfold Save.cut
  congr
  exact List.take_of_length_le hlen

/-- **Hits.** After every run of saves, queries and clears whose names fit in their field, the cache
answers only with what was saved. -/
theorem hit_is_genuine (es : List Event)
    (hnames : ∀ s ∈ saves es, s.domain.val.length ≤ 127) (q : Query) :
    ∃ c reply c', es.foldlM step initial = some c ∧ answer q c = some (reply, c') ∧
      Genuine (saves es) q reply := by
  obtain ⟨c, hrun, hinv⟩ := run_sound es inv_initial
  obtain ⟨reply, c', hanswer, -, hgenuine⟩ := answer_sound q hinv
  have hcut : (saves es).map Save.cut = saves es := by
    apply (List.map_congr_left ?_).trans (List.map_id _)
    intro s hs
    exact Save.cut_of_short (hnames s hs)
  rw [List.nil_append, hcut] at hgenuine
  exact ⟨c, reply, c', hrun, hanswer, hgenuine⟩

def label (n : ℕ) : List UInt8 := List.replicate n 97

/-- `a.b` -/
def short_save : Save := ⟨1000, ⟨[97, 46, 98], by decide⟩, 1, [0, 7, 129, 128], 120, 0⟩

theorem hit_is_genuine_short :
    ∃ c reply c', [Event.save short_save].foldlM step initial = some c ∧
      answer ⟨1060, ⟨[65, 46, 66], by decide⟩, 1, ⟨[0, 9], rfl⟩⟩ c = some (reply, c') ∧
      Genuine [short_save] ⟨1060, ⟨[65, 46, 66], by decide⟩, 1, ⟨[0, 9], rfl⟩⟩ reply :=
  hit_is_genuine [.save short_save] (List.forall_mem_singleton.mpr (by decide)) _

/-- Two labels of 63 bytes and one of a byte, and the two labels alone. -/
def long_name : Str := ⟨label 63 ++ 46 :: label 63 ++ [46, 98], by decide⟩
def cut_name : Str := ⟨label 63 ++ 46 :: label 63, by decide⟩

def long_save : Save := ⟨1000, long_name, 1, [0, 7, 129, 128], 120, 0⟩
def cut_query : Query := ⟨1060, cut_name, 1, ⟨[0, 9], rfl⟩⟩

/-- The answer for a name of 129 bytes is sent to who asks for the first 127 of them. -/
theorem hit_not_genuine :
    ∃ c bytes c', [Event.save long_save].foldlM step initial = some c ∧
      answer cut_query c = some (some bytes, c') ∧
      ¬ Genuine (saves [.save long_save]) cut_query (some bytes) := by
  obtain ⟨c, hrun, hinv⟩ := run_sound [.save long_save] inv_initial
  have hhit : (([Event.save long_save].foldlM step initial).bind (answer cut_query)).map
      (fun r => r.1.isSome) = some true := by decide +kernel
  rw [hrun, Option.bind_some] at hhit
  obtain ⟨⟨reply, c'⟩, hanswer, hsome⟩ := Option.map_eq_some_iff.mp hhit
  obtain ⟨bytes, rfl⟩ := Option.isSome_iff_exists.mp hsome
  refine ⟨c, bytes, c', hrun, hanswer, ?_⟩
  rintro ⟨s, hs, hname, -⟩
  obtain rfl := List.mem_singleton.mp hs
  exact absurd hname (by decide +kernel)

end SysInC.DnsCache
