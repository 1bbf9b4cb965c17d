/-
Names in DNS packets: `read_dns_name` of `heavy_utils/dnsserver.c` and `vsec/vsec.c`, which are the
same, and `domain_to_dns_format` of the latter.

The reader looks at a byte before it compares the position with the length, copies a label without
looking at the length at all, and never looks at the size of `out_name`. So what it needs is a name:
labels and pointers that stand in the packet, up to a zero, with room for the text of the labels.
-/
import Mathlib.Algebra.Order.Ring.Nat
import Mathlib.Data.List.Induction
import Mathlib.Tactic.Common

set_option autoImplicit false

namespace SysInC.DnsName

/-! ## The source -/

/-- `char query_domain[256]`, `char dummy[256]` -/
def OUT_NAME : ℕ := 256

/-- The variables of the loop; of `out_name` the bytes in front of `p`. -/
structure Reading where
  reader : ℕ
  out_name : List UInt8
  jumped : Bool
  bytes_consumed : ℕ
  max_jumps : ℕ

/-- `out_name[p++] = c;` -/
def store (c : UInt8) (s : Reading) : Option Reading :=
  if s.out_name.length < OUT_NAME then some { s with out_name := s.out_name ++ [c] } else none

/-- `reader++; if (!jumped) bytes_consumed++;` -/
def Reading.next (s : Reading) : Reading :=
  { s with
    reader := s.reader + 1
    bytes_consumed := if s.jumped then s.bytes_consumed else s.bytes_consumed + 1 }

def copy_label (packet : List UInt8) : ℕ → Reading → Option Reading
  | 0, s => some s
  | len + 1, s =>
    (packet[s.reader]?).bind fun c =>
    (store c s).bind fun s => copy_label packet len s.next

def is_pointer (c : UInt8) : Bool := c &&& 0xC0 == 0xC0

/-- `((*reader & 0x3F) << 8) | *(reader + 1)` -/
def offset_of (c low : UInt8) : ℕ := ((c &&& 0x3F).toNat <<< 8) ||| low.toNat

/-- The body of the loop, with its condition; whether the loop goes on. -/
def turn (packet : List UInt8) (s : Reading) : Option (Bool × Reading) :=
  (packet[s.reader]?).bind fun c =>
  if c = 0 ∨ packet.length ≤ s.reader then some (false, s)
  else if is_pointer c then
    (packet[s.reader + 1]?).bind fun low =>
    let max_jumps := s.max_jumps - 1
    some (decide (0 < max_jumps), { s with
      reader := offset_of c low
      jumped := true
      bytes_consumed := if s.jumped then s.bytes_consumed else s.bytes_consumed + 2
      max_jumps := max_jumps })
  else (copy_label packet c.toNat s.next).bind fun s => (store 46 s).map fun s => (true, s)

/-- So many turns of the loop at most. -/
def read_loop (packet : List UInt8) : ℕ → Reading → Option Reading
  | 0, _ => none
  | turns + 1, s =>
    (turn packet s).bind fun r => if r.1 then read_loop packet turns r.2 else some r.2

/-- What `bytes_consumed` is behind the loop. -/
def Reading.total (s : Reading) : ℕ := if s.jumped then s.bytes_consumed else s.bytes_consumed + 1

/-- The name in front of its NUL and what is returned. `none` is an access to a byte that is not in
the packet or not in `out_name`, or a loop that goes on for more than 266 turns. -/
def read_dns_name (packet : List UInt8) (start : ℕ) : Option (List UInt8 × ℕ) :=
  (read_loop packet (OUT_NAME + 10) ⟨start, [], false, 0, 10⟩).bind fun s =>
  if s.out_name.getLast? = some 46 then some (s.out_name.dropLast, s.total)
  else if s.out_name.length < OUT_NAME then some (s.out_name, s.total) else none

/-- The body of the loop of `domain_to_dns_format`: `buf` in front of `pos`, and `label_start`. -/
def format_step (st : List UInt8 × ℕ) (c : UInt8) : List UInt8 × ℕ :=
  if c = 46 then
    (st.1.set st.2 (UInt8.ofNat (st.1.length - st.2 - 1)) ++ [0], st.1.length)
  else (st.1 ++ [c], st.2)

def domain_to_dns_format (domain : List UInt8) : List UInt8 :=
  let st := domain.foldl format_step ([0], 0)
  st.1.set st.2 (UInt8.ofNat (st.1.length - st.2 - 1)) ++ [0]

/-! ## Names -/

/-- The name from `pos` on, with at most `k` pointers that are followed, and the bytes that it takes
at `pos`. Where a pointer more stands the name ends. -/
inductive NameAt (packet : List UInt8) : ℕ → ℕ → List (List UInt8) → ℕ → Prop
  | root {k pos : ℕ} (hc : packet[pos]? = some 0) : NameAt packet k pos [] 1
  | label {k pos used : ℕ} {c : UInt8} {labels : List (List UInt8)} (hc : packet[pos]? = some c)
      (hne : c ≠ 0) (hlabel : is_pointer c = false) (hend : pos + 1 + c.toNat ≤ packet.length)
      (hrest : NameAt packet k (pos + 1 + c.toNat) labels used) :
      NameAt packet k pos ((packet.drop (pos + 1)).take c.toNat :: labels) (1 + c.toNat + used)
  | pointer {k pos used : ℕ} {c low : UInt8} {labels : List (List UInt8)}
      (hc : packet[pos]? = some c) (hpointer : is_pointer c = true)
      (hlow : packet[pos + 1]? = some low) (hrest : NameAt packet k (offset_of c low) labels used) :
      NameAt packet (k + 1) pos labels 2
  | last {pos : ℕ} {c low : UInt8} (hc : packet[pos]? = some c) (hpointer : is_pointer c = true)
      (hlow : packet[pos + 1]? = some low) : NameAt packet 0 pos [] 2

/-- Each label with a dot behind it. -/
def dotted (labels : List (List UInt8)) : List UInt8 := labels.flatMap (· ++ [46])

theorem dotted_cons (label : List UInt8) (labels : List (List UInt8)) :
    dotted (label :: labels) = label ++ 46 :: dotted labels := by
  rw [dotted, List.flatMap_cons, List.append_assoc]
  rfl

theorem length_le_dotted (labels : List (List UInt8)) : labels.length ≤ (dotted labels).length := by
  induction labels with
  | nil => exact le_rfl
  | cons label labels ih =>
    rw [dotted_cons, List.length_append, List.length_cons, List.length_cons]
    omega

/-! ## One turn -/

variable {packet : List UInt8} {s s' : Reading}

/-- What is behind so many bytes of a label. -/
def Reading.behind (s : Reading) (packet : List UInt8) (len : ℕ) : Reading :=
  { s with
    reader := s.reader + len
    out_name := s.out_name ++ (packet.drop s.reader).take len
    bytes_consumed := if s.jumped then s.bytes_consumed else s.bytes_consumed + len }

theorem copy_label_eq {len : ℕ} (hreader : s.reader ≤ packet.length)
    (hroom : s.out_name.length ≤ OUT_NAME) :
    copy_label packet len s =
      if s.reader + len ≤ packet.length ∧ s.out_name.length + len ≤ OUT_NAME then
        some (s.behind packet len)
      else none := by
  induction len generalizing s with
  | zero =>
    rw [if_pos ⟨hreader, hroom⟩, copy_label, Reading.behind, List.take_zero, List.append_nil,
      Nat.add_zero, Nat.add_zero, ite_self]
  | succ len ih =>
    rw [copy_label]
    by_cases hlt : s.reader < packet.length
    · rw [List.getElem?_eq_getElem hlt, Option.bind_some, store]
      by_cases hfree : s.out_name.length < OUT_NAME
      · rw [if_pos hfree, Option.bind_some, ih]
        · have hlen : (s.out_name ++ [packet[s.reader]]).length = s.out_name.length + 1 :=
            List.length_append
          refine if_congr ?_ ?_ rfl
          · dsimp only [Reading.next]
            rw [hlen]
            omega
          · have htake : (packet.drop s.reader).take (len + 1) =
                packet[s.reader] :: (packet.drop (s.reader + 1)).take len := by
              rw [List.drop_eq_getElem_cons hlt, List.take_succ_cons]
            dsimp only [Reading.next, Reading.behind]
            rw [htake, List.append_assoc, List.singleton_append, Nat.add_right_comm,
              Nat.add_assoc s.reader]
            congr 2
            split
            · rfl
            · omega
        · exact hlt
        · dsimp only [Reading.next]
          rw [List.length_append]
          exact hfree
      · rw [if_neg hfree, Option.bind_none, if_neg (by omega)]
    · rw [List.getElem?_eq_none (by omega), Option.bind_none, if_neg (by omega)]

/-- What is behind a label and its dot. -/
def Reading.past (s : Reading) (label : List UInt8) : Reading :=
  { s with
    reader := s.reader + 1 + label.length
    out_name := s.out_name ++ (label ++ [46])
    bytes_consumed := if s.jumped then s.bytes_consumed else s.bytes_consumed + (1 + label.length) }

/-- What a pointer leads to. -/
def Reading.jump (s : Reading) (target : ℕ) : Reading :=
  { s with
    reader := target
    jumped := true
    bytes_consumed := if s.jumped then s.bytes_consumed else s.bytes_consumed + 2
    max_jumps := s.max_jumps - 1 }

theorem reader_lt {c : UInt8} (hc : packet[s.reader]? = some c) : s.reader < packet.length :=
  (List.getElem?_eq_some_iff.mp hc).1

theorem turn_root (hc : packet[s.reader]? = some 0) : turn packet s = some (false, s) := by
  rw [turn, hc, Option.bind_some, if_pos (Or.inl rfl)]

theorem turn_pointer {c low : UInt8} (hc : packet[s.reader]? = some c)
    (hpointer : is_pointer c = true) (hlow : packet[s.reader + 1]? = some low) :
    turn packet s = some (decide (0 < s.max_jumps - 1), s.jump (offset_of c low)) := by
  have hne : c ≠ 0 := by
    rintro rfl
    exact absurd hpointer (by decide)
  have hlt := reader_lt hc
  rw [turn, hc, Option.bind_some, if_neg (not_or_intro hne hlt.not_ge), if_pos hpointer, hlow,
    Option.bind_some]
  rfl

theorem turn_label {c : UInt8} (hc : packet[s.reader]? = some c) (hne : c ≠ 0)
    (hlabel : is_pointer c = false) (hroom : s.out_name.length ≤ OUT_NAME) :
    turn packet s =
      if s.reader + 1 + c.toNat ≤ packet.length ∧ s.out_name.length + c.toNat + 1 ≤ OUT_NAME then
        some (true, s.past ((packet.drop (s.reader + 1)).take c.toNat))
      else none := by
  have hlt := reader_lt hc
  rw [turn, hc, Option.bind_some, if_neg (not_or_intro hne hlt.not_ge), hlabel,
    if_neg Bool.false_ne_true, copy_label_eq (by exact hlt) (by exact hroom)]
  have hreader : s.next.reader = s.reader + 1 := rfl
  have hout : s.next.out_name = s.out_name := rfl
  rw [hreader, hout]
  by_cases hend : s.reader + 1 + c.toNat ≤ packet.length
  · have hlen : ((packet.drop (s.reader + 1)).take c.toNat).length = c.toNat := by
      rw [List.length_take, List.length_drop]
      omega
    by_cases hfit : s.out_name.length + c.toNat ≤ OUT_NAME
    · rw [if_pos ⟨hend, hfit⟩, Option.bind_some, store]
      have hbehind : (s.next.behind packet c.toNat).out_name.length =
          s.out_name.length + c.toNat := by
        dsimp only [Reading.behind, Reading.next]
        rw [List.length_append, hlen]
      rw [hbehind]
      by_cases hdot : s.out_name.length + c.toNat < OUT_NAME
      · rw [if_pos hdot, if_pos ⟨hend, hdot⟩, Option.map_some]
        dsimp only [Reading.behind, Reading.next, Reading.past]
        rw [hlen, List.append_assoc]
        congr 3
        split
        · rfl
        · omega
      · rw [if_neg hdot, if_neg (fun h => hdot h.2)]
        rfl
    · rw [if_neg (fun h => hfit h.2), if_neg (by omega)]
      rfl
  · rw [if_neg (fun h => hend h.1), if_neg (fun h => hend h.1)]
    rfl

/-! ## The loop -/

/-- What `bytes_consumed` is when so many bytes are taken from here on. -/
def Reading.after (s : Reading) (used : ℕ) : ℕ :=
  if s.jumped then s.bytes_consumed else s.bytes_consumed + used

/-- A name that fits is read. -/
theorem NameAt.read_loop {k pos used : ℕ} {labels : List (List UInt8)}
    (h : NameAt packet k pos labels used) {turns : ℕ} (hpos : s.reader = pos)
    (hjumps : s.max_jumps = k + 1) (hfit : s.out_name.length + (dotted labels).length ≤ OUT_NAME)
    (hturns : labels.length + k < turns) :
    ∃ s', DnsName.read_loop packet turns s = some s' ∧ s'.out_name = s.out_name ++ dotted labels ∧
      s'.total = s.after used := by
  obtain ⟨turns, rfl⟩ := Nat.exists_eq_succ_of_ne_zero (Nat.ne_zero_of_lt hturns)
  induction h generalizing s turns with
  | root hc =>
    subst hpos
    refine ⟨s, ?_, (List.append_nil _).symm, rfl⟩
    rw [DnsName.read_loop, turn_root hc, Option.bind_some, if_neg Bool.false_ne_true]
  | @label k pos used c labels hc hne hlabel hend hrest ih =>
    subst hpos
    have hlen : ((packet.drop (s.reader + 1)).take c.toNat).length = c.toNat := by
      rw [List.length_take, List.length_drop]
      omega
    rw [dotted_cons, List.length_append, List.length_cons, hlen] at hfit
    rw [List.length_cons] at hturns
    obtain ⟨turns, rfl⟩ : ∃ t, turns = t + 1 := Nat.exists_eq_succ_of_ne_zero (by omega)
    rw [DnsName.read_loop, turn_label hc hne hlabel (by omega), if_pos ⟨hend, by omega⟩,
      Option.bind_some, if_pos rfl]
    obtain ⟨s', hloop, hout, htotal⟩ := ih
      (s := s.past ((packet.drop (s.reader + 1)).take c.toNat))
      (by dsimp only [Reading.past]; rw [hlen]) hjumps
      (by
        dsimp only [Reading.past]
        rw [List.length_append, List.length_append, hlen, List.length_singleton]
        omega)
      turns (by omega)
    refine ⟨s', hloop, ?_, htotal.trans ?_⟩
    · rw [hout, dotted_cons]
      dsimp only [Reading.past]
      simp only [List.append_assoc, List.singleton_append]
    · unfold Reading.after
      dsimp only [Reading.past]
      rw [hlen]
      split
      · rfl
      · omega
  | @pointer k pos used c low labels hc hpointer hlow hrest ih =>
    subst hpos
    obtain ⟨turns, rfl⟩ : ∃ t, turns = t + 1 := Nat.exists_eq_succ_of_ne_zero (by omega)
    rw [DnsName.read_loop, turn_pointer hc hpointer hlow, Option.bind_some,
      if_pos (decide_eq_true (by omega))]
    obtain ⟨s', hloop, hout, htotal⟩ := ih (s := s.jump (offset_of c low)) rfl
      (by dsimp only [Reading.jump]; omega) hfit turns (by omega)
    exact ⟨s', hloop, hout, htotal⟩
  | @last pos c low hc hpointer hlow =>
    subst hpos
    refine ⟨s.jump (offset_of c low), ?_, (List.append_nil _).symm, rfl⟩
    rw [DnsName.read_loop, turn_pointer hc hpointer hlow, Option.bind_some,
      if_neg (by rw [decide_eq_true_eq]; omega)]

/-- What is read is a name that fits. -/
theorem name_of_read_loop {turns : ℕ} (h : read_loop packet turns s = some s')
    (hroom : s.out_name.length ≤ OUT_NAME) (hjumps : 0 < s.max_jumps) :
    ∃ labels used, NameAt packet (s.max_jumps - 1) s.reader labels used ∧
      s.out_name.length + (dotted labels).length ≤ OUT_NAME := by
  induction turns generalizing s with
  | zero => exact nomatch h
  | succ turns ih =>
    rw [read_loop] at h
    cases hc : packet[s.reader]? with
    | none =>
      rw [turn, hc] at h
      exact nomatch h
    | some c =>
      by_cases hne : c = 0
      · subst hne
        exact ⟨[], 1, .root hc, hroom⟩
      cases hpointer : is_pointer c with
      | false =>
        rw [turn_label hc hne hpointer hroom] at h
        split at h
        · rename_i hfits
          have hlen : ((packet.drop (s.reader + 1)).take c.toNat).length = c.toNat := by
            rw [List.length_take, List.length_drop]
            omega
          rw [Option.bind_some, if_pos rfl] at h
          have hout : (s.past ((packet.drop (s.reader + 1)).take c.toNat)).out_name.length =
              s.out_name.length + c.toNat + 1 := by
            dsimp only [Reading.past]
            rw [List.length_append, List.length_append, hlen]
            rfl
          obtain ⟨labels, used, hname, hfit⟩ := ih h (hout.trans_le hfits.2) hjumps
          dsimp only at hfit
          rw [hout] at hfit
          dsimp only [Reading.past] at hname
          rw [hlen] at hname
          refine ⟨_, _, .label hc hne hpointer hfits.1 hname, ?_⟩
          rw [dotted_cons, List.length_append, List.length_cons, hlen]
          omega
        · exact nomatch h
      | true =>
        cases hlow : packet[s.reader + 1]? with
        | none =>
          have hlt := reader_lt hc
          rw [turn, hc, Option.bind_some, if_neg (not_or_intro hne hlt.not_ge), if_pos hpointer,
            hlow] at h
          exact nomatch h
        | some low =>
          rw [turn_pointer hc hpointer hlow, Option.bind_some] at h
          by_cases hmore : 0 < s.max_jumps - 1
          · rw [if_pos (decide_eq_true hmore)] at h
            obtain ⟨labels, used, hname, hfit⟩ := ih h hroom hmore
            obtain ⟨k, hk⟩ : ∃ k, s.max_jumps - 1 = k + 1 :=
              Nat.exists_eq_succ_of_ne_zero (by omega)
            dsimp only [Reading.jump] at hname
            rw [hk] at hname ⊢
            exact ⟨labels, 2, .pointer hc hpointer hlow hname, hfit⟩
          · have hzero : s.max_jumps - 1 = 0 := by omega
            rw [hzero]
            exact ⟨[], 2, .last hc hpointer hlow, hroom⟩

theorem NameAt.read_dns_name {start used : ℕ} {labels : List (List UInt8)}
    (h : NameAt packet 9 start labels used) (hfit : (dotted labels).length ≤ OUT_NAME) :
    DnsName.read_dns_name packet start = some ((dotted labels).dropLast, used) := by
  have hturns : labels.length + 9 < OUT_NAME + 10 := by
    have hlen := length_le_dotted labels
    omega
  obtain ⟨s, hloop, hout, htotal⟩ := h.read_loop (s := ⟨start, [], false, 0, 10⟩) rfl rfl
    (by rwa [List.length_nil, Nat.zero_add]) hturns
  rw [List.nil_append] at hout
  have hused : s.total = used := htotal.trans (Nat.zero_add used)
  rw [DnsName.read_dns_name, hloop, Option.bind_some, hout, hused]
  cases labels using List.reverseRecOn with
  | nil => rfl
  | append_singleton front label =>
    have hlast : dotted (front ++ [label]) = dotted front ++ label ++ [46] := by
      rw [dotted, List.flatMap_append, List.flatMap_singleton, List.append_assoc]
      rfl
    rw [hlast, List.getLast?_concat, if_pos rfl]

/-- **Reading names.** `read_dns_name` keeps to the packet and to `out_name` and comes to an end
exactly if a name stands there whose labels fit with their dots. -/
theorem read_dns_name_safe_iff (packet : List UInt8) (start : ℕ) :
    (∃ r, read_dns_name packet start = some r) ↔
      ∃ labels used, NameAt packet 9 start labels used ∧ (dotted labels).length ≤ OUT_NAME := by
  constructor
  · rintro ⟨r, hr⟩
    obtain ⟨s, hloop, -⟩ := Option.bind_eq_some_iff.mp hr
    obtain ⟨labels, used, hname, hfit⟩ :=
      name_of_read_loop hloop (Nat.zero_le _) (Nat.succ_pos 9)
    rw [List.length_nil, Nat.zero_add] at hfit
    exact ⟨labels, used, hname, hfit⟩
  · rintro ⟨labels, used, hname, hfit⟩
    exact ⟨_, hname.read_dns_name hfit⟩

/-- A header and the length of a label that is not there, and a header and a label of 63 bytes with
a pointer back to it. -/
theorem read_dns_name_unsafe :
    read_dns_name (List.replicate 12 0 ++ [63]) 12 = none ∧
      read_dns_name (List.replicate 12 0 ++ 63 :: List.replicate 63 97 ++ [0xC0, 12]) 12 =
        none := by
  decide +kernel

/-! ## The round trip -/

/-- Labels as they stand in a packet. -/
def encode (labels : List (List UInt8)) : List UInt8 :=
  labels.flatMap (fun label => UInt8.ofNat label.length :: label) ++ [0]

theorem encode_cons (label : List UInt8) (labels : List (List UInt8)) :
    encode (label :: labels) = UInt8.ofNat label.length :: (label ++ encode labels) := by
  rw [encode, List.flatMap_cons, List.append_assoc]
  rfl

theorem dotted_eq {labels : List (List UInt8)} (hne : labels ≠ []) :
    dotted labels = [46].intercalate labels ++ [46] := by
  induction labels with
  | nil => exact absurd rfl hne
  | cons label labels ih =>
    cases labels with
    | nil => rw [dotted_cons, List.intercalate_singleton]; rfl
    | cons next labels =>
      rw [dotted_cons, ih (List.cons_ne_nil next labels),
        List.intercalate_cons_cons]
      simp only [List.append_assoc, List.cons_append, List.nil_append]

theorem format_label {label : List UInt8} (h : 46 ∉ label) (buf : List UInt8) (label_start : ℕ) :
    label.foldl format_step (buf, label_start) = (buf ++ label, label_start) := by
  induction label generalizing buf with
  | nil => rw [List.foldl_nil, List.append_nil]
  | cons c label ih =>
    rw [List.mem_cons, not_or] at h
    rw [List.foldl_cons, format_step, if_neg (Ne.symm h.1), ih h.2, List.append_assoc,
      List.singleton_append]

/-- The length is put in front of a label when it ends. -/
theorem set_length (front label : List UInt8) :
    (front ++ [0] ++ label).set front.length
        (UInt8.ofNat ((front ++ [0] ++ label).length - front.length - 1)) =
      front ++ UInt8.ofNat label.length :: label := by
  have hlen : (front ++ [0] ++ label).length - front.length - 1 = label.length := by
    rw [List.length_append, List.length_append, List.length_singleton]
    omega
  rw [hlen, List.append_assoc, List.set_append_right _ _ le_rfl, Nat.sub_self]
  rfl

theorem format_labels {labels : List (List UInt8)} (hne : labels ≠ [])
    (h : ∀ label ∈ labels, 46 ∉ label) (front : List UInt8) :
    let st := ([46].intercalate labels).foldl format_step (front ++ [0], front.length)
    st.1.set st.2 (UInt8.ofNat (st.1.length - st.2 - 1)) ++ [0] = front ++ encode labels := by
  induction labels generalizing front with
  | nil => exact absurd rfl hne
  | cons label labels ih =>
    rw [List.forall_mem_cons] at h
    cases labels with
    | nil =>
      rw [List.intercalate_singleton, format_label h.1]
      dsimp only
      rw [set_length, List.append_assoc, encode_cons]
      rfl
    | cons next labels =>
      rw [List.intercalate_cons_cons, List.foldl_append, List.foldl_append, format_label h.1,
        List.foldl_cons, List.foldl_nil, format_step, if_pos rfl]
      dsimp only
      have hfront : (front ++ [0] ++ label).length =
          (front ++ UInt8.ofNat label.length :: label).length := by
        simp only [List.length_append, List.length_cons, List.length_nil]
        omega
      rw [set_length, hfront, ih (List.cons_ne_nil next labels) h.2, encode_cons label,
        List.append_assoc, List.cons_append]

/-- Encoded labels are a name, wherever they stand. -/
theorem nameAt_encode {labels : List (List UInt8)}
    (h : ∀ label ∈ labels, 0 < label.length ∧ label.length ≤ 63) (k : ℕ)
    (front behind : List UInt8) :
    NameAt (front ++ encode labels ++ behind) k front.length labels (encode labels).length := by
  induction labels generalizing front with
  | nil =>
    refine .root ?_
    rw [List.append_assoc, List.getElem?_append_right le_rfl, Nat.sub_self]
    rfl
  | cons label labels ih =>
    rw [List.forall_mem_cons] at h
    obtain ⟨⟨hpos, hle⟩, hrest⟩ := h
    have htoNat : (UInt8.ofNat label.length).toNat = label.length := by
      rw [UInt8.toNat_ofNat']
      exact Nat.mod_eq_of_lt (by omega)
    have hsplit : front ++ encode (label :: labels) ++ behind =
        front ++ UInt8.ofNat label.length :: (label ++ (encode labels ++ behind)) := by
      rw [encode_cons, List.append_assoc, List.cons_append, List.append_assoc]
    have hnext : front ++ encode (label :: labels) ++ behind =
        (front ++ UInt8.ofNat label.length :: label) ++ encode labels ++ behind := by
      rw [hsplit, List.append_assoc (front ++ _), List.append_assoc front, List.cons_append]
    have hdrop : ((front ++ encode (label :: labels) ++ behind).drop (front.length + 1)).take
        (UInt8.ofNat label.length).toNat = label := by
      rw [hsplit, List.drop_append, List.drop_eq_nil_of_le (Nat.le_succ _), Nat.add_sub_cancel_left,
        htoNat]
      exact List.take_left
    have hlen : (front ++ UInt8.ofNat label.length :: label).length =
        front.length + 1 + (UInt8.ofNat label.length).toNat := by
      rw [List.length_append, List.length_cons, htoNat]
      omega
    have hused : (encode (label :: labels)).length =
        1 + (UInt8.ofNat label.length).toNat + (encode labels).length := by
      rw [encode_cons, List.length_cons, List.length_append, htoNat]
      omega
    have hname := ih hrest (front ++ UInt8.ofNat label.length :: label)
    rw [← hnext, hlen] at hname
    rw [hused]
    have hlabel := NameAt.label (c := UInt8.ofNat label.length) ?_ ?_ ?_ ?_ hname
    · rwa [hdrop] at hlabel
    · rw [hsplit, List.getElem?_append_right le_rfl, Nat.sub_self]
      rfl
    · intro hzero
      rw [hzero] at htoNat
      exact absurd htoNat hpos.ne
    · have hall : ∀ n ≤ 63, is_pointer (UInt8.ofNat n) = false := by decide
      exact hall _ hle
    · rw [hnext, ← hlen, List.append_assoc]
      exact (List.sublist_append_left _ _).length_le

/-- A domain name of one or more labels. -/
structure Domain where
  labels : List (List UInt8)
  ne_nil : labels ≠ []
  label : ∀ l ∈ labels, 0 < l.length ∧ l.length ≤ 63 ∧ 46 ∉ l ∧ 0 ∉ l
  short : ([46].intercalate labels).length ≤ 253

def Domain.text (d : Domain) : List UInt8 := [46].intercalate d.labels

theorem Domain.format (d : Domain) : domain_to_dns_format d.text = encode d.labels :=
  format_labels d.ne_nil (fun l hl => (d.label l hl).2.2.1) []

/-- **The round trip.** The name is read back, and as many bytes are consumed as were written,
wherever in a packet they stand. -/
theorem read_dns_name_format (d : Domain) (front behind : List UInt8) :
    read_dns_name (front ++ domain_to_dns_format d.text ++ behind) front.length =
      some (d.text, (domain_to_dns_format d.text).length) := by
  have hname := nameAt_encode (fun l hl => ⟨(d.label l hl).1, (d.label l hl).2.1⟩) 9 front behind
  have hdotted : dotted d.labels = d.text ++ [46] := dotted_eq d.ne_nil
  have hfit : (dotted d.labels).length ≤ OUT_NAME := by
    rw [hdotted, List.length_append]
    exact (Nat.add_le_add_right d.short 1).trans (by decide)
  rw [d.format, hname.read_dns_name hfit, hdotted, List.dropLast_concat]

end SysInC.DnsName
