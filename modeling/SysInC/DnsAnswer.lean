/-
The answers that `heavy_utils/dnsserver.c` makes itself: `build_authoritative_response`, for names
that are blocked or local.

The answer is appended to the whole request and the counts say one question and one answer. So what
is sent is well formed exactly if the request ends with its question; if records follow, such as the
one of EDNS, the first of them is taken for the answer, and the rest is left over.
-/
import SysInC.CString
import SysInC.CText
import SysInC.DnsMessage

set_option autoImplicit false

namespace SysInC.DnsAnswer

open CString DnsMessage

/-! ## The source -/

def DNS_PACKET_MAX : ℕ := 512
def DNS_TYPE_A : ℕ := 1

def htons (v : ℕ) : Word := ⟨[UInt8.ofNat (v / 256), UInt8.ofNat v], rfl⟩

def htonl (v : UInt32) : List UInt8 :=
  [(v >>> 24).toUInt8, (v >>> 16).toUInt8, (v >>> 8).toUInt8, v.toUInt8]

/-- A decimal number up to 255 with no zero in front. -/
def octet (s : List UInt8) : Option UInt8 :=
  let value := s.foldl (fun n c => n * 10 + (c.toNat - 48)) 0
  let digits := s.all fun c => 48 ≤ c && c ≤ 57
  if s.length ≠ 0 ∧ digits = true ∧ (s.length = 1 ∨ s.head? ≠ some 48) ∧ value < 256 then
    some (UInt8.ofNat value)
  else none

/-- `inet_pton(AF_INET, src, &addr)`: what `addr` is afterwards, if `src` is an address. -/
def inet_pton (src : List UInt8) : Option (Buf 4) :=
  match src.splitOn 46 with
  | [a, b, c, d] => do
    let a ← octet a
    let b ← octet b
    let c ← octet c
    let d ← octet d
    some ⟨[a, b, c, d], rfl⟩
  | _ => none

/-- The bytes are written to `*ans_ptr`, which moves behind them. -/
def store (s : Buf DNS_PACKET_MAX × ℕ) (bs : List UInt8) : Option (Buf DNS_PACKET_MAX × ℕ) :=
  (write s.1 s.2 bs).map fun out => (out, s.2 + bs.length)

/-- `addr` and `out_packet` are not initialised. -/
def build_authoritative_response (addr : Buf 4) (req_packet ip_str : List UInt8) (ttl : UInt32)
    (out_packet : Buf DNS_PACKET_MAX) : Option (Buf DNS_PACKET_MAX × ℕ) :=
  if req_packet.length < 12 then some (out_packet, 0)
  else do
    let out ← write out_packet 0 req_packet
    let out ← write out 2 (htons 0x8580).val
    let out ← write out 6 (htons 1).val
    let out ← write out 8 (htons 0).val
    let out ← write out 10 (htons 0).val
    let addr := (inet_pton ip_str).getD addr
    [[0xC0], [0x0C], (htons DNS_TYPE_A).val, (htons 1).val, htonl ttl, (htons 4).val,
      addr.val].foldlM store (out, req_packet.length)

/-- What `main` sends. -/
def response (addr : Buf 4) (req_packet ip_str : List UInt8) (ttl : UInt32)
    (out_packet : Buf DNS_PACKET_MAX) : Option (List UInt8) :=
  (build_authoritative_response addr req_packet ip_str ttl out_packet).map
    fun r => r.1.val.take r.2

/-! ## What is sent -/

/-- One question and one record of type A for its name. -/
def IsAnswer (q : Question) (ttl : UInt32) (addr : Buf 4) (packet : List UInt8) : Prop :=
  packet.length ≤ DNS_PACKET_MAX ∧ ∃ id flags, parse packet =
    some ⟨id, flags, [q], [⟨q.name, DNS_TYPE_A, 1, ttl.toNat, addr.val⟩], [], []⟩

/-- Two writes, one behind the other. -/
theorem write_write {n : ℕ} (b : Buf n) (off : ℕ) (xs ys : List UInt8) :
    ((write b off xs).bind fun b => write b (off + xs.length) ys) = write b off (xs ++ ys) := by
  have hlen : (xs ++ ys).length = xs.length + ys.length := List.length_append
  by_cases hfit : off + (xs ++ ys).length ≤ n
  · obtain ⟨b₁, h₁, hval₁⟩ := write_of_le b xs (show off + xs.length ≤ n by omega)
    obtain ⟨b₂, h₂, hval₂⟩ := write_of_le b₁ ys (show off + xs.length + ys.length ≤ n by omega)
    obtain ⟨b₃, h₃, hval₃⟩ := write_of_le b (xs ++ ys) hfit
    rw [h₁, Option.bind_some, h₂, h₃]
    congr 1
    apply Subtype.ext
    have hfront : (b.val.take off ++ xs).length = off + xs.length := by
      rw [List.length_append, List.length_take, length_val]
      omega
    rw [hval₂, hval₃, write_drop h₁ (Nat.le_add_right _ _), hval₁, List.take_left' hfront, hlen,
      Nat.add_assoc, List.append_assoc (b.val.take off)]
  · have hnone : write b off (xs ++ ys) = none := dif_neg hfit
    rw [hnone]
    cases write b off xs with
    | none => rfl
    | some b₁ => exact dif_neg (by omega)

/-- All that is appended is appended at once. -/
theorem foldlM_store (chunks : List (List UInt8)) (out : Buf DNS_PACKET_MAX) {off : ℕ}
    (hoff : off ≤ DNS_PACKET_MAX) :
    chunks.foldlM store (out, off) =
      (write out off chunks.flatten).map fun out => (out, off + chunks.flatten.length) := by
  induction chunks generalizing out off with
  | nil =>
    have hfit : off + ([] : List UInt8).length ≤ DNS_PACKET_MAX := hoff
    obtain ⟨out', hout', hval⟩ := write_of_le out [] hfit
    have hsame : out' = out := Subtype.ext (by rw [hval]; simp)
    rw [List.flatten_nil, hout', hsame]
    rfl
  | cons bs chunks ih =>
    rw [List.foldlM_cons, List.flatten_cons, ← write_write, store]
    cases hwrite : write out off bs with
    | none => rfl
    | some out' =>
      simp only [Option.map_some, Option.bind_eq_bind, Option.bind_some]
      rw [ih out' (write_some hwrite).1, List.length_append, Nat.add_assoc]

/-- A word in the header is overwritten. -/
theorem write_word {n : ℕ} {b : Buf n} (front : List Word) (old w : Word) (behind : List Word)
    {tail : List UInt8} (hb : b.val = words (front ++ old :: behind) ++ tail) :
    ∃ b', write b (2 * front.length) w.val = some b' ∧
      b'.val = words (front ++ w :: behind) ++ tail := by
  have hsplit : ∀ w : Word, words (front ++ w :: behind) ++ tail =
      words front ++ (w.val ++ (words behind ++ tail)) := by
    intro w
    simp [words]
  rw [hsplit] at hb ⊢
  have hlen := length_words front
  have hfit : 2 * front.length + w.val.length ≤ n := by
    rw [← length_val b, hb, List.length_append, List.length_append, hlen, old.2, w.2]
    omega
  obtain ⟨b', hb', hval⟩ := write_of_le b w.val hfit
  refine ⟨b', hb', ?_⟩
  rw [hval, hb, List.take_left' hlen, w.2, ← List.drop_drop, List.drop_left' hlen,
    List.drop_left' old.2, List.append_assoc]

/-- The header of the answer. -/
def answered (h : Header) : Header := ⟨h.id, htons 0x8580, h.qd, htons 1, htons 0, htons 0⟩

/-- A pointer to the question, and the rest of the record. -/
def answer_bytes (addr : Buf 4) (ttl : UInt32) : List UInt8 :=
  [0xC0, 0x0C] ++ ((htons DNS_TYPE_A).val ++ ((htons 1).val ++ (htonl ttl ++
    ((htons 4).val ++ addr.val))))

theorem length_answer_bytes (addr : Buf 4) (ttl : UInt32) :
    (answer_bytes addr ttl).length = 16 := by
  simp [answer_bytes, htons, htonl, length_val]

/-- The answer fits behind the request, and then it is sent, or it is written past the end. -/
theorem response_eq {h : Header} {body ip_str : List UInt8} {addr : Buf 4}
    (haddr : inet_pton ip_str = some addr) (stale : Buf 4) (ttl : UInt32)
    (out_packet : Buf DNS_PACKET_MAX) (hlen : (h.bytes ++ body).length ≤ DNS_PACKET_MAX) :
    response stale (h.bytes ++ body) ip_str ttl out_packet =
      if (h.bytes ++ body).length + 16 ≤ DNS_PACKET_MAX then
        some ((answered h).bytes ++ body ++ answer_bytes addr ttl)
      else none := by
  have hshort : ¬ (h.bytes ++ body).length < 12 := by
    rw [List.length_append, h.length_bytes]
    omega
  obtain ⟨out₁, h₁, hval₁⟩ := write_of_le out_packet (h.bytes ++ body)
    (show 0 + (h.bytes ++ body).length ≤ DNS_PACKET_MAX by rwa [Nat.zero_add])
  rw [List.take_zero, List.nil_append, List.append_assoc] at hval₁
  obtain ⟨out₂, h₂, hval₂⟩ := write_word [h.id] h.flags (htons 0x8580) _ hval₁
  obtain ⟨out₃, h₃, hval₃⟩ := write_word [h.id, htons 0x8580, h.qd] h.an (htons 1) _ hval₂
  obtain ⟨out₄, h₄, hval₄⟩ := write_word [h.id, htons 0x8580, h.qd, htons 1] h.ns (htons 0) _ hval₃
  obtain ⟨out₅, h₅, hval₅⟩ :=
    write_word [h.id, htons 0x8580, h.qd, htons 1, htons 0] h.ar (htons 0) _ hval₄
  have hval : out₅.val = ((answered h).bytes ++ body) ++
      out_packet.val.drop (0 + (h.bytes ++ body).length) :=
    hval₅.trans (List.append_assoc _ _ _).symm
  have hchunks : [[0xC0], [0x0C], (htons DNS_TYPE_A).val, (htons 1).val, htonl ttl, (htons 4).val,
      addr.val].flatten = answer_bytes addr ttl := by
    simp [answer_bytes]
  have hfront : ((answered h).bytes ++ body).length = (h.bytes ++ body).length := by
    rw [List.length_append, List.length_append, Header.length_bytes, Header.length_bytes]
  have hbuild : response stale (h.bytes ++ body) ip_str ttl out_packet =
      (write out₅ (h.bytes ++ body).length (answer_bytes addr ttl)).map
        fun out => out.val.take ((h.bytes ++ body).length + 16) := by
    rw [response, build_authoritative_response, if_neg hshort]
    simp only [h₁, Option.bind_eq_bind, Option.bind_some]
    rw [show write out₁ 2 _ = _ from h₂, Option.bind_some, show write out₂ 6 _ = _ from h₃,
      Option.bind_some, show write out₃ 8 _ = _ from h₄, Option.bind_some,
      show write out₄ 10 _ = _ from h₅, Option.bind_some, haddr, Option.getD_some,
      foldlM_store _ _ hlen, hchunks, Option.map_map, length_answer_bytes]
    rfl
  rw [hbuild]
  split
  · next hfit =>
    obtain ⟨out₆, h₆, hval₆⟩ := write_of_le out₅ (answer_bytes addr ttl)
      (show (h.bytes ++ body).length + (answer_bytes addr ttl).length ≤ DNS_PACKET_MAX by
        rwa [length_answer_bytes])
    rw [h₆, Option.map_some, hval₆, hval, List.take_left' hfront]
    congr 1
    exact List.take_left' (by rw [List.length_append, hfront, length_answer_bytes])
  · next hfit =>
    have hnone : write out₅ (h.bytes ++ body).length (answer_bytes addr ttl) = none :=
      dif_neg (by rwa [length_answer_bytes])
    rw [hnone]
    rfl

/-! ## What it says -/

theorem big_endian_htonl (v : UInt32) : big_endian (htonl v) = v.toNat := by
  have hlt := v.toNat_lt
  simp only [htonl, big_endian, List.foldl_cons, List.foldl_nil, UInt32.toNat_toUInt8,
    UInt32.toNat_shiftRight, Nat.shiftRight_eq_div_pow]
  have h24 : (24 : UInt32).toNat % 32 = 24 := rfl
  have h16 : (16 : UInt32).toNat % 32 = 16 := rfl
  have h8 : (8 : UInt32).toNat % 32 = 8 := rfl
  rw [h24, h16, h8]
  omega

/-- The record that is appended, if its pointer leads to a name. -/
theorem record_answer {p pre : List UInt8} {addr : Buf 4} {ttl : UInt32}
    (hp : p = pre ++ answer_bytes addr ttl) (hpre : 12 < pre.length) {name : List (List UInt8)}
    {next : ℕ} (hname : name_from p pre.length 12 = some (name, next)) :
    record p pre.length = some (⟨name, DNS_TYPE_A, 1, ttl.toNat, addr.val⟩, p.length) := by
  have hfield : ∀ front bs behind : List UInt8, answer_bytes addr ttl = front ++ (bs ++ behind) →
      ∀ {k n}, front.length = k → bs.length = n → bytes p (pre.length + k) n = some bs := by
    intro front bs behind hbytes k n hk hn
    have hsplit : p = (pre ++ front) ++ (bs ++ behind) := by
      rw [hp, hbytes, List.append_assoc]
    exact bytes_at hsplit (by rw [List.length_append, hk]) hn
  have hnumber : ∀ front bs behind : List UInt8, answer_bytes addr ttl = front ++ (bs ++ behind) →
      ∀ {k n}, front.length = k → bs.length = n →
        number p (pre.length + k) n = some (big_endian bs) := by
    intro front bs behind hbytes k n hk hn
    rw [number, hfield front bs behind hbytes hk hn, Option.map_some]
  have hc : number p pre.length 1 = some 192 := hnumber [] [0xC0] _ rfl rfl rfl
  have hlow : number p (pre.length + 1) 1 = some 12 := hnumber [0xC0] [0x0C] _ rfl rfl rfl
  have htype : number p (pre.length + 2) 2 = some DNS_TYPE_A :=
    hnumber [0xC0, 0x0C] (htons DNS_TYPE_A).val _ rfl rfl rfl
  have hclass : number p (pre.length + 4) 2 = some 1 :=
    hnumber ([0xC0, 0x0C] ++ (htons DNS_TYPE_A).val) (htons 1).val _ rfl rfl rfl
  have httl : number p (pre.length + 6) 4 = some (big_endian (htonl ttl)) :=
    hnumber ([0xC0, 0x0C] ++ (htons DNS_TYPE_A).val ++ (htons 1).val) (htonl ttl) _ rfl rfl rfl
  have hlength : number p (pre.length + 10) 2 = some 4 :=
    hnumber ([0xC0, 0x0C] ++ (htons DNS_TYPE_A).val ++ (htons 1).val ++ htonl ttl) (htons 4).val _
      rfl rfl rfl
  have hdata : bytes p (pre.length + 12) 4 = some addr.val :=
    hfield ([0xC0, 0x0C] ++ (htons DNS_TYPE_A).val ++ (htons 1).val ++ htonl ttl ++ (htons 4).val)
      addr.val [] (by rw [List.append_nil]; rfl) rfl addr.property
  have hat := name_at_pointer hc hlow le_rfl hpre hname
  simp only [record, hat, Nat.add_assoc, Nat.reduceAdd, htype, hclass, httl, hlength, hdata,
    Option.bind_eq_bind, Option.bind_some, big_endian_htonl]
  rw [hp, List.length_append, length_answer_bytes]

section

variable {h : Header} {body : List UInt8} (addr : Buf 4) (ttl : UInt32)

/-- The packet that is sent. -/
def appended (h : Header) (body : List UInt8) : List UInt8 :=
  (answered h).bytes ++ body ++ answer_bytes addr ttl

theorem length_answered : ((answered h).bytes ++ body).length = (h.bytes ++ body).length := by
  rw [List.length_append, List.length_append, Header.length_bytes, Header.length_bytes]

theorem length_appended : (appended addr ttl h body).length = (h.bytes ++ body).length + 16 := by
  rw [appended, List.length_append, length_answered, length_answer_bytes]

/-- It has the bytes of the request behind the header. -/
theorem extends_appended : Extends (h.bytes ++ body) (appended addr ttl h body) := by
  have hdrop : (appended addr ttl h body).drop 12 =
      (h.bytes ++ body).drop 12 ++ answer_bytes addr ttl := by
    rw [appended, List.append_assoc, List.drop_left' (Header.length_bytes _),
      List.drop_left' (Header.length_bytes _)]
  exact extends_of_drop (Nat.le.intro (length_appended addr ttl).symm) hdrop

/-- It has one question and one answer, which are the ones that are wanted if the record behind the
question is, up to the end of the packet. -/
theorem parse_appended {q : Question} {i : ℕ} (hqd : big_endian h.qd = 1)
    (hquestion : question (h.bytes ++ body) 12 = some (q, i)) {r : Record} :
    (∃ id flags, parse (appended addr ttl h body) = some ⟨id, flags, [q], [r], [], []⟩) ↔
      record (appended addr ttl h body) i = some (r, (h.bytes ++ body).length + 16) := by
  have hq := (extends_appended addr ttl).question le_rfl hquestion
  have hparse : parse (appended addr ttl h body) = sections (appended addr ttl h body)
      (big_endian h.id) (big_endian (htons 0x8580)) 1 1 0 0 := by
    rw [appended, List.append_assoc, parse_header, show (answered h).qd = h.qd from rfl, hqd]
    rfl
  rw [hparse, sections_answer, hq, length_appended]
  constructor
  · rintro ⟨j, hj, hrecord⟩
    obtain rfl : i = j := (Prod.mk.inj (Option.some.inj hj)).2
    exact hrecord
  · intro hrecord
    exact ⟨i, rfl, hrecord⟩

end

/-- **Answers.** What is sent for a request of one question and any records is one answer to it
exactly if there are no records, and the answer still fits. -/
theorem response_is_answer_iff {request ip_str : List UInt8} {addr : Buf 4}
    (haddr : inet_pton ip_str = some addr) (stale : Buf 4) (ttl : UInt32)
    (out_packet : Buf DNS_PACKET_MAX) (hlen : request.length ≤ DNS_PACKET_MAX) {m : Message}
    (hparse : parse request = some m) {q : Question} (hquestions : m.questions = [q])
    (hanswers : m.answers = []) (hauthorities : m.authorities = []) :
    (∃ packet, response stale request ip_str ttl out_packet = some packet ∧
      IsAnswer q ttl addr packet) ↔ m.additional = [] ∧ request.length ≤ 496 := by
  obtain ⟨h, body, rfl⟩ := exists_header (length_of_parse hparse)
  rw [response_eq haddr stale ttl out_packet hlen]
  rw [parse_header] at hparse
  obtain ⟨hqd, i, hquestion, hadditional⟩ :=
    sections_request hparse hquestions hanswers hauthorities
  have hi : 17 ≤ i := (question_next hquestion).1
  have hextends : Extends (h.bytes ++ body) (appended addr ttl h body) := extends_appended addr ttl
  constructor
  · rintro ⟨packet, hresponse, -, hparsed⟩
    split at hresponse
    · next hfit =>
      obtain rfl := Option.some.inj hresponse
      have hrecord := (parse_appended addr ttl hqd hquestion).mp hparsed
      refine ⟨?_, Nat.le_of_add_le_add_right hfit⟩
      by_contra hne
      -- the first of the records is taken for the answer, and it ends in the request
      obtain ⟨⟨r, next⟩, hr⟩ := section_of_cons hadditional hne
      have hle : next ≤ (h.bytes ++ body).length := record_next hr
      have hfirst := hextends.record (by omega) hr
      rw [hrecord] at hfirst
      have hend := (Prod.mk.inj (Option.some.inj hfirst)).2
      omega
    · cases hresponse
  · rintro ⟨hnone, hshort⟩
    have hfit : (h.bytes ++ body).length + 16 ≤ DNS_PACKET_MAX := Nat.add_le_add_right hshort 16
    rw [if_pos hfit]
    refine ⟨appended addr ttl h body, rfl, (length_appended addr ttl).trans_le hfit, ?_⟩
    rw [parse_appended addr ttl hqd hquestion]
    -- the request ends with the question, and the answer stands behind it
    rw [hnone] at hadditional
    rw [← section_of_length hadditional] at hadditional
    obtain rfl := section_of_zero hadditional
    have hmore : 13 ≤ ((answered h).bytes ++ body).length := by
      rw [length_answered]
      omega
    obtain ⟨next, hname⟩ := hextends.question_name hmore hquestion
    have hrecord := record_answer rfl hmore hname
    rw [← appended, length_appended, length_answered] at hrecord
    exact hrecord

/-- A header with one question and so many additional records, and the question for the address of
`a.b`. -/
def question_for_a_b (ar : UInt8) : List UInt8 :=
  [0, 7, 1, 0, 0, 1, 0, 0, 0, 0, 0, ar] ++ [1, 97, 1, 98, 0, 0, 1, 0, 1]

def address_text : List UInt8 := CText.literal "10.0.0.7"

theorem response_is_answer_plain :
    (∃ packet, response (zeros 4) (question_for_a_b 0) address_text 60 (zeros _) = some packet ∧
      IsAnswer ⟨[[97], [98]], 1, 1⟩ 60 ⟨[10, 0, 0, 7], rfl⟩ packet) ↔
      ([] : List Record) = [] ∧ (question_for_a_b 0).length ≤ 496 :=
  have haddr : inet_pton address_text = some ⟨[10, 0, 0, 7], rfl⟩ := rfl
  have hparse : parse (question_for_a_b 0) =
      some ⟨7, 0x100, [⟨[[97], [98]], 1, 1⟩], [], [], []⟩ := by decide
  response_is_answer_iff haddr (zeros 4) 60 (zeros _) (by decide) hparse rfl rfl rfl

/-- The same question with an EDNS record. -/
def with_edns : List UInt8 := question_for_a_b 1 ++ [0, 0, 41, 16, 0, 0, 0, 0, 0, 0, 0]

/-- What is sent has that record for its answer, and sixteen bytes that no count speaks of. -/
theorem response_not_answer :
    parse with_edns = some ⟨7, 0x100, [⟨[[97], [98]], 1, 1⟩], [], [], [⟨[], 41, 4096, 0, []⟩]⟩ ∧
      ¬ ∃ packet, response (zeros 4) with_edns address_text 60 (zeros _) = some packet ∧
        IsAnswer ⟨[[97], [98]], 1, 1⟩ 60 ⟨[10, 0, 0, 7], rfl⟩ packet := by
  have hnone : (response (zeros 4) with_edns address_text 60 (zeros _)).bind parse = none := by
    decide +kernel
  refine ⟨by decide +kernel, ?_⟩
  rintro ⟨packet, hresponse, -, id, flags, hparsed⟩
  rw [hresponse, Option.bind_some, hparsed] at hnone
  cases hnone

end SysInC.DnsAnswer
