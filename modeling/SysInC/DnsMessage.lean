/-
DNS messages as the protocol has them: a header with the counts of four sections, questions, and
records in three sections, with nothing behind the last one.

A name is labels of at most 63 bytes up to a zero, or up to a pointer to an earlier place behind the
header, where it goes on. Everything is read through `bytes`, so what is read in one packet is read
in every packet that has the same bytes behind the header and possibly more.
-/
import Mathlib.Algebra.Order.Ring.Nat
import Mathlib.Tactic.Common

set_option autoImplicit false

namespace SysInC.DnsMessage

/-! ## Reading a message -/

/-- So many bytes from `i` on. -/
def bytes (p : List UInt8) (i k : ℕ) : Option (List UInt8) :=
  if i + k ≤ p.length then some ((p.drop i).take k) else none

/-- The bytes as a number, the first one the highest. -/
def big_endian (bs : List UInt8) : ℕ := bs.foldl (fun n b => n * 256 + b.toNat) 0

def number (p : List UInt8) (i k : ℕ) : Option ℕ := (bytes p i k).map big_endian

/-- The labels up to a zero or to a pointer, where the pointer leads, and the place behind. Of the
`fuel` each label takes one. -/
def labels_from (p : List UInt8) : ℕ → ℕ → Option (List (List UInt8) × Option ℕ × ℕ)
  | 0, _ => none
  | fuel + 1, pos => do
    let c ← number p pos 1
    if c = 0 then some ([], none, pos + 1)
    else if c < 64 then do
      let label ← bytes p (pos + 1) c
      let (labels, target, next) ← labels_from p fuel (pos + 1 + c)
      some (label :: labels, target, next)
    else if 192 ≤ c then do
      let low ← number p (pos + 1) 1
      some ([], some ((c - 192) * 256 + low), pos + 2)
    else none

/-- The name at a place and the place behind it. Every pointer leads to an earlier place than the
last one did, so `start + 1` of them are enough. -/
def name_from (p : List UInt8) : ℕ → ℕ → Option (List (List UInt8) × ℕ)
  | 0, _ => none
  | jumps + 1, start => do
    let (labels, target, next) ← labels_from p p.length start
    match target with
    | none => some (labels, next)
    | some target =>
      if 12 ≤ target ∧ target < start then do
        let (more, _) ← name_from p jumps target
        some (labels ++ more, next)
      else none

def name_at (p : List UInt8) (pos : ℕ) : Option (List (List UInt8) × ℕ) :=
  name_from p (pos + 1) pos

structure Question where
  name : List (List UInt8)
  qtype : ℕ
  qclass : ℕ
  deriving DecidableEq

structure Record where
  name : List (List UInt8)
  rtype : ℕ
  rclass : ℕ
  ttl : ℕ
  rdata : List UInt8
  deriving DecidableEq

def question (p : List UInt8) (pos : ℕ) : Option (Question × ℕ) := do
  let (name, i) ← name_at p pos
  let qtype ← number p i 2
  let qclass ← number p (i + 2) 2
  some (⟨name, qtype, qclass⟩, i + 4)

def record (p : List UInt8) (pos : ℕ) : Option (Record × ℕ) := do
  let (name, i) ← name_at p pos
  let rtype ← number p i 2
  let rclass ← number p (i + 2) 2
  let ttl ← number p (i + 4) 4
  let rdlength ← number p (i + 8) 2
  let rdata ← bytes p (i + 10) rdlength
  some (⟨name, rtype, rclass, ttl, rdata⟩, i + 10 + rdlength)

/-- A section of so many entries. -/
def section_of {α : Type} (entry : ℕ → Option (α × ℕ)) : ℕ → ℕ → Option (List α × ℕ)
  | 0, pos => some ([], pos)
  | count + 1, pos => do
    let (a, i) ← entry pos
    let (rest, next) ← section_of entry count i
    some (a :: rest, next)

structure Message where
  id : ℕ
  flags : ℕ
  questions : List Question
  answers : List Record
  authorities : List Record
  additional : List Record
  deriving DecidableEq

/-- The sections behind the header, of so many entries each. -/
def sections (p : List UInt8) (id flags qd an ns ar : ℕ) : Option Message := do
  let (questions, i) ← section_of (question p) qd 12
  let (answers, j) ← section_of (record p) an i
  let (authorities, k) ← section_of (record p) ns j
  let (additional, l) ← section_of (record p) ar k
  if l = p.length then some ⟨id, flags, questions, answers, authorities, additional⟩ else none

def parse (p : List UInt8) : Option Message := do
  let id ← number p 0 2
  let flags ← number p 2 2
  let qd ← number p 4 2
  let an ← number p 6 2
  let ns ← number p 8 2
  let ar ← number p 10 2
  sections p id flags qd an ns ar

/-! ## Bytes -/

theorem bytes_of_le {p : List UInt8} {i k : ℕ} (h : i + k ≤ p.length) :
    bytes p i k = some ((p.drop i).take k) :=
  if_pos h

theorem bytes_some {p : List UInt8} {i k : ℕ} {bs : List UInt8} (h : bytes p i k = some bs) :
    i + k ≤ p.length ∧ bs = (p.drop i).take k := by
  unfold bytes at h
  split at h
  · next hle => exact ⟨hle, (Option.some.inj h).symm⟩
  · cases h

/-- The bytes between the ones in front and the ones behind. -/
theorem bytes_at {p front bs behind : List UInt8} (hp : p = front ++ (bs ++ behind)) {i k : ℕ}
    (hi : front.length = i) (hk : bs.length = k) : bytes p i k = some bs := by
  subst hp hi hk
  rw [bytes_of_le (by simp), List.drop_left, List.take_left]

theorem number_at {p front bs behind : List UInt8} (hp : p = front ++ (bs ++ behind)) {i k : ℕ}
    (hi : front.length = i) (hk : bs.length = k) : number p i k = some (big_endian bs) := by
  rw [number, bytes_at hp hi hk, Option.map_some]

/-- The second packet has the bytes of the first one, the header apart. -/
def Extends (p q : List UInt8) : Prop :=
  p.length ≤ q.length ∧ ∀ {i k : ℕ} {bs : List UInt8}, 12 ≤ i → bytes p i k = some bs →
    bytes q i k = some bs

theorem extends_of_drop {p q behind : List UInt8} (hlen : p.length ≤ q.length)
    (hdrop : q.drop 12 = p.drop 12 ++ behind) : Extends p q := by
  refine ⟨hlen, fun {i k bs} hi hbs => ?_⟩
  obtain ⟨hle, rfl⟩ := bytes_some hbs
  obtain ⟨d, rfl⟩ := Nat.exists_eq_add_of_le hi
  rw [bytes_of_le (hle.trans hlen), ← List.drop_drop, hdrop, ← List.drop_drop,
    List.drop_append_of_le_length (by rw [List.length_drop]; omega),
    List.take_append_of_le_length (by rw [List.length_drop, List.length_drop]; omega)]

variable {p q : List UInt8}

theorem Extends.bytes (h : Extends p q) {i k : ℕ} {bs : List UInt8} (hi : 12 ≤ i)
    (hbs : bytes p i k = some bs) : DnsMessage.bytes q i k = some bs :=
  h.2 hi hbs

theorem Extends.number (h : Extends p q) {i k n : ℕ} (hi : 12 ≤ i) (hn : number p i k = some n) :
    DnsMessage.number q i k = some n := by
  obtain ⟨bs, hbs, rfl⟩ := Option.map_eq_some_iff.mp hn
  rw [DnsMessage.number, h.bytes hi hbs, Option.map_some]

/-! ## The header -/

/-- Two bytes, the first one the highest. -/
abbrev Word := { b : List UInt8 // b.length = 2 }

structure Header where
  id : Word
  flags : Word
  qd : Word
  an : Word
  ns : Word
  ar : Word

def words (ws : List Word) : List UInt8 := ws.flatMap Subtype.val

def Header.words (h : Header) : List Word := [h.id, h.flags, h.qd, h.an, h.ns, h.ar]

def Header.bytes (h : Header) : List UInt8 := DnsMessage.words h.words

theorem words_cons (w : Word) (ws : List Word) : words (w :: ws) = w.val ++ words ws :=
  List.flatMap_cons

theorem length_words (ws : List Word) : (words ws).length = 2 * ws.length := by
  induction ws with
  | nil => rfl
  | cons w ws ih =>
    rw [words_cons, List.length_append, w.2, ih, List.length_cons]
    omega

theorem Header.length_bytes (h : Header) : h.bytes.length = 12 := length_words h.words

theorem exists_word {p : List UInt8} {n : ℕ} (h : n + 2 ≤ p.length) :
    ∃ (w : Word) (rest : List UInt8), p = w.val ++ rest ∧ n ≤ rest.length := by
  refine ⟨⟨p.take 2, ?_⟩, p.drop 2, (List.take_append_drop 2 p).symm, ?_⟩
  · rw [List.length_take]
    omega
  · rw [List.length_drop]
    omega

theorem exists_words (k : ℕ) {p : List UInt8} (h : 2 * k ≤ p.length) :
    ∃ (ws : List Word) (body : List UInt8), ws.length = k ∧ p = words ws ++ body := by
  induction k generalizing p with
  | zero => exact ⟨[], p, rfl, rfl⟩
  | succ k ih =>
    obtain ⟨w, rest, rfl, hrest⟩ := exists_word h
    obtain ⟨ws, body, hlen, rfl⟩ := ih hrest
    refine ⟨w :: ws, body, by rw [List.length_cons, hlen], ?_⟩
    rw [words_cons, List.append_assoc]

theorem exists_header {p : List UInt8} (h : 12 ≤ p.length) :
    ∃ (header : Header) (body : List UInt8), p = header.bytes ++ body := by
  obtain ⟨ws, body, hlen, rfl⟩ := exists_words 6 h
  match ws, hlen with
  | [id, flags, qd, an, ns, ar], _ => exact ⟨⟨id, flags, qd, an, ns, ar⟩, body, rfl⟩

/-- A word of the header at its place. -/
theorem number_word (front : List Word) (w : Word) (behind : List Word) (body : List UInt8) :
    number (words (front ++ w :: behind) ++ body) (2 * front.length) 2 =
      some (big_endian w.val) := by
  have hp : words (front ++ w :: behind) ++ body =
      words front ++ (w.val ++ (words behind ++ body)) := by
    simp [words]
  exact number_at hp (length_words front) w.2

theorem parse_header (h : Header) (body : List UInt8) :
    parse (h.bytes ++ body) = sections (h.bytes ++ body) (big_endian h.id) (big_endian h.flags)
      (big_endian h.qd) (big_endian h.an) (big_endian h.ns) (big_endian h.ar) := by
  have hid : number (h.bytes ++ body) 0 2 = _ := number_word [] h.id _ body
  have hflags : number (h.bytes ++ body) 2 2 = _ := number_word [h.id] h.flags _ body
  have hqd : number (h.bytes ++ body) 4 2 = _ := number_word [h.id, h.flags] h.qd _ body
  have han : number (h.bytes ++ body) 6 2 = _ := number_word [h.id, h.flags, h.qd] h.an _ body
  have hns : number (h.bytes ++ body) 8 2 = _ :=
    number_word [h.id, h.flags, h.qd, h.an] h.ns _ body
  have har : number (h.bytes ++ body) 10 2 = _ :=
    number_word [h.id, h.flags, h.qd, h.an, h.ns] h.ar _ body
  simp only [parse, hid, hflags, hqd, han, hns, har, Option.bind_eq_bind, Option.bind_some]

theorem length_of_parse {m : Message} (h : parse p = some m) : 12 ≤ p.length := by
  obtain ⟨id, -, h⟩ := Option.bind_eq_some_iff.mp h
  obtain ⟨flags, -, h⟩ := Option.bind_eq_some_iff.mp h
  obtain ⟨qd, -, h⟩ := Option.bind_eq_some_iff.mp h
  obtain ⟨an, -, h⟩ := Option.bind_eq_some_iff.mp h
  obtain ⟨ns, -, h⟩ := Option.bind_eq_some_iff.mp h
  obtain ⟨ar, har, -⟩ := Option.bind_eq_some_iff.mp h
  obtain ⟨bs, hbs, -⟩ := Option.map_eq_some_iff.mp har
  exact (bytes_some hbs).1

/-! ## What is read in a packet that goes on -/

theorem Extends.labels_from (h : Extends p q) {fuel more : ℕ} (hfuel : fuel ≤ more) {pos : ℕ}
    (hpos : 12 ≤ pos) {r : List (List UInt8) × Option ℕ × ℕ}
    (hr : labels_from p fuel pos = some r) : DnsMessage.labels_from q more pos = some r := by
  induction fuel generalizing more pos r with
  | zero => cases hr
  | succ fuel ih =>
    obtain ⟨more, rfl⟩ := Nat.exists_eq_add_of_le' (Nat.lt_of_lt_of_le (Nat.succ_pos fuel) hfuel)
    obtain ⟨c, hc, hr⟩ := Option.bind_eq_some_iff.mp hr
    simp only [DnsMessage.labels_from, h.number hpos hc, Option.bind_eq_bind, Option.bind_some]
    split at hr
    · next hzero => rwa [if_pos hzero]
    · next hzero =>
      rw [if_neg hzero]
      split at hr
      · next hlabel =>
        obtain ⟨label, hbytes, hr⟩ := Option.bind_eq_some_iff.mp hr
        obtain ⟨rest, hrest, hr⟩ := Option.bind_eq_some_iff.mp hr
        have hmore := ih (Nat.le_of_succ_le_succ hfuel) (Nat.le_add_right_of_le (by omega)) hrest
        rw [if_pos hlabel, h.bytes (Nat.le_add_right_of_le hpos) hbytes, Option.bind_some, hmore]
        exact hr
      · next hlabel =>
        rw [if_neg hlabel]
        split at hr
        · next hpointer =>
          obtain ⟨low, hlow, hr⟩ := Option.bind_eq_some_iff.mp hr
          rw [if_pos hpointer, h.number (Nat.le_add_right_of_le hpos) hlow]
          exact hr
        · cases hr

theorem Extends.name_from (h : Extends p q) {jumps more : ℕ} (hjumps : jumps ≤ more) {start : ℕ}
    (hstart : 12 ≤ start) {r : List (List UInt8) × ℕ} (hr : name_from p jumps start = some r) :
    DnsMessage.name_from q more start = some r := by
  induction jumps generalizing more start r with
  | zero => cases hr
  | succ jumps ih =>
    obtain ⟨more, rfl⟩ := Nat.exists_eq_add_of_le' (Nat.lt_of_lt_of_le (Nat.succ_pos jumps) hjumps)
    obtain ⟨⟨labels, target, next⟩, hlabels, hr⟩ := Option.bind_eq_some_iff.mp hr
    simp only [DnsMessage.name_from, h.labels_from h.1 hstart hlabels, Option.bind_eq_bind,
      Option.bind_some]
    cases target with
    | none => exact hr
    | some target =>
      dsimp only at hr ⊢
      split at hr
      · next htarget =>
        obtain ⟨rest, hrest, hr⟩ := Option.bind_eq_some_iff.mp hr
        rw [if_pos htarget, ih (Nat.le_of_succ_le_succ hjumps) htarget.1 hrest]
        exact hr
      · cases hr

theorem Extends.name_at (h : Extends p q) {pos : ℕ} (hpos : 12 ≤ pos)
    {r : List (List UInt8) × ℕ} (hr : name_at p pos = some r) : DnsMessage.name_at q pos = some r :=
  h.name_from le_rfl hpos hr

/-- A name that is only a pointer. -/
theorem name_at_pointer {pos low next : ℕ} (hc : number p pos 1 = some 192)
    (hlow : number p (pos + 1) 1 = some low) (hbehind : 12 ≤ low) (hlt : low < pos)
    {name : List (List UInt8)} (hname : name_from p pos low = some (name, next)) :
    name_at p pos = some (name, pos + 2) := by
  obtain ⟨bs, hbs, -⟩ := Option.map_eq_some_iff.mp hc
  obtain ⟨fuel, hfuel⟩ :=
    Nat.exists_eq_add_of_lt (Nat.lt_of_lt_of_le (Nat.zero_lt_succ pos) (bytes_some hbs).1)
  have hlabels : labels_from p p.length pos = some ([], some low, pos + 2) := by
    rw [hfuel, labels_from, hc, Option.bind_eq_bind, Option.bind_some, if_neg (by decide),
      if_neg (by decide), if_pos le_rfl, hlow, Option.bind_some, Nat.sub_self, Nat.zero_mul,
      Nat.zero_add]
  simp only [name_at, name_from, hlabels, Option.bind_eq_bind, Option.bind_some]
  rw [if_pos ⟨hbehind, hlt⟩, hname]
  rfl

theorem labels_from_next {fuel pos : ℕ} {r : List (List UInt8) × Option ℕ × ℕ}
    (hr : labels_from p fuel pos = some r) : pos < r.2.2 := by
  induction fuel generalizing pos r with
  | zero => cases hr
  | succ fuel ih =>
    obtain ⟨c, hc, hr⟩ := Option.bind_eq_some_iff.mp hr
    split at hr
    · obtain rfl := Option.some.inj hr
      exact Nat.lt_succ_self pos
    · split at hr
      · obtain ⟨label, -, hr⟩ := Option.bind_eq_some_iff.mp hr
        obtain ⟨⟨labels, target, next⟩, hrest, hr⟩ := Option.bind_eq_some_iff.mp hr
        obtain rfl := Option.some.inj hr
        have hlt : pos + 1 + c < next := ih hrest
        exact Nat.lt_of_le_of_lt (by omega) hlt
      · split at hr
        · obtain ⟨low, -, hr⟩ := Option.bind_eq_some_iff.mp hr
          obtain rfl := Option.some.inj hr
          dsimp only
          omega
        · cases hr

theorem name_at_next {pos : ℕ} {r : List (List UInt8) × ℕ} (hr : name_at p pos = some r) :
    pos < r.2 := by
  obtain ⟨⟨labels, target, next⟩, hlabels, hr⟩ := Option.bind_eq_some_iff.mp hr
  have hlt := labels_from_next hlabels
  cases target with
  | none =>
    obtain rfl := Option.some.inj hr
    exact hlt
  | some target =>
    dsimp only at hr
    split at hr
    · obtain ⟨rest, -, hr⟩ := Option.bind_eq_some_iff.mp hr
      obtain rfl := Option.some.inj hr
      exact hlt
    · cases hr

theorem Extends.question (h : Extends p q) {pos : ℕ} (hpos : 12 ≤ pos) {r : Question × ℕ}
    (hr : question p pos = some r) : DnsMessage.question q pos = some r := by
  obtain ⟨⟨name, i⟩, hname, hr⟩ := Option.bind_eq_some_iff.mp hr
  obtain ⟨qtype, htype, hr⟩ := Option.bind_eq_some_iff.mp hr
  obtain ⟨qclass, hclass, hr⟩ := Option.bind_eq_some_iff.mp hr
  have hi : pos < i := name_at_next hname
  simp only [DnsMessage.question, h.name_at hpos hname, h.number (hpos.trans hi.le) htype,
    h.number (show 12 ≤ i + 2 by omega) hclass, Option.bind_eq_bind, Option.bind_some]
  exact hr

theorem Extends.record (h : Extends p q) {pos : ℕ} (hpos : 12 ≤ pos) {r : Record × ℕ}
    (hr : record p pos = some r) : DnsMessage.record q pos = some r := by
  obtain ⟨⟨name, i⟩, hname, hr⟩ := Option.bind_eq_some_iff.mp hr
  obtain ⟨rtype, htype, hr⟩ := Option.bind_eq_some_iff.mp hr
  obtain ⟨rclass, hclass, hr⟩ := Option.bind_eq_some_iff.mp hr
  obtain ⟨ttl, httl, hr⟩ := Option.bind_eq_some_iff.mp hr
  obtain ⟨rdlength, hlength, hr⟩ := Option.bind_eq_some_iff.mp hr
  obtain ⟨rdata, hdata, hr⟩ := Option.bind_eq_some_iff.mp hr
  have hi : pos < i := name_at_next hname
  simp only [DnsMessage.record, h.name_at hpos hname, h.number (hpos.trans hi.le) htype,
    h.number (show 12 ≤ i + 2 by omega) hclass, h.number (show 12 ≤ i + 4 by omega) httl,
    h.number (show 12 ≤ i + 8 by omega) hlength, h.bytes (show 12 ≤ i + 10 by omega) hdata,
    Option.bind_eq_bind, Option.bind_some]
  exact hr

/-- A question stands in the packet with a name of a byte at least. -/
theorem question_next {pos : ℕ} {r : Question × ℕ} (hr : question p pos = some r) :
    pos + 5 ≤ r.2 ∧ r.2 ≤ p.length := by
  obtain ⟨⟨name, i⟩, hname, hr⟩ := Option.bind_eq_some_iff.mp hr
  obtain ⟨qtype, -, hr⟩ := Option.bind_eq_some_iff.mp hr
  obtain ⟨qclass, hclass, hr⟩ := Option.bind_eq_some_iff.mp hr
  obtain ⟨bs, hbs, -⟩ := Option.map_eq_some_iff.mp hclass
  have hlt : pos < i := name_at_next hname
  have hle := (bytes_some hbs).1
  obtain rfl := Option.some.inj hr
  dsimp only
  omega

theorem record_next {pos : ℕ} {r : Record × ℕ} (hr : record p pos = some r) : r.2 ≤ p.length := by
  obtain ⟨⟨name, i⟩, -, hr⟩ := Option.bind_eq_some_iff.mp hr
  obtain ⟨rtype, -, hr⟩ := Option.bind_eq_some_iff.mp hr
  obtain ⟨rclass, -, hr⟩ := Option.bind_eq_some_iff.mp hr
  obtain ⟨ttl, -, hr⟩ := Option.bind_eq_some_iff.mp hr
  obtain ⟨rdlength, -, hr⟩ := Option.bind_eq_some_iff.mp hr
  obtain ⟨rdata, hdata, hr⟩ := Option.bind_eq_some_iff.mp hr
  obtain rfl := Option.some.inj hr
  exact (bytes_some hdata).1

/-! ## Sections -/

theorem section_of_length {α : Type} {entry : ℕ → Option (α × ℕ)} {count pos : ℕ}
    {r : List α × ℕ} (h : section_of entry count pos = some r) : r.1.length = count := by
  induction count generalizing pos r with
  | zero =>
    obtain rfl := Option.some.inj h
    rfl
  | succ count ih =>
    obtain ⟨⟨a, i⟩, -, h⟩ := Option.bind_eq_some_iff.mp h
    obtain ⟨⟨rest, next⟩, hrest, h⟩ := Option.bind_eq_some_iff.mp h
    obtain rfl := Option.some.inj h
    exact congrArg (· + 1) (ih hrest)

theorem section_of_one {α : Type} {entry : ℕ → Option (α × ℕ)} {pos next : ℕ} {a : α} :
    section_of entry 1 pos = some ([a], next) ↔ entry pos = some (a, next) := by
  constructor
  · intro h
    obtain ⟨⟨b, i⟩, hentry, h⟩ := Option.bind_eq_some_iff.mp h
    obtain ⟨hb, rfl⟩ := Prod.mk.inj (Option.some.inj h)
    rw [hentry, List.singleton_inj.mp hb]
  · intro h
    rw [section_of, h]
    rfl

theorem section_of_zero {α : Type} {entry : ℕ → Option (α × ℕ)} {pos next : ℕ} {as : List α}
    (h : section_of entry 0 pos = some (as, next)) : next = pos :=
  (Prod.mk.inj (Option.some.inj h)).2.symm

variable {id flags qd an ns ar : ℕ}

/-- A message with one question, no answers and no authorities. -/
theorem sections_request {m : Message} (h : sections p id flags qd an ns ar = some m)
    {q : Question} (hquestions : m.questions = [q]) (hanswers : m.answers = [])
    (hauthorities : m.authorities = []) :
    qd = 1 ∧ ∃ i, question p 12 = some (q, i) ∧
      section_of (record p) ar i = some (m.additional, p.length) := by
  obtain ⟨⟨questions, i⟩, hqd, h⟩ := Option.bind_eq_some_iff.mp h
  obtain ⟨⟨answers, j⟩, han, h⟩ := Option.bind_eq_some_iff.mp h
  obtain ⟨⟨authorities, k⟩, hns, h⟩ := Option.bind_eq_some_iff.mp h
  obtain ⟨⟨additional, l⟩, har, h⟩ := Option.bind_eq_some_iff.mp h
  dsimp only at han hns har h
  split at h
  · next hend =>
    obtain rfl := Option.some.inj h
    dsimp only at hquestions hanswers hauthorities
    subst hquestions hanswers hauthorities
    obtain rfl := section_of_length hqd
    obtain rfl := section_of_length han
    obtain rfl := section_of_length hns
    obtain rfl := section_of_zero han
    obtain rfl := section_of_zero hns
    exact ⟨rfl, _, section_of_one.mp hqd, by rw [har, hend]⟩
  · cases h

/-- A message with one question and one answer. -/
theorem sections_answer {q : Question} {r : Record} :
    (∃ id' flags', sections p id flags 1 1 0 0 = some ⟨id', flags', [q], [r], [], []⟩) ↔
      ∃ i, question p 12 = some (q, i) ∧ record p i = some (r, p.length) := by
  constructor
  · rintro ⟨id', flags', h⟩
    obtain ⟨⟨questions, i⟩, hqd, h⟩ := Option.bind_eq_some_iff.mp h
    obtain ⟨⟨answers, j⟩, han, h⟩ := Option.bind_eq_some_iff.mp h
    dsimp only [section_of] at han h
    simp only [Option.bind_eq_bind, Option.bind_some] at h
    split at h
    · next hend =>
      obtain ⟨-, -, rfl, rfl, -, -⟩ := Message.mk.inj (Option.some.inj h)
      exact ⟨i, section_of_one.mp hqd, by rw [section_of_one.mp han, hend]⟩
    · cases h
  · rintro ⟨i, hq, hr⟩
    refine ⟨id, flags, ?_⟩
    simp only [sections, section_of, hq, hr, Option.bind_eq_bind, Option.bind_some, if_true]

/-- The first entry of a section that is not empty. -/
theorem section_of_cons {α : Type} {entry : ℕ → Option (α × ℕ)} {count pos next : ℕ} {as : List α}
    (h : section_of entry count pos = some (as, next)) (hne : as ≠ []) :
    ∃ r, entry pos = some r := by
  cases count with
  | zero =>
    obtain ⟨rfl, -⟩ := Prod.mk.inj (Option.some.inj h)
    exact absurd rfl hne
  | succ count =>
    obtain ⟨r, hr, -⟩ := Option.bind_eq_some_iff.mp h
    exact ⟨r, hr⟩

/-- The name of a question, whatever number of pointers is allowed. -/
theorem Extends.question_name (h : Extends p q) {more : ℕ} (hmore : 13 ≤ more) {r : Question × ℕ}
    (hr : DnsMessage.question p 12 = some r) :
    ∃ next, DnsMessage.name_from q more 12 = some (r.1.name, next) := by
  obtain ⟨⟨name, i⟩, hname, hr⟩ := Option.bind_eq_some_iff.mp hr
  obtain ⟨qtype, -, hr⟩ := Option.bind_eq_some_iff.mp hr
  obtain ⟨qclass, -, hr⟩ := Option.bind_eq_some_iff.mp hr
  obtain rfl := Option.some.inj hr
  exact ⟨i, h.name_from hmore le_rfl hname⟩

end SysInC.DnsMessage
