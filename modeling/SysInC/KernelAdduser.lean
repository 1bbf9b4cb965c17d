/-
`adduser` of the shell in `test_os/kernel.c`, on the lines of `/etc/passwd`.

The file is read into a buffer of 1024 bytes, a line that was cut to 127 is put behind it as far as
there is room, and the buffer is the new file.
-/
import SysInC.KernelPrivilege

set_option autoImplicit false

namespace SysInC.KernelShell

open SysInC.Kvfs SysInC.Kdiskfs SysInC.Delimited

/-! ## What should come of the file -/

/-- The file has one line more, which is ended and has the strings as its first two fields. -/
def RowAdded (data data' user pass : List UInt8) : Prop :=
  data'.getLast? = some newline ∧ ∃ line, rows newline data' = rows newline data ++ [line]
    ∧ (line.splitOn colon)[0]? = some user ∧ (line.splitOn colon)[1]? = some pass

/-- Who could log in still can, and the new user too. -/
def LoginsKept (passwd passwd' : Option (List UInt8)) (user pass : List UInt8) : Prop :=
  (∀ u p, verify_user_password passwd u p = true → verify_user_password passwd' u p = true)
    ∧ verify_user_password passwd' user pass = true

/-- The file is as it was, or has the new line behind the others. -/
def Consistent (passwd passwd' : Option (List UInt8)) (user pass : List UInt8) : Prop :=
  passwd' = passwd ∨ ∃ data', passwd' = some data'
    ∧ RowAdded (passwd.getD []) data' user pass ∧ LoginsKept passwd passwd' user pass

/-! ## The entry -/

/-- The line of `new_entry`, without its newline. -/
def entry_line (user pass : List UInt8) : List UInt8 :=
  user ++ literal ":" ++ pass ++ literal ":1001:1001:" ++ user ++ literal ":/home/" ++ user
    ++ literal ":/bin/sh"

theorem new_entry_eq (user pass : List UInt8) :
    new_entry user pass = (entry_line user pass ++ [newline]).take 127 := by
  have hlast : literal ":/bin/sh\n" = literal ":/bin/sh" ++ [newline] := by decide
  rw [new_entry, hlast, entry_line, List.append_assoc _ (literal ":/bin/sh") [newline]]

theorem entry_line_length (user pass : List UInt8) :
    (entry_line user pass).length = 3 * user.length + pass.length + 27 := by
  have h₁ : (literal ":").length = 1 := by decide
  have h₂ : (literal ":1001:1001:").length = 11 := by decide
  have h₃ : (literal ":/home/").length = 7 := by decide
  have h₄ : (literal ":/bin/sh").length = 8 := by decide
  unfold entry_line
  simp only [List.length_append, h₁, h₂, h₃, h₄]
  omega

theorem searched_entry_line (user pass : List UInt8) :
    searched user pass <+: entry_line user pass := by
  refine ⟨literal "1001:1001:" ++ user ++ literal ":/home/" ++ user ++ literal ":/bin/sh", ?_⟩
  have hfirst : literal ":" = [colon] := by decide
  have hnext : literal ":1001:1001:" = colon :: literal "1001:1001:" := by decide
  unfold searched entry_line
  rw [hfirst, hnext]
  simp only [List.append_assoc, List.cons_append, List.nil_append]

theorem newline_entry_line {user pass : List UInt8} (huser : newline ∉ user)
    (hpass : newline ∉ pass) : newline ∉ entry_line user pass := by
  have h₁ : newline ∉ literal ":" := by decide
  have h₂ : newline ∉ literal ":1001:1001:" := by decide
  have h₃ : newline ∉ literal ":/home/" := by decide
  have h₄ : newline ∉ literal ":/bin/sh" := by decide
  unfold entry_line
  simp only [List.mem_append, not_or]
  exact ⟨⟨⟨⟨⟨⟨⟨huser, h₁⟩, hpass⟩, h₂⟩, huser⟩, h₃⟩, huser⟩, h₄⟩

theorem entry_line_fields {user pass : List UInt8} (huser : colon ∉ user) (hpass : colon ∉ pass) :
    ((entry_line user pass).splitOn colon)[0]? = some user
      ∧ ((entry_line user pass).splitOn colon)[1]? = some pass :=
  (two_pieces_iff _ _ _).mpr ⟨huser, hpass, Or.inr (searched_entry_line user pass)⟩

/-! ## When the line is added -/

/-- The lines of the file are ended, the strings are fields that fit their buffers, and the new line
fits its own and the file. -/
structure EntryFits (data user pass : List UInt8) : Prop where
  complete : Complete newline data
  user_field : Field user
  pass_field : Field pass
  user_length : user.length ≤ 31
  pass_length : pass.length ≤ 31
  entry : 3 * user.length + pass.length + 28 ≤ 127
  room : data.length + (3 * user.length + pass.length + 28) ≤ 1023

/-- What `adduser` takes for the name. -/
def name_buf (name : List UInt8) : List UInt8 := if name.length < 32 then name else []

/-- The new file, from the old one and the arguments. -/
def added (data user pass : List UInt8) : List UInt8 :=
  updated_passwd (some data) (new_entry (name_buf user) (kstrncpy pass 31))

variable {data user pass : List UInt8}

theorem added_eq (h : data.length ≤ 1023) : added data user pass
    = data ++ (entry_line (name_buf user) (kstrncpy pass 31) ++ [newline]).take
      (min (1023 - data.length) 127) := by
  have hdata : kstrncpy data 1023 = data := List.take_of_length_le h
  have hroom : min (1024 - data.length - 1) 127 = min (1023 - data.length) 127 := by omega
  rw [added, updated_passwd, Option.getD_some, hdata, new_entry_eq, List.take_take, hroom]

theorem added_of_long (h : 1023 ≤ data.length) : added data user pass = data.take 1023 := by
  have hdata : (kstrncpy data 1023).length = 1023 := List.length_take_of_le h
  rw [added, updated_passwd, Option.getD_some, hdata, List.take_zero, List.append_nil]
  rfl

/-- The whole line is put behind the file. -/
theorem EntryFits.added_eq (h : EntryFits data user pass) :
    added data user pass = data ++ (entry_line user pass ++ [newline]) := by
  have hroom := h.room
  have hentry := h.entry
  have huser : name_buf user = user := if_pos (Nat.lt_succ_of_le h.user_length)
  have hpass : kstrncpy pass 31 = pass := List.take_of_length_le h.pass_length
  rw [KernelShell.added_eq (by omega), huser, hpass, List.take_of_length_le]
  rw [List.length_append, entry_line_length, List.length_singleton]
  omega

theorem EntryFits.rowAdded (h : EntryFits data user pass) :
    RowAdded data (added data user pass) user pass := by
  have hline := newline_entry_line h.user_field.2 h.pass_field.2
  rw [h.added_eq]
  refine ⟨?_, entry_line user pass, rows_append h.complete hline,
    entry_line_fields h.user_field.1 h.pass_field.1⟩
  rw [← List.append_assoc]
  exact List.getLast?_concat

theorem name_buf_subset (name : List UInt8) : name_buf name ⊆ name := by
  unfold name_buf
  split_ifs
  · exact List.Subset.refl name
  · exact List.nil_subset name

/-- A name that the buffer keeps is not longer than it. -/
theorem length_le_of_name_buf (hkept : name_buf user = user) : user.length ≤ 31 := by
  by_contra hlarge
  rw [name_buf, if_neg (by omega)] at hkept
  rw [← hkept] at hlarge
  exact hlarge (Nat.zero_le _)

/-- What has no newline does not begin with one. -/
theorem not_newline_first {entry rest : List UInt8} (hentry : newline ∉ entry)
    (hpos : entry ≠ []) : ¬ (newline :: rest) <+: entry ++ [newline] := by
  intro hfirst
  obtain ⟨c, tail, rfl⟩ := List.exists_cons_of_ne_nil hpos
  rw [List.cons_append, List.cons_prefix_cons] at hfirst
  rw [← hfirst.1] at hentry
  exact hentry List.mem_cons_self

/-- To a file that is cut no line is added. -/
theorem not_rowAdded_of_long (hlong : 1023 ≤ data.length) :
    ¬ RowAdded data (added data user pass) user pass := by
  rintro ⟨hlast, line, hrows, -, -⟩
  have heq := eq_of_rows hlast hrows
  rw [added_of_long hlong] at heq
  have hcut : (data.take 1023).length ≤ data.length := List.length_take_le' _ _
  rcases heq with ⟨-, heq⟩ | ⟨-, heq⟩
  · rw [heq, List.length_append, List.length_append, List.length_singleton] at hcut
    omega
  · rw [heq, List.length_append, List.length_cons] at hcut
    omega

/-- A line that is added is the whole entry. -/
theorem entryFits_of_rowAdded (h : RowAdded data (added data user pass) user pass) :
    EntryFits data user pass := by
  have hshort : data.length < 1023 := not_le.mp fun hlong => not_rowAdded_of_long hlong h
  obtain ⟨hlast, line, hrows, huser, hpass⟩ := h
  have hline : newline ∉ line := by
    refine not_mem_of_mem_rows (l := added data user pass) ?_
    rw [hrows]
    exact List.mem_append_right _ (List.mem_singleton.mpr rfl)
  obtain ⟨husersub, hpasssub⟩ := two_pieces_subset huser hpass
  have hname : newline ∉ user := fun hmem => hline (husersub hmem)
  have hword : newline ∉ pass := fun hmem => hline (hpasssub hmem)
  have hentry : newline ∉ entry_line (name_buf user) (kstrncpy pass 31) :=
    newline_entry_line (fun hmem => hname (name_buf_subset user hmem))
      fun hmem => hword (List.mem_of_mem_take hmem)
  have hlength := entry_line_length (name_buf user) (kstrncpy pass 31)
  have heq := eq_of_rows hlast hrows
  rw [added_eq (by omega)] at heq
  rcases heq with ⟨hcomplete, heq⟩ | ⟨-, heq⟩
  · have htake := List.append_cancel_left heq
    have hsame : line = entry_line (name_buf user) (kstrncpy pass 31) :=
      eq_of_ended_prefix hline hentry (htake ▸ List.take_prefix _ _)
    have hwhole := congrArg List.length htake
    rw [hsame, List.length_take, List.length_append, List.length_singleton] at hwhole
    rw [hsame] at huser hpass
    obtain ⟨hcolon, hcolon', -⟩ := (two_pieces_iff _ _ _).mp ⟨huser, hpass⟩
    obtain ⟨huser', hpass'⟩ := entry_line_fields
      (fun hmem => hcolon (name_buf_subset user hmem))
      (fun hmem => hcolon' (List.mem_of_mem_take hmem) : colon ∉ kstrncpy pass 31)
    have hnamed : name_buf user = user := Option.some.inj (huser'.symm.trans huser)
    have hpassed : kstrncpy pass 31 = pass := Option.some.inj (hpass'.symm.trans hpass)
    have huserlen : user.length ≤ 31 := length_le_of_name_buf hnamed
    have hpasslen : pass.length ≤ 31 := hpassed ▸ List.length_take_le _ _
    rw [hnamed, hpassed] at hlength hwhole
    exact ⟨hcomplete, ⟨hcolon, hname⟩, ⟨hcolon', hword⟩, huserlen, hpasslen, by omega, by omega⟩
  · -- the entry does not begin with a newline
    exfalso
    have htake := List.append_cancel_left heq
    have hpos : entry_line (name_buf user) (kstrncpy pass 31) ≠ [] := by
      intro hnil
      rw [hnil, List.length_nil] at hlength
      omega
    exact not_newline_first hentry hpos (htake ▸ List.take_prefix _ _)

/-! ## The logins -/

theorem Found.mono {data' : List UInt8} (hmore : data <+: data') (h : Found data user pass) :
    Found data' user pass :=
  h.imp (fun hprefix => hprefix.trans hmore) fun hinfix => hinfix.trans hmore.isInfix

theorem EntryFits.login (h : EntryFits data user pass) :
    Found (added data user pass) user pass := by
  have hline := newline_entry_line h.user_field.2 h.pass_field.2
  have hrow : entry_line user pass ∈ rows newline (added data user pass) := by
    rw [h.added_eq, rows_append h.complete hline]
    exact List.mem_append_right _ (List.mem_singleton.mpr rfl)
  exact found_of_line h.user_field h.pass_field (mem_splitOn_of_mem_rows hrow)
    (searched_entry_line user pass)

theorem EntryFits.loginsKept (h : EntryFits data user pass) :
    LoginsKept (some data) (some (added data user pass)) user pass := by
  refine ⟨fun u p hverify => ?_, (verify_iff _ _ _).mpr h.login⟩
  have hmore : data <+: added data user pass := h.added_eq ▸ List.prefix_append _ _
  exact (verify_iff _ _ _).mpr (((verify_iff _ _ _).mp hverify).mono hmore)

/-- A file of which the beginning is the whole file, or that has room for the line. Without a file
root can log in with `root`, and has to be the new user. -/
def LineFits (passwd : Option (List UInt8)) (user pass : List UInt8) : Prop :=
  match passwd with
  | none => user = literal "root" ∧ pass = literal "root"
  | some data => data.length = 1023 ∨ EntryFits data user pass

theorem added_eq_self_iff : added data user pass = data ↔ data.length = 1023 := by
  constructor
  · intro h
    by_contra hne
    have hlength := congrArg List.length h
    by_cases hlong : 1023 ≤ data.length
    · rw [added_of_long hlong, List.length_take_of_le hlong] at hlength
      exact hne hlength.symm
    · rw [added_eq (by omega), List.length_append, List.length_take, List.length_append,
        entry_line_length, List.length_singleton] at hlength
      omega
  · intro h
    rw [added_of_long h.ge, ← h, List.take_length]

/-- Who is found in a file of one line is who the line is for. -/
theorem of_found_root (h : EntryFits [] user pass)
    (hfound : Found (added [] user pass) (literal "root") (literal "root")) :
    user = literal "root" ∧ pass = literal "root" := by
  have hline := newline_entry_line h.user_field.2 h.pass_field.2
  obtain ⟨line, hmem, hprefix⟩ := line_of_found root_field root_field (by decide) hfound
  rw [h.added_eq, List.nil_append, List.splitOn_append_cons_self_of_not_mem hline] at hmem
  rcases List.mem_cons.mp hmem with rfl | hempty
  · obtain ⟨huser, hpass⟩ := (two_pieces_iff (entry_line user pass) _ _).mpr
      ⟨root_field.1, root_field.1, Or.inr hprefix⟩
    obtain ⟨huser', hpass'⟩ := entry_line_fields h.user_field.1 h.pass_field.1
    exact ⟨Option.some.inj (huser'.symm.trans huser), Option.some.inj (hpass'.symm.trans hpass)⟩
  · rw [List.mem_singleton.mp hempty] at hprefix
    exact absurd (List.prefix_nil.mp hprefix) (by decide)

theorem consistent_iff (passwd : Option (List UInt8)) (user pass : List UInt8) :
    Consistent passwd (some (added (passwd.getD []) user pass)) user pass
      ↔ LineFits passwd user pass := by
  cases passwd with
  | none =>
      constructor
      · rintro (hsame | ⟨data', hdata, hrow, hlogins, -⟩)
        · exact nomatch hsame
        · obtain rfl := Option.some.inj hdata
          have hroot := hlogins (literal "root") (literal "root") (by decide)
          exact of_found_root (entryFits_of_rowAdded hrow) ((verify_iff _ _ _).mp hroot)
      · rintro ⟨rfl, rfl⟩
        have hfits : EntryFits [] (literal "root") (literal "root") :=
          ⟨Or.inl rfl, root_field, root_field, by decide, by decide, by decide, by decide⟩
        refine Or.inr ⟨_, rfl, hfits.rowAdded, fun u p hverify => ?_, hfits.loginsKept.2⟩
        obtain ⟨rfl, rfl⟩ := of_decide_eq_true hverify
        exact hfits.loginsKept.2
  | some data =>
      constructor
      · rintro (hsame | ⟨data', hdata, hrow, -⟩)
        · exact Or.inl (added_eq_self_iff.mp (Option.some.inj hsame))
        · obtain rfl := Option.some.inj hdata
          exact Or.inr (entryFits_of_rowAdded hrow)
      · rintro (hlength | hfits)
        · exact Or.inl (congrArg some (added_eq_self_iff.mpr hlength))
        · exact Or.inr ⟨_, rfl, hfits.rowAdded, hfits.loginsKept⟩

/-! ## The command -/

theorem text_of_eq {text : List UInt8} (h : 0 ∉ text) : text_of text = text := takeWhile_self h

theorem of_line_adduser {line args : List UInt8} (h : cli_command.of_line line = .adduser args) :
    args ⊆ line := by
  have hargs : args = skip_spaces ((skip_spaces line).drop 8) := by
    unfold cli_command.of_line at h
    dsimp only at h
    cases hc : file_command.of_line (skip_spaces line) with
    | some c =>
        rw [hc] at h
        dsimp only at h
        split_ifs at h
        exact (cli_command.adduser.inj h).symm
    | none =>
        rw [hc] at h
        dsimp only at h
        split_ifs at h
        exact (cli_command.adduser.inj h).symm
  rw [hargs]
  exact List.Subset.trans (skip_spaces_drop_subset _ _) (skip_spaces_suffix line).subset

/-- The new file is a C string. -/
theorem added_text (hdata : 0 ∉ data) (huser : 0 ∉ user) (hpass : 0 ∉ pass) :
    0 ∉ added data user pass := by
  have hname : 0 ∉ name_buf user := fun hmem => huser (name_buf_subset user hmem)
  have hword : 0 ∉ kstrncpy pass 31 := kstrncpy_text 31 hpass
  have hentry : 0 ∉ entry_line (name_buf user) (kstrncpy pass 31) ++ [newline] := by
    have h₁ : 0 ∉ literal ":" := by decide
    have h₂ : 0 ∉ literal ":1001:1001:" := by decide
    have h₃ : 0 ∉ literal ":/home/" := by decide
    have h₄ : 0 ∉ literal ":/bin/sh" := by decide
    have h₅ : 0 ∉ [newline] := by decide
    unfold entry_line
    simp only [List.mem_append, not_or]
    exact ⟨⟨⟨⟨⟨⟨⟨⟨hname, h₁⟩, hword⟩, h₂⟩, hname⟩, h₃⟩, hname⟩, h₄⟩, h₅⟩
  by_cases hlong : 1023 ≤ data.length
  · rw [added_of_long hlong]
    exact fun hmem => hdata (List.mem_of_mem_take hmem)
  · rw [added_eq (by omega), List.mem_append, not_or]
    exact ⟨hdata, fun hmem => hentry (List.mem_of_mem_take hmem)⟩

variable {abi : Kmem.Abi} {copy : Option (ℕ × List UInt8)} {s : session} {line : List UInt8}

theorem passwd_text_text : 0 ∉ (passwd_text s).getD [] := by
  intro hmem
  unfold passwd_text kvfs_text at hmem
  cases hopen : kvfs_open s.sh.vfs (some passwd_path) with
  | none =>
      rw [hopen] at hmem
      exact List.not_mem_nil hmem
  | some n =>
      rw [hopen, Option.bind_some] at hmem
      cases hbytes : n.data.bytes s.sh.vfs.heap with
      | none =>
          rw [hbytes] at hmem
          exact List.not_mem_nil hmem
      | some bytes =>
          rw [hbytes] at hmem
          have hne := List.mem_takeWhile_imp (p := fun c => decide (c ≠ 0)) (l := bytes) hmem
          exact of_decide_eq_true hne rfl

theorem name_arg_eq (huser : space ∉ user) (pass : List UInt8) :
    name_arg (user ++ space :: pass) = name_buf user
      ∧ (user ++ space :: pass).dropWhile (· ≠ space) = space :: pass := by
  refine ⟨?_, dropWhile_append_cons huser pass⟩
  rw [name_arg, takeWhile_append_cons huser]
  rfl

theorem written_adduser (hroot : s.is_root = true) (huser : space ∉ user) (pass : List UInt8) :
    written s (.adduser (user ++ space :: pass))
      = some (added ((passwd_text s).getD []) user pass) := by
  obtain ⟨hname, hrest⟩ := name_arg_eq huser pass
  rw [written, if_pos hroot, hrest, hname]
  rfl

/-- What `adduser` leaves, with two arguments and for root. -/
theorem adduser_text (h : Readable s.sh.vfs) (hroot : s.is_root = true)
    (hlegal : LegalCommand abi copy s line)
    (hline : cli_command.of_line line = .adduser (user ++ space :: pass)) (huser : space ∉ user) :
    ∃ s', execute_cli_command abi copy s line = some s'
      ∧ (Refused s.sh.vfs copy passwd_path → passwd_text s' = passwd_text s)
      ∧ (¬Refused s.sh.vfs copy passwd_path →
        passwd_text s' = some (added ((passwd_text s).getD []) user pass)) := by
  obtain ⟨hname, hrest⟩ := name_arg_eq huser pass
  have hupdated : updated_passwd (passwd_text s) (new_entry (name_buf user) (kstrncpy pass 31))
      = added ((passwd_text s).getD []) user pass := rfl
  have hgives := hlegal.gives
  rw [hline] at hgives
  obtain ⟨s', hadd, -, -, hrefused, hmade⟩ :=
    add_user_spec h (name_buf user) (kstrncpy pass 31) hupdated.symm
      (hgives _ (written_adduser hroot huser pass))
  have hargs (c : UInt8) (hc : c ∈ user ++ space :: pass) : c ∈ line := of_line_adduser hline hc
  have htext : 0 ∉ added ((passwd_text s).getD []) user pass :=
    added_text passwd_text_text
      (fun hmem => hlegal.text (hargs 0 (List.mem_append_left _ hmem)))
      fun hmem => hlegal.text (hargs 0 (List.mem_append_right _ (List.mem_cons_of_mem _ hmem)))
  rw [text_of_eq htext] at hmade
  refine ⟨s', ?_, hrefused, hmade⟩
  rw [execute_cli_command, hline]
  show adduser abi copy s _ = _
  rw [adduser, if_pos hroot, hrest, hname]
  exact hadd

/-- **When `adduser` keeps the file in order.** -/
theorem adduser_consistent_iff (h : Readable s.sh.vfs) (hroot : s.is_root = true)
    (hlegal : LegalCommand abi copy s line)
    (hline : cli_command.of_line line = .adduser (user ++ space :: pass)) (huser : space ∉ user) :
    ∃ s', execute_cli_command abi copy s line = some s'
      ∧ (Consistent (passwd_text s) (passwd_text s') user pass
        ↔ Refused s.sh.vfs copy passwd_path ∨ LineFits (passwd_text s) user pass) := by
  obtain ⟨s', hexec, hsame, hmade⟩ := adduser_text h hroot hlegal hline huser
  refine ⟨s', hexec, ?_⟩
  by_cases hrefused : Refused s.sh.vfs copy passwd_path
  · exact iff_of_true (Or.inl (hsame hrefused)) (Or.inl hrefused)
  · rw [hmade hrefused, consistent_iff, or_iff_right hrefused]

/-- The session of the boot. -/
def as_root (v : kvfs) : session :=
  ⟨⟨v, .start true blank_disk⟩, literal "/", literal "root", true⟩

/-- A block of a heap that has the address 16 free. -/
def block_for (text : List UInt8) : Option (ℕ × List UInt8) :=
  some (16, List.replicate (text.length + 1) 0)

theorem boot_root : ∃ v, Readable v ∧ v.heap 16 = none
    ∧ passwd_text (as_root v) = some (text_of etc_passwd_buf)
    ∧ ∀ text, ¬Refused v (block_for text) passwd_path := by
  obtain ⟨v, hinit, hreadable, htext⟩ := boot_passwd_text
  obtain ⟨v', hinit', hfree, -⟩ := start_free
  obtain rfl := Option.some.inj (hinit.symm.trans hinit')
  refine ⟨v, hreadable, hfree, htext, fun text hrefused => ?_⟩
  rcases hrefused with hcopy | ⟨hnone, -⟩
  · exact nomatch hcopy
  · rw [kvfs_text_eq hreadable.ended, hnone] at htext
    exact nomatch htext

/-- Root adds a user after the boot. -/
theorem boot_legal {v : kvfs} (hfree : v.heap 16 = none) (hlength : line.length < 128)
    (htext : 0 ∉ line) (hline : cli_command.of_line line = .adduser (user ++ space :: pass))
    (huser : space ∉ user) :
    LegalCommand .i386 (block_for (added ((passwd_text (as_root v)).getD []) user pass))
      (as_root v) line := by
  refine ⟨hlength, htext, fun text hwritten => ?_⟩
  rw [hline, written_adduser rfl huser] at hwritten
  obtain rfl := Option.some.inj hwritten
  have hword : 1024 < Kmem.Abi.size_mod .i386 := by decide
  have hsize : (added ((passwd_text (as_root v)).getD []) user pass).length ≤ 1023 :=
    updated_passwd_length _ _
  have hmod := Nat.mod_eq_of_lt (Nat.lt_of_le_of_lt (Nat.succ_le_succ hsize) hword)
  refine ⟨?_, hfree, ?_⟩
  · rw [hmod]
    exact Nat.succ_ne_zero _
  · rw [hmod, List.length_replicate]

/-- `adduser eve pw` after the boot. -/
theorem adduser_eve : ∃ s s' copy,
    execute_cli_command .i386 copy s (literal "adduser eve pw") = some s'
      ∧ Consistent (passwd_text s) (passwd_text s') (literal "eve") (literal "pw") := by
  obtain ⟨v, hreadable, hfree, hpasswd, -⟩ := boot_root
  have hline : cli_command.of_line (literal "adduser eve pw")
      = .adduser (literal "eve" ++ space :: literal "pw") := by decide
  have hlegal := boot_legal hfree (by decide) (by decide) hline (by decide)
  have hfits : EntryFits (text_of etc_passwd_buf) (literal "eve") (literal "pw") :=
    ⟨Or.inr (by decide), ⟨by decide, by decide⟩, ⟨by decide, by decide⟩, by decide,
      by decide, by decide, by decide⟩
  obtain ⟨s', hexec, hiff⟩ := adduser_consistent_iff hreadable rfl hlegal hline (by decide)
  refine ⟨_, s', _, hexec, hiff.mpr (Or.inr ?_)⟩
  rw [hpasswd]
  exact Or.inr hfits

/-- A name with a colon in it becomes a name and a password. -/
theorem colon_in_name :
    ¬∀ (abi : Kmem.Abi) (copy : Option (ℕ × List UInt8)) (s s' : session)
      (line user pass : List UInt8), Readable s.sh.vfs → s.is_root = true →
      LegalCommand abi copy s line → cli_command.of_line line = .adduser (user ++ space :: pass) →
      space ∉ user → execute_cli_command abi copy s line = some s' →
      Consistent (passwd_text s) (passwd_text s') user pass := by
  intro h
  obtain ⟨v, hreadable, hfree, hpasswd, hnot⟩ := boot_root
  have hline : cli_command.of_line (literal "adduser eve:x pw")
      = .adduser (literal "eve:x" ++ space :: literal "pw") := by decide
  have hlegal := boot_legal hfree (by decide) (by decide) hline (by decide)
  obtain ⟨s', hexec, -, hmade⟩ := adduser_text hreadable rfl hlegal hline (by decide)
  have hkept := h .i386 _ _ s' _ _ _ hreadable rfl hlegal hline (by decide) hexec
  rw [hmade (hnot _), consistent_iff, hpasswd] at hkept
  rcases hkept with hlength | hfits
  · exact absurd hlength (by decide +kernel)
  · exact absurd hfits.user_field.1 (by decide)

end SysInC.KernelShell
