/-
Who becomes root in the shell of `test_os/kernel.c`.

`su` takes the password from the line or, where there is none, a default, and `/etc/passwd` is a
file that everybody may write. Where neither is made use of, root is got with root's password.
-/
import SysInC.KernelUsers
import SysInC.PartialRun

set_option autoImplicit false

namespace SysInC.KernelShell

open SysInC.Kvfs SysInC.Kdiskfs SysInC.PartialRun

/-! ## Runs of the shell -/

/-- A line that is typed, and what the `kmalloc` of its `kvfs_write` gives. -/
structure typed_line where
  line : List UInt8
  copy : Option (ℕ × List UInt8)

/-- A session, and what `/etc/passwd` held when root last wrote it. -/
structure watched where
  now : session
  held : Option (List UInt8)

def watch (abi : Kmem.Abi) (w : watched) (e : typed_line) : Option watched :=
  (execute_cli_command abi e.copy w.now e.line).map fun s =>
    ⟨s, if w.now.is_root = true ∧ WritesPasswd w.now (.of_line e.line) then passwd_text s
      else w.held⟩

/-- The line is `su root` with a password that the file had for root. -/
def Spelled (held : Option (List UInt8)) (line : List UInt8) : Prop :=
  ∃ pw, cli_command.of_line line = .su (literal "root" ++ space :: pw)
    ∧ Listed held (literal "root") pw

/-- Somebody becomes root with root's password only. -/
def RootByPassword (abi : Kmem.Abi) (w : watched) (e : typed_line) : Prop :=
  ∀ w', watch abi w e = some w' → w.now.is_root = false → w'.now.is_root = true →
    Spelled w.held e.line

/-- What `su` is given as the password of root is what stands in the line. -/
def PasswordGiven (passwd : Option (List UInt8)) (target : List UInt8) : Prop :=
  match passwd with
  | none => (su_login target).2 ≠ literal "root"
  | some data => Found data (literal "root") (su_login target).2 →
    ∃ pw, target = literal "root" ++ space :: pw ∧ Field pw ∧ pw.length ≤ 31

/-- The line is legal. Who is not root leaves `/etc/passwd` alone, and does without the default
password. -/
structure Guarded (abi : Kmem.Abi) (w : watched) (e : typed_line) : Prop where
  legal : LegalCommand abi e.copy w.now e.line
  files : w.now.is_root = false → ¬WritesPasswd w.now (.of_line e.line)
  login : w.now.is_root = false → ∀ target, cli_command.of_line e.line = .su target →
    (su_login target).1 = literal "root" → PasswordGiven (passwd_text w.now) target

/-- What holds between two lines. -/
structure Watched (w : watched) : Prop where
  readable : Readable w.now.sh.vfs
  held : w.held = passwd_text w.now

variable {abi : Kmem.Abi} {w w' : watched} {e : typed_line}

theorem root_field : Field (literal "root") := ⟨by decide, by decide⟩

theorem root_login (pw : List UInt8) (hlength : pw.length ≤ 31) :
    (su_login (literal "root" ++ space :: pw)).2 = pw := by
  show kstrncpy pw 31 = pw
  exact List.take_of_length_le hlength

/-- What is let in as root with a password in the line has root's password. -/
theorem PasswordGiven.spelled {passwd : Option (List UInt8)} {target : List UInt8}
    (h : PasswordGiven passwd target)
    (hverify : verify_user_password passwd (literal "root") (su_login target).2 = true) :
    ∃ pw, target = literal "root" ++ space :: pw ∧ Listed passwd (literal "root") pw := by
  unfold PasswordGiven at h
  cases passwd with
  | none => exact absurd (of_decide_eq_true hverify).2 h
  | some data =>
      have hfound := (verify_iff data _ _).mp hverify
      obtain ⟨pw, rfl, hfield, hlength⟩ := h hfound
      rw [root_login pw hlength] at hfound
      have hshort : (literal "root").length + pw.length ≤ 60 := by
        have hroot : (literal "root").length = 4 := by decide
        omega
      obtain ⟨line, hline, hprefix⟩ := line_of_found root_field hfield hshort hfound
      exact ⟨pw, rfl, (listed_iff data _ _).mpr
        ⟨root_field, hfield, line, hline, Or.inr hprefix⟩⟩

/-- One line. -/
theorem Watched.step (h : Watched w) (hguard : Guarded abi w e) :
    RootByPassword abi w e ∧ ∀ w', watch abi w e = some w' → Watched w' := by
  have hspec {s : session} (hexec : execute_cli_command abi e.copy w.now e.line = some s) :=
    execute_cli_command_spec h.readable hguard.legal hexec
  constructor
  · intro w' hwatch hnot hroot
    obtain ⟨s, hexec, rfl⟩ := Option.map_eq_some_iff.mp hwatch
    rcases (hspec hexec).root hroot with hwas | ⟨target, hsu, huser, hverify⟩
    · rw [hnot] at hwas
      exact absurd hwas Bool.false_ne_true
    · rw [huser] at hverify
      obtain ⟨pw, rfl, hlisted⟩ := (hguard.login hnot target hsu huser).spelled hverify
      exact ⟨pw, hsu, h.held ▸ hlisted⟩
  · intro w' hwatch
    obtain ⟨s, hexec, rfl⟩ := Option.map_eq_some_iff.mp hwatch
    refine ⟨(hspec hexec).readable, ?_⟩
    show (if w.now.is_root = true ∧ WritesPasswd w.now (.of_line e.line) then passwd_text s
      else w.held) = passwd_text s
    by_cases hwrites : w.now.is_root = true ∧ WritesPasswd w.now (.of_line e.line)
    · exact if_pos hwrites
    · rw [if_neg hwrites, h.held]
      refine ((hspec hexec).passwd fun hpasswd => ?_).symm
      by_cases hroot : w.now.is_root = true
      · exact hwrites ⟨hroot, hpasswd⟩
      · exact hguard.files (Bool.eq_false_of_not_eq_true hroot) hpasswd

/-- **Root by password.** In a run in which those who are not root leave `/etc/passwd` alone and give
`su` the password they mean, nobody becomes root but with the password that the file held for root
when root last wrote it. -/
theorem root_by_password (h : Watched w) {es : List typed_line}
    (hguard : Along (watch abi) (Guarded abi) w es) :
    Along (watch abi) (RootByPassword abi) w es :=
  hguard.imp (fun _ _ hw hg => hw.step hg) h

/-- After the boot the file is that of `kvfs_init`. -/
theorem boot_passwd_text : ∃ v, kvfs_init (.start fun _ => none) = some v ∧ Readable v
    ∧ kvfs_text v passwd_path = some (text_of etc_passwd_buf) := by
  have hboot : (kvfs_init (.start fun _ => none)).map (fun v => kvfs_text v passwd_path)
      = some (some (text_of etc_passwd_buf)) := by
    decide +kernel
  obtain ⟨v, hinit, htext⟩ := Option.map_eq_some_iff.mp hboot
  obtain ⟨v', hinit', hok, -, -⟩ := kvfs_init_spec (start_ok fun _ => none).1
  obtain rfl := Option.some.inj (hinit.symm.trans hinit')
  exact ⟨v, hinit, ⟨hok, kvfs_init_ended hinit⟩, htext⟩

/-- A user who is let in as root. -/
theorem execute_su_root (abi : Kmem.Abi) {s : session} {line target : List UInt8}
    (hline : cli_command.of_line line = .su target)
    (huser : (su_login target).1 = literal "root")
    (hverify : verify_user_password (passwd_text s) (su_login target).1 (su_login target).2
      = true) :
    execute_cli_command abi none s line = some ⟨s.sh, literal "/", (su_login target).1, true⟩ := by
  rw [execute_cli_command, hline]
  show su s target = _
  rw [su]
  dsimp only
  rw [if_pos hverify]
  exact if_pos huser

theorem watch_of_execute {s : session}
    (hexec : execute_cli_command abi e.copy w.now e.line = some s) :
    ∃ held, watch abi w e = some ⟨s, held⟩ := by
  rw [watch, hexec]
  exact ⟨_, rfl⟩

/-- A user of the session of the boot. -/
def as_user (v : kvfs) : session :=
  ⟨⟨v, .start true blank_disk⟩, literal "/home/user", literal "user", false⟩

/-- `su root root` after the boot. -/
theorem root_by_password_of_boot : ∃ w w', w.now.is_root = false
    ∧ watch .i386 w ⟨literal "su root root", none⟩ = some w' ∧ w'.now.is_root = true
    ∧ Spelled w.held (literal "su root root") := by
  obtain ⟨v, -, hreadable, htext⟩ := boot_passwd_text
  have hline : cli_command.of_line (literal "su root root") = .su (literal "root root") := by decide
  have hpasswd : passwd_text (as_user v) = some (text_of etc_passwd_buf) := htext
  have hguard : Guarded .i386 ⟨as_user v, passwd_text (as_user v)⟩
      ⟨literal "su root root", none⟩ := by
    refine ⟨⟨by decide, by decide, fun text htext => ?_⟩, fun _ hwrites => ?_,
      fun _ target htarget _ => ?_⟩
    · rw [hline] at htext
      exact nomatch htext
    · rw [hline] at hwrites
      exact hwrites
    · obtain rfl := cli_command.su.inj (hline.symm.trans htarget)
      rw [hpasswd]
      exact fun _ => ⟨literal "root", by decide, ⟨by decide, by decide⟩, by decide⟩
  have hexec := execute_su_root .i386 (s := as_user v) hline (by decide) (by
    rw [hpasswd]
    decide)
  obtain ⟨held, hwatch⟩ := watch_of_execute (w := ⟨as_user v, passwd_text (as_user v)⟩)
    (e := ⟨literal "su root root", none⟩) hexec
  have hrun : Along (watch .i386) (Guarded .i386) ⟨as_user v, passwd_text (as_user v)⟩
      [⟨literal "su root root", none⟩] := ⟨hguard, fun _ _ => trivial⟩
  have hroot := root_by_password ⟨hreadable, rfl⟩ hrun
  exact ⟨_, _, rfl, hwatch, rfl, hroot.1 _ hwatch rfl rfl⟩

/-- `su` lets everybody in as root while root has the password of the boot. -/
theorem su_without_password :
    ¬∀ (abi : Kmem.Abi) (w : watched) (es : List typed_line), Watched w →
      w.now.is_root = false →
      Along (watch abi) (fun w e => LegalCommand abi e.copy w.now e.line) w es →
      Along (watch abi) (RootByPassword abi) w es := by
  intro h
  obtain ⟨v, -, hreadable, htext⟩ := boot_passwd_text
  have hline : cli_command.of_line (literal "su") = .su [] := by decide
  have hpasswd : passwd_text (as_user v) = some (text_of etc_passwd_buf) := htext
  have hlegal : LegalCommand .i386 none (as_user v) (literal "su") := by
    refine ⟨by decide, by decide, fun text htext => ?_⟩
    rw [hline] at htext
    exact nomatch htext
  have hexec := execute_su_root .i386 (s := as_user v) hline (by decide) (by
    rw [hpasswd]
    decide)
  obtain ⟨held, hwatch⟩ := watch_of_execute (w := ⟨as_user v, passwd_text (as_user v)⟩)
    (e := ⟨literal "su", none⟩) hexec
  have hbecame := (h .i386 ⟨as_user v, passwd_text (as_user v)⟩ [⟨literal "su", none⟩]
    ⟨hreadable, rfl⟩ rfl ⟨hlegal, fun _ _ => trivial⟩).1 _ hwatch rfl rfl
  obtain ⟨pw, hsu, -⟩ := hbecame
  exact nomatch cli_command.su.inj (hline.symm.trans hsu)

end SysInC.KernelShell
