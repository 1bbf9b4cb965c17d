/-
The command `cd` of `test_os/kernel.c`, and the parent of a directory.

`resolve_path` cuts `..` off at the first slash behind the one in front, not at the last one. Up to
two names that is the same slash.
-/
import SysInC.Delimited
import SysInC.KernelShell

set_option autoImplicit false

namespace SysInC.KernelCd

open SysInC.Kvfs SysInC.KernelShell

/-! ## The source -/

/-- The branch of `cd`; `none` is a `resolve_path` that runs out of its buffer. -/
def execute_cd (v : kvfs) (current_dir cmd : List UInt8) : Option (List UInt8) :=
  let target := skip_spaces (cmd.drop 2)
  if target = [] ∨ target = literal "/" then some (kstrncpy (literal "/") (KVFS_MAX_PATH - 1))
  else
    (resolve_path current_dir target KVFS_MAX_PATH).map fun resolved =>
      match kvfs_open v (some resolved) with
      | some dir =>
        if dir.type = KVFS_TYPE_DIR then kstrncpy resolved (KVFS_MAX_PATH - 1) else current_dir
      | none => current_dir

/-! ## Directories -/

/-- The path of the names below the root. -/
def path_of (names : List (List UInt8)) : List UInt8 :=
  if names = [] then literal "/" else names.flatMap (slash :: ·)

/-- A name that `cd` can be given: no blank is in front of it, where `cd` would skip it. -/
structure Name (n : List UInt8) : Prop where
  ne_nil : n ≠ []
  slash : slash ∉ n
  text : 0 ∉ n
  blank : n.head? ≠ some space
  ne_self : n ≠ literal "."
  ne_parent : n ≠ literal ".."

/-- A canonical directory, in a buffer of `KVFS_MAX_PATH` bytes. -/
structure directory where
  names : List (List UInt8)
  name : ∀ n ∈ names, Name n
  fits : (path_of names).length < KVFS_MAX_PATH

def directory.path (d : directory) : List UInt8 := path_of d.names

/-- The path with its last name removed. -/
def directory.parent (d : directory) : List UInt8 := path_of d.names.dropLast

/-- A directory of the file system. -/
def IsDir (v : kvfs) (path : List UInt8) : Prop :=
  ∃ n, kvfs_open v (some path) = some n ∧ n.type = KVFS_TYPE_DIR

/-- At most two names, and a single name leaves a byte of the buffer behind it. -/
def directory.Shallow (d : directory) : Prop :=
  d.names.length ≤ 2 ∧ (d.names.length = 1 → d.path.length < KVFS_MAX_PATH - 1)

/-! ## Paths -/

section Paths

variable {n : List UInt8} {names : List (List UInt8)}

theorem path_of_ne (h : names ≠ []) : path_of names = names.flatMap (slash :: ·) := if_neg h

theorem path_of_cons (n : List UInt8) (h : names ≠ []) :
    path_of (n :: names) = (slash :: n) ++ path_of names := by
  rw [path_of_ne (List.cons_ne_nil n names), path_of_ne h, List.flatMap_cons]

theorem path_of_singleton (n : List UInt8) : path_of [n] = slash :: n := by
  rw [path_of_ne (List.cons_ne_nil n []), List.flatMap_singleton]

theorem path_of_concat (n : List UInt8) (h : names ≠ []) :
    path_of (names ++ [n]) = path_of names ++ slash :: n := by
  rw [path_of_ne (by simp), path_of_ne h, List.flatMap_append, List.flatMap_singleton]

/-- A path starts with a slash. -/
theorem path_of_eq (names : List (List UInt8)) : ∃ rest, path_of names = slash :: rest := by
  cases names with
  | nil => exact ⟨[], rfl⟩
  | cons n names =>
      rw [path_of_ne (List.cons_ne_nil n names), List.flatMap_cons]
      exact ⟨_, rfl⟩

/-- Only the root has no name. -/
theorem path_of_eq_root (hname : ∀ n ∈ names, Name n) :
    path_of names = literal "/" ↔ names = [] := by
  constructor
  · intro h
    cases names with
    | nil => rfl
    | cons n names =>
        rw [path_of_ne (List.cons_ne_nil n names), List.flatMap_cons] at h
        have hnil : n ++ names.flatMap (slash :: ·) = [] := (List.cons.inj h).2
        exact absurd (List.append_eq_nil_iff.mp hnil).1 (hname n List.mem_cons_self).ne_nil
  · rintro rfl
    rfl

end Paths

/-! ## The parent -/

section Parent

variable {v : kvfs}

theorem kstrncpy_path (d : directory) : kstrncpy d.path (KVFS_MAX_PATH - 1) = d.path :=
  List.take_of_length_le (Nat.le_sub_one_of_lt d.fits)

/-- What `..` is resolved to: the directory of the first name. -/
theorem resolve_parent_path (d : directory) :
    resolve_path d.path (literal "..") KVFS_MAX_PATH
      = match d.names with
        | [] => some (literal "/")
        | [_] => if d.path.length < KVFS_MAX_PATH - 1 then some (literal "/") else none
        | n :: _ => some (path_of [n]) := by
  have hbranch : resolve_path d.path (literal "..") KVFS_MAX_PATH
      = resolve_parent d.path KVFS_MAX_PATH := rfl
  rw [hbranch, resolve_parent, kstrncpy_path]
  unfold directory.path
  rcases hnames : d.names with _ | ⟨n, _ | ⟨m, names⟩⟩
  · exact if_pos rfl
  · have hroot : path_of [n] ≠ literal "/" := fun h =>
      List.cons_ne_nil n [] ((path_of_eq_root (hnames ▸ d.name)).mp h)
    have hslash := (d.name n (hnames ▸ List.mem_cons_self)).slash
    rw [if_neg hroot, path_of_singleton, if_neg]
    exact hslash
  · have hroot : path_of (n :: m :: names) ≠ literal "/" := fun h =>
      List.cons_ne_nil n _ ((path_of_eq_root (hnames ▸ d.name)).mp h)
    have hslash := (d.name n (hnames ▸ List.mem_cons_self)).slash
    obtain ⟨rest, hrest⟩ := path_of_eq (m :: names)
    rw [if_neg hroot, path_of_cons n (List.cons_ne_nil m names), hrest]
    dsimp only
    rw [path_of_singleton]
    have hbehind : ((slash :: n) ++ slash :: rest).drop 1 = n ++ slash :: rest := rfl
    rw [hbehind, if_pos (List.mem_append_right n List.mem_cons_self),
      Delimited.takeWhile_append_cons hslash]
    rfl

theorem resolve_parent_length {d : directory} {resolved : List UInt8}
    (h : resolve_path d.path (literal "..") KVFS_MAX_PATH = some resolved) :
    resolved.length ≤ KVFS_MAX_PATH - 1 := by
  have hfits : d.path.length ≤ KVFS_MAX_PATH - 1 := Nat.le_sub_one_of_lt d.fits
  rw [resolve_parent_path] at h
  unfold directory.path at h hfits
  rcases hnames : d.names with _ | ⟨n, _ | ⟨m, names⟩⟩ <;> rw [hnames] at h hfits <;> dsimp only at h
  · cases h
    decide
  · split_ifs at h
    cases h
    decide
  · cases h
    rw [path_of_cons n (List.cons_ne_nil m names), List.length_append] at hfits
    rw [path_of_singleton]
    exact le_trans (Nat.le_add_right _ _) hfits

/-- A directory of three names and more is not below the directory of its first name. -/
theorem path_of_head_ne (n m k : List UInt8) (names : List (List UInt8)) :
    path_of [n] ≠ path_of (n :: m :: k :: names).dropLast := by
  intro h
  have hlast : (n :: m :: k :: names).dropLast = n :: m :: (k :: names).dropLast := rfl
  rw [hlast, path_of_cons n (List.cons_ne_nil m _), path_of_singleton] at h
  obtain ⟨rest, hrest⟩ := path_of_eq (m :: (k :: names).dropLast)
  rw [hrest] at h
  exact List.cons_ne_nil slash rest (List.self_eq_append_right.mp h)

theorem resolve_parent_iff (d : directory) :
    resolve_path d.path (literal "..") KVFS_MAX_PATH = some d.parent ↔ d.Shallow := by
  rw [resolve_parent_path]
  unfold directory.parent directory.Shallow
  rcases hnames : d.names with _ | ⟨n, _ | ⟨m, _ | ⟨k, names⟩⟩⟩
  · exact iff_of_true rfl ⟨Nat.zero_le 2, fun h => absurd h (by decide)⟩
  · dsimp only
    constructor
    · intro h
      refine ⟨show 1 ≤ 2 by decide, fun _ => ?_⟩
      by_contra hlong
      rw [if_neg hlong] at h
      cases h
    · intro h
      rw [if_pos (h.2 rfl)]
      rfl
  · exact iff_of_true rfl ⟨le_rfl, fun h => absurd h (by simp)⟩
  · refine iff_of_false (fun h => path_of_head_ne n m k names (Option.some.inj h)) fun h => ?_
    exact absurd h.1 (by simp)

/-- The directory of a name in a directory. -/
def directory.Below (d e : directory) (name : List UInt8) : Prop := e.names = d.names ++ [name]

variable {d e : directory} {name : List UInt8}

theorem directory.Below.path_eq (h : d.Below e name) :
    e.path = if d.names = [] then slash :: name else d.path ++ slash :: name := by
  unfold directory.path
  rw [h]
  by_cases hroot : d.names = []
  · rw [if_pos hroot, hroot, List.nil_append, path_of_singleton]
  · rw [if_neg hroot, path_of_concat name hroot]

theorem directory.Below.parent (h : d.Below e name) : e.parent = d.path := by
  unfold directory.parent directory.path
  rw [h, List.dropLast_concat]

/-- A name is resolved to the directory below. -/
theorem resolve_name (h : d.Below e name) :
    resolve_path d.path name KVFS_MAX_PATH = some e.path := by
  have hname : Name name := e.name name (h ▸ List.mem_append_right _ List.mem_cons_self)
  have hhead : name.head? ≠ some slash := fun hhead =>
    hname.slash (List.mem_of_mem_head? (Option.mem_def.mpr hhead))
  have hfits : e.path.take (KVFS_MAX_PATH - 1) = e.path := kstrncpy_path e
  unfold resolve_path
  rw [if_neg hname.ne_nil, if_neg hhead, if_neg hname.ne_self, if_neg hname.ne_parent]
  have hpath := h.path_eq
  by_cases hroot : d.names = []
  · have hdir : d.path = literal "/" := (path_of_eq_root d.name).mpr hroot
    rw [if_pos hroot] at hpath
    rw [if_pos hdir, ← hpath, hfits]
  · have hdir : d.path ≠ literal "/" := fun hdir => hroot ((path_of_eq_root d.name).mp hdir)
    rw [if_neg hroot] at hpath
    rw [if_neg hdir, ← hpath, hfits]

/-! ## Down and up -/

theorem execute_cd_eq {current_dir target : List UInt8} (hne : target ≠ [])
    (hblank : target.head? ≠ some space) (hroot : target ≠ literal "/") :
    execute_cd v current_dir (literal "cd " ++ target)
      = (resolve_path current_dir target KVFS_MAX_PATH).map fun resolved =>
          match kvfs_open v (some resolved) with
          | some dir =>
            if dir.type = KVFS_TYPE_DIR then kstrncpy resolved (KVFS_MAX_PATH - 1) else current_dir
          | none => current_dir := by
  have hskip : skip_spaces ((literal "cd " ++ target).drop 2) = target := by
    cases target with
    | nil => exact absurd rfl hne
    | cons c target =>
        have hc : c ≠ space := fun hc => hblank (congrArg some hc)
        show skip_spaces (space :: c :: target) = c :: target
        rw [skip_spaces, List.dropWhile_cons_of_pos (by decide),
          List.dropWhile_cons_of_neg (by simpa)]
  unfold execute_cd
  rw [hskip]
  exact if_neg (not_or.mpr ⟨hne, hroot⟩)

theorem cd_name (h : d.Below e name) (hdir : IsDir v e.path) :
    execute_cd v d.path (literal "cd " ++ name) = some e.path := by
  have hname : Name name := e.name name (h ▸ List.mem_append_right _ List.mem_cons_self)
  have hroot : name ≠ literal "/" := by
    rintro rfl
    exact hname.slash (by decide)
  obtain ⟨n, hopen, htype⟩ := hdir
  rw [execute_cd_eq hname.ne_nil hname.blank hroot, resolve_name h, Option.map_some, hopen]
  dsimp only
  rw [if_pos htype, kstrncpy_path]

/-- From a directory below, `..` leads back exactly where it is resolved to the parent. -/
theorem cd_parent_iff (h : d.Below e name) (hdir : IsDir v d.path) :
    execute_cd v e.path (literal "cd ..") = some d.path ↔ e.Shallow := by
  have hsplit : literal "cd .." = literal "cd " ++ literal ".." := by decide
  have hne : e.path ≠ d.path := by
    intro heq
    have hlength := congrArg List.length (heq.symm.trans h.path_eq)
    by_cases hroot : d.names = []
    · have hname : Name name := e.name name (h ▸ List.mem_append_right _ List.mem_cons_self)
      rw [if_pos hroot, directory.path, (path_of_eq_root d.name).mpr hroot] at hlength
      exact hname.ne_nil (List.length_eq_zero_iff.mp (Nat.succ.inj hlength).symm)
    · rw [if_neg hroot, List.length_append, List.length_cons] at hlength
      omega
  rw [hsplit, execute_cd_eq (by decide) (by decide) (by decide), ← resolve_parent_iff, h.parent]
  constructor
  · intro hcd
    obtain ⟨resolved, hresolved, hto⟩ := Option.map_eq_some_iff.mp hcd
    have hcopy : kstrncpy resolved (KVFS_MAX_PATH - 1) = resolved :=
      List.take_of_length_le (resolve_parent_length hresolved)
    rw [hresolved, ← hto]
    cases hopen : kvfs_open v (some resolved) with
    | none =>
        rw [hopen] at hto
        exact absurd hto hne
    | some n =>
        rw [hopen] at hto
        dsimp only at hto ⊢
        by_cases htype : n.type = KVFS_TYPE_DIR
        · rw [if_pos htype, hcopy]
        · rw [if_neg htype] at hto
          exact absurd hto hne
  · intro hresolved
    obtain ⟨n, hopen, htype⟩ := hdir
    rw [hresolved, Option.map_some, hopen]
    dsimp only
    rw [if_pos htype, kstrncpy_path]

end Parent

/-- **The parent**: `..` is resolved to the path without its last name exactly where the path is
shallow, and `cd ..` returns to where one came from exactly where the directory left is. -/
theorem parent_iff (d : directory) :
    (resolve_path d.path (literal "..") KVFS_MAX_PATH = some d.parent ↔ d.Shallow)
    ∧ ∀ (v : kvfs) (e : directory) (name : List UInt8), d.Below e name → IsDir v d.path →
      IsDir v e.path →
      (((execute_cd v d.path (literal "cd " ++ name)).bind fun current_dir =>
          execute_cd v current_dir (literal "cd ..")) = some d.path
        ↔ e.Shallow) := by
  refine ⟨resolve_parent_iff d, fun v e name h hd he => ?_⟩
  rw [cd_name h he, Option.bind_some]
  exact cd_parent_iff h hd

def home : directory where
  names := [literal "home"]
  name := by
    intro n hn
    obtain rfl := List.mem_singleton.mp hn
    exact ⟨by decide, by decide, by decide, by decide, by decide, by decide⟩
  fits := by decide

def home_user : directory where
  names := home.names ++ [literal "user"]
  name := by
    intro n hn
    rcases List.mem_append.mp hn with hn | hn
    · exact home.name n hn
    · obtain rfl := List.mem_singleton.mp hn
      exact ⟨by decide, by decide, by decide, by decide, by decide, by decide⟩
  fits := by decide

def home_user_docs : directory where
  names := home_user.names ++ [literal "docs"]
  name := by
    intro n hn
    rcases List.mem_append.mp hn with hn | hn
    · exact home_user.name n hn
    · obtain rfl := List.mem_singleton.mp hn
      exact ⟨by decide, by decide, by decide, by decide, by decide, by decide⟩
  fits := by decide

/-- The first two are made by the boot. -/
theorem boot_home : ∃ v, kvfs_init (.start fun _ => none) = some v ∧ IsDir v home.path
    ∧ IsDir v home_user.path := by
  have hboot : (kvfs_init (.start fun _ => none)).map (fun v =>
      ((kvfs_open v (some (literal "/home"))).map kvfs_node.type,
        (kvfs_open v (some (literal "/home/user"))).map kvfs_node.type))
      = some (some KVFS_TYPE_DIR, some KVFS_TYPE_DIR) := by
    decide +kernel
  obtain ⟨v, hinit, hopen⟩ := Option.map_eq_some_iff.mp hboot
  obtain ⟨n, hhome, htype⟩ := Option.map_eq_some_iff.mp (congrArg Prod.fst hopen)
  obtain ⟨n', huser, htype'⟩ := Option.map_eq_some_iff.mp (congrArg Prod.snd hopen)
  exact ⟨v, hinit, ⟨n, hhome, htype⟩, ⟨n', huser, htype'⟩⟩

/-- `cd user` and `cd ..` in `/home`. -/
theorem parent_iff_home : ∃ v, ((execute_cd v home.path (literal "cd user")).bind fun current_dir =>
    execute_cd v current_dir (literal "cd ..")) = some home.path := by
  obtain ⟨v, -, hhome, huser⟩ := boot_home
  have hcd : literal "cd user" = literal "cd " ++ literal "user" := by decide
  refine ⟨v, ?_⟩
  rw [hcd]
  refine ((parent_iff home).2 v home_user (literal "user") rfl hhome huser).mpr ⟨le_rfl, ?_⟩
  exact fun h => absurd h (by decide)

/-- `..` in `/home/user/docs` is `/home`. -/
theorem parent_docs :
    ¬∀ d : directory, resolve_path d.path (literal "..") KVFS_MAX_PATH = some d.parent := by
  exact fun h => absurd (h home_user_docs) (by decide)

end SysInC.KernelCd
