/-
Tables of slots: a fixed array whose slots are in use or free, searched from the front by key.

As long as no two slots in use have the same key, such a table is a finite map (`slot_of`). The
three ways in which one slot changes are the three ways in which the map does: replaced, taken,
released.
-/
import Mathlib.Data.List.Basic
import Mathlib.Data.List.Nodup
import Mathlib.Logic.Function.Basic
import Mathlib.Tactic.Common

set_option autoImplicit false

namespace SysInC

variable {σ κ : Type*} [DecidableEq κ]

/-- The first slot that passes the test, with what stands before and behind it. -/
def find_slot (test : σ → Bool) : List σ → Option (List σ × σ × List σ)
  | [] => none
  | n :: t => if test n then some ([], n, t)
    else (find_slot test t).map fun r => (n :: r.1, r.2.1, r.2.2)

theorem find_slot_some {test : σ → Bool} {t pre post : List σ} {n : σ}
    (h : find_slot test t = some (pre, n, post)) :
    t = pre ++ n :: post ∧ test n = true ∧ ∀ x ∈ pre, test x = false := by
  induction t generalizing pre with
  | nil => cases h
  | cons a t ih =>
      rw [find_slot] at h
      split_ifs at h with ha
      · cases h
        exact ⟨rfl, ha, by simp⟩
      · obtain ⟨⟨pre', n', post'⟩, hrest, heq⟩ := Option.map_eq_some_iff.mp h
        cases heq
        obtain ⟨rfl, hn, hpre⟩ := ih hrest
        refine ⟨rfl, hn, List.forall_mem_cons.mpr ⟨?_, hpre⟩⟩
        simpa using ha

theorem find_slot_none {test : σ → Bool} {t : List σ} (h : find_slot test t = none) :
    ∀ x ∈ t, test x = false := by
  induction t with
  | nil => simp
  | cons a t ih =>
      rw [find_slot] at h
      split_ifs at h with ha
      rw [Option.map_eq_none_iff] at h
      exact List.forall_mem_cons.mpr ⟨by simpa using ha, ih h⟩

theorem map_find_slot (test : σ → Bool) (t : List σ) :
    (find_slot test t).map (fun r => r.2.1) = t.find? test := by
  induction t with
  | nil => rfl
  | cons a t ih =>
      rw [find_slot, List.find?_cons]
      cases ha : test a with
      | true => rfl
      | false => rw [if_neg Bool.false_ne_true, Option.map_map, ← ih]; rfl

theorem find_slot_any (test : σ → Bool) (t : List σ) :
    t.any test = (find_slot test t).isSome := by
  induction t with
  | nil => rfl
  | cons a t ih =>
      rw [find_slot, List.any_cons]
      cases ha : test a with
      | true => rfl
      | false => rw [if_neg Bool.false_ne_true, Option.isSome_map, Bool.false_or, ih]

section

variable (used : σ → Bool) (key : σ → κ)

/-- The keys in use. -/
def keys_used (t : List σ) : List κ := (t.filter used).map key

/-- The slot in use that has the key. -/
def slot_of (t : List σ) (k : κ) : Option σ := t.find? fun n => used n && decide (key n = k)

variable {used key}

theorem slot_of_some {t : List σ} {k : κ} {n : σ} (h : slot_of used key t k = some n) :
    n ∈ t ∧ used n = true ∧ key n = k := by
  have htest := List.find?_some h
  rw [Bool.and_eq_true, decide_eq_true_eq] at htest
  exact ⟨List.mem_of_find?_eq_some h, htest⟩

theorem slot_of_eq_none_iff {t : List σ} {k : κ} :
    slot_of used key t k = none ↔ k ∉ keys_used used key t := by
  simp only [slot_of, List.find?_eq_none, keys_used, List.mem_map, List.mem_filter, not_exists,
    not_and, Bool.and_eq_true, decide_eq_true_eq, and_imp]

theorem slot_of_eq_none {t : List σ} {k : κ} (h : ∀ n ∈ t, used n = true → key n ≠ k) :
    slot_of used key t k = none := by
  rw [slot_of_eq_none_iff]
  intro hmem
  obtain ⟨n, hn, hkey⟩ := List.mem_map.mp hmem
  exact h n (List.mem_of_mem_filter hn) (List.of_mem_filter hn) hkey

/-- With distinct keys, a slot in use is found by its key. -/
theorem slot_of_mem {t : List σ} (h : (keys_used used key t).Nodup) {n : σ} (hn : n ∈ t)
    (hu : used n = true) : slot_of used key t (key n) = some n := by
  cases hfind : slot_of used key t (key n) with
  | none =>
      rw [slot_of_eq_none_iff] at hfind
      exact absurd (List.mem_map.mpr ⟨n, List.mem_filter.mpr ⟨hn, hu⟩, rfl⟩) hfind
  | some m =>
      obtain ⟨hm, hmu, hkey⟩ := slot_of_some hfind
      rw [List.inj_on_of_nodup_map h (List.mem_filter.mpr ⟨hm, hmu⟩)
        (List.mem_filter.mpr ⟨hn, hu⟩) hkey]

section

variable {key' : σ → κ} {t : List σ} (h : ∀ n ∈ t, used n = true → key n = key' n)
include h

omit [DecidableEq κ] in
theorem keys_used_congr : keys_used used key t = keys_used used key' t :=
  List.map_congr_left fun n hn => h n (List.mem_of_mem_filter hn) (List.of_mem_filter hn)

theorem slot_of_congr : slot_of used key t = slot_of used key' t := by
  funext k
  induction t with
  | nil => rfl
  | cons n t ih =>
      rw [List.forall_mem_cons] at h
      have htest : (used n && decide (key n = k)) = (used n && decide (key' n = k)) := by
        cases hu : used n with
        | false => rfl
        | true => rw [h.1 hu]
      have hrest : t.find? (fun n => used n && decide (key n = k))
          = t.find? (fun n => used n && decide (key' n = k)) := ih h.2
      rw [slot_of, slot_of, List.find?_cons, List.find?_cons, htest, hrest]

end

/-! ## One slot changes -/

variable {pre post : List σ} {n n' : σ} {k : κ}

theorem mem_other {m : σ} (h : m ∈ pre ++ post) : m ∈ pre ++ n :: post :=
  (List.Sublist.append_left (List.sublist_cons_self n post) pre).subset h

theorem mem_middle : n ∈ pre ++ n :: post := List.mem_append_right _ List.mem_cons_self

theorem eq_or_mem_other {m : σ} (h : m ∈ pre ++ n :: post) : m = n ∨ m ∈ pre ++ post := by
  rw [List.mem_append, List.mem_cons] at h
  rw [List.mem_append]
  tauto

omit [DecidableEq κ] in
theorem keys_used_of_used (hn : used n = true) :
    keys_used used key (pre ++ n :: post)
      = keys_used used key pre ++ key n :: keys_used used key post := by
  rw [keys_used, List.filter_append, List.map_append, List.filter_cons_of_pos hn, List.map_cons,
    keys_used, keys_used]

omit [DecidableEq κ] in
theorem keys_used_of_free (hn : used n = false) :
    keys_used used key (pre ++ n :: post) = keys_used used key (pre ++ post) := by
  rw [keys_used, keys_used, List.filter_append, List.filter_append,
    List.filter_cons_of_neg (by rw [hn]; exact Bool.false_ne_true)]

omit [DecidableEq κ] in
theorem keys_used_length_of_used (hn : used n = true) :
    (keys_used used key (pre ++ n :: post)).length
      = (keys_used used key (pre ++ post)).length + 1 := by
  rw [keys_used_of_used hn, keys_used, keys_used, keys_used, List.filter_append, List.map_append,
    List.length_append, List.length_append, List.length_cons, Nat.add_assoc]

omit [DecidableEq κ] in
theorem nodup_of_used (hn : used n = true) :
    (keys_used used key (pre ++ n :: post)).Nodup
      ↔ key n ∉ keys_used used key (pre ++ post) ∧ (keys_used used key (pre ++ post)).Nodup := by
  rw [keys_used_of_used hn, List.nodup_middle, List.nodup_cons, keys_used, keys_used, keys_used,
    List.filter_append, List.map_append]

/-- A slot is nothing to the other keys. -/
theorem slot_of_other (h : used n = true → key n ≠ k) :
    slot_of used key (pre ++ n :: post) k = slot_of used key (pre ++ post) k := by
  have htest : ¬ (used n && decide (key n = k)) = true := by
    rw [Bool.and_eq_true, decide_eq_true_eq]
    exact fun hboth => h hboth.1 hboth.2
  rw [slot_of, slot_of, List.find?_append, List.find?_append,
    List.find?_cons_of_neg (p := fun n => used n && decide (key n = k)) htest]

theorem slot_of_self (hn : used n = true)
    (h : (keys_used used key (pre ++ n :: post)).Nodup) :
    slot_of used key (pre ++ n :: post) (key n) = some n :=
  slot_of_mem h mem_middle hn

/-! The first slot of a table. -/

variable {t : List σ}

omit [DecidableEq κ] in
theorem keys_used_cons_of_free (hn : used n = false) :
    keys_used used key (n :: t) = keys_used used key t := by
  rw [keys_used, keys_used, List.filter_cons_of_neg (by rw [hn]; exact Bool.false_ne_true)]

omit [DecidableEq κ] in
theorem keys_used_cons_of_used (hn : used n = true) :
    keys_used used key (n :: t) = key n :: keys_used used key t := by
  rw [keys_used, keys_used, List.filter_cons_of_pos hn, List.map_cons]

theorem slot_of_cons_other (h : used n = true → key n ≠ k) :
    slot_of used key (n :: t) k = slot_of used key t k := by
  have hmiddle : slot_of used key ([] ++ n :: t) k = slot_of used key ([] ++ t) k :=
    slot_of_other h
  exact hmiddle

theorem slot_of_cons_self (hn : used n = true) (hk : key n = k) :
    slot_of used key (n :: t) k = some n := by
  rw [slot_of, List.find?_cons_of_pos (by rw [hn, hk, decide_eq_true rfl]; rfl)]

/-- A slot in use is written again, under its key. -/
theorem slot_of_replace (h : (keys_used used key (pre ++ n :: post)).Nodup) (hn : used n = true)
    (hn' : used n' = true) (hkey : key n' = key n) :
    (keys_used used key (pre ++ n' :: post)).Nodup
      ∧ slot_of used key (pre ++ n' :: post)
        = Function.update (slot_of used key (pre ++ n :: post)) (key n) (some n') := by
  have h' : (keys_used used key (pre ++ n' :: post)).Nodup := by
    rw [nodup_of_used hn'] at *
    rwa [nodup_of_used hn, ← hkey] at h
  refine ⟨h', funext fun k => ?_⟩
  by_cases hk : k = key n
  · rw [hk, Function.update_self, ← hkey, slot_of_self hn' h']
  · rw [Function.update_of_ne hk, slot_of_other fun _ => hkey ▸ Ne.symm hk,
      slot_of_other fun _ => Ne.symm hk]

/-- A free slot is taken for a new key. -/
theorem slot_of_take (h : (keys_used used key (pre ++ n :: post)).Nodup) (hn : used n = false)
    (hn' : used n' = true) (hkey : slot_of used key (pre ++ n :: post) (key n') = none) :
    (keys_used used key (pre ++ n' :: post)).Nodup
      ∧ slot_of used key (pre ++ n' :: post)
        = Function.update (slot_of used key (pre ++ n :: post)) (key n') (some n') := by
  rw [slot_of_eq_none_iff, keys_used_of_free hn] at hkey
  rw [keys_used_of_free hn] at h
  have h' := (nodup_of_used hn').mpr ⟨hkey, h⟩
  refine ⟨h', funext fun k => ?_⟩
  by_cases hk : k = key n'
  · rw [hk, Function.update_self, slot_of_self hn' h']
  · rw [Function.update_of_ne hk, slot_of_other fun _ => Ne.symm hk,
      slot_of_other fun hu => absurd hu (by rw [hn]; exact Bool.false_ne_true)]

/-- A slot in use is released. -/
theorem slot_of_release (h : (keys_used used key (pre ++ n :: post)).Nodup) (hn : used n = true)
    (hn' : used n' = false) :
    (keys_used used key (pre ++ n' :: post)).Nodup
      ∧ slot_of used key (pre ++ n' :: post)
        = Function.update (slot_of used key (pre ++ n :: post)) (key n) none := by
  obtain ⟨hkey, hrest⟩ := (nodup_of_used hn).mp h
  have hfree (k : κ) : used n' = true → key n' ≠ k := fun hu => by
    rw [hn'] at hu
    cases hu
  refine ⟨by rwa [keys_used_of_free hn'], funext fun k => ?_⟩
  rw [slot_of_other (hfree k)]
  by_cases hk : k = key n
  · rw [hk, Function.update_self, slot_of_eq_none_iff]
    exact hkey
  · rw [Function.update_of_ne hk, slot_of_other fun _ => Ne.symm hk]

end

end SysInC
