/-
Scopes: the names that are declared and used in the blocks of a language in which a declaration
holds from where it stands to the end of its block.

A list of items resolves where every name is declared around it in front of it, and no block
declares a name twice. What the blocks inside declare does not matter outside: it is the free names
that have to be declared around (`resolves_iff`).
-/
import Mathlib.Data.List.Basic
import Mathlib.Data.List.Nodup
import Mathlib.Tactic.Common

set_option autoImplicit false

namespace SysInC.Scopes

variable {Name : Type*}

inductive Item (Name : Type*) where
  | use (name : Name)
  | declare (name : Name)
  | block (items : List (Item Name))

def Item.declared : Item Name → List Name
  | .declare name => [name]
  | _ => []

/-! ## Declared around and once -/

mutual

/-- In a block that has declared `inner` so far, with `outer` declared around it. -/
def Item.Resolves : Item Name → List Name → List Name → Prop
  | .use name, outer, inner => name ∈ inner ∨ name ∈ outer
  | .declare name, _, inner => name ∉ inner
  | .block items, outer, inner => Resolves items (inner ++ outer) []

def Resolves : List (Item Name) → List Name → List Name → Prop
  | [], _, _ => True
  | item :: items, outer, inner =>
    item.Resolves outer inner ∧ Resolves items outer (item.declared ++ inner)

end

mutual

/-- No block declares a name twice; this one has declared `inner`. -/
def Item.Once : Item Name → List Name → Prop
  | .use _, _ => True
  | .declare name, inner => name ∉ inner
  | .block items, _ => Once items []

def Once : List (Item Name) → List Name → Prop
  | [], _ => True
  | item :: items, inner => item.Once inner ∧ Once items (item.declared ++ inner)

end

/-- What is behind the declarations stands in their scope. -/
theorem resolves_declare (names : List Name) (items : List (Item Name)) (outer inner : List Name) :
    Resolves (names.map .declare ++ items) outer inner ↔
      names.Nodup ∧ (∀ name ∈ names, name ∉ inner) ∧
        Resolves items outer (names.reverse ++ inner) := by
  induction names generalizing inner with
  | nil => simp
  | cons first names ih =>
    rw [List.map_cons, List.cons_append, Resolves, Item.Resolves, ih]
    simp only [Item.declared, List.singleton_append, List.mem_cons, not_or, List.nodup_cons,
      List.reverse_cons, List.append_assoc, forall_eq_or_imp]
    constructor
    · rintro ⟨fresh, nodup, apart, rest⟩
      exact ⟨⟨fun again => (apart first again).1 rfl, nodup⟩,
        ⟨fresh, fun name here => (apart name here).2⟩, rest⟩
    · rintro ⟨⟨once, nodup⟩, ⟨fresh, apart⟩, rest⟩
      refine ⟨fresh, nodup, fun name here => ⟨?_, apart name here⟩, rest⟩
      rintro rfl
      exact once here

/-- Items that declare nothing for their block: uses, and blocks inside. -/
def Undeclared (items : List (Item Name)) : Prop := ∀ item ∈ items, item.declared = []

theorem undeclared_uses (names : List Name) : Undeclared (names.map .use) := by
  intro item here
  obtain ⟨_, -, rfl⟩ := List.mem_map.mp here
  rfl

theorem undeclared_blocks (bodies : List (List (Item Name))) : Undeclared (bodies.map .block) := by
  intro item here
  obtain ⟨_, -, rfl⟩ := List.mem_map.mp here
  rfl

theorem Undeclared.append {items items' : List (Item Name)} (h : Undeclared items)
    (h' : Undeclared items') : Undeclared (items ++ items') :=
  fun item here => (List.mem_append.mp here).elim (h item) (h' item)

theorem Undeclared.once_append {items : List (Item Name)} (h : Undeclared items)
    (items' : List (Item Name)) (inner : List Name) :
    Once (items ++ items') inner ↔ Once items inner ∧ Once items' inner := by
  induction items with
  | nil => simp [Once]
  | cons item items ih =>
    obtain ⟨nothing, rest⟩ := List.forall_mem_cons.mp h
    rw [List.cons_append, Once, Once, nothing, List.nil_append, ih rest, and_assoc]

theorem once_uses (names inner : List Name) : Once (names.map .use) inner := by
  induction names with
  | nil => trivial
  | cons name names ih => exact ⟨trivial, ih⟩

theorem once_blocks (bodies : List (List (Item Name))) (inner : List Name) :
    Once (bodies.map .block) inner ↔ ∀ body ∈ bodies, Once body [] := by
  induction bodies with
  | nil => simp [Once]
  | cons body bodies ih =>
    have nothing : (Item.block body).declared = [] := rfl
    rw [List.map_cons, Once, Item.Once, nothing, List.nil_append, ih, List.forall_mem_cons]

/-! ## Free names -/

section Free

variable [DecidableEq Name]

mutual

/-- The names that are used and not declared in front, within the item. -/
def Item.free : Item Name → List Name
  | .use name => [name]
  | .declare _ => []
  | .block items => free items

def free : List (Item Name) → List Name
  | [] => []
  | item :: items => item.free ++ (free items).filter (· ∉ item.declared)

end

mutual

theorem Item.resolves_iff : ∀ (item : Item Name) (outer inner : List Name),
    item.Resolves outer inner ↔
      (∀ name ∈ item.free, name ∈ inner ∨ name ∈ outer) ∧ item.Once inner
  | .use name, outer, inner => by simp [Item.Resolves, Item.free, Item.Once]
  | .declare name, outer, inner => by simp [Item.Resolves, Item.free, Item.Once]
  | .block items, outer, inner => by
    rw [Item.Resolves, Item.free, Item.Once, resolves_iff items]
    simp only [List.not_mem_nil, false_or, List.mem_append]

/-- The free names are declared around, and no block declares a name twice. -/
theorem resolves_iff : ∀ (items : List (Item Name)) (outer inner : List Name),
    Resolves items outer inner ↔
      (∀ name ∈ free items, name ∈ inner ∨ name ∈ outer) ∧ Once items inner
  | [], outer, inner => by simp [Resolves, free, Once]
  | item :: items, outer, inner => by
    rw [Resolves, free, Once, item.resolves_iff, resolves_iff items]
    have split : (∀ name ∈ free items, name ∈ item.declared ++ inner ∨ name ∈ outer) ↔
        ∀ name ∈ (free items).filter (· ∉ item.declared), name ∈ inner ∨ name ∈ outer := by
      simp only [List.mem_filter, decide_eq_true_eq, List.mem_append, and_imp]
      exact forall₂_congr fun name _ => by tauto
    rw [split]
    simp only [List.mem_append, or_imp, forall_and]
    tauto

end

theorem Undeclared.mem_free_append {items : List (Item Name)} (h : Undeclared items)
    (items' : List (Item Name)) (name : Name) :
    name ∈ free (items ++ items') ↔ name ∈ free items ∨ name ∈ free items' := by
  induction items with
  | nil => simp [free]
  | cons item items ih =>
    obtain ⟨nothing, rest⟩ := List.forall_mem_cons.mp h
    simp [free, nothing, ih rest, or_assoc]

theorem free_uses (names : List Name) : free (names.map Item.use) = names := by
  induction names with
  | nil => rfl
  | cons name names ih => simp [free, Item.free, Item.declared, ih]

theorem free_block (items : List (Item Name)) : free [.block items] = free items := by
  simp [free, Item.free]

theorem free_blocks (bodies : List (List (Item Name))) :
    free (bodies.map Item.block) = bodies.flatMap free := by
  induction bodies with
  | nil => rfl
  | cons body bodies ih =>
    rw [List.map_cons, free, ih, List.flatMap_cons, Item.free]
    simp [Item.declared]

end Free

end SysInC.Scopes
