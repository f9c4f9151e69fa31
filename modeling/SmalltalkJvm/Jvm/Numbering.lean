import Std.Data.HashMap

/-! # Numbered tables

Distinct items in the order in which they joined. An item's place is the number of items before it.
A hash map finds the place of an item, and the table carries the proof that the map and the items
agree, so no item has two places.
-/

namespace SmalltalkJvm

structure Numbering (α : Type) [BEq α] [Hashable α] where
  items : Array α
  places : Std.HashMap α Nat
  places_iff (a : α) (i : Nat) : places[a]? = some i ↔ items[i]? = some a

namespace Numbering

variable {α : Type} [BEq α] [Hashable α]

def empty : Numbering α where
  items := #[]
  places := ∅
  places_iff := by simp

instance : Inhabited (Numbering α) := ⟨empty⟩

def size (t : Numbering α) : Nat := t.items.size

def toList (t : Numbering α) : List α := t.items.toList

/-- The item at a place. -/
def get? (t : Numbering α) (i : Nat) : Option α := t.items[i]?

/-- The place of an item. -/
def place? (t : Numbering α) (a : α) : Option Nat := t.places[a]?

theorem place?_eq_some_iff (t : Numbering α) (a : α) (i : Nat) :
    t.place? a = some i ↔ t.get? i = some a := t.places_iff a i

@[simp] theorem size_empty : (empty : Numbering α).size = 0 := rfl

variable [LawfulBEq α]

/-- Adds a new item at the end. -/
def push : (t : Numbering α) → (a : α) → t.place? a = none → Numbering α
  | ⟨items, places, places_iff⟩, a, absent =>
    let items' := items.push a
    { items := items'
      places := places.insert a (items'.size - 1)
      places_iff := fun b i => by
        have fresh : ∀ j : Nat, items[j]? ≠ some a := fun j found => by
          have := (places_iff a j).2 found
          simp only [place?] at absent
          simp [absent] at this
        simp only [items', Std.HashMap.getElem?_insert, Array.getElem?_push, Array.size_push,
          Nat.add_sub_cancel]
        by_cases same : a = b
        · subst same
          simp only [BEq.rfl, ↓reduceIte, Option.some.injEq]
          by_cases last : i = items.size
          · simp [last]
          · simp [last, fresh i, Ne.symm last]
        · simp only [beq_iff_eq, same, ↓reduceIte, places_iff]
          by_cases last : i = items.size
          · simp [last, same]
          · simp [last] }

@[simp] theorem items_push (t : Numbering α) (a : α) (absent : t.place? a = none) :
    (t.push a absent).items = t.items.push a := rfl

@[simp] theorem size_push (t : Numbering α) (a : α) (absent : t.place? a = none) :
    (t.push a absent).size = t.size + 1 := by simp [size]

@[simp] theorem toList_push (t : Numbering α) (a : α) (absent : t.place? a = none) :
    (t.push a absent).toList = t.toList ++ [a] := by simp [toList]

end Numbering
end SmalltalkJvm
