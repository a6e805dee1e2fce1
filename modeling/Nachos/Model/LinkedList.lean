import Nachos.Library.Segment
import Nachos.Library.SortedQueue
import Nachos.Model.Basic

/-! # Lists

`list.cc` with its pointers: the elements of a list are on a heap, and null or dangling
pointers cannot be followed. -/

namespace Nachos

open Library

/-- The fields `next`, `key` and `item`. -/
abbrev ListElement (α : Type) := Node (Keyed α)

/-- The class `List`; `heap` is the part of the memory that holds elements. -/
structure LinkedList (α : Type) where
  first : Option ℕ
  last : Option ℕ
  numInList : ℤ
  heap : Heap (ListElement α)

namespace LinkedList

variable {α : Type}

/-- `List::List` -/
def new : LinkedList α := ⟨none, none, 0, Heap.empty⟩

/-- `*p` -/
def deref (l : LinkedList α) (p : Option ℕ) : Exec (ListElement α) :=
  match p.bind l.heap.cell with
  | some e => .ok e
  | none => .error .bounds

/-- `p->next = q` -/
def setNext (l : LinkedList α) (p q : Option ℕ) : Exec (LinkedList α) := do
  let _ ← l.deref p
  return { l with heap := p.elim l.heap fun a => l.heap.link a q }

/-- `delete p` -/
def delete (l : LinkedList α) (p : Option ℕ) : Exec (LinkedList α) := do
  let _ ← l.deref p
  return { l with heap := p.elim l.heap l.heap.free }

/-- `new ListElement(item, sortKey)` -/
def newElement (l : LinkedList α) (item : α) (sortKey : ℤ) : Option ℕ × LinkedList α :=
  (some l.heap.next, { l with heap := l.heap.alloc ⟨none, sortKey, item⟩ })

def isEmpty (l : LinkedList α) : Bool := l.first.isNone

def append (l : LinkedList α) (item : α) : Exec (LinkedList α) := do
  let (element, l) := l.newElement item 0
  if l.isEmpty then
    return { l with first := element, last := element, numInList := l.numInList + 1 }
  else
    let l ← l.setNext l.last element
    return { l with last := element, numInList := l.numInList + 1 }

def prepend (l : LinkedList α) (item : α) : Exec (LinkedList α) := do
  let (element, l) := l.newElement item 0
  if l.isEmpty then
    return { l with first := element, last := element, numInList := l.numInList + 1 }
  else
    let l ← l.setNext element l.first
    return { l with first := element, numInList := l.numInList + 1 }

/-- The loop of `SortedInsert` and what follows it. A walk of more steps than there are
elements never ends, and is a fault here. -/
def insertAfter (l : LinkedList α) (element : Option ℕ) (sortKey : ℤ) :
    ℕ → Option ℕ → Exec (LinkedList α)
  | 0, _ => .error .bounds
  | fuel + 1, ptr => do
      match (← l.deref ptr).next with
      | none => do
          let l ← l.setNext l.last element
          return { l with last := element, numInList := l.numInList + 1 }
      | some next => do
          if sortKey < (← l.deref (some next)).value.key then
            let l ← l.setNext element (some next)
            let l ← l.setNext ptr element
            return { l with numInList := l.numInList + 1 }
          else l.insertAfter element sortKey fuel (some next)

def sortedInsert (l : LinkedList α) (item : α) (sortKey : ℤ) : Exec (LinkedList α) := do
  let (element, l) := l.newElement item sortKey
  if l.isEmpty then
    return { l with first := element, last := element, numInList := l.numInList + 1 }
  else if sortKey < (← l.deref l.first).value.key then
    let l ← l.setNext element l.first
    return { l with first := element, numInList := l.numInList + 1 }
  else l.insertAfter element sortKey l.heap.next l.first

/-- The item with its key, or `none` for the result `NULL`. -/
def sortedRemove (l : LinkedList α) : Exec (Option (Keyed α) × LinkedList α) := do
  if l.isEmpty then return (none, l)
  else
    let element ← l.deref l.first
    let l' := if l.first = l.last then { l with first := none, last := none }
      else { l with first := element.next }
    let l' ← l'.delete l.first
    return (some element.value, { l' with numInList := l'.numInList - 1 })

/-- `List::Remove()` -/
def remove (l : LinkedList α) : Exec (Option α × LinkedList α) := do
  let (thing, l) ← l.sortedRemove
  return (thing.map Keyed.item, l)

variable [DecidableEq α]

/-- The loop of `Remove(item)`. -/
def removeAfter (item : α) (l : LinkedList α) :
    ℕ → Option ℕ → Option ℕ → Exec (LinkedList α)
  | 0, _, _ => .error .bounds
  | _ + 1, _, none => .error .assertion
  | fuel + 1, prev, some ptr => do
      let e ← l.deref (some ptr)
      if item = e.value.item then
        let l ← l.setNext prev e.next
        let l := if (← l.deref prev).next = none then { l with last := prev } else l
        let l ← l.delete (some ptr)
        return { l with numInList := l.numInList - 1 }
      else removeAfter item l fuel (some ptr) e.next

/-- `List::Remove(item)` -/
def removeItem (l : LinkedList α) (item : α) : Exec (LinkedList α) := do
  let e ← l.deref l.first
  if item = e.value.item then
    let (removed, l) ← l.remove
    assert (removed = some item)
    return l
  else removeAfter item l l.heap.next l.first e.next

end LinkedList

end Nachos
