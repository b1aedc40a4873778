/-!
# `Multicast.Collection.Heap`: a binary heap

A heap keeps its elements in an array in which the parent of place `i` is place
`(i - 1) / 2`. The order is given as `atMost a b`, read "`a` goes no earlier
than `b`"; the element taken out is one that goes earliest.

Taking the first element moves the last one to the root, lets the hole sink to
the bottom along the earlier children and then lets the element rise from
there. With an order that is not transitive the answer depends on these steps,
so they are part of what a heap is here.
-/

set_option autoImplicit false

namespace Multicast

/-- The elements of a heap, root first. -/
structure Heap (α : Type) where
  items : Array α

namespace Heap

variable {α : Type}

/-- No elements. -/
def empty : Heap α := ⟨#[]⟩

/-- The number of elements. -/
def size (h : Heap α) : Nat := h.items.size

/-- Lets the element at `pos` rise while it goes earlier than its parent; `fuel` bounds the
number of levels and `pos` is always enough. -/
def rise (atMost : α → α → Bool) : Nat → Nat → Array α → Array α
  | 0, _, a => a
  | fuel + 1, pos, a =>
    if pos = 0 then a
    else
      let parent := (pos - 1) / 2
      match a[pos]?, a[parent]? with
      | some x, some p =>
        if atMost x p then a
        else rise atMost fuel parent ((a.setIfInBounds pos p).setIfInBounds parent x)
      | _, _ => a

/-- Exchanges the element at `pos` with its earlier child until it is at the bottom. Answers the
place reached. -/
def sink (atMost : α → α → Bool) : Nat → Nat → Array α → Nat × Array α
  | 0, pos, a => (pos, a)
  | fuel + 1, pos, a =>
    let left := 2 * pos + 1
    match a[pos]?, a[left]? with
    | some x, some l =>
      match a[left + 1]? with
      | some r =>
        if atMost l r then
          sink atMost fuel (left + 1) ((a.setIfInBounds pos r).setIfInBounds (left + 1) x)
        else
          sink atMost fuel left ((a.setIfInBounds pos l).setIfInBounds left x)
      | none => (left, (a.setIfInBounds pos l).setIfInBounds left x)
    | _, _ => (pos, a)

/-- Adds an element. -/
def push (atMost : α → α → Bool) (h : Heap α) (x : α) : Heap α :=
  ⟨rise atMost h.size h.size (h.items.push x)⟩

/-- Takes out an element that goes earliest. -/
def pop? (atMost : α → α → Bool) (h : Heap α) : Option (α × Heap α) :=
  match h.items.back?, h.items[0]? with
  | some last, some first =>
    let rest := h.items.pop
    if rest.isEmpty then some (last, ⟨rest⟩)
    else
      let (pos, sunk) := sink atMost rest.size 0 (rest.setIfInBounds 0 last)
      some (first, ⟨rise atMost pos pos sunk⟩)
  | _, _ => none

end Heap

end Multicast
