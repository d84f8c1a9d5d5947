import I386Kernel.Lib.CircularList

/-!
# `list.h`

The list operations in the order in which they read and write the pointers. The arguments of `__list_add` are evaluated before its first write; the second half of `list_del` reads `node->prev` after its first write.
-/

namespace I386Kernel

open CircularList (Links)

variable {α : Type} [DecidableEq α]

def setNext (L : Links α) (node n : α) : Links α := { L with next := Function.update L.next node n }

def setPrev (L : Links α) (node p : α) : Links α := { L with prev := Function.update L.prev node p }

def listHeadInit (L : Links α) (head : α) : Links α := setNext (setPrev L head head) head head

def listEmpty (L : Links α) (head : α) : Bool := L.next head = head ∨ L.prev head = head

def listDel (L : Links α) (node : α) : Links α :=
  let L := setPrev L (L.next node) (L.prev node)
  setNext L (L.prev node) (L.next node)

/-- The first node and the list without it. -/
def listPop (L : Links α) (head : α) : α × Links α := (L.next head, listDel L (L.next head))

/-- `__list_add`. -/
def listAddBetween (L : Links α) (node prev next : α) : Links α :=
  let L := setNext L node next
  let L := setPrev L node prev
  let L := setNext L prev node
  setPrev L next node

def listAdd (L : Links α) (node head : α) : Links α := listAddBetween L node head (L.next head)

def listAddTail (L : Links α) (node head : α) : Links α := listAddBetween L node (L.prev head) head

/-! ## What they do to rings -/

theorem listDel_eq (L : Links α) (node : α) : listDel L node = L.unlink node := by
  -- the first write does not change what the second half reads
  have hprev : (setPrev L (L.next node) (L.prev node)).prev node = L.prev node := by
    by_cases h : node = L.next node
    · rw [← h]
      exact Function.update_self ..
    · exact Function.update_of_ne h _ _
  rw [listDel, hprev]
  rfl

theorem listAddTail_eq (L : Links α) (node head : α) :
    listAddTail L node head = L.insertBetween node (L.prev head) head := rfl

theorem listEmpty_iff {L : Links α} {head : α} {xs : List α} (r : CircularList.Ring L head xs) :
    listEmpty L head = true ↔ xs = [] := by
  rw [listEmpty, decide_eq_true_iff, r.next_head_iff, r.prev_head_iff, or_self]

end I386Kernel
