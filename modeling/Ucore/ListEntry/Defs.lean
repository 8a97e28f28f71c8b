import Mathlib.Logic.Function.Basic

/-!
# Lists

`include/list.h`.  An entry of a list is a pair of pointers, and the memory has an entry for every
address.  The functions are one assignment after the other, in the order of the source.
-/

set_option autoImplicit false

namespace Ucore

/-- `list_entry_t`. -/
structure ListEntry (α : Type) where
  prev : α
  next : α
  deriving DecidableEq, Repr

/-- The entries of lists, by their addresses. -/
abbrev ListMem (α : Type) := α → ListEntry α

namespace ListMem

variable {α : Type} [DecidableEq α]

/-- `elm->next = v`. -/
def setNext (m : ListMem α) (elm v : α) : ListMem α :=
  Function.update m elm { m elm with next := v }

/-- `elm->prev = v`. -/
def setPrev (m : ListMem α) (elm v : α) : ListMem α :=
  Function.update m elm { m elm with prev := v }

/-- `list_next`. -/
def listNext (m : ListMem α) (listelm : α) : α := (m listelm).next

/-- `list_prev`. -/
def listPrev (m : ListMem α) (listelm : α) : α := (m listelm).prev

/-- `list_init`. -/
def listInit (m : ListMem α) (elm : α) : ListMem α :=
  let m := m.setNext elm elm
  m.setPrev elm elm

/-- `__list_add`. -/
def listAddBetween (m : ListMem α) (elm prev next : α) : ListMem α :=
  let m := m.setPrev next elm
  let m := m.setNext prev elm
  let m := m.setNext elm next
  m.setPrev elm prev

/-- `__list_del`. -/
def listDelBetween (m : ListMem α) (prev next : α) : ListMem α :=
  let m := m.setNext prev next
  m.setPrev next prev

/-- `list_add_before`. -/
def listAddBefore (m : ListMem α) (listelm elm : α) : ListMem α :=
  m.listAddBetween elm (m listelm).prev listelm

/-- `list_add_after`. -/
def listAddAfter (m : ListMem α) (listelm elm : α) : ListMem α :=
  m.listAddBetween elm listelm (m listelm).next

/-- `list_add`. -/
def listAdd (m : ListMem α) (listelm elm : α) : ListMem α := m.listAddAfter listelm elm

/-- `list_del`. -/
def listDel (m : ListMem α) (listelm : α) : ListMem α :=
  m.listDelBetween (m listelm).prev (m listelm).next

/-- `list_del_init`. -/
def listDelInit (m : ListMem α) (listelm : α) : ListMem α :=
  let m := m.listDel listelm
  m.listInit listelm

/-- `list_empty`. -/
def listEmpty (m : ListMem α) (list : α) : Bool := (m list).next = list

end ListMem

end Ucore
