/-
The list of the address book (cw01/zad1): nodes with six strings, linked by hand. A function that takes `Node **`
returns the new head; one that takes `Node *` cannot change its caller's. malloc returns NULL or memory that is
not in use.
-/
import Sysopy.Memory.DList
import Sysopy.CText.Compare
import Sysopy.Conc.System

namespace Sysopy.AddressBook

open Sysopy.Memory Sysopy.Memory.Prog Sysopy.CText Sysopy.Conc

inductive Field where
  | firstname
  | lastname
  | birthdate
  | email
  | phone
  | address
  deriving DecidableEq

/-- The strings of a `Node`. -/
structure Record where
  firstname : CStr
  lastname : CStr
  birthdate : CStr
  email : CStr
  phone : CStr
  address : CStr

def Record.get (v : Record) : Field → CStr
  | .firstname => v.firstname
  | .lastname => v.lastname
  | .birthdate => v.birthdate
  | .email => v.email
  | .phone => v.phone
  | .address => v.address

abbrev Node := Cell Record

/-- What a call of malloc returns, and what is in the memory. -/
structure Malloc where
  new : Ptr
  junk : Node

/-! ## Making and freeing -/

def createNode (m : Malloc) (v : Record) : Prog Record Ptr := do
  let node ← malloc m.new m.junk
  storeNext node none
  storePrev node none
  storeVal node v
  pure node

def createList (m : Malloc) (v : Record) : Prog Record Ptr := createNode m v

def deleteList (head : Ptr) : Prog Record Ptr := do
  let _ ← loop (fun current => pure current.isSome)
    (fun current => do
      let node ← load current
      free current
      pure node.next)
    head
  pure none

/-! ## The two ends -/

def insertAtHead (head : Ptr) (m : Malloc) (v : Record) : Prog Record Ptr := do
  let node ← createNode m v
  if head = none then
    pure node
  else do
    storePrev head node
    storeNext node head
    pure node

def removeAtHead (head : Ptr) : Prog Record Ptr :=
  if head = none then
    pure head
  else do
    let node ← load head
    storePrev node.next none
    let node ← load head
    pure node.next

/-- `while(tail->next != NULL) tail = tail->next;` -/
def findTail (head : Ptr) : Prog Record Ptr :=
  loop (fun tail => do
      let node ← load tail
      pure node.next.isSome)
    (fun tail => do
      let node ← load tail
      pure node.next)
    head

def insertAtTail (head : Ptr) (m : Malloc) (v : Record) : Prog Record Unit := do
  let node ← createNode m v
  if head = none then
    pure () -- only the parameter is set
  else do
    let tail ← findTail head
    storeNext tail node
    storePrev node tail

def removeAtTail (head : Ptr) : Prog Record Unit :=
  if head = none then
    pure ()
  else do
    let tail ← findTail head
    let node ← load tail
    storeNext node.prev none

/-! ## Sorting -/

/-- The size of `word` and `maxword`. -/
def wordSize : ℕ := 255

/-- The variables of `removeMax`. -/
structure Scan where
  prev : Ptr
  max : Ptr
  current : Ptr

/-- The body of the loop in `removeMax`. -/
def scanNode (field : Field) (s : Scan) : Prog Record Scan := do
  let node ← load s.current
  let word ← strcpyTo wordSize (node.val.get field).val
  let maxNode ← load s.max
  let maxword ← strcpyTo wordSize (maxNode.val.get field).val
  if 0 < strcmp word maxword then
    pure ⟨node.prev, s.current, node.next⟩
  else
    pure { s with current := node.next }

/-- The loop in `removeMax`. -/
def scan (field : Field) : Scan → Prog Record Scan := loop (fun s => pure s.current.isSome) (scanNode field)

/-- The head after `if(prev == NULL) *head = (*head)->next;`. -/
def fixHead (head prev : Ptr) : Prog Record Ptr :=
  if prev = none then do
    let node ← load head
    pure node.next
  else
    pure head

/-- `if(prev != NULL) prev->next = max->next;` -/
def fixNext (s : Scan) : Prog Record Unit :=
  when (s.prev ≠ none) do
    let node ← load s.max
    storeNext s.prev node.next

/-- `if(max->next != NULL) max->next->prev = max->prev;` -/
def fixPrev (s : Scan) : Prog Record Unit := do
  let node ← load s.max
  when (node.next ≠ none) (storePrev node.next node.prev)

/-- What `removeMax` does after its loop; it returns `max` and the head. -/
def unlinkMax (head : Ptr) (s : Scan) : Prog Record (Ptr × Ptr) :=
  if s.max = none then
    pure (none, head)
  else do
    let newHead ← fixHead head s.prev
    fixNext s
    fixPrev s
    storeNext s.max none
    storePrev s.max none
    pure (s.max, newHead)

def removeMax (head : Ptr) (field : Field) : Prog Record (Ptr × Ptr) := do
  let s ← scan field ⟨none, head, head⟩
  unlinkMax head s

/-- `inserted` goes in front of the sorted list. -/
def placeSorted (inserted sorted : Ptr) : Prog Record Ptr :=
  if sorted = none then
    pure inserted
  else do
    storeNext inserted sorted
    storePrev sorted inserted
    pure inserted

/-- The body of the loop in `sort`, with `*head` and `sorted`. -/
def sortTurn (field : Field) (s : Ptr × Ptr) : Prog Record (Ptr × Ptr) := do
  let (inserted, head) ← removeMax s.1 field
  let sorted ← placeSorted inserted s.2
  pure (head, sorted)

/-- The loop in `sort`. -/
def sortLoop (field : Field) : Ptr × Ptr → Prog Record (Ptr × Ptr) := loop (fun s => pure s.1.isSome) (sortTurn field)

def sort (head : Ptr) (field : Field) : Prog Record Ptr := do
  let s ← sortLoop field (head, none)
  pure s.2

/-! ## Runs -/

/-- A call. -/
inductive Op where
  | insertAtHead (m : Malloc) (v : Record)
  | insertAtTail (m : Malloc) (v : Record)
  | removeAtHead
  | removeAtTail
  | sort (field : Field)
  | deleteList

/-- The call on the caller's head, and the head it has afterwards. -/
def Op.prog (head : Ptr) : Op → Prog Record Ptr
  | .insertAtHead m v => AddressBook.insertAtHead head m v
  | .insertAtTail m v => do
    AddressBook.insertAtTail head m v
    pure head
  | .removeAtHead => AddressBook.removeAtHead head
  | .removeAtTail => do
    AddressBook.removeAtTail head
    pure head
  | .sort field => AddressBook.sort head field
  | .deleteList => AddressBook.deleteList head

/-- The memory malloc returns is not in use. -/
def Malloc.Fresh (h : Heap Record) (m : Malloc) : Prop := ∀ a ∈ m.new, h a = none

/-- What malloc promises. -/
def Op.Allowed (h : Heap Record) : Op → Prop
  | .insertAtHead m _ | .insertAtTail m _ => m.Fresh h
  | _ => True

instance (h : Heap Record) (m : Malloc) : Decidable (m.Fresh h) :=
  inferInstanceAs (Decidable (∀ a ∈ m.new, h a = none))

instance (h : Heap Record) : (op : Op) → Decidable (op.Allowed h)
  | .insertAtHead m _ | .insertAtTail m _ => inferInstanceAs (Decidable (m.Fresh h))
  | .removeAtHead | .removeAtTail | .sort _ | .deleteList => inferInstanceAs (Decidable True)

/-- The heap and the caller's head. -/
structure State where
  heap : Heap Record
  head : Ptr

/-- Nothing is allocated and the list is empty, or createList has been called then. -/
def Init (s : State) : Prop :=
  ∃ h, (∀ a, h a = none) ∧
    (s = ⟨h, none⟩ ∨ ∃ m v, (createList m v).Returns h s.head s.heap)

/-- One call, when it returns; with the fuel that its loops take. -/
def next (s : State) (a : Op × ℕ) : Option State :=
  if a.1.Allowed s.heap then
    match (a.1.prog s.head).run a.2 s.heap with
    | .ok (head, heap) => some ⟨heap, head⟩
    | .error _ => none
  else none

/-- All runs up to the first call that does not return. -/
def system : System State (Op × ℕ) := ⟨Init, next⟩

end Sysopy.AddressBook
