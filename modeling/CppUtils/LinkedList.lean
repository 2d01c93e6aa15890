import CppUtils.Machine
import CppUtils.Lib.LinkedMemory
import CppUtils.Lib.Memory

/-!
# The linked list of `ds/list.h`

`List<T>`, with its items on a heap: a pointer is an address, the null pointer is `none`, and a
dereference of a null or dangling pointer fails. The walk of `pToPos` is `LinkedMemory.follow`.
Positions and results have type `int`, whose arithmetic does not overflow at the lengths an `int`
can hold; `_len` is a `size_t`, converted to `int` where `posPos` takes it.
-/

namespace CppUtils

structure Item (α : Type) where
  data : α
  next : Option Nat
deriving DecidableEq

/-- `List<T>`. -/
structure LinkedList (α : Type) where
  heap : Memory (Item α)
  head : Option Nat
  len : Nat
deriving DecidableEq

namespace LinkedList

variable {α : Type}

def new : LinkedList α where
  heap := .empty
  head := none
  len := 0

/-- `p->_next`. -/
def next (s : LinkedList α) (p : Nat) : Option (Option Nat) := (s.heap.read p).map (·.next)

/-- `p->_next = q`. -/
def setNext (s : LinkedList α) (p : Nat) (q : Option Nat) : Option (LinkedList α) :=
  (s.heap.read p).map fun item => { s with heap := s.heap.write p { item with next := q } }

def empty (s : LinkedList α) : Bool := s.head.isNone && s.len == 0

def pToPos (s : LinkedList α) (pos : Nat) : Option (Option Nat) :=
  LinkedMemory.follow s.next pos s.head

def posPos (len realLen pos : Int) : Int :=
  let neg := -1 * len - 1
  if pos < neg ∨ pos > len then -1
  else if pos < 0 then pos + realLen
  else pos

def insert (s : LinkedList α) (pos : Int) (data : α) : Option (Int × LinkedList α) :=
  let pospos := posPos (toInt s.len) (toInt s.len) pos
  if pospos = -1 then some (-1, s)
  else
    let np := s.heap.fresh
    let s := { s with heap := s.heap.alloc { data := data, next := none } }
    if pospos = 0 then do
      let s ← s.setNext np s.head
      some (0, { s with head := some np, len := s.len + 1 })
    else do
      let p ← (s.pToPos (toUInt32 (pospos - 1))).join
      let nextItem ← s.next p
      let s ← s.setNext p (some np)
      let s ← s.setNext np nextItem
      some (0, { s with len := s.len + 1 })

def insertTail (s : LinkedList α) (data : α) : Option (Int × LinkedList α) :=
  s.insert (toInt s.len) data

/-- The item `itm` lives on the stack: it is there while `remove` runs. -/
def remove [Inhabited α] (s : LinkedList α) (pos : Int) : Option (Int × LinkedList α) :=
  if s.empty then some (-1, s)
  else
    let pospos := posPos (toInt (s.len - 1)) (toInt s.len) pos
    if pospos = -1 then some (-1, s)
    else do
      let itm := s.heap.fresh
      let s := { s with
        heap := s.heap.alloc { data := default, next := s.head }
        head := some itm
        len := s.len + 1 }
      let p ← (s.pToPos (toUInt32 pospos)).join
      let r ← (← s.next p)
      let s ← s.setNext p (← s.next r)
      let s := { s with heap := s.heap.free r, len := s.len - 1 }
      let head ← s.next (← s.head)
      some (0, { heap := s.heap.free itm, head := head, len := s.len - 1 })

/-- On an empty list the program exits. -/
def get (s : LinkedList α) (pos : Int) : Option α :=
  if s.empty then none
  else do
    let pospos := posPos (toInt (s.len - 1)) (toInt s.len) pos
    let p ← (s.pToPos (toUInt32 pospos)).join
    let item ← s.heap.read p
    some item.data

/-- `~List`, with a bound on the rounds of its loop. -/
def destroy [Inhabited α] : Nat → LinkedList α → Option (LinkedList α)
  | 0, _ => none
  | rounds + 1, s => if s.empty then some s else (s.remove 0).bind fun (_, s) => s.destroy rounds

/-! ### Runs -/

inductive Call (α : Type) where
  | insert (pos : Int) (data : α)
  | insertTail (data : α)
  | remove (pos : Int)

def call [Inhabited α] (s : LinkedList α) : Call α → Option (Int × LinkedList α)
  | .insert pos data => s.insert pos data
  | .insertTail data => s.insertTail data
  | .remove pos => s.remove pos

/-- A call on a list whose length is below the largest `int`: the length after it fits the `int`s of
`posPos`, and no arithmetic on positions overflows. -/
def Step [Inhabited α] (s : LinkedList α) (c : Call α) (t : LinkedList α) : Prop :=
  s.len < 2 ^ 31 - 1 ∧ ∃ ret, s.call c = some (ret, t)

end LinkedList

end CppUtils
