import CppUtils.Machine

/-!
# `Serialize` as a serializer

The bytes written so far live in a singly linked list of nodes of `_base_size` bytes each. Four
quantities are cached beside the list: the last node, the cursor the next byte goes to, what is left
of the last node, and how many bytes were written.

The list of nodes hanging off `_head` is the list `nodes`, in `next` order, and a `char*` into a
node is a node's position in that list with an offset. A byte of a node is `none` until something is
stored there, and `strayed` records that some store has gone outside the bytes of the node it was
aimed at. `_type` is not modelled: a `Serializer` is an object built as `SERIALIZER`, and the
asserts on `_type` pass.
-/

namespace CppUtils

structure Serializer.Node where
  baseSize : Nat
  str : List (Option Byte)

def Serializer.Node.new (baseSize : Nat) : Serializer.Node where
  baseSize := baseSize
  str := List.replicate baseSize none

/-- The part of `src` that falls inside the allocation is stored at `off`. -/
def Serializer.Node.store (n : Serializer.Node) (off : Nat) (src : List Byte) : Serializer.Node :=
  { n with str := n.str.take off ++ (src.take (n.str.length - off)).map some
      ++ n.str.drop (off + src.length) }

structure Serializer.Cursor where
  node : Nat
  off : Nat

def Serializer.Cursor.advance (p : Serializer.Cursor) (n : Nat) : Serializer.Cursor :=
  { p with off := p.off + n }

structure Serializer where
  baseSize : Nat
  nodes : List Serializer.Node
  tail : Nat
  cur : Serializer.Cursor
  capacity : Nat
  size : Nat
  strayed : Bool

namespace Serializer

def new (baseSize : Nat) : Serializer where
  baseSize := baseSize
  nodes := [Node.new baseSize]
  tail := 0
  cur := { node := 0, off := 0 }
  capacity := u32 baseSize
  size := 0
  strayed := false

def room (s : Serializer) (p : Cursor) : Nat := (s.nodes[p.node]?.elim 0 (·.str.length)) - p.off

def memmove (s : Serializer) (p : Cursor) (src : List Byte) : Serializer :=
  { s with
    nodes := s.nodes.modify p.node (·.store p.off src)
    strayed := s.strayed || decide (s.room p < src.length) }

/-- `_tail->next = new Node(_base_size)`, then `_tail = _tail->next`. -/
def addNode (s : Serializer) : Serializer :=
  { s with
    nodes := s.nodes.take (s.tail + 1) ++ [Node.new s.baseSize]
    tail := s.tail + 1 }

/-- The loop `while (remain > _base_size)` of `write`. A node takes at least one byte unless
`_base_size` is 0, so the bytes left bound the number of rounds; running out of fuel is a loop that
does not end. -/
def fillNodes : Nat → Serializer → List Byte → Option (Serializer × List Byte)
  | 0, s, p => if p.length > s.baseSize then none else some (s, p)
  | fuel + 1, s, p =>
      if p.length > s.baseSize then
        let s := s.addNode
        let s := s.memmove { node := s.tail, off := 0 } (p.take s.baseSize)
        fillNodes fuel { s with size := u32 (s.size + s.baseSize) } (p.drop s.baseSize)
      else
        some (s, p)

def write (s : Serializer) (buf : List Byte) : Option Serializer :=
  if s.capacity > buf.length then
    let s := s.memmove s.cur buf
    some { s with
      cur := s.cur.advance buf.length
      capacity := u32 (s.capacity - buf.length)
      size := u32 (s.size + buf.length) }
  else do
    let p := buf.drop s.capacity
    let s := s.memmove s.cur (buf.take s.capacity)
    let s := { s with size := u32 (s.size + s.capacity), capacity := 0 }
    let (s, p) ← s.fillNodes p.length p
    let s := s.addNode
    let s := s.memmove { node := s.tail, off := 0 } p
    -- the source moves `_cur` on by `remain`, from wherever it was
    some { s with
      cur := s.cur.advance p.length
      size := u32 (s.size + p.length)
      capacity := u32 (s.baseSize - p.length) }

/-- The loop of `toString` from a node on, with `s` bytes still to be copied. Reaching the end of
the list dereferences null. -/
def toStringFrom (baseSize : Nat) : List Node → Nat → Option (List (Option Byte))
  | [], _ => none
  | n :: rest, s =>
      if s > baseSize then
        (toStringFrom baseSize rest (s - baseSize)).map (n.str.take baseSize ++ ·)
      else
        some (n.str.take s)

/-- The bytes of the returned string; `none` among them is a byte nothing was ever stored to. -/
def toString (s : Serializer) : Option (List (Option Byte)) :=
  toStringFrom s.baseSize s.nodes s.size

/-- The string of a new serializer after these calls of `write`. A store outside the nodes, or a
byte of the string that nothing was stored to, fails. -/
def collect (baseSize : Nat) (blocks : List (List Byte)) : Option (List Byte) := do
  let se ← blocks.foldlM write (new baseSize)
  if se.strayed then none
  else (← se.toString).mapM id

end Serializer

end CppUtils
