import Std.Data.HashMap

/-! The strings that a machine holds. Equal strings share one handle, and a handle that
has been given out is never given out again. -/

namespace ExprMachine

structure Heap where
  values : Std.HashMap Nat String
  interned : Std.HashMap String Nat
  lastId : Nat
  /-- The bytes of all strings in UTF-8. -/
  bytes : Nat

namespace Heap

def empty : Heap := ⟨∅, ∅, 0, 0⟩

def size (h : Heap) : Nat := h.values.size

def isEmpty (h : Heap) : Bool := h.values.isEmpty

def get? (h : Heap) (id : Nat) : Option String := h.values[id]?

/-- The first number from `id` on that is no handle, if there is one among the first
`tries` numbers. -/
def firstFree (values : Std.HashMap Nat String) : Nat → Nat → Nat
  | 0, id => id
  | tries + 1, id => if values.contains id then firstFree values tries (id + 1) else id

/-- As there are only so many handles, the search always comes to an end. -/
def freshId (h : Heap) : Nat :=
  firstFree h.values h.values.size (h.lastId + 1)

/-- The handle of a string, which is added if the heap does not hold it. -/
def intern (h : Heap) (s : String) : Heap × Nat :=
  match h.interned[s]? with
  | some id => (h, id)
  | none =>
    let id := h.freshId
    (⟨h.values.insert id s, h.interned.insert s id, id, h.bytes + s.utf8ByteSize⟩, id)

/-- Drops every string. The handles stay used. -/
def release (h : Heap) : Heap := ⟨∅, ∅, h.lastId, 0⟩

def summary (h : Heap) : String :=
  s!"Heap stats: bytes_allocated {h.bytes}\nnum_values: {h.size}"

end Heap

end ExprMachine
