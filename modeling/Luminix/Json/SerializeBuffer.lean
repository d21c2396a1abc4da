import Luminix.CLib.Buffer
import Luminix.Json.Serialize

/-!
# The memory of the writer

`json_serialize_ensure_capacity` and `json_serialize_append` of `json_io.c`, byte by byte: the buffer
is the list of the bytes that have been allocated, and a call has no result where it writes outside of
it, or where the loop that doubles the capacity runs out of fuel.  What a call returns comes with the
state that it leaves.
-/

namespace Luminix

open CLib

/-- The memory behind a `JsonSerializeState`. -/
structure SerializeMemory where
  buffer : List UInt8
  size : Nat
  capacity : Nat

namespace SerializeMemory

/-- The state that a call of the writer begins with.  What `malloc` returns holds the bytes `fresh`. -/
def start (fresh : Nat → UInt8) : SerializeMemory where
  buffer := ((List.range jsonBufferSize).map fresh).set 0 0
  size := 0
  capacity := jsonBufferSize

/-- The loop that doubles the capacity, a `size_t`. -/
def growLoop : (fuel newCapacity needed : Nat) → Option Nat
  | 0, _, _ => none
  | fuel + 1, newCapacity, needed =>
    if newCapacity < needed then growLoop fuel (newCapacity * 2 % 18446744073709551616) needed
    else some newCapacity

variable (p : Platform) (fresh : Nat → UInt8) (fuel : Nat)

/-- `json_serialize_ensure_capacity`. -/
def ensureCapacity (m : SerializeMemory) (additional : Nat) : Option (Bool × SerializeMemory) :=
  let needed := (m.size + additional + 1) % 18446744073709551616
  if m.capacity < needed then do
    let newCapacity ← growLoop fuel (m.capacity * 2 % 18446744073709551616) needed
    if p.malloc newCapacity then
      some (true, { m with buffer := realloc fresh newCapacity m.buffer, capacity := newCapacity })
    else some (false, m)
  else some (true, m)

/-- `json_serialize_append` of a text with its length. -/
def append (m : SerializeMemory) (str : List UInt8) : Option (Bool × SerializeMemory) := do
  let (ok, m) ← m.ensureCapacity p fresh fuel str.length
  if ok then
    let buffer ← writeAt m.buffer m.size str
    let size := (m.size + str.length) % 18446744073709551616
    let buffer ← writeAt buffer size [0]
    some (true, { m with buffer := buffer, size := size })
  else some (false, m)

/-- Some calls one after another, up to the first that fails. -/
def appendAll : List (List UInt8) → SerializeMemory → Option (Bool × SerializeMemory)
  | [], m => some (true, m)
  | str :: texts, m => do
    let (ok, m) ← m.append p fresh fuel str
    if ok then appendAll texts m else some (false, m)

end SerializeMemory

end Luminix
