import Luminix.CLib.Buffer
import Luminix.CLib.CString

/-!
# Arrays that grow

The `DynamicArray` of `utils.c`: a block of memory with room for `capacity` elements of one size,
which is doubled when it is full.  A function has no result where it would write outside of the
block.  `malloc` and `realloc` succeed: `create_dynamic_array` returns `NULL` where they do not, and
`dynamic_array_push` does not check.
-/

namespace Luminix

open CLib

/-- `INITIAL_CAPACITY`. -/
def arrayInitialCapacity : Nat := 100

/-- `DynamicArray`. -/
structure DynamicArray where
  data : List UInt8
  elementSize : Nat
  size : Nat
  capacity : Nat
  deriving DecidableEq

/-- `create_dynamic_array`.  What `malloc` returns holds the bytes `fresh`. -/
def createDynamicArray (fresh : Nat → UInt8) (elementSize : Nat) : DynamicArray where
  data := realloc fresh (arrayInitialCapacity * elementSize) []
  elementSize := elementSize
  size := 0
  capacity := arrayInitialCapacity

/-- The array with room for one more element. -/
def DynamicArray.withRoom (fresh : Nat → UInt8) (array : DynamicArray) : DynamicArray :=
  if array.capacity ≤ array.size then
    { array with
      capacity := array.capacity * 2
      data := realloc fresh (array.capacity * 2 * array.elementSize) array.data }
  else array

/-- `dynamic_array_push`; `element` are the bytes that the pointer leads to. -/
def dynamicArrayPush (fresh : Nat → UInt8) (array : DynamicArray) (element : Option (List UInt8)) :
    Option DynamicArray :=
  match element with
  | none => some array
  | some element =>
    let array := array.withRoom fresh
    (writeAt array.data (array.size * array.elementSize) (element.take array.elementSize)).map
      fun data => { array with data, size := array.size + 1 }

/-- `dynamic_array_get`: the element that its result points to. -/
def dynamicArrayGet (array : DynamicArray) (index : Nat) : Option (List UInt8) :=
  if array.size ≤ index then none
  else some ((array.data.drop (index * array.elementSize)).take array.elementSize)

/-- The array after some calls of `dynamic_array_push`. -/
def pushAll (fresh : Nat → UInt8) : DynamicArray → List (Option (List UInt8)) → Option DynamicArray
  | array, [] => some array
  | array, element :: elements =>
    (dynamicArrayPush fresh array element).bind fun array => pushAll fresh array elements

end Luminix
