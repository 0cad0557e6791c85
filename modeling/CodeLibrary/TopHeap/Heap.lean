import Mathlib.Data.UInt
import CodeLibrary.Lib.Loop

/-!
# The heaps of `smallheap.c` and `bigheap.c`

Both files keep the first `heapSize` elements of an array of `uint32_t` as a binary heap. They
differ in one comparison, `before`: `MinHeapify` moves a smaller child up, `MaxHeapify` a greater
one, and `MinInsert` takes an element greater than the root, `MaxInsert` a smaller one.

Indices are `uint32_t`, so `2 * currentNode + 2` wraps. `none` is a read outside the array, or a
recursion that has not ended within `fuel` calls.
-/

namespace TopHeap

/-- `Swap` -/
def swap (array : Array UInt32) (i j : UInt32) : Option (Array UInt32) :=
  if h : i.toNat < array.size ∧ j.toNat < array.size then
    some (array.swap i.toNat j.toNat h.1 h.2)
  else none

/-- `child`, where it is in the heap and comes before `best`, else `best`. -/
def earlier (before : UInt32 → UInt32 → Bool) (array : Array UInt32)
    (heapSize child best : UInt32) : Option UInt32 :=
  if child < heapSize then do
    let x ← array[child.toNat]?
    let y ← array[best.toNat]?
    return if before x y then child else best
  else some best

/-- One call of `MinHeapify` or `MaxHeapify`: the array and the node of the recursive call, or the
array it returns with. -/
def heapifyStep (before : UInt32 → UInt32 → Bool) (heapSize : UInt32) :
    Array UInt32 × UInt32 → (Array UInt32 × UInt32) ⊕ Option (Array UInt32)
  | (array, currentNode) =>
    let leftChild := 2 * currentNode + 1
    let rightChild := 2 * currentNode + 2
    let first := do
      earlier before array heapSize rightChild
        (← earlier before array heapSize leftChild currentNode)
    match first with
    | none => .inr none
    | some first =>
      if first ≠ currentNode then
        match swap array first currentNode with
        | none => .inr none
        | some array => .inl (array, first)
      else .inr (some array)

def heapify (before : UInt32 → UInt32 → Bool) (fuel : Nat) (array : Array UInt32)
    (heapSize currentNode : UInt32) : Option (Array UInt32) :=
  (Loop.run (heapifyStep before heapSize) fuel (array, currentNode)).join

/-- The loop of `MinHeapCreat` and `MaxHeapCreat` from `i` down to 0. -/
def heapCreatFrom (before : UInt32 → UInt32 → Bool) (fuel : Nat) (heapSize : UInt32) :
    Nat → Array UInt32 → Option (Array UInt32)
  | 0, array => heapify before fuel array heapSize 0
  | i + 1, array => do
    heapCreatFrom before fuel heapSize i
      (← heapify before fuel array heapSize (UInt32.ofNat (i + 1)))

def heapCreat (before : UInt32 → UInt32 → Bool) (fuel : Nat) (array : Array UInt32)
    (heapSize : UInt32) : Option (Array UInt32) :=
  heapCreatFrom before fuel heapSize (heapSize / 2).toNat array

def insert (before : UInt32 → UInt32 → Bool) (fuel : Nat) (array : Array UInt32)
    (heapSize elem : UInt32) : Option (Array UInt32) :=
  if h : 0 < array.size then
    if before array[0] elem then heapify before fuel (array.set 0 elem) heapSize 0
    else some array
  else none

/-! ## `smallheap.c` -/

/-- `array[i] < array[j]` -/
def less (x y : UInt32) : Bool := x < y

/-- `MinHeapify` -/
def minHeapify := heapify less

/-- `MinHeapCreat` -/
def minHeapCreat := heapCreat less

/-- `MinInsert` -/
def minInsert := insert less

/-! ## `bigheap.c` -/

/-- `array[i] > array[j]` -/
def greater (x y : UInt32) : Bool := x > y

/-- `MaxHeapify` -/
def maxHeapify := heapify greater

/-- `MaxHeapCreat` -/
def maxHeapCreat := heapCreat greater

/-- `MaxInsert` -/
def maxInsert := insert greater

/-! ## A stream of values -/

/-- `MinHeapCreat` of the array, then `MinInsert` of each value, with `heapSize` the length of the
array; or the same with `MaxHeapCreat` and `MaxInsert`. -/
def stream (creat : Nat → Array UInt32 → UInt32 → Option (Array UInt32))
    (insert : Nat → Array UInt32 → UInt32 → UInt32 → Option (Array UInt32)) (fuel : Nat)
    (array : Array UInt32) (elems : List UInt32) : Option (Array UInt32) := do
  let heapSize := UInt32.ofNat array.size
  elems.foldlM (insert fuel · heapSize ·) (← creat fuel array heapSize)

end TopHeap
