import CodeLibrary.Lib.TopN
import CodeLibrary.TopHeap.Proof.Heapify

/-!
# The heaps keep the `N` greatest, or the `N` least, of a stream

* `insert_spec`: one `insert` into a heap of the greatest values so far.
* `stream_spec`: the build and any number of inserts, for any order.
* `topHeap_ok`: the two files, with `heapSize` any `N` from 1 to `2 ^ 31 - 1`.
-/

namespace TopHeap

open HeapOrder TopN

/-- The elements of an array, with their multiplicities. -/
def elements (array : Array UInt32) : Multiset UInt32 := (array.toList : Multiset UInt32)

/-- The `n` greatest elements of `s`. -/
def largest (n : Nat) (s : Multiset UInt32) : Multiset UInt32 := top (· ≤ ·) n s

/-- The `n` least elements of `s`. -/
def smallest (n : Nat) (s : Multiset UInt32) : Multiset UInt32 := top (· ≥ ·) n s

/-- `array[k] <= array[2 * k + 1]` and `array[k] <= array[2 * k + 2]`, where these are in range. -/
def IsMinHeap (array : Array UInt32) : Prop := OrderedFrom (· ≤ ·) array 0

/-- `array[k] >= array[2 * k + 1]` and `array[k] >= array[2 * k + 2]`, where these are in range. -/
def IsMaxHeap (array : Array UInt32) : Prop := OrderedFrom (· ≥ ·) array 0

/-- A heap of the elements of `s` that come last in the order `r`. -/
structure Keeps (r : UInt32 → UInt32 → Prop) (n : Nat) (s : Multiset UInt32)
    (array : Array UInt32) : Prop where
  size : array.size = n
  heap : OrderedFrom r array 0
  isTop : IsTop r (elements array) s

theorem elements_perm {a b : Array UInt32} (h : a.Perm b) : elements a = elements b :=
  Multiset.coe_eq_coe.2 (Array.perm_iff_toList_perm.1 h)

/-- The first element, and what `array[0] = elem` leaves of the others. -/
theorem elements_set_zero {a : Array UInt32} (h : 0 < a.size) (e : UInt32) :
    ∃ m, elements a = a[0] ::ₘ m ∧ elements (a.set 0 e) = e ::ₘ m := by
  obtain ⟨l⟩ := a
  cases l with
  | nil => exact absurd h (by simp)
  | cons x xs => exact ⟨xs, rfl, rfl⟩

section
variable {r : UInt32 → UInt32 → Prop} [Std.Total r] [IsTrans UInt32 r]
  {before : UInt32 → UInt32 → Bool} (hb : ∀ x y, before x y = true ↔ ¬ r y x)
  {heapSize : UInt32} {n fuel : Nat} (hsize : heapSize.toNat = n) (hpos : 0 < n)
  (hlt : n < 2 ^ 31) (hf : n < fuel)
include hb hsize hpos hlt hf

theorem insert_spec {array : Array UInt32} {s : Multiset UInt32} (h : Keeps r n s array)
    (elem : UInt32) :
    ∃ a, insert before fuel array heapSize elem = some a ∧ Keeps r n (elem ::ₘ s) a := by
  obtain ⟨hn, hheap, htop⟩ := h
  have h0 : 0 < array.size := by omega
  obtain ⟨m, hm, hset⟩ := elements_set_zero h0 elem
  -- the root comes before every element
  have hroot : ∀ z ∈ elements array, r array[0] z := by
    intro z hz
    obtain ⟨i, hi⟩ := Array.mem_iff_getElem?.1 (Array.mem_toList_iff.1 (Multiset.mem_coe.1 hz))
    exact hheap.root (Array.getElem?_eq_getElem h0) i z hi
  rw [insert, dif_pos h0]
  by_cases hbe : before array[0] elem = true
  · rw [if_pos hbe]
    have hle : r array[0] elem := (Std.Total.total _ _).resolve_right ((hb _ _).1 hbe)
    have hhole : HoleOrdered r (array.set 0 elem) 0 (0 : UInt32).toNat := by
      refine ⟨fun p c hp hne hc x y hx hy => ?_, fun p c _ hc _ => absurd hc.lt (Nat.not_lt_zero _)⟩
      have hcp := hc.lt
      rw [Array.getElem?_set, if_neg (fun he => hne he.symm)] at hx
      rw [Array.getElem?_set, if_neg (by omega)] at hy
      exact hheap p c hp hc x y hx hy
    have hsift : Sifted r (array.set 0 elem) 0
        (heapify before fuel (array.set 0 elem) heapSize 0) :=
      heapify_spec hb (by rw [Array.size_set, hsize, hn]) (by rw [Array.size_set]; omega)
        (by rw [Array.size_set]; omega) (Nat.zero_le _)
        (by rw [Array.size_set]; exact h0) hhole
    obtain ⟨a, ha, hperm, hord⟩ := hsift
    refine ⟨a, ha, ?_, hord, ?_⟩
    · rw [hperm.size_eq, Array.size_set, hn]
    · rw [elements_perm hperm, hset]
      rw [hm] at htop hroot
      exact htop.replace (fun z hz => hroot z (Multiset.mem_cons_of_mem hz)) hle
  · rw [if_neg hbe]
    refine ⟨array, rfl, hn, hheap, htop.keep hroot ?_⟩
    exact Classical.not_not.1 (mt (hb _ _).2 hbe)

theorem foldlM_insert_spec : ∀ (elems : List UInt32) {array : Array UInt32} {s : Multiset UInt32},
    Keeps r n s array →
    ∃ a, elems.foldlM (insert before fuel · heapSize ·) array = some a ∧
      Keeps r n (s + elems) a
  | [], array, s, h => ⟨array, rfl, by rwa [Multiset.coe_nil, Multiset.add_zero]⟩
  | e :: elems, array, s, h => by
    obtain ⟨a, ha, hk⟩ := insert_spec hb hsize hpos hlt hf h e
    obtain ⟨b, hb', hk'⟩ := foldlM_insert_spec elems hk
    refine ⟨b, ?_, ?_⟩
    · rw [List.foldlM_cons, ha]
      exact hb'
    · rwa [← Multiset.cons_coe, Multiset.add_cons, ← Multiset.cons_add]

end

/-- The build, then the inserts. -/
theorem stream_spec {r : UInt32 → UInt32 → Prop} [Std.Total r] [IsTrans UInt32 r]
    {before : UInt32 → UInt32 → Bool} (hb : ∀ x y, before x y = true ↔ ¬ r y x)
    {array : Array UInt32} {fuel : Nat} (hpos : 0 < array.size) (hlt : array.size < 2 ^ 31)
    (hf : array.size < fuel) (elems : List UInt32) :
    ∃ a, stream (heapCreat before) (insert before) fuel array elems = some a ∧
      Keeps r array.size (elements array + elems) a := by
  have hsize : (UInt32.ofNat array.size).toNat = array.size := UInt32.toNat_ofNat_of_lt' (by
    have : UInt32.size = 2 ^ 32 := rfl
    omega)
  obtain ⟨a, ha, hperm, hord⟩ := heapCreat_spec hb hsize hpos hlt hf
  have hk : Keeps r array.size (elements array) a := by
    refine ⟨hperm.size_eq, hord, ?_⟩
    rw [elements_perm hperm]
    exact isTop_self
  obtain ⟨b, hb', hk'⟩ := foldlM_insert_spec hb hsize hpos hlt hf elems hk
  refine ⟨b, ?_, hk'⟩
  rw [stream, ha]
  exact hb'

theorem Keeps.elements_eq {r : UInt32 → UInt32 → Prop} [DecidableRel r] [Std.Total r]
    [IsTrans UInt32 r] [Std.Antisymm r] {n : Nat} {s : Multiset UInt32} {array : Array UInt32}
    (h : Keeps r n s array) : elements array = top r n s := by
  have hcard : (elements array).card = n := h.size
  rw [← hcard]
  exact h.isTop.eq_top

/-- **The `N` greatest and the `N` least of a stream**: after `MinHeapCreat` of an array of `N`
values and `MinInsert` of any further ones, the array is a min-heap of the `N` greatest of them all;
after `MaxHeapCreat` and `MaxInsert` it is a max-heap of the `N` least. -/
theorem topHeap_ok (array : Array UInt32) (hpos : 1 ≤ array.size) (hlt : array.size < 2 ^ 31)
    (elems : List UInt32) (fuel : Nat) (hf : array.size < fuel) :
    (∃ a, stream minHeapCreat minInsert fuel array elems = some a ∧ a.size = array.size ∧
      IsMinHeap a ∧ elements a = largest array.size (elements array + elems)) ∧
    ∃ a, stream maxHeapCreat maxInsert fuel array elems = some a ∧ a.size = array.size ∧
      IsMaxHeap a ∧ elements a = smallest array.size (elements array + elems) := by
  obtain ⟨a, ha, hk⟩ := stream_spec less_iff hpos hlt hf elems
  obtain ⟨b, hb, hk'⟩ := stream_spec greater_iff hpos hlt hf elems
  exact ⟨⟨a, ha, hk.size, hk.heap, hk.elements_eq⟩, b, hb, hk'.size, hk'.heap, hk'.elements_eq⟩

/-- Three of the values 5, 1, 4 and then 3, 9, 1. -/
theorem topHeap_ok_three :
    (∃ a, stream minHeapCreat minInsert 4 #[5, 1, 4] [3, 9, 1] = some a ∧ a.size = 3 ∧
      IsMinHeap a ∧ elements a = largest 3 (elements #[5, 1, 4] + ([3, 9, 1] : List UInt32))) ∧
    ∃ a, stream maxHeapCreat maxInsert 4 #[5, 1, 4] [3, 9, 1] = some a ∧ a.size = 3 ∧
      IsMaxHeap a ∧ elements a = smallest 3 (elements #[5, 1, 4] + ([3, 9, 1] : List UInt32)) :=
  topHeap_ok #[5, 1, 4] (by decide) (by decide) [3, 9, 1] 4 (by decide)

example : stream minHeapCreat minInsert 4 #[5, 1, 4] [3, 9, 1] = some #[4, 5, 9] := by
  decide +kernel

end TopHeap
