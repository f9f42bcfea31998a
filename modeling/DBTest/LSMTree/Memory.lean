import Mathlib.Data.List.Basic
import Mathlib.Logic.Function.Basic
import Mathlib.Order.Basic
import DBTest.Library.ByteLayout

/-!
# Memory — nodes and arrays of nodes (`lsm.h`)

A `node` is two C `int`s, eight bytes.  An array obtained from `malloc` is modelled by the number of
nodes the granted bytes hold, by the contents of the memory from its first byte on, and by a ghost
list of the indices at which a node has been stored.

The contents are a total function: what lies beyond `granted`, and what no store has reached yet, is
whatever the memory held.  Reads and stores past the end are therefore visible in the model and are
excluded by theorem, not by construction.
-/

namespace DBTest
namespace LSMTree

open ByteLayout

/-! ## Nodes -/

abbrev KeyType := Int32

abbrev ValType := Int32

structure Node where
  key : KeyType
  val : ValType
  deriving DecidableEq, Repr, Inhabited

/-- The order of the C comparison of two `int`s. -/
instance instLinearOrderInt32 : LinearOrder Int32 where
  le_refl := Int32.le_refl
  le_trans _ _ _ := Int32.le_trans
  lt_iff_le_not_ge a b := by
    rw [Int32.not_le]
    exact ⟨fun h => ⟨(Int32.le_total a b).resolve_right (Int32.not_le.2 h), h⟩, fun h => h.2⟩
  le_antisymm _ _ := Int32.le_antisymm
  le_total := Int32.le_total
  toDecidableLE := inferInstance
  toDecidableLT := inferInstance

def intBytes (x : Int32) : List UInt8 :=
  leBytes 4 x.toUInt32.toNat

def intOfBytes (bs : List UInt8) : Int32 :=
  (UInt32.ofNat (leNat bs)).toInt32

@[simp] theorem length_intBytes (x : Int32) : (intBytes x).length = 4 := by
  simp [intBytes]

@[simp] theorem intOfBytes_intBytes (x : Int32) : intOfBytes (intBytes x) = x := by
  have hlt : x.toUInt32.toNat < 256 ^ 4 := x.toUInt32.toNat_lt
  rw [intOfBytes, intBytes, leNat_leBytes_of_lt hlt, UInt32.ofNat_toNat]
  rfl

theorem intBytes_intOfBytes {bs : List UInt8} (h : bs.length = 4) : intBytes (intOfBytes bs) = bs := by
  have hlt : leNat bs < 2 ^ 32 := by
    have hbound := leNat_lt bs
    rwa [h] at hbound
  have hnat : (intOfBytes bs).toUInt32.toNat = leNat bs := by
    simpa [intOfBytes] using Nat.mod_eq_of_lt hlt
  rw [intBytes, hnat, ← h, leBytes_leNat]

/-- `struct _node`: the key, then the value. -/
def nodeLayout : Layout Node where
  width := 8
  width_pos := by decide
  encode n := intBytes n.key ++ intBytes n.val
  decode bs := { key := intOfBytes (bs.take 4), val := intOfBytes ((bs.drop 4).take 4) }
  length_encode n := by simp
  decode_encode n := by
    have hkey : (intBytes n.key ++ intBytes n.val).take 4 = intBytes n.key :=
      List.take_left' (length_intBytes n.key)
    have hval : ((intBytes n.key ++ intBytes n.val).drop 4).take 4 = intBytes n.val := by
      rw [List.drop_left' (length_intBytes n.key)]
      exact List.take_of_length_le (length_intBytes n.val).le
    rw [hkey, hval, intOfBytes_intBytes, intOfBytes_intBytes]

@[simp] theorem nodeLayout_width : nodeLayout.width = 8 := rfl

/-- Every eight bytes are the bytes of a node. -/
theorem nodeLayout_encode_decode {bs : List UInt8} (h : bs.length = 8) :
    nodeLayout.encode (nodeLayout.decode bs) = bs := by
  have hkey : (bs.take 4).length = 4 := by simp [h]
  have hval : ((bs.drop 4).take 4).length = 4 := by simp [h]
  have hall : (bs.drop 4).take 4 = bs.drop 4 := List.take_of_length_le (by simp [h])
  calc
    nodeLayout.encode (nodeLayout.decode bs)
        = intBytes (intOfBytes (bs.take 4)) ++ intBytes (intOfBytes ((bs.drop 4).take 4)) := rfl
    _ = bs.take 4 ++ bs.drop 4 := by
          rw [intBytes_intOfBytes hkey, intBytes_intOfBytes hval, hall]
    _ = bs := List.take_append_drop 4 bs

/-- The `int` with the first `t` bytes of `x` over the bytes of `y`. -/
def spliceInt (t : Nat) (x y : Int32) : Int32 :=
  intOfBytes ((intBytes x).take t ++ (intBytes y).drop t)

/-- The key of a node that was overwritten in part. -/
theorem key_torn (t : Nat) (new old : Node) :
    (nodeLayout.torn t new old).key = spliceInt t new.key old.key := by
  have hnew : (intBytes new.key).length = 4 := length_intBytes new.key
  have hold : (intBytes old.key).length = 4 := length_intBytes old.key
  have hbytes : (((intBytes new.key ++ intBytes new.val).take t ++
      (intBytes old.key ++ intBytes old.val).drop t).take 4) =
      (intBytes new.key).take t ++ (intBytes old.key).drop t := by
    by_cases ht : t ≤ 4
    · have hfirst : (intBytes new.key ++ intBytes new.val).take t = (intBytes new.key).take t :=
        List.take_append_of_le_length (by omega)
      have hrest : (intBytes old.key ++ intBytes old.val).drop t =
          (intBytes old.key).drop t ++ intBytes old.val :=
        List.drop_append_of_le_length (by omega)
      rw [hfirst, hrest, ← List.append_assoc]
      refine List.take_left' ?_
      simp only [List.length_append, List.length_take, List.length_drop]
      omega
    · -- the key is overwritten as a whole
      have hval : (intBytes new.val).length = 4 := length_intBytes new.val
      rw [List.take_append_of_le_length, List.take_take, Nat.min_eq_left (by omega),
        List.take_left' hnew, List.take_of_length_le (by omega), List.drop_eq_nil_of_le (by omega),
        List.append_nil]
      simp only [List.length_append, List.length_take]
      omega
  simp only [spliceInt, ← hbytes]
  rfl

/-! ## Arrays -/

/-- What a piece of memory holds before the program has stored anything there. -/
abbrev Heap := Nat → Node

structure NodeArr where
  /-- Nodes that fit into the granted bytes. -/
  granted : Nat
  cells : Nat → Node
  /-- Ghost: the indices of the node stores, in order. -/
  stores : List Nat

namespace NodeArr

/-- `malloc(sizeof(node) * n)`. -/
def alloc (heap : Heap) (n : Nat) : NodeArr :=
  { granted := n, cells := heap, stores := [] }

/-- `a[i] = n`. -/
def store (a : NodeArr) (i : Nat) (n : Node) : NodeArr :=
  { a with
    cells := Function.update a.cells i n
    stores := a.stores ++ [i] }

/-- A fresh array of `n` nodes, filled by `memcpy` from `src[off]` on. -/
def memcpy (heap : Heap) (src : NodeArr) (off n : Nat) : NodeArr :=
  { granted := n
    cells := fun i => if i < n then src.cells (off + i) else heap i
    stores := [] }

/-- `memmove(&a[dst], &a[src], bytes)`; the count is in bytes, not in nodes. -/
def memmove (a : NodeArr) (dst src bytes : Nat) : NodeArr :=
  { a with cells := nodeLayout.memmove a.cells (8 * dst) (8 * src) bytes }

/-- `a[i .. i + n)`. -/
def window (a : NodeArr) (i n : Nat) : List Node :=
  (List.range' i n).map a.cells

/-- Stores of a whole list at consecutive indices. -/
def storeList (a : NodeArr) (i : Nat) : List Node → NodeArr
  | [] => a
  | n :: ns => (a.store i n).storeList (i + 1) ns

/-! ## Windows and stores -/

@[simp] theorem store_granted (a : NodeArr) (i : Nat) (n : Node) :
    (a.store i n).granted = a.granted := rfl

@[simp] theorem store_cells (a : NodeArr) (i : Nat) (n : Node) :
    (a.store i n).cells = Function.update a.cells i n := rfl

@[simp] theorem store_stores (a : NodeArr) (i : Nat) (n : Node) :
    (a.store i n).stores = a.stores ++ [i] := rfl

@[simp] theorem length_window (a : NodeArr) (i n : Nat) : (a.window i n).length = n := by
  simp [window]

@[simp] theorem window_zero (a : NodeArr) (i : Nat) : a.window i 0 = [] := rfl

theorem window_succ (a : NodeArr) (i n : Nat) :
    a.window i (n + 1) = a.cells i :: a.window (i + 1) n := by
  simp [window, List.range'_succ]

theorem window_append (a : NodeArr) (i m n : Nat) :
    a.window i (m + n) = a.window i m ++ a.window (i + m) n := by
  simp [window, ← List.range'_append_1]

theorem getElem_window (a : NodeArr) (i n j : Nat) (h : j < (a.window i n).length) :
    (a.window i n)[j] = a.cells (i + j) := by
  simp [window]

/-- Two arrays that agree on an interval have the same window there. -/
theorem window_congr {a b : NodeArr} {i j n : Nat}
    (h : ∀ x, x < n → a.cells (i + x) = b.cells (j + x)) :
    a.window i n = b.window j n := by
  apply List.ext_getElem
  · simp
  · intro x hx hx'
    rw [getElem_window, getElem_window]
    exact h x (by simpa using hx)

theorem take_window (a : NodeArr) (i n m : Nat) :
    (a.window i n).take m = a.window i (min n m) := by
  apply List.ext_getElem
  · simp [min_comm]
  · intro j hj hj'
    rw [List.getElem_take, getElem_window]
    exact (getElem_window a i _ j hj').symm

theorem window_memcpy (heap : Heap) (src : NodeArr) (off n : Nat) :
    (memcpy heap src off n).window 0 n = src.window off n := by
  refine window_congr ?_
  intro x hx
  simp [memcpy, hx]

/-- A node stored right after a window extends it. -/
theorem window_store_next (a : NodeArr) (m : Nat) (n : Node) :
    (a.store m n).window 0 (m + 1) = a.window 0 m ++ [n] := by
  -- the store changes index `m` only
  have hframe : (a.store m n).window 0 m = a.window 0 m := by
    refine window_congr ?_
    intro x hx
    rw [store_cells, Function.update_of_ne (by omega)]
  have hlast : (a.store m n).window m 1 = [n] := by
    simp [window]
  rw [window_append, hframe, Nat.zero_add, hlast]

/-- A node moved down by one receives as many bytes of its successor as the count covers. -/
theorem memmove_cells (a : NodeArr) (d bytes j : Nat) :
    (a.memmove d (d + 1) bytes).cells j =
      if j < d then a.cells j
      else nodeLayout.torn (bytes - 8 * (j - d)) (a.cells (j + 1)) (a.cells j) :=
  nodeLayout.memmove_down a.cells d bytes j

@[simp] theorem storeList_granted (a : NodeArr) (i : Nat) (ns : List Node) :
    (a.storeList i ns).granted = a.granted := by
  induction ns generalizing a i with
  | nil => rfl
  | cons n ns ih => simp [storeList, ih]

theorem storeList_stores (a : NodeArr) (i : Nat) (ns : List Node) :
    (a.storeList i ns).stores = a.stores ++ List.range' i ns.length := by
  induction ns generalizing a i with
  | nil => simp [storeList]
  | cons n ns ih => simp [storeList, ih, List.range'_succ]

theorem storeList_cells_of_lt (a : NodeArr) (i : Nat) (ns : List Node) {j : Nat} (h : j < i) :
    (a.storeList i ns).cells j = a.cells j := by
  induction ns generalizing a i with
  | nil => rfl
  | cons n ns ih =>
      rw [storeList, ih _ _ (by omega), store_cells, Function.update_of_ne (by omega)]

theorem storeList_cells_of_le (a : NodeArr) (i : Nat) (ns : List Node) {j : Nat}
    (h : i + ns.length ≤ j) : (a.storeList i ns).cells j = a.cells j := by
  induction ns generalizing a i with
  | nil => rfl
  | cons n ns ih =>
      rw [List.length_cons] at h
      rw [storeList, ih _ _ (by omega), store_cells, Function.update_of_ne (by omega)]

/-- Where a list of stores has not been, the array is as it was. -/
theorem storeList_cells_of_not_stored (a : NodeArr) (i : Nat) (ns : List Node) {j : Nat}
    (h : j ∉ (a.storeList i ns).stores) : (a.storeList i ns).cells j = a.cells j := by
  rw [storeList_stores, List.mem_append, List.mem_range'_1, not_or] at h
  by_cases hlt : j < i
  · exact storeList_cells_of_lt a i ns hlt
  · exact storeList_cells_of_le a i ns (by omega)

/-- The stored list is what the array then holds at these indices. -/
theorem window_storeList (a : NodeArr) (i : Nat) (ns : List Node) :
    (a.storeList i ns).window i ns.length = ns := by
  induction ns generalizing a i with
  | nil => rfl
  | cons n ns ih =>
      rw [List.length_cons, window_succ, storeList, ih,
        storeList_cells_of_lt _ _ _ (Nat.lt_succ_self i)]
      simp

end NodeArr

end LSMTree
end DBTest
