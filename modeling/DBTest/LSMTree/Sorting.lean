import DBTest.Library.KeyedMerge
import DBTest.LSMTree.Lsm

/-!
# Sorting — what `merge` and `merge_sort` store

`merge` walks three indices over two arrays; its effect is one sequence of stores into `whole`, and
the list that is stored is the right-biased merge of the two inputs, sorted or not
(`merge_eq_storeList`).  `merge_sort` therefore replaces `block[0 .. n)` by the stable sort of its
*reverse*: the strict comparison lets the right half win every tie, at every level of the recursion
(`mergeSort_window`).
-/

namespace DBTest
namespace LSMTree

open KeyedMerge

/-! ## The three loops of `merge` -/

/-- What is left of a side is its current node and what is left after it. -/
theorem window_rest (src : NodeArr) {size : Int} {j : Nat} (h : j < size) :
    src.window j (size - j).toNat =
      src.cells j :: src.window (j + 1) (size - (j + 1 : Nat)).toNat := by
  have hlen : (size - j).toNat = (size - (j + 1 : Nat)).toNat + 1 := by omega
  rw [hlen, NodeArr.window_succ]

/-- Copying one side to its end is one sequence of stores. -/
theorem copyRest_eq (src : NodeArr) (size : Int) (j i : Nat) (whole : NodeArr) :
    copyRest src size j i whole =
      (i + (size - j).toNat, whole.storeList i (src.window j (size - j).toNat)) := by
  induction j, i, whole using copyRest.induct src size with
  | case1 j i whole h ih =>
      have hcount : i + 1 + (size - (j + 1 : Nat)).toNat = i + (size - j).toNat := by omega
      rw [copyRest, if_pos h, ih, hcount, window_rest src h, NodeArr.storeList]
  | case2 j i whole h =>
      have hlen : (size - j).toNat = 0 := by omega
      rw [copyRest, if_neg h, hlen]
      rfl

/-- From any state of the first loop on, `merge` stores the merge of what is left on both sides. -/
theorem mergeHeads_copyRest (left : NodeArr) (leftSize : Int) (right : NodeArr) (rightSize : Int)
    (s : MergeState) :
    let t := mergeHeads left leftSize right rightSize s
    let rest := copyRest left leftSize t.l t.i t.whole
    (copyRest right rightSize t.r rest.1 rest.2).2 =
      s.whole.storeList s.i
        (mergeRight Node.key (left.window s.l (leftSize - s.l).toNat)
          (right.window s.r (rightSize - s.r).toNat)) := by
  -- induction on the iterations of the first loop
  induction s using mergeHeads.induct left leftSize right rightSize with
  | case1 s hboth hlt ih =>
      -- the left head is strictly smaller
      have hleft := window_rest left hboth.1
      have hright := window_rest right hboth.2
      rw [mergeHeads, if_pos hboth, if_pos hlt, hleft, hright,
        mergeRight_cons_left Node.key _ _ hlt, NodeArr.storeList, ← hright]
      exact ih
  | case2 s hboth hlt ih =>
      -- a tie or a smaller right head: the right side goes first
      have hleft := window_rest left hboth.1
      have hright := window_rest right hboth.2
      rw [mergeHeads, if_pos hboth, if_neg hlt, hleft, hright,
        mergeRight_cons_right Node.key _ _ hlt, NodeArr.storeList, ← hleft]
      exact ih
  | case3 s hboth =>
      -- one side is used up, so one of the two copies stores nothing
      rw [mergeHeads, if_neg hboth]
      simp only [copyRest_eq]
      rcases not_and_or.1 hboth with hl | hr
      · have hlen : (leftSize - s.l).toNat = 0 := by omega
        simp [hlen, mergeRight_nil_left, NodeArr.storeList]
      · have hlen : (rightSize - s.r).toNat = 0 := by omega
        simp [hlen, mergeRight_nil_right, NodeArr.storeList]

/-- `merge` stores, at `0, 1, …` of `whole`, the right-biased merge of its two inputs. -/
theorem merge_eq_storeList (whole left : NodeArr) (leftSize : Int) (right : NodeArr)
    (rightSize : Int) :
    merge whole left leftSize right rightSize =
      whole.storeList 0
        (mergeRight Node.key (left.window 0 leftSize.toNat) (right.window 0 rightSize.toNat)) := by
  have h := mergeHeads_copyRest left leftSize right rightSize
    { l := 0, r := 0, i := 0, whole := whole }
  simpa [merge] using h

/-- Two runs that are merged into an array fill it from its start. -/
theorem window_merge (whole left right : NodeArr) (m n : Nat) :
    (merge whole left m right n).window 0 (m + n) =
      mergeRight Node.key (left.window 0 m) (right.window 0 n) := by
  have hlength : (mergeRight Node.key (left.window 0 m) (right.window 0 n)).length = m + n := by
    rw [length_mergeRight, NodeArr.length_window, NodeArr.length_window]
  rw [merge_eq_storeList, Int.toNat_natCast, Int.toNat_natCast, ← hlength]
  exact NodeArr.window_storeList whole 0 _

/-- The last value of the index `i` of `merge`. -/
def mergeIndex (whole left : NodeArr) (leftSize : Int) (right : NodeArr) (rightSize : Int) : Nat :=
  let s := mergeHeads left leftSize right rightSize { l := 0, r := 0, i := 0, whole := whole }
  let rest := copyRest left leftSize s.l s.i s.whole
  (copyRest right rightSize s.r rest.1 rest.2).1

/-- Each iteration of the first loop takes one node and moves the index by one. -/
theorem mergeHeads_index (left : NodeArr) (leftSize : Int) (right : NodeArr) (rightSize : Int)
    (s : MergeState) :
    (mergeHeads left leftSize right rightSize s).i +
        (leftSize - (mergeHeads left leftSize right rightSize s).l).toNat +
        (rightSize - (mergeHeads left leftSize right rightSize s).r).toNat =
      s.i + (leftSize - s.l).toNat + (rightSize - s.r).toNat := by
  induction s using mergeHeads.induct left leftSize right rightSize with
  | case1 s hboth hlt ih =>
      have hstep : s.i + 1 + (leftSize - (s.l + 1 : Nat)).toNat = s.i + (leftSize - s.l).toNat := by
        have hl := hboth.1
        omega
      rw [mergeHeads, if_pos hboth, if_pos hlt, ih, ← hstep]
  | case2 s hboth hlt ih =>
      have hstep : s.i + 1 + (leftSize - s.l).toNat + (rightSize - (s.r + 1 : Nat)).toNat =
          s.i + (leftSize - s.l).toNat + (rightSize - s.r).toNat := by
        have hr := hboth.2
        omega
      rw [mergeHeads, if_pos hboth, if_neg hlt, ih, ← hstep]
  | case3 s hboth =>
      rw [mergeHeads, if_neg hboth]

/-- The index ends at the number of nodes that were stored. -/
theorem mergeIndex_eq (whole left : NodeArr) (leftSize : Int) (right : NodeArr) (rightSize : Int) :
    mergeIndex whole left leftSize right rightSize = leftSize.toNat + rightSize.toNat := by
  have h := mergeHeads_index left leftSize right rightSize { l := 0, r := 0, i := 0, whole := whole }
  simpa [mergeIndex, copyRest_eq] using h

/-- `merge` stores every index below the sum of the sizes once, in order, and nothing else; sorted or
not, it interleaves the two sides; and when both ascend, so does the result, with the nodes of the
right side first among those of one key. -/
theorem merge_interleaves (whole left right : NodeArr) {leftSize rightSize : Nat}
    (hsizes : leftSize + rightSize ≤ intMax) :
    mergeIndex whole left leftSize right rightSize ≤ intMax ∧
      (merge whole left leftSize right rightSize).stores =
        whole.stores ++ List.range (leftSize + rightSize) ∧
      (∀ j, leftSize + rightSize ≤ j →
        (merge whole left leftSize right rightSize).cells j = whole.cells j) ∧
      Interleaving (left.window 0 leftSize) (right.window 0 rightSize)
        ((merge whole left leftSize right rightSize).window 0 (leftSize + rightSize)) ∧
      (Ascending Node.key (left.window 0 leftSize) →
        Ascending Node.key (right.window 0 rightSize) →
        Ascending Node.key
            ((merge whole left leftSize right rightSize).window 0 (leftSize + rightSize)) ∧
          ∀ k, withKey Node.key k
              ((merge whole left leftSize right rightSize).window 0 (leftSize + rightSize)) =
            withKey Node.key k (right.window 0 rightSize) ++
              withKey Node.key k (left.window 0 leftSize)) := by
  have hlen : (mergeRight Node.key (left.window 0 leftSize) (right.window 0 rightSize)).length =
      leftSize + rightSize := by
    simp
  rw [window_merge, merge_eq_storeList, Int.toNat_natCast, Int.toNat_natCast]
  refine ⟨?_, ?_, ?_, ?_, ?_⟩
  · rw [mergeIndex_eq, Int.toNat_natCast, Int.toNat_natCast]
    exact hsizes
  · rw [NodeArr.storeList_stores, hlen, List.range_eq_range']
  · intro j hj
    refine NodeArr.storeList_cells_of_le whole 0 _ ?_
    rw [Nat.zero_add, hlen]
    exact hj
  · exact interleaving_mergeRight Node.key _ _
  · intro hleft hright
    exact ⟨mergeRight_ascending Node.key hleft hright,
      fun k => withKey_mergeRight Node.key k hleft hright⟩

/-- An array that holds one node everywhere. -/
def constArr (n : Node) : NodeArr := NodeArr.alloc (fun _ => n) 1

/-- A tie: the node of the right side comes first. -/
theorem merge_interleaves_tie :
    withKey Node.key 1
        ((merge (constArr { key := 0, val := 0 }) (constArr { key := 1, val := 10 }) (1 : Nat)
          (constArr { key := 1, val := 20 }) (1 : Nat)).window 0 2) =
      [{ key := 1, val := 20 }, { key := 1, val := 10 }] := by
  have h := merge_interleaves (constArr { key := 0, val := 0 }) (constArr { key := 1, val := 10 })
    (constArr { key := 1, val := 20 }) (by decide : 1 + 1 ≤ intMax)
  exact (h.2.2.2.2 (by decide) (by decide)).2 1

/-! ## `merge_sort` -/

/-- Merging the two sorted halves of a block into it stores the sorted reverse of the whole. -/
theorem merge_halves (block left right : NodeArr) {n mid : Int} (hmid : 0 ≤ mid) (hn : mid ≤ n)
    (hleft : left.window 0 mid.toNat = stableSort Node.key (block.window 0 mid.toNat).reverse)
    (hright : right.window 0 (n - mid).toNat =
      stableSort Node.key (block.window mid.toNat (n - mid).toNat).reverse) :
    merge block left mid right (n - mid) =
      block.storeList 0 (stableSort Node.key (block.window 0 n.toNat).reverse) := by
  have hsum : mid.toNat + (n - mid).toNat = n.toNat := by omega
  have hhalves : block.window 0 n.toNat =
      block.window 0 mid.toNat ++ block.window mid.toNat (n - mid).toNat := by
    rw [← hsum, NodeArr.window_append, Nat.zero_add]
  rw [merge_eq_storeList, hleft, hright, hhalves, stableSort_reverse_append]

theorem window_storeList_stableSort (block : NodeArr) (n : Nat) :
    (block.storeList 0 (stableSort Node.key (block.window 0 n).reverse)).window 0 n =
      stableSort Node.key (block.window 0 n).reverse := by
  have hlen : (stableSort Node.key (block.window 0 n).reverse).length = n := by simp
  have h := NodeArr.window_storeList block 0 (stableSort Node.key (block.window 0 n).reverse)
  rwa [hlen] at h

/-- The sorted block holds the stable sort of its reverse. -/
theorem mergeSort_window (heap : Heap) (block : NodeArr) (n : Int) :
    (mergeSort heap block n).window 0 n.toNat =
      stableSort Node.key (block.window 0 n.toNat).reverse := by
  induction block, n using mergeSort.induct heap with
  | case1 block n hn =>
      -- at most one node
      have hle : n.toNat ≤ 1 := by omega
      rw [mergeSort, if_pos hn]
      rcases Nat.le_one_iff_eq_zero_or_eq_one.1 hle with h | h
      · simp [h, stableSort]
      · simp [h, stableSort, NodeArr.window_succ]
  | case2 block n hn mid left right ihLeft ihRight =>
      have hleft : (mergeSort heap left mid).window 0 mid.toNat =
          stableSort Node.key (block.window 0 mid.toNat).reverse := by
        rw [ihLeft, NodeArr.window_memcpy]
      have hright : (mergeSort heap right (n - mid)).window 0 (n - mid).toNat =
          stableSort Node.key (block.window mid.toNat (n - mid).toNat).reverse := by
        rw [ihRight, NodeArr.window_memcpy]
      have hstored := merge_halves block _ _ (by omega) (by omega) hleft hright
      rw [mergeSort, if_neg hn, hstored]
      exact window_storeList_stableSort block n.toNat

/-- From two nodes on, `merge_sort` is one sequence of stores into the block itself. -/
theorem mergeSort_eq_storeList (heap : Heap) (block : NodeArr) {n : Int} (hn : 2 ≤ n) :
    mergeSort heap block n =
      block.storeList 0 (stableSort Node.key (block.window 0 n.toNat).reverse) := by
  rw [mergeSort, if_neg (by omega)]
  refine merge_halves block _ _ (by omega) (by omega) ?_ ?_
  · rw [mergeSort_window, NodeArr.window_memcpy]
  · rw [mergeSort_window, NodeArr.window_memcpy]

/-- `merge_sort` leaves what stands behind the first `n` nodes as it is, and replaces these by the
stable sort of their reverse: the same nodes, with ascending keys, those of one key in the opposite
order. -/
theorem mergeSort_sorts (heap : Heap) (block : NodeArr) (n : Nat) :
    (∀ j, n ≤ j → (mergeSort heap block n).cells j = block.cells j) ∧
      (mergeSort heap block n).window 0 n = stableSort Node.key (block.window 0 n).reverse ∧
      ((mergeSort heap block n).window 0 n).Perm (block.window 0 n) ∧
      Ascending Node.key ((mergeSort heap block n).window 0 n) ∧
      ∀ k, withKey Node.key k ((mergeSort heap block n).window 0 n) =
        (withKey Node.key k (block.window 0 n)).reverse := by
  have hwindow : (mergeSort heap block n).window 0 n =
      stableSort Node.key (block.window 0 n).reverse := mergeSort_window heap block n
  rw [hwindow]
  refine ⟨?_, rfl, ?_, ?_, ?_⟩
  · intro j hj
    by_cases hn : n < 2
    · -- a single node is not touched
      rw [mergeSort, if_pos (by omega)]
    · rw [mergeSort_eq_storeList heap block (by omega)]
      refine NodeArr.storeList_cells_of_le block 0 _ ?_
      simpa using hj
  · exact (stableSort_perm Node.key _).trans (List.reverse_perm _)
  · exact stableSort_ascending Node.key _
  · intro k
    rw [withKey_stableSort, withKey_reverse]

end LSMTree
end DBTest
