import DBTest.LSMTree.Flush

/-!
# Block — the buffer inside its block

The arrays of the model go on behind the memory they were granted, the arrays of the program do not:
there begins memory of others.  `BufferSafe` says that a tree has stored inside its block, and a `put`
keeps it.  What a `put` changes in the block are the cells at the indices it stores
(`put_cells_of_not_stored`).

The block is allocated with a product that wraps, so it has room for `block_size` nodes only below
`2 ^ 61` (`le_granted_iff`).
-/

namespace DBTest
namespace LSMTree

open KeyedMerge

/-! ## The memory of the block -/

/-- The block holds at least `block_size` nodes, no more of them are in use, and every node store so
far went to an index below `block_size`. -/
structure BufferSafe (tree : Lsm) : Prop where
  granted : tree.blockSize.toNat ≤ tree.block.granted
  nextEmpty : tree.nextEmpty.toNat ≤ tree.blockSize.toNat
  stores : ∀ i ∈ tree.block.stores, i < tree.blockSize.toNat

/-- The nodes that `malloc(block_size * node_size)` makes room for. -/
theorem le_granted_iff (bufferSize : UInt64) :
    bufferSize.toNat ≤ (bufferSize * 8).toNat / 8 ↔ bufferSize.toNat < 2 ^ 61 := by
  have hlt := bufferSize.toNat_lt
  have hmul : (bufferSize * 8).toNat = bufferSize.toNat * 8 % 2 ^ 64 := UInt64.toNat_mul _ _
  rw [hmul]
  omega

/-! ## What a flush stores in the block -/

/-- A count that is narrowed to an `int` never grows. -/
theorem intOfSize_toNat_le (n : UInt64) : (intOfSize n).toNat ≤ n.toNat := by
  have hle : ∀ x m : Nat, (Int.bmod x m).toNat ≤ x := by
    intro x m
    have hmod := Nat.mod_le x m
    rw [Int.bmod_eq_emod, ← Int.natCast_emod]
    split <;> omega
  exact hle n.toNat (2 ^ 32)

theorem flushBlock_granted (env : FlushEnv) (tree : Lsm) :
    (flushBlock env tree).granted = tree.block.granted := by
  cases hsorted : tree.sorted with
  | false => simp [flushBlock, hsorted]
  | true =>
      by_cases hn : 2 ≤ intOfSize tree.nextEmpty
      · simp [flushBlock, hsorted, mergeSort_eq_storeList env.heap tree.block hn]
      · have hlt : intOfSize tree.nextEmpty < 2 := by omega
        simp [flushBlock, hsorted, mergeSort, hlt]

/-- The sort inside a flush stores below the number of buffered nodes. -/
theorem mem_flushBlock_stores {env : FlushEnv} {tree : Lsm} {i : Nat}
    (hi : i ∈ (flushBlock env tree).stores) :
    i ∈ tree.block.stores ∨ i < tree.nextEmpty.toNat := by
  cases hsorted : tree.sorted with
  | false =>
      simp only [flushBlock, hsorted] at hi
      exact Or.inl hi
  | true =>
      simp only [flushBlock, hsorted, if_true] at hi
      by_cases hn : 2 ≤ intOfSize tree.nextEmpty
      · -- the sort stores the sorted nodes at the indices from zero on
        have hle := intOfSize_toNat_le tree.nextEmpty
        rw [mergeSort_eq_storeList env.heap tree.block hn, NodeArr.storeList_stores,
          List.mem_append] at hi
        rcases hi with hi | hi
        · exact Or.inl hi
        · refine Or.inr ?_
          simp only [List.mem_range'_1, length_stableSort, List.length_reverse,
            NodeArr.length_window] at hi
          omega
      · have hlt : intOfSize tree.nextEmpty < 2 := by omega
        rw [mergeSort, if_pos hlt] at hi
        exact Or.inl hi

/-- Where the sort stores nothing, the block is as it was. -/
theorem flushBlock_cells_of_not_stored {env : FlushEnv} {tree : Lsm} {i : Nat}
    (hi : i ∉ (flushBlock env tree).stores) :
    (flushBlock env tree).cells i = tree.block.cells i := by
  cases hsorted : tree.sorted with
  | false => simp [flushBlock, hsorted]
  | true =>
      simp only [flushBlock, hsorted, if_true] at hi ⊢
      by_cases hn : 2 ≤ intOfSize tree.nextEmpty
      · rw [mergeSort_eq_storeList env.heap tree.block hn] at hi ⊢
        exact NodeArr.storeList_cells_of_not_stored _ _ _ hi
      · have hlt : intOfSize tree.nextEmpty < 2 := by omega
        rw [mergeSort, if_pos hlt]

/-! ## A put keeps the buffer safe -/

/-- An append at an index below `block_size`. -/
theorem BufferSafe.push {tree : Lsm} (h : BufferSafe tree)
    (hlt : tree.nextEmpty.toNat < tree.blockSize.toNat) (n : Node) : BufferSafe (tree.push n) := by
  have hcap := tree.blockSize.toNat_lt
  refine ⟨h.granted, ?_, ?_⟩
  · rw [nextEmpty_push (by omega)]
    exact hlt
  · intro i hi
    simp only [Lsm.push, NodeArr.store_stores, List.mem_append, List.mem_singleton] at hi
    rcases hi with hi | rfl
    · exact h.stores i hi
    · exact hlt

theorem BufferSafe.flushed {tree : Lsm} (h : BufferSafe tree) (env : FlushEnv) :
    BufferSafe (flushedTree env tree) := by
  refine ⟨?_, Nat.zero_le _, ?_⟩
  · have hgranted := flushBlock_granted env tree
    simpa [flushedTree, hgranted] using h.granted
  · intro i hi
    rcases mem_flushBlock_stores hi with hi | hi
    · exact h.stores i hi
    · exact Nat.lt_of_lt_of_le hi h.nextEmpty

theorem BufferSafe.put {tree tree' : Lsm} (h : BufferSafe tree) (hpos : 1 ≤ tree.blockSize.toNat)
    {env : FlushEnv} {k : KeyType} {v : ValType} {fs fs' : FS} {r : Int32}
    (hput : put env k v fs tree = .ok (fs', tree', r)) : BufferSafe tree' := by
  have hcases := put_eq_ok (n := { key := k, val := v }) hput
  rcases hcases with ⟨hne, -, rfl⟩ | ⟨-, -, rfl⟩
  · exact h.push (nextEmpty_lt_of_ne h.nextEmpty hne) _
  · exact (h.flushed env).push hpos _

theorem put_blockSize {env : FlushEnv} {n : Node} {fs fs' : FS} {tree tree' : Lsm} {r : Int32}
    (hput : put env n.key n.val fs tree = .ok (fs', tree', r)) :
    tree'.blockSize = tree.blockSize := by
  rcases put_eq_ok hput with ⟨-, -, rfl⟩ | ⟨-, -, rfl⟩
  · rfl
  · rfl

theorem put_disk1 {env : FlushEnv} {n : Node} {fs fs' : FS} {tree tree' : Lsm} {r : Int32}
    (hput : put env n.key n.val fs tree = .ok (fs', tree', r)) : tree'.disk1 = tree.disk1 := by
  rcases put_eq_ok hput with ⟨-, -, rfl⟩ | ⟨-, -, rfl⟩
  · rfl
  · rfl

theorem put_granted {env : FlushEnv} {n : Node} {fs fs' : FS} {tree tree' : Lsm} {r : Int32}
    (hput : put env n.key n.val fs tree = .ok (fs', tree', r)) :
    tree'.block.granted = tree.block.granted := by
  rcases put_eq_ok hput with ⟨-, -, rfl⟩ | ⟨-, -, rfl⟩
  · rfl
  · exact flushBlock_granted env tree

/-- A put changes no cell of the block but those it stores to. -/
theorem put_cells_of_not_stored {env : FlushEnv} {n : Node} {fs fs' : FS} {tree tree' : Lsm}
    {r : Int32} (hput : put env n.key n.val fs tree = .ok (fs', tree', r)) {i : Nat}
    (hi : i ∉ tree'.block.stores) : tree'.block.cells i = tree.block.cells i := by
  rcases put_eq_ok hput with ⟨-, -, rfl⟩ | ⟨-, -, rfl⟩
  · simp only [Lsm.push, NodeArr.store_stores, List.mem_append, List.mem_singleton, not_or] at hi
    rw [Lsm.push, NodeArr.store_cells, Function.update_of_ne hi.2]
  · simp only [Lsm.push, NodeArr.store_stores, List.mem_append, List.mem_singleton, not_or] at hi
    rw [Lsm.push, NodeArr.store_cells, Function.update_of_ne hi.2]
    exact flushBlock_cells_of_not_stored hi.1

end LSMTree
end DBTest
