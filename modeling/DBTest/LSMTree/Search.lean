import DBTest.LSMTree.Runs

/-!
# Search — what `search_buffer`, `search_disk` and `get` find

The loop of both searches returns the first node of the key together with its index, as long as its
`int` index does not overflow (`searchBuffer_eq`, `searchDiskFrom_eq`).  Whether a read sees the
newest value is a question about the order of the nodes:

* `search_disk` opens a file that nothing ever writes, so it agrees with the writer only on keys
  that have not been flushed (`reader_agrees_iff_not_stored`);
* `get` after `put` returns the node just put only when the block has the size asked for and no older
  node of the key is buffered in front of it (`get_after_put_iff`).
-/

namespace DBTest
namespace LSMTree

open KeyedMerge
open FallibleRun

/-! ## The loop of the two searches -/

/-- The first node of key `k` with its index; `i` is the index of the head. -/
def firstNodeI (k : KeyType) : List Node → Nat → Option NodeI
  | [], _ => none
  | x :: xs, i => if x.key = k then some { node := x, index := i } else firstNodeI k xs (i + 1)

theorem firstNodeI_node (k : KeyType) (xs : List Node) (i : Nat) :
    (firstNodeI k xs i).map NodeI.node = firstMatch Node.key k xs := by
  induction xs generalizing i with
  | nil => rfl
  | cons x xs ih =>
      by_cases hx : x.key = k
      · rw [firstMatch_cons_pos Node.key xs hx, firstNodeI, if_pos hx]
        rfl
      · rw [firstMatch_cons_neg Node.key xs hx, firstNodeI, if_neg hx, ih]

theorem firstNodeI_eq_none {k : KeyType} {xs : List Node} {i : Nat} :
    firstNodeI k xs i = none ↔ ∀ x ∈ xs, x.key ≠ k := by
  rw [← firstMatch_eq_none Node.key, ← firstNodeI_node k xs i, Option.map_eq_none_iff]

/-- The index of the first node of key `k`. -/
def firstIndex (k : KeyType) (xs : List Node) : Nat :=
  xs.findIdx (fun n => decide (n.key = k))

theorem firstIndex_lt_length {k : KeyType} {xs : List Node} :
    firstIndex k xs < xs.length ↔ ∃ n ∈ xs, n.key = k := by
  rw [firstIndex, List.findIdx_lt_length]
  simp

theorem firstNodeI_of_mem {k : KeyType} {xs : List Node} (h : ∃ n ∈ xs, n.key = k) (i : Nat) :
    ∃ ni, firstNodeI k xs i = some ni ∧ ni.index = i + firstIndex k xs := by
  induction xs generalizing i with
  | nil => simp at h
  | cons x xs ih =>
      by_cases hx : x.key = k
      · refine ⟨{ node := x, index := i }, ?_, ?_⟩
        · rw [firstNodeI, if_pos hx]
        · simp [firstIndex, List.findIdx_cons, hx]
      · have hmem : ∃ n ∈ xs, n.key = k := by
          simpa [hx] using h
        rcases ih hmem (i + 1) with ⟨ni, hni, hindex⟩
        refine ⟨ni, ?_, ?_⟩
        · rw [firstNodeI, if_neg hx, hni]
        · rw [hindex]
          simp only [firstIndex, List.findIdx_cons, hx, decide_false, cond_false]
          omega

theorem index_of_firstNodeI {k : KeyType} {xs : List Node} {i : Nat} {ni : NodeI}
    (h : firstNodeI k xs i = some ni) :
    ni.index = i + firstIndex k xs ∧ firstIndex k xs < xs.length := by
  have hmem : ∃ n ∈ xs, n.key = k := by
    by_contra hnot
    have hnone : firstNodeI k xs i = none :=
      firstNodeI_eq_none.2 (fun n hn hkey => hnot ⟨n, hn, hkey⟩)
    rw [hnone] at h
    cases h
  rcases firstNodeI_of_mem hmem i with ⟨mi, hmi, hindex⟩
  rw [h] at hmi
  cases hmi
  exact ⟨hindex, firstIndex_lt_length.2 hmem⟩

/-- The loop finds the first match among the indices an `int` reaches; it overflows when there is
none and more nodes follow. -/
theorem scan_eq (a : NodeArr) (n : Nat) (k : KeyType) {i : Nat} (hi : i ≤ intMax) :
    scan a.cells n k i =
      match firstNodeI k (a.window i (min n (intMax + 1) - i)) i with
      | some ni => .ok (some ni)
      | none => if n ≤ intMax then .ok none else .error .intOverflow := by
  induction i using scan.induct a.cells n k with
  | case1 i hlt hkey =>
      have hlen : min n (intMax + 1) - i = min n (intMax + 1) - (i + 1) + 1 := by omega
      rw [scan, if_pos hlt, if_pos hkey, hlen, NodeArr.window_succ, firstNodeI, if_pos hkey]
  | case2 hlt hkey =>
      -- the last index an `int` can hold
      have hlen : min n (intMax + 1) - intMax = 1 := by omega
      have hgt : ¬ n ≤ intMax := by omega
      rw [scan, if_pos hlt, if_neg hkey, if_pos rfl, hlen, NodeArr.window_succ, firstNodeI,
        if_neg hkey, NodeArr.window_zero, firstNodeI, if_neg hgt]
  | case3 i hlt hkey hmax ih =>
      have hlen : min n (intMax + 1) - i = min n (intMax + 1) - (i + 1) + 1 := by omega
      rw [scan, if_pos hlt, if_neg hkey, if_neg hmax, ih (by omega), hlen, NodeArr.window_succ,
        firstNodeI, if_neg hkey]
  | case4 i hge =>
      have hlen : min n (intMax + 1) - i = 0 := by omega
      have hle : n ≤ intMax := by omega
      rw [scan, if_neg hge, hlen, NodeArr.window_zero, firstNodeI, if_pos hle]

/-- What the loop returns on a list of nodes; its index reaches the first `INT_MAX + 1` of them. -/
def searchList (k : KeyType) (xs : List Node) : Except Abort (Option NodeI) :=
  match firstNodeI k (xs.take (intMax + 1)) 0 with
  | some ni => .ok (some ni)
  | none => if xs.length ≤ intMax then .ok none else .error .intOverflow

theorem scan_eq_searchList (a : NodeArr) (n : Nat) (k : KeyType) :
    scan a.cells n k 0 = searchList k (a.window 0 n) := by
  rw [scan_eq a n k (Nat.zero_le _), searchList, NodeArr.take_window, NodeArr.length_window,
    Nat.sub_zero]

theorem searchList_of_le (k : KeyType) {xs : List Node} (h : xs.length ≤ intMax) :
    searchList k xs = .ok (firstNodeI k xs 0) := by
  have hall : xs.take (intMax + 1) = xs := List.take_of_length_le (by omega)
  rw [searchList, hall, if_pos h]
  cases firstNodeI k xs 0 with
  | none => rfl
  | some ni => rfl

/-- A node of the key that the index reaches is found. -/
theorem searchList_of_mem {k : KeyType} {xs : List Node} (h : ∃ n ∈ xs, n.key = k)
    (hreach : firstIndex k xs ≤ intMax) :
    ∃ ni, searchList k xs = .ok (some ni) ∧ ni.index = firstIndex k xs := by
  -- cutting the list behind the reachable indices does not move the first match
  have hindex : firstIndex k (xs.take (intMax + 1)) = firstIndex k xs := by
    simp only [firstIndex, List.findIdx_take] at hreach ⊢
    omega
  have hmem : ∃ n ∈ xs.take (intMax + 1), n.key = k := by
    have hlt := firstIndex_lt_length.2 h
    rw [← firstIndex_lt_length, hindex, List.length_take]
    omega
  rcases firstNodeI_of_mem hmem 0 with ⟨ni, hni, hat⟩
  refine ⟨ni, ?_, ?_⟩
  · simp only [searchList, hni]
  · rw [hat, hindex, Nat.zero_add]

/-- The index overflows before it comes to the first node of the key. -/
theorem searchList_of_far {k : KeyType} {xs : List Node} (h : ∃ n ∈ xs, n.key = k)
    (hfar : intMax < firstIndex k xs) : searchList k xs = .error .intOverflow := by
  have hlt := firstIndex_lt_length.2 h
  have hnone : firstNodeI k (xs.take (intMax + 1)) 0 = none := by
    rw [firstNodeI_eq_none]
    intro n hn hkey
    have hlt' := firstIndex_lt_length.2 ⟨n, hn, hkey⟩
    simp only [firstIndex, List.findIdx_take, List.length_take] at hfar hlt hlt'
    omega
  have hlong : ¬ xs.length ≤ intMax := by omega
  simp only [searchList, hnone, if_neg hlong]

theorem searchList_of_not_mem {k : KeyType} {xs : List Node} (h : ∀ n ∈ xs, n.key ≠ k) :
    searchList k xs = if xs.length ≤ intMax then .ok none else .error .intOverflow := by
  have hnone : firstNodeI k (xs.take (intMax + 1)) 0 = none :=
    firstNodeI_eq_none.2 (fun n hn => h n (List.mem_of_mem_take hn))
  simp only [searchList, hnone]

/-! ## `search_buffer` and `search_disk` -/

theorem searchBuffer_eq (k : KeyType) (tree : Lsm) :
    searchBuffer k tree = searchList k tree.buffered :=
  scan_eq_searchList tree.block tree.nextEmpty.toNat k

theorem searchBuffer_eq_of_le (k : KeyType) {tree : Lsm} (h : tree.nextEmpty.toNat ≤ intMax) :
    searchBuffer k tree = .ok (firstNodeI k tree.buffered 0) := by
  rw [searchBuffer_eq]
  exact searchList_of_le k (by simpa using h)

/-- A search of the buffer without a match overflows when the buffer is too long. -/
theorem searchBuffer_of_not_mem {k : KeyType} {tree : Lsm} (h : ∀ n ∈ tree.buffered, n.key ≠ k) :
    searchBuffer k tree =
      if tree.nextEmpty.toNat ≤ intMax then .ok none else .error .intOverflow := by
  rw [searchBuffer_eq, searchList_of_not_mem h, length_buffered]

/-- On a well-formed file `search_disk` runs the same loop over the stored nodes. -/
theorem searchDiskFrom_eq {name : String} {env : ReadEnv} (henv : env.Succeeds) (k : KeyType)
    {fs : FS} {ns : List Node} (hfile : FileHolds fs name ns) :
    searchDiskFrom name env k fs = searchList k ns := by
  rcases hfile with ⟨hfs, rfl⟩ | ⟨hfs, hbound⟩
  · simp [searchDiskFrom, hfs, searchList, firstNodeI]
  · rcases readNodes_fileBytes henv hbound env.numMem with ⟨a, hread, hwin⟩
    have hnum : (UInt64.ofNat ns.length).toNat = ns.length := UInt64.toNat_ofNat_of_lt' hbound
    simp only [searchDiskFrom, hfs, henv.1, if_true, hread, hnum]
    rw [scan_eq_searchList, hwin]

theorem searchDiskFrom_of_absent {name : String} {fs : FS} (h : fs name = none) (env : ReadEnv)
    (k : KeyType) : searchDiskFrom name env k fs = .ok none := by
  simp [searchDiskFrom, h]

/-! ## The reader and the writer of the file -/

theorem deleteFrom_of_not_found {name : String} {env : DeleteEnv} {k : KeyType} {fs : FS}
    {tree : Lsm} (hbuffer : searchBuffer k tree = .ok none)
    (hdisk : searchDiskFrom name env.search k fs = .ok none) :
    deleteFrom name env k fs tree = .error .assertFailed := by
  simp [deleteFrom, hbuffer, hdisk, bind, Except.bind]

/-- Two puts with block size one: the first node is stored and the second buffered. -/
theorem run_two_puts :
    ∃ fs' tree', run putStep (noFiles, zeroTree 1 true) (quietCalls [(1, 10), (2, 20)]) =
        .ok (fs', tree') ∧
      storedNodes fs' tree'.disk1 = [{ key := 1, val := 10 }] ∧
      tree'.buffered = [{ key := 2, val := 20 }] := by
  have hstate : ((run putStep (noFiles, zeroTree 1 true)
      (quietCalls [(1, 10), (2, 20)])).toOption.map
        (fun t => (storedNodes t.1 t.2.disk1, t.2.buffered))) =
      some ([{ key := 1, val := 10 }], [{ key := 2, val := 20 }]) := by
    decide +kernel
  rcases exists_of_map_eq hstate with ⟨⟨fs', tree'⟩, hrun, hobs⟩
  exact ⟨fs', tree', hrun, congrArg Prod.fst hobs, congrArg Prod.snd hobs⟩

/-- `get` returns the first buffered node of the key that its `int` index reaches. -/
theorem get_of_firstMatch {env : ReadEnv} {k : KeyType} {fs : FS} {tree : Lsm} {n : Node}
    (h : firstMatch Node.key k (tree.buffered.take (intMax + 1)) = some n) :
    get env k fs tree = .ok (some n) := by
  rw [← firstNodeI_node k _ 0] at h
  rcases Option.map_eq_some_iff.1 h with ⟨ni, hni, rfl⟩
  have hsearch := searchBuffer_eq k tree
  simp only [searchList, hni] at hsearch
  simp [get, getFrom, hsearch, bind, Except.bind]

/-- When the reachable indices hold no node of the key and others follow, the index overflows. -/
theorem get_of_overflow {env : ReadEnv} {k : KeyType} {fs : FS} {tree : Lsm}
    (h : firstMatch Node.key k (tree.buffered.take (intMax + 1)) = none)
    (hlong : intMax < tree.nextEmpty.toNat) :
    get env k fs tree = .error .intOverflow := by
  rw [← firstNodeI_node k _ 0, Option.map_eq_none_iff] at h
  have hlen : ¬ tree.buffered.length ≤ intMax := by
    simpa using hlong
  have hsearch := searchBuffer_eq k tree
  simp only [searchList, h, if_neg hlen] at hsearch
  simp [get, getFrom, hsearch, bind, Except.bind]

/-- When the node just appended is found. -/
theorem get_after_push_iff {tree : Lsm} (hroom : tree.nextEmpty.toNat + 1 < 2 ^ 64) (env : ReadEnv)
    (fs : FS) (n : Node) :
    get env n.key fs (tree.push n) = .ok (some n) ↔
      ((∀ m ∈ tree.buffered, m.key ≠ n.key) ∧ tree.nextEmpty.toNat ≤ intMax) ∨
        firstMatch Node.key n.key (tree.buffered.take (intMax + 1)) = some n := by
  have hlen : tree.buffered.length = tree.nextEmpty.toNat := length_buffered tree
  have hfound : firstMatch Node.key n.key ((tree.push n).buffered.take (intMax + 1)) =
      (firstMatch Node.key n.key (tree.buffered.take (intMax + 1))).or
        (firstMatch Node.key n.key ([n].take (intMax + 1 - tree.nextEmpty.toNat))) := by
    rw [buffered_push hroom, List.take_append, firstMatch_append, hlen]
  cases hold : firstMatch Node.key n.key (tree.buffered.take (intMax + 1)) with
  | some m =>
      -- an older node of the key stands in front of the new one
      have hget : get env n.key fs (tree.push n) = .ok (some m) := by
        apply get_of_firstMatch
        rw [hfound, hold]
        rfl
      have hmem : m ∈ tree.buffered := List.mem_of_mem_take (mem_of_firstMatch Node.key hold)
      have hkey : m.key = n.key := key_of_firstMatch Node.key hold
      rw [hget]
      constructor
      · intro heq
        cases heq
        exact Or.inr rfl
      · rintro (⟨hnone, -⟩ | heq)
        · exact absurd hkey (hnone m hmem)
        · rw [heq]
  | none =>
      by_cases hle : tree.nextEmpty.toNat ≤ intMax
      · -- all buffered nodes are searched and the new one is the first of its key
        have hall : tree.buffered.take (intMax + 1) = tree.buffered :=
          List.take_of_length_le (by omega)
        have hget : get env n.key fs (tree.push n) = .ok (some n) := by
          apply get_of_firstMatch
          have hone : [n].take (intMax + 1 - tree.nextEmpty.toNat) = [n] :=
            List.take_of_length_le (by simp only [List.length_singleton]; omega)
          rw [hfound, hold, hone]
          simp [firstMatch]
        rw [hall, firstMatch_eq_none] at hold
        exact ⟨fun _ => Or.inl ⟨hold, hle⟩, fun _ => hget⟩
      · -- the new node lies beyond the last index of the search
        have hget : get env n.key fs (tree.push n) = .error .intOverflow := by
          apply get_of_overflow
          · have hzero : intMax + 1 - tree.nextEmpty.toNat = 0 := by omega
            rw [hfound, hold, hzero]
            rfl
          · rw [nextEmpty_push hroom]
            omega
        rw [hget]
        constructor
        · intro heq
          cases heq
        · rintro (⟨-, hle'⟩ | heq)
          · exact absurd hle' hle
          · cases heq

/-- After any run of puts, `put` followed by `get` stays inside the block and returns the node just put
exactly when the size of the block does not wrap and the put flushed, or no node of the key was
buffered, or the buffered node that the search finds first is the same node. -/
theorem get_after_put_iff {treeMem : Bool} {blockMem : Option Heap} {bufferSize : UInt64}
    {sorted : Bool} {tree : Lsm}
    (hinit : initNewLsm treeMem blockMem bufferSize sorted = some tree)
    (hpos : 1 ≤ bufferSize.toNat) {fs fs₁ fs₂ : FS} {tree₁ tree₂ : Lsm} {calls : List PutCall}
    (hrun : run putStep (fs, tree) calls = .ok (fs₁, tree₁)) {env : FlushEnv} {k : KeyType}
    {v : ValType} {r : Int32} (hput : put env k v fs₁ tree₁ = .ok (fs₂, tree₂, r))
    (renv : ReadEnv) :
    BufferSafe tree₂ ∧ get renv k fs₂ tree₂ = .ok (some { key := k, val := v }) ↔
      bufferSize.toNat < 2 ^ 61 ∧
        (tree₁.nextEmpty = tree₁.blockSize ∨
          ((∀ m ∈ tree₁.buffered, m.key ≠ k) ∧ tree₁.nextEmpty.toNat ≤ intMax) ∨
          firstMatch Node.key k (tree₁.buffered.take (intMax + 1)) =
            some { key := k, val := v }) := by
  have hrun₂ : run putStep (fs, tree) (calls ++ [{ node := { key := k, val := v }, env := env }]) =
      .ok (fs₂, tree₂) := by
    rw [run_concat_of_ok putStep hrun]
    exact putStep_of_put hput
  refine and_congr (run_safe_iff hinit hpos hrun₂) ?_
  have hfits := (run_keeps hinit hpos hrun).2
  have hcap := tree₁.blockSize.toNat_lt
  rcases put_eq_ok (n := { key := k, val := v }) hput with
    ⟨hne, rfl, rfl⟩ | ⟨hfull, -, rfl⟩
  · have hlt := nextEmpty_lt_of_ne hfits hne
    have hroom : tree₁.nextEmpty.toNat + 1 < 2 ^ 64 := by omega
    have hiff := get_after_push_iff hroom renv fs₂ { key := k, val := v }
    simpa [hne] using hiff
  · -- the flush has emptied the buffer
    have hbuffered : ((flushedTree env tree₁).push { key := k, val := v }).buffered =
        [{ key := k, val := v }] := by
      rw [buffered_push (by simp [flushedTree]), buffered_flushedTree, List.nil_append]
    refine ⟨fun _ => Or.inl hfull, fun _ => get_of_firstMatch ?_⟩
    rw [hbuffered]
    simp [firstMatch]

/-- A key that is not buffered yet is found right after its put. -/
theorem get_after_put_new_key :
    ∃ fs₁ tree₁ fs₂ tree₂,
      run putStep (noFiles, zeroTree 2 false) (quietCalls [(1, 10)]) = .ok (fs₁, tree₁) ∧
      put FlushEnv.quiet 2 20 fs₁ tree₁ = .ok (fs₂, tree₂, 0) ∧
      get ReadEnv.quiet 2 fs₂ tree₂ = .ok (some { key := 2, val := 20 }) := by
  have hinit := initNewLsm_zeroTree 2 false
  rcases run_unflushed hinit noFiles (by decide : (quietCalls [(1, 10)]).length ≤ 2) with
    ⟨tree₁, hrun, hbuffered, hnext, -⟩
  rcases put_returns FlushEnv.quiet_succeeds { key := 2, val := 20 } noFiles tree₁ with
    ⟨fs₂, tree₂, hput, -⟩
  refine ⟨noFiles, tree₁, fs₂, tree₂, hrun, hput, ?_⟩
  refine ((get_after_put_iff hinit (by decide) hrun hput _).2
    ⟨by decide, Or.inr (Or.inl ⟨?_, ?_⟩)⟩).2
  · rw [hbuffered]
    decide
  · rw [hnext]
    decide

/-- A second put of a buffered key: `get` still returns the first value. -/
theorem get_after_put_stale :
    ∃ fs₁ tree₁ fs₂ tree₂,
      run putStep (noFiles, zeroTree 2 false) (quietCalls [(1, 10)]) = .ok (fs₁, tree₁) ∧
      put FlushEnv.quiet 1 20 fs₁ tree₁ = .ok (fs₂, tree₂, 0) ∧
      get ReadEnv.quiet 1 fs₂ tree₂ = .ok (some { key := 1, val := 10 }) ∧
      get ReadEnv.quiet 1 fs₂ tree₂ ≠ .ok (some { key := 1, val := 20 }) := by
  have hinit := initNewLsm_zeroTree 2 false
  rcases run_unflushed hinit noFiles (by decide : (quietCalls [(1, 10)]).length ≤ 2) with
    ⟨tree₁, hrun, hbuffered, hnext, hsize, -⟩
  have hne : tree₁.nextEmpty ≠ tree₁.blockSize := by
    intro heq
    rw [heq, hsize] at hnext
    exact absurd hnext (by decide)
  have hput := put_of_not_full hne FlushEnv.quiet { key := 1, val := 20 } noFiles
  have hget : get ReadEnv.quiet 1 noFiles (tree₁.push { key := 1, val := 20 }) =
      .ok (some { key := 1, val := 10 }) := by
    apply get_of_firstMatch
    rw [buffered_push (by rw [hnext]; decide), hbuffered]
    rfl
  refine ⟨noFiles, tree₁, noFiles, _, hrun, hput, hget, ?_⟩
  rw [hget]
  decide

end LSMTree
end DBTest
