import DBTest.LSMTree.Failures

/-!
# Truncation — a flush over a file that was cut off

An interrupted write leaves a count that is cut, or a count with fewer nodes behind it than it says.
`write_to_disk` believes the count: it merges that many nodes of the memory it has allocated for them,
whether `fread` has filled them or not, and writes them back as nodes.  Only a file whose count comes
out as zero, and a block whose size fits into an `int`, keep this memory out of the file
(`truncated_file_invents_nothing_iff`).
-/

namespace DBTest
namespace LSMTree

open ByteLayout
open KeyedMerge

/-- What an interrupted write leaves: the count itself is cut, or it says more nodes than follow as a
whole. -/
def Truncated (content : List UInt8) : Prop :=
  content.length < 8 ∨ (content.length - 8) / 8 < leNat (content.take 8)

/-- Whatever the allocated memory held, a flush returns; each node it writes is held in the old file or
buffered, their number is the number of both, and all of them are read from the array that was
allocated for them. -/
def InventsNothing (fs : FS) (tree : Lsm) : Prop :=
  ∀ env : FlushEnv, env.Succeeds →
    ∃ fs' tree' a num, writeToDisk env fs tree = .ok (fs', tree', 0) ∧
      flushSource env fs tree = .ok (a, num) ∧
      (∀ n ∈ storedNodes fs' tree.disk1, n ∈ heldIn fs tree.disk1 ∨ n ∈ tree.buffered) ∧
      (storedNodes fs' tree.disk1).length =
        (heldIn fs tree.disk1).length + tree.nextEmpty.toNat ∧
      (storedNodes fs' tree.disk1).length ≤ a.granted

/-! ## The count -/

/-- The bytes of the count that are there are the low bytes of the count that is read. -/
theorem freadCount_zero (content : List UInt8) :
    freadCount true content 0 = UInt64.ofNat (leNat (content.take 8)) := by
  have hzeros : (leBytes 8 (0 : UInt64).toNat).drop (content.take 8).length =
      List.replicate (8 - (content.take 8).length) 0 := by
    rw [UInt64.toNat_zero, leBytes_zero, List.drop_replicate]
  simp only [freadCount, if_true, hzeros, leNat_append_zeros]

theorem leNat_take_eight_lt (content : List UInt8) : leNat (content.take 8) < 2 ^ 64 := by
  have hlt := leNat_lt (content.take 8)
  have hpow : 256 ^ (content.take 8).length ≤ 256 ^ 8 :=
    Nat.pow_le_pow_right (by decide) (List.length_take_le 8 content)
  exact Nat.lt_of_lt_of_le hlt hpow

/-- A count that is narrowed to an `int` is at most `INT_MAX`. -/
theorem intOfSize_toNat_le_intMax (n : UInt64) : (intOfSize n).toNat ≤ intMax := by
  have hle : ∀ (x : Int) (m : Nat), 0 < m → (Int.bmod x m).toNat ≤ (m - 1) / 2 := by
    intro x m hm
    have hlt := Int.bmod_lt (x := x) hm
    omega
  exact hle n.toNat (2 ^ 32) (Nat.two_pow_pos 32)

/-- The count of a truncated file covers every node that is there as a whole. -/
theorem Truncated.length_heldNodes {content : List UInt8} (h : Truncated content) :
    (heldNodes content).length = (content.length - 8) / 8 := by
  rw [LSMTree.length_heldNodes]
  rcases h with h | h <;> omega

/-- So there are fewer nodes than it says, or none. -/
theorem Truncated.held_lt {content : List UInt8} (h : Truncated content) :
    heldNodes content = [] ∨ (heldNodes content).length < leNat (content.take 8) := by
  rw [← List.length_eq_zero_iff, h.length_heldNodes]
  rcases h with h | h
  · exact Or.inl (by omega)
  · exact Or.inr h

/-! ## What a flush writes -/

section Flush

variable {env : FlushEnv} {fs : FS} {tree : Lsm} {content : List UInt8}

/-- What a flush is about to write over any file.  Its nodes are read over the memory of `file_data`,
and as many as the count says are merged. -/
theorem flushSource_of_content (hread : env.read.Succeeds) {heap : Heap}
    (hheap : env.read.fileMem = some heap) (hfs : fs tree.disk1 = some content) {num : UInt64}
    (hnum : num = UInt64.ofNat (leNat (content.take 8))) :
    flushSource env fs tree =
      .ok (merge (NodeArr.alloc env.completeMem ((8 * (num + tree.nextEmpty)).toNat / 8))
          (freadNodes none (content.drop 8) num.toNat (NodeArr.alloc heap ((8 * num).toNat / 8)))
          (intOfSize num) (flushBlock env tree) (intOfSize tree.nextEmpty),
        num + tree.blockSize) := by
  rcases hread with ⟨hopen, hcount, -, hnodes⟩
  refine flushSource_of_read hopen hfs ?_
  simp only [readNodes, hcount, if_true, freadCount_zero, ← hnum, hheap, hnodes, Option.map_some]

/-- Over a count of zero nothing of the file is merged, and the size of the block is counted once. -/
theorem flushSource_of_zero_count (hread : env.read.Succeeds) (hfs : fs tree.disk1 = some content)
    (hfull : tree.nextEmpty = tree.blockSize) (hcount : leNat (content.take 8) = 0) :
    ∃ a : NodeArr, flushSource env fs tree =
      .ok (merge (NodeArr.alloc env.completeMem ((8 * tree.nextEmpty).toNat / 8))
          a (0 : Nat) (flushBlock env tree) (intOfSize tree.nextEmpty),
        tree.nextEmpty) := by
  have hnum : (0 : UInt64) = UInt64.ofNat (leNat (content.take 8)) := by
    rw [hcount]
    rfl
  have hzero : intOfSize 0 = (0 : Nat) := intOfSize_of_le (Nat.zero_le _)
  rcases Option.isSome_iff_exists.1 hread.2.2.1 with ⟨heap, hheap⟩
  have hsource := flushSource_of_content hread hheap hfs hnum
  rw [UInt64.zero_add, UInt64.zero_add, hzero, ← hfull] at hsource
  exact ⟨_, hsource⟩

/-- The nodes that a flush stores are the first ones of the array it writes from. -/
theorem InventsNothing.source (h : InventsNothing fs tree) (henv : env.Succeeds) {a : NodeArr}
    {num : UInt64} (hsource : flushSource env fs tree = .ok (a, num)) {w : Nat}
    (hw : w = (if num = 0 then tree.nextEmpty else num).toNat) :
    (∀ n ∈ a.window 0 w, n ∈ heldIn fs tree.disk1 ∨ n ∈ tree.buffered) ∧
      w = (heldIn fs tree.disk1).length + tree.nextEmpty.toNat ∧ w ≤ a.granted := by
  rcases h env henv with ⟨fs', tree', b, m, hwrite, hsource', hnodes, hcount, hroom⟩
  rw [hsource] at hsource'
  cases hsource'
  rw [writeToDisk_of_source henv.2 hsource, ← hw] at hwrite
  cases hwrite
  have hlen : (a.window 0 w).length < 2 ^ 64 := by
    rw [NodeArr.length_window, hw]
    exact UInt64.toNat_lt _
  rw [storedNodes_update fs tree.disk1 hlen] at hnodes hcount hroom
  rw [NodeArr.length_window] at hcount hroom
  exact ⟨hnodes, hcount, hroom⟩

end Flush

/-- With more nodes counted than held, the number that a flush writes is too large, or it wraps and
the array is too small for it. -/
theorem count_eq_zero_of_written {num b : UInt64} {c w : Nat} (hc : c = 0 ∨ c < num.toNat)
    (hw : w = (if num + b = 0 then b else num + b).toNat) (hcount : w = c + b.toNat)
    (hroom : w ≤ (8 * (num + b)).toNat / 8) : num = 0 := by
  have hnum := num.toNat_lt
  have hb := b.toNat_lt
  have hadd : (num + b).toNat = (num.toNat + b.toNat) % 2 ^ 64 := UInt64.toNat_add _ _
  apply UInt64.toNat_inj.1
  rw [UInt64.toNat_zero]
  by_cases hzero : num + b = 0
  · rw [if_pos hzero] at hw
    rw [hzero] at hadd hroom
    simp only [UInt64.toNat_zero, UInt64.mul_zero] at hadd hroom
    omega
  · rw [if_neg hzero] at hw
    omega

/-! ## When nothing is invented -/

/-- The block that is merged holds buffered nodes only. -/
theorem mem_flushBlock_window {env : FlushEnv} {tree : Lsm}
    (hint : tree.nextEmpty.toNat ≤ intMax) {n : Node}
    (hn : n ∈ (flushBlock env tree).window 0 tree.nextEmpty.toNat) : n ∈ tree.buffered := by
  rw [flushBlock_window env tree hint] at hn
  cases hsorted : tree.sorted with
  | false => simpa [hsorted] using hn
  | true =>
      rw [hsorted, if_pos rfl] at hn
      exact List.mem_reverse.1 ((stableSort_perm Node.key _).mem_iff.1 hn)

/-- A merge with nothing on the left leaves the memory behind the right side as it was. -/
theorem merge_zero_cells (whole left right : NodeArr) (size : Int) :
    (merge whole left (0 : Nat) right size).cells size.toNat = whole.cells size.toNat := by
  rw [merge_eq_storeList]
  refine NodeArr.storeList_cells_of_le whole 0 _ ?_
  rw [length_mergeRight, NodeArr.length_window, NodeArr.length_window, Int.toNat_natCast]
  omega

/-- The first node that the narrowed size of a large block leaves out is taken from the memory behind
`complete_data`, which may hold a node that is not buffered. -/
theorem blockSize_le_of_inventsNothing {fs : FS} {tree : Lsm} {content : List UInt8}
    (hfs : fs tree.disk1 = some content) (hfull : tree.nextEmpty = tree.blockSize)
    (hheld : heldNodes content = []) (hcount : leNat (content.take 8) = 0)
    (h : InventsNothing fs tree) : tree.blockSize.toNat ≤ intMax := by
  by_contra hlarge
  have hlen : tree.buffered.length < 256 ^ nodeLayout.width := by
    rw [length_buffered]
    exact UInt64.toNat_lt _
  rcases nodeLayout.exists_notMem (fun _ h => nodeLayout_encode_decode h) hlen with ⟨g, hg⟩
  have henv : { FlushEnv.quiet with completeMem := fun _ => g }.Succeeds := FlushEnv.quiet_succeeds
  rcases flushSource_of_zero_count henv.1 hfs hfull hcount with ⟨a, hsource⟩
  have hwritten : tree.nextEmpty.toNat =
      (if tree.nextEmpty = 0 then tree.nextEmpty else tree.nextEmpty).toNat := by
    rw [ite_self]
  rcases h.source henv hsource hwritten with ⟨hnodes, -, -⟩
  -- the narrowed size is smaller, so its index is among those that are written
  have hlt : (intOfSize tree.nextEmpty).toNat < tree.nextEmpty.toNat := by
    have hsize := intOfSize_toNat_le_intMax tree.nextEmpty
    rw [hfull] at hsize ⊢
    omega
  have hmem := hnodes _ (List.mem_map.2 ⟨(intOfSize tree.nextEmpty).toNat,
    List.mem_range'_1.2 ⟨Nat.zero_le _, by omega⟩, merge_zero_cells _ a _ _⟩)
  rcases hmem with hmem | hmem
  · rw [heldIn, hfs] at hmem
    simp [hheld] at hmem
  · exact hg hmem

/-- With a count of zero and a block whose size fits into an `int`, the block is written and nothing
else. -/
theorem inventsNothing_of_zero_count {fs : FS} {tree : Lsm} {content : List UInt8}
    (hfs : fs tree.disk1 = some content) (hfull : tree.nextEmpty = tree.blockSize)
    (hheld : heldNodes content = []) (hcount : leNat (content.take 8) = 0)
    (hint : tree.nextEmpty.toNat ≤ intMax) : InventsNothing fs tree := by
  intro env henv
  rcases flushSource_of_zero_count henv.1 hfs hfull hcount with ⟨a, hsource⟩
  have hwrite := writeToDisk_of_source henv.2 hsource
  have hblock := window_merge (NodeArr.alloc env.completeMem ((8 * tree.nextEmpty).toNat / 8)) a
    (flushBlock env tree) 0 tree.nextEmpty.toNat
  rw [Nat.zero_add, NodeArr.window_zero, mergeRight_nil_left] at hblock
  rw [ite_self, intOfSize_of_le hint, hblock] at hwrite
  have hlen : ((flushBlock env tree).window 0 tree.nextEmpty.toNat).length =
      tree.nextEmpty.toNat := NodeArr.length_window _ _ _
  have hlt : ((flushBlock env tree).window 0 tree.nextEmpty.toNat).length < 2 ^ 64 := by
    rw [hlen]
    exact tree.nextEmpty.toNat_lt
  refine ⟨_, _, _, _, hwrite, hsource, ?_⟩
  rw [storedNodes_update fs tree.disk1 hlt, hlen, heldIn, hfs, merge_eq_storeList,
    NodeArr.storeList_granted]
  refine ⟨fun n hn => Or.inr (mem_flushBlock_window hint hn), by simp [hheld], ?_⟩
  -- the bytes of the block do not wrap
  have hmul : (8 * tree.nextEmpty).toNat = 8 * tree.nextEmpty.toNat % 2 ^ 64 :=
    UInt64.toNat_mul _ _
  have hmax : intMax < 2 ^ 61 := by decide
  change tree.nextEmpty.toNat ≤ (8 * tree.nextEmpty).toNat / 8
  omega

/-- A truncated file over which nothing is invented has a count of zero. -/
theorem count_eq_zero_of_inventsNothing {fs : FS} {tree : Lsm} {content : List UInt8}
    (hfs : fs tree.disk1 = some content) (hcut : Truncated content)
    (hfull : tree.nextEmpty = tree.blockSize) (h : InventsNothing fs tree) :
    leNat (content.take 8) = 0 := by
  have htoNat : (UInt64.ofNat (leNat (content.take 8))).toNat = leNat (content.take 8) :=
    UInt64.toNat_ofNat_of_lt' (leNat_take_eight_lt content)
  have hheld : (heldIn fs tree.disk1).length = 0 ∨
      (heldIn fs tree.disk1).length < (UInt64.ofNat (leNat (content.take 8))).toNat := by
    rw [heldIn, hfs, htoNat, List.length_eq_zero_iff]
    exact hcut.held_lt
  have hsource := flushSource_of_content FlushEnv.quiet_succeeds.1 rfl hfs rfl
  rw [← hfull] at hsource
  rcases h.source FlushEnv.quiet_succeeds hsource rfl with ⟨-, hcount, hroom⟩
  rw [merge_eq_storeList, NodeArr.storeList_granted] at hroom
  rw [← htoNat, count_eq_zero_of_written hheld rfl hcount hroom, UInt64.toNat_zero]

/-- A flush of a full buffer over a truncated file invents no node exactly when the bytes of the count
that are there are zero and the size of the block fits into an `int`. -/
theorem truncated_file_invents_nothing_iff {fs : FS} {tree : Lsm} {content : List UInt8}
    (hfs : fs tree.disk1 = some content) (hcut : Truncated content)
    (hfull : tree.nextEmpty = tree.blockSize) :
    InventsNothing fs tree ↔ leNat (content.take 8) = 0 ∧ tree.blockSize.toNat ≤ intMax := by
  have hheld : leNat (content.take 8) = 0 → heldNodes content = [] := by
    intro hzero
    exact hcut.held_lt.resolve_right (by omega)
  constructor
  · intro h
    have hzero := count_eq_zero_of_inventsNothing hfs hcut hfull h
    exact ⟨hzero, blockSize_le_of_inventsNothing hfs hfull (hheld hzero) hzero h⟩
  · rintro ⟨hzero, hint⟩
    rw [← hfull] at hint
    exact inventsNothing_of_zero_count hfs hfull (hheld hzero) hzero hint

/-- A file of three zero bytes. -/
def zeroBytes : FS := fun _ => some [0, 0, 0]

theorem truncated_file_invents_nothing_three_bytes : InventsNothing zeroBytes fullTree := by
  have hfs : zeroBytes fullTree.disk1 = some [0, 0, 0] := rfl
  have hcut : Truncated [0, 0, 0] := Or.inl (by decide)
  exact (truncated_file_invents_nothing_iff hfs hcut (by decide)).2 ⟨by decide, by decide⟩

/-- A file in which only the count of one node was written. -/
def countOnly : FS := fun _ => some (leBytes 8 1)

/-- Library calls that succeed over memory that holds the node `g`. -/
def memoryOf (g : Node) : FlushEnv :=
  { FlushEnv.quiet with
    completeMem := fun _ => g
    read := { ReadEnv.quiet with fileMem := some (fun _ => g) } }

/-- What a put whose `fwrite` fails leaves is such a file.  The next flush of a full block of one node
over it stores a node that was in the memory of `file_data` and nowhere else. -/
theorem truncated_file_invents_node :
    ∃ fs' tree', (memoryOf { key := 7, val := 7 }).Succeeds ∧
      writeToDisk (memoryOf { key := 7, val := 7 }) countOnly fullTree = .ok (fs', tree', 0) ∧
      storedNodes fs' fullTree.disk1 = [{ key := 1, val := 10 }, { key := 7, val := 7 }] ∧
      heldIn countOnly fullTree.disk1 = [] ∧ fullTree.buffered = [{ key := 1, val := 10 }] ∧
      Truncated (leBytes 8 1) ∧ ¬ InventsNothing countOnly fullTree := by
  have henv : (memoryOf { key := 7, val := 7 }).Succeeds :=
    ⟨⟨rfl, rfl, rfl, rfl⟩, WriteEnv.quiet_succeeds⟩
  have hfs : countOnly fullTree.disk1 = some (leBytes 8 1) := rfl
  have hnum : (1 : UInt64) = UInt64.ofNat (leNat ((leBytes 8 1).take 8)) := by decide
  have hsource := flushSource_of_content henv.1 rfl hfs hnum
  have hleft : (freadNodes none ((leBytes 8 1).drop 8) (1 : UInt64).toNat
      (NodeArr.alloc (fun _ => { key := 7, val := 7 }) ((8 * (1 : UInt64)).toNat / 8))).window 0
      (intOfSize 1).toNat = [{ key := 7, val := 7 }] := by decide
  have hbuffered : fullTree.buffered = [{ key := 1, val := 10 }] := by decide
  have hright : (flushBlock (memoryOf { key := 7, val := 7 }) fullTree).window 0
      (intOfSize fullTree.nextEmpty).toNat = [{ key := 1, val := 10 }] := by
    have hint : fullTree.nextEmpty.toNat ≤ intMax := by decide
    rw [intOfSize_of_le hint, Int.toNat_natCast, flushBlock_window _ _ hint, hbuffered]
    simp [stableSort]
  have hlt : ¬ ({ key := 7, val := 7 } : Node).key < ({ key := 1, val := 10 } : Node).key := by decide
  rw [merge_eq_storeList, hleft, hright, mergeRight_cons_right Node.key _ _ hlt,
    mergeRight_nil_right] at hsource
  have hflush := writeToDisk_of_source henv.2 hsource
  have hcut : Truncated (leBytes 8 1) := Or.inr (by decide)
  refine ⟨_, _, henv, hflush, ?_, by decide, hbuffered, hcut, ?_⟩
  · rw [storedNodes_update _ _ (by decide)]
    decide
  · intro h
    exact absurd (count_eq_zero_of_inventsNothing hfs hcut (by decide) h) (by decide)

end LSMTree
end DBTest
