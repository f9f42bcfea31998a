import DBTest.LSMTree.Runs

/-!
# Counts — the three counters of `write_to_disk`

`write_to_disk` takes the number of stored nodes from the file, the number of buffered nodes from
`next_empty` and the number of nodes it writes from `block_size`, and passes the first two to
functions that take an `int`.

* The count it writes over an existing file is right only for a full block
  (`partial_flush_never_correct`).
* The conversions keep the counts exactly as long as there are at most `INT_MAX` nodes altogether
  (`counts_survive_iff`).
-/

namespace DBTest
namespace LSMTree

open KeyedMerge
open FallibleRun

/-! ## Flushing a buffer that is not full -/

/-- The flush returns, the file holds the old nodes and the buffered ones and no others, and the
buffer is empty. -/
def FlushesBuffered (env : FlushEnv) (fs : FS) (tree : Lsm) (ns : List Node) : Prop :=
  ∃ fs' tree' ms, writeToDisk env fs tree = .ok (fs', tree', 0) ∧
    fs' tree.disk1 = some (fileBytes ms) ∧
    ms.length = ns.length + tree.nextEmpty.toNat ∧ ms.Perm (ns ++ tree.buffered) ∧
    tree'.nextEmpty = 0

/-- The number of nodes written over an existing file, as `write_to_disk` computes it. -/
theorem written_count_ne {n e b : UInt64} (h : e.toNat < b.toNat) :
    (if n + b = 0 then e else n + b).toNat ≠ n.toNat + e.toNat := by
  have hn := n.toNat_lt
  have hb := b.toNat_lt
  have hsum : (n + b).toNat = (n.toNat + b.toNat) % 2 ^ 64 := UInt64.toNat_add n b
  by_cases hzero : n + b = 0
  · -- the count has wrapped to zero and is replaced by `next_empty`
    rw [if_pos hzero]
    rw [hzero] at hsum
    simp only [UInt64.toNat_zero] at hsum
    omega
  · rw [if_neg hzero]
    omega

/-- Over an existing file no flush of a buffer that is not full stores the nodes it should: the count
says how large the block is, not how many nodes are in it. -/
theorem partial_flush_never_correct {env : FlushEnv} (henv : env.Succeeds) {fs : FS} {tree : Lsm}
    {ns : List Node} (hfile : fs tree.disk1 = some (fileBytes ns)) (hbound : ns.length < 2 ^ 64)
    (hpart : tree.nextEmpty < tree.blockSize) : ¬ FlushesBuffered env fs tree ns := by
  rcases flushSource_of_file henv.1 hfile hbound with ⟨a, -, hsource⟩
  have hwrite := writeToDisk_of_source henv.2 hsource
  rintro ⟨fs', tree', ms, hflush, hcontent, hlen, -, -⟩
  rw [hwrite] at hflush
  cases hflush
  rw [Function.update_self] at hcontent
  -- both files have the same length, so they hold the same number of nodes
  have hsize := congrArg List.length (Option.some.inj hcontent)
  rw [length_fileBytes, length_fileBytes, NodeArr.length_window] at hsize
  have hne := written_count_ne (n := UInt64.ofNat ns.length) (UInt64.lt_iff_toNat_lt.1 hpart)
  rw [UInt64.toNat_ofNat_of_lt' hbound] at hne
  omega

/-- The common file with the node `(1, 10)` in it. -/
def oneNodeFile : FS :=
  Function.update noFiles disk1Name (some (fileBytes [{ key := 1, val := 10 }]))

/-- A block of two with the node `(2, 20)` in it. -/
def onePutTree : Lsm := (zeroTree 2 false).push { key := 2, val := 20 }

theorem oneNodeFile_disk1 :
    oneNodeFile onePutTree.disk1 = some (fileBytes [{ key := 1, val := 10 }]) :=
  Function.update_self _ _ _

/-- The tree is reached by one put over that file. -/
theorem run_onePutTree :
    run putStep (oneNodeFile, zeroTree 2 false) (quietCalls [(2, 20)]) =
      .ok (oneNodeFile, onePutTree) := by
  have hne : (zeroTree 2 false).nextEmpty ≠ (zeroTree 2 false).blockSize := by decide
  have hput := put_of_not_full hne FlushEnv.quiet { key := 2, val := 20 } oneNodeFile
  exact (run_concat_of_ok putStep (run_nil putStep _) _).trans (putStep_of_put hput)

/-- A block of two with one node in it, over a file of one node. -/
theorem partial_flush_never_correct_one_node :
    run putStep (oneNodeFile, zeroTree 2 false) (quietCalls [(2, 20)]) =
        .ok (oneNodeFile, onePutTree) ∧
      ¬ FlushesBuffered FlushEnv.quiet oneNodeFile onePutTree [{ key := 1, val := 10 }] :=
  ⟨run_onePutTree, partial_flush_never_correct FlushEnv.quiet_succeeds oneNodeFile_disk1
    (by decide) (by decide)⟩

/-- In the same state the flush writes three nodes; the third is what the memory behind the merged
nodes held. -/
theorem partial_flush_writes_memory :
    ∃ fs' tree', run putStep (oneNodeFile, zeroTree 2 false) (quietCalls [(2, 20)]) =
        .ok (oneNodeFile, onePutTree) ∧
      writeToDisk FlushEnv.quiet oneNodeFile onePutTree = .ok (fs', tree', 0) ∧
      fs' onePutTree.disk1 = some (fileBytes
        [{ key := 1, val := 10 }, { key := 2, val := 20 }, { key := 0, val := 0 }]) ∧
      ¬ FlushesBuffered FlushEnv.quiet oneNodeFile onePutTree [{ key := 1, val := 10 }] := by
  rcases flushSource_of_file FlushEnv.quiet_succeeds.1 oneNodeFile_disk1 (by decide) with
    ⟨a, hwin, hsource⟩
  have hleft : (intOfSize (UInt64.ofNat [({ key := 1, val := 10 } : Node)].length)).toNat =
      [({ key := 1, val := 10 } : Node)].length := by decide
  have hright : (flushBlock FlushEnv.quiet onePutTree).window 0
      (intOfSize onePutTree.nextEmpty).toNat = [{ key := 2, val := 20 }] := by decide
  have hlt : ({ key := 1, val := 10 } : Node).key < ({ key := 2, val := 20 } : Node).key := by decide
  -- the two nodes are merged, and the block has room for one more
  rw [merge_eq_storeList, hleft, hwin, hright, mergeRight_cons_left Node.key _ _ hlt,
    mergeRight_nil_left] at hsource
  have hflush := writeToDisk_of_source FlushEnv.quiet_succeeds.2 hsource
  refine ⟨_, _, run_onePutTree, hflush, ?_, ?_⟩
  · rw [Function.update_self]
    refine congrArg (fun ns => some (fileBytes ns)) ?_
    decide
  · rintro ⟨fs', tree', ms, hflush', hcontent, hlen, -, -⟩
    rw [hflush] at hflush'
    cases hflush'
    rw [Function.update_self] at hcontent
    have hsize := congrArg List.length (Option.some.inj hcontent)
    rw [length_fileBytes, length_fileBytes, NodeArr.length_window, hlen] at hsize
    exact absurd hsize (by decide)

/-! ## Sizes that are passed as `int` -/

/-- The arguments of the call of `merge` in `write_to_disk`. -/
structure MergeCall where
  completeData : NodeArr
  fileData : NodeArr
  leftSize : Int
  block : NodeArr
  rightSize : Int

/-- The call for a file with the given contents. -/
def mergeCall (env : FlushEnv) (content : List UInt8) (tree : Lsm) : Option MergeCall :=
  match readNodes env.read content 0 with
  | (_, none) => none
  | (num, some fileData) =>
      some
        { completeData := NodeArr.alloc env.completeMem ((8 * (num + tree.nextEmpty)).toNat / 8)
          fileData := fileData
          leftSize := intOfSize num
          block := flushBlock env tree
          rightSize := intOfSize tree.nextEmpty }

/-- `complete_data` after that call. -/
def MergeCall.result (c : MergeCall) : NodeArr :=
  merge c.completeData c.fileData c.leftSize c.block c.rightSize

/-- It is the array that `write_to_disk` goes on to write. -/
theorem mergeWithFile_of_call {env : FlushEnv} (hopen : env.read.fopen = true)
    {content : List UInt8} {tree : Lsm} {c : MergeCall}
    (hcall : mergeCall env content tree = some c) :
    ∃ num, mergeWithFile env content tree (flushBlock env tree) = .ok (c.result, num) := by
  rcases hread : readNodes env.read content 0 with ⟨num, none | fileData⟩
  · simp only [mergeCall, hread] at hcall
    cases hcall
  · simp only [mergeCall, hread] at hcall
    cases hcall
    refine ⟨num + tree.blockSize, ?_⟩
    simp only [mergeWithFile, hopen, if_true, hread, MergeCall.result]

/-- `merge` and `merge_sort` receive the counts as they are, the index of `merge` stays an `int`, and
every node of the file arrives in the array that is written. -/
def CountsSurvive (env : FlushEnv) (ns : List Node) (tree : Lsm) : Prop :=
  ∃ c, mergeCall env (fileBytes ns) tree = some c ∧
    c.leftSize = ns.length ∧ c.rightSize = tree.nextEmpty.toNat ∧
    (tree.sorted = true → intOfSize tree.nextEmpty = tree.nextEmpty.toNat) ∧
    mergeIndex c.completeData c.fileData c.leftSize c.block c.rightSize ≤ intMax ∧
    ∃ completeData num,
      mergeWithFile env (fileBytes ns) tree (flushBlock env tree) = .ok (completeData, num) ∧
      ns.Sublist (completeData.window 0 (ns.length + tree.nextEmpty.toNat))

/-- The counts survive the conversions exactly when there are at most `INT_MAX` nodes in the file and
in the buffer together. -/
theorem counts_survive_iff {env : FlushEnv} (henv : env.Succeeds) {ns : List Node}
    (hbound : ns.length < 2 ^ 64) (tree : Lsm) :
    CountsSurvive env ns tree ↔ ns.length + tree.nextEmpty.toNat ≤ intMax := by
  rcases readNodes_fileBytes henv.1 hbound 0 with ⟨a, hnodes, hwin⟩
  have hnum : (UInt64.ofNat ns.length).toNat = ns.length := UInt64.toNat_ofNat_of_lt' hbound
  constructor
  · rintro ⟨c, hcall, hleft, hright, -, hindex, -⟩
    rw [mergeIndex_eq, hleft, hright, Int.toNat_natCast, Int.toNat_natCast] at hindex
    exact hindex
  · intro hcount
    have hleft : intOfSize (UInt64.ofNat ns.length) = ns.length := by
      rw [intOfSize_of_le (by omega), hnum]
    have hright : intOfSize tree.nextEmpty = tree.nextEmpty.toNat := intOfSize_of_le (by omega)
    have hcall : mergeCall env (fileBytes ns) tree = some
        { completeData := NodeArr.alloc env.completeMem
            ((8 * (UInt64.ofNat ns.length + tree.nextEmpty)).toNat / 8)
          fileData := a
          leftSize := ns.length
          block := flushBlock env tree
          rightSize := tree.nextEmpty.toNat } := by
      simp only [mergeCall, hnodes, hleft, hright]
    rcases mergeWithFile_of_call henv.1.1 hcall with ⟨num, hmerge⟩
    refine ⟨_, hcall, rfl, rfl, fun _ => hright, ?_, _, num, hmerge, ?_⟩
    · rw [mergeIndex_eq, Int.toNat_natCast, Int.toNat_natCast]
      exact hcount
    · rw [MergeCall.result, window_merge, hwin]
      exact sublist_mergeRight_left Node.key _ _

/-- One put over a file of one node. -/
theorem counts_survive_one_node :
    CountsSurvive FlushEnv.quiet [{ key := 1, val := 10 }]
      ((zeroTree 1 true).push { key := 2, val := 20 }) :=
  (counts_survive_iff FlushEnv.quiet_succeeds (by decide) _).2 (by decide)

/-- A run of `INT_MAX + 1` puts into a block of one node stores all but the last. -/
theorem run_past_intMax {calls : List PutCall} (hok : AllSucceed calls)
    (hlen : calls.length = intMax + 1) :
    ∃ fs tree ns, run putStep (noFiles, zeroTree 1 true) calls = .ok (fs, tree) ∧
      fs tree.disk1 = some (fileBytes ns) ∧ ns.length = intMax ∧ tree.nextEmpty.toNat = 1 := by
  have hone : 0 < (1 : UInt64).toNat := by decide
  have hrep := init_represents (initNewLsm_zeroTree 1 true) hone
    (Or.inl ⟨rfl, rfl⟩ : FileHolds noFiles disk1Name [])
  have hflushed : flushedCount 1 (0 + calls.length) = intMax := by
    rw [flushedCount, hlen]
    omega
  rcases run_represents hrep hok (by simpa [Store.opened] using hflushed.le) with
    ⟨fs, tree, hrun, hrep', -⟩
  have hbuffer : tree.nextEmpty.toNat = 1 := by
    rw [hrep'.nextEmpty, Store.puts_buffer Node.key rfl]
    simp [Store.opened, hlen]
  have hdisk : ((Store.opened (1 : UInt64).toNat hone true []).puts Node.key
      (nodesPut calls)).disk.length = intMax := by
    have hperm := (Store.puts_perm Node.key (Store.opened (1 : UInt64).toNat hone true [])
      (nodesPut calls)).length_eq
    have hstart : (Store.opened (1 : UInt64).toNat hone true ([] : List Node)).disk.length +
        (Store.opened (1 : UInt64).toNat hone true ([] : List Node)).buffer.length = 0 := rfl
    rw [hrep'.nextEmpty] at hbuffer
    simp only [List.length_append, length_nodesPut, hbuffer, hlen] at hperm
    omega
  rcases hrep'.file with ⟨-, hnil⟩ | ⟨hfile, -⟩
  · -- there is a file, since something was stored
    rw [hnil] at hdisk
    cases hdisk
  · exact ⟨fs, tree, _, hrun, hfile, hdisk, hbuffer⟩

/-- A block of one node and `2 ^ 31` puts: the next flush counts `2 ^ 31 - 1` stored nodes and one
buffered node, and the index of `merge` passes `INT_MAX`. -/
theorem counts_lost_long_run :
    ∃ fs tree ns,
      run putStep (noFiles, zeroTree 1 true) (quietCalls (List.replicate (intMax + 1) (0, 0))) =
        .ok (fs, tree) ∧
      fs tree.disk1 = some (fileBytes ns) ∧ ns.length = 2 ^ 31 - 1 ∧
      tree.nextEmpty = tree.blockSize ∧ ¬ CountsSurvive FlushEnv.quiet ns tree := by
  have hlen : (quietCalls (List.replicate (intMax + 1) (0, 0))).length = intMax + 1 := by
    rw [length_quietCalls, List.length_replicate]
  rcases run_past_intMax (quietCalls_succeed _) hlen with ⟨fs, tree, ns, hrun, hfile, hstored, hone⟩
  have hkept := run_keeps (initNewLsm_zeroTree 1 true) (by decide) hrun
  refine ⟨fs, tree, ns, hrun, hfile, hstored, ?_, ?_⟩
  · apply UInt64.toNat_inj.1
    rw [hone, hkept.1.blockSize]
    rfl
  · rintro ⟨c, -, hleft, hright, -, hindex, -⟩
    rw [mergeIndex_eq, hleft, hright, Int.toNat_natCast, Int.toNat_natCast, hstored, hone] at hindex
    exact absurd hindex (by decide)

end LSMTree
end DBTest
