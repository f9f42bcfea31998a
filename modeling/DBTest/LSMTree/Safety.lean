import DBTest.LSMTree.Delete
import DBTest.LSMTree.Lookup

/-!
# Safety — the buffer stays inside its block

The test for a full buffer is an equality that is checked before the append, and the block is
allocated with a product that wraps.  `buffer_safe_iff` says for which sizes this is enough: for any
sequence of calls, with library calls that may fail in any way, the buffer is safe exactly when the
size is at least one and its bytes do not wrap.
-/

namespace DBTest
namespace LSMTree

open KeyedMerge
open FallibleRun

/-! ## Calls -/

/-- A call of one of the four operations, with the outcomes of the library calls it makes. -/
inductive Call
  | put (env : FlushEnv) (key : KeyType) (val : ValType)
  | update (denv : DeleteEnv) (penv : FlushEnv) (key : KeyType) (val : ValType)
  | get (env : ReadEnv) (key : KeyType)
  | delete (env : DeleteEnv) (key : KeyType)

def Call.step (s : FS × Lsm) : Call → Except Abort (FS × Lsm)
  | .put env key val => do
      let (fs, tree, _) ← LSMTree.put env key val s.1 s.2
      .ok (fs, tree)
  | .update denv penv key val => do
      let (fs, tree, _) ← LSMTree.update denv penv key val s.1 s.2
      .ok (fs, tree)
  | .get env key => do
      let _ ← LSMTree.get env key s.1 s.2
      .ok s
  | .delete env key => do
      let (fs, tree, _) ← LSMTree.delete env key s.1 s.2
      .ok (fs, tree)

/-- After every sequence of calls that return the buffer is safe, and `next_empty` does not wrap
below zero in a `delete`. -/
def CallsSafe (fs : FS) (tree : Lsm) : Prop :=
  ∀ calls fs' tree', run Call.step (fs, tree) calls = .ok (fs', tree') →
    BufferSafe tree' ∧
      ∀ env k fs'' tree'' r, delete env k fs' tree' = .ok (fs'', tree'', r) →
        tree''.nextEmpty ≤ tree'.nextEmpty

/-! ## What each call does to the tree -/

/-- A buffer search finds an index in use. -/
theorem searchBuffer_index_lt {k : KeyType} {tree : Lsm} {ni : NodeI}
    (h : searchBuffer k tree = .ok (some ni)) : ni.index < tree.nextEmpty.toNat := by
  have hlen : tree.buffered.length = tree.nextEmpty.toNat := length_buffered tree
  rw [searchBuffer_eq] at h
  cases hfirst : firstNodeI k (tree.buffered.take (intMax + 1)) 0 with
  | none =>
      simp only [searchList, hfirst] at h
      by_cases hle : tree.buffered.length ≤ intMax
      · rw [if_pos hle] at h
        cases h
      · rw [if_neg hle] at h
        cases h
  | some mi =>
      simp only [searchList, hfirst] at h
      cases h
      rcases index_of_firstNodeI hfirst with ⟨hindex, hlt⟩
      rw [List.length_take] at hlt
      omega

theorem update_eq_ok {denv : DeleteEnv} {penv : FlushEnv} {k : KeyType} {v : ValType}
    {fs fs' : FS} {tree tree' : Lsm} {r : Int32}
    (h : update denv penv k v fs tree = .ok (fs', tree', r)) :
    ∃ i, i < tree.nextEmpty.toNat ∧ fs' = fs ∧ tree' = tree.setNode i { key := k, val := v } := by
  rcases exists_of_bind_eq h with ⟨found, hsearch, hrest⟩
  -- the `printf` reads through the result of the search
  rcases exists_of_bind_eq hrest with ⟨index, hindex, hfound⟩
  cases found with
  | none => cases hindex
  | some ni =>
      cases hfound
      exact ⟨ni.index, searchBuffer_index_lt hsearch, rfl, rfl⟩

theorem delete_eq_ok {env : DeleteEnv} {k : KeyType} {fs fs' : FS} {tree tree' : Lsm} {r : Int32}
    (h : delete env k fs tree = .ok (fs', tree', r)) :
    (∃ i, i < tree.nextEmpty.toNat ∧ fs' = fs ∧ tree' = deleteBuffered tree i) ∨
      ((∃ i, deleteStored env fs tree i = .ok fs') ∧ tree' = tree) := by
  rcases exists_of_bind_eq h with ⟨found, hsearch, hrest⟩
  cases found with
  | some ni =>
      cases hrest
      exact Or.inl ⟨ni.index, searchBuffer_index_lt hsearch, rfl, rfl⟩
  | none =>
      -- only the file changes in this branch
      rcases exists_of_bind_eq hrest with ⟨stored, -, hstored⟩
      cases stored with
      | none => cases hstored
      | some ni =>
          rcases exists_of_bind_eq hstored with ⟨fs₁, hfile, hok⟩
          cases hok
          exact Or.inr ⟨⟨ni.index, hfile⟩, rfl⟩

/-! ## Every call keeps the buffer safe -/

theorem nextEmpty_le_of_delete {env : DeleteEnv} {k : KeyType} {fs fs' : FS} {tree tree' : Lsm}
    {r : Int32} (h : delete env k fs tree = .ok (fs', tree', r)) :
    tree'.nextEmpty ≤ tree.nextEmpty := by
  rcases delete_eq_ok h with ⟨i, hi, -, rfl⟩ | ⟨-, rfl⟩
  · rw [UInt64.le_iff_toNat_le, nextEmpty_deleteBuffered hi]
    exact Nat.sub_le _ _
  · exact UInt64.le_refl _

/-- One call keeps a buffer of at least one node safe. -/
theorem BufferSafe.step {s t : FS × Lsm} (h : BufferSafe s.2) (hpos : 1 ≤ s.2.blockSize.toNat)
    {c : Call} (hstep : Call.step s c = .ok t) :
    BufferSafe t.2 ∧ t.2.blockSize = s.2.blockSize := by
  cases c with
  | put env k v =>
      rcases exists_of_bind_eq hstep with ⟨⟨fs, tree, r⟩, hput, hok⟩
      cases hok
      exact ⟨h.put hpos hput, put_blockSize (n := { key := k, val := v }) hput⟩
  | update denv penv k v =>
      rcases exists_of_bind_eq hstep with ⟨⟨fs, tree, r⟩, hupdate, hok⟩
      cases hok
      rcases update_eq_ok hupdate with ⟨i, hi, -, rfl⟩
      exact ⟨h.setNode hi _, rfl⟩
  | get env k =>
      rcases exists_of_bind_eq hstep with ⟨found, -, hok⟩
      cases hok
      exact ⟨h, rfl⟩
  | delete env k =>
      rcases exists_of_bind_eq hstep with ⟨⟨fs, tree, r⟩, hdelete, hok⟩
      cases hok
      rcases delete_eq_ok hdelete with ⟨i, hi, -, rfl⟩ | ⟨-, rfl⟩
      · exact ⟨h.deleteBuffered hi, rfl⟩
      · exact ⟨h, rfl⟩

/-- Whatever the calls are, they keep a buffer of at least one node safe. -/
theorem BufferSafe.run {fs fs' : FS} {tree tree' : Lsm} (h : BufferSafe tree)
    (hpos : 1 ≤ tree.blockSize.toNat) {calls : List Call}
    (hrun : run Call.step (fs, tree) calls = .ok (fs', tree')) : BufferSafe tree' := by
  have hkept := run_preserves Call.step
    (P := fun _ (t : FS × Lsm) => BufferSafe t.2 ∧ t.2.blockSize = tree.blockSize)
    (s := (fs, tree)) ⟨h, rfl⟩ ?_ calls (fs', tree') hrun
  · exact hkept.1
  · rintro _ c t u ⟨hsafe, hsize⟩ hstep
    have hpos' : 1 ≤ t.2.blockSize.toNat := by
      rw [hsize]
      exact hpos
    rcases hsafe.step hpos' hstep with ⟨hsafe', hsize'⟩
    exact ⟨hsafe', hsize'.trans hsize⟩

/-! ## The sizes for which the buffer is safe -/

theorem run_one_put {env : FlushEnv} {k : KeyType} {v : ValType} {fs fs' : FS} {tree tree' : Lsm}
    {r : Int32} (h : put env k v fs tree = .ok (fs', tree', r)) :
    run Call.step (fs, tree) [Call.put env k v] = .ok (fs', tree') := by
  simp only [run, List.foldlM_cons, List.foldlM_nil, Call.step, h, bind, Except.bind, pure,
    Except.pure]

/-- With room for no node at all, the first put stores behind the block. -/
theorem put_unsafe_of_size_zero (fs : FS) {tree : Lsm} (hsize : tree.blockSize = 0)
    (hnext : tree.nextEmpty = 0) :
    ∃ fs' tree', put FlushEnv.quiet 0 0 fs tree = .ok (fs', tree', 0) ∧ ¬ BufferSafe tree' := by
  rcases put_returns FlushEnv.quiet_succeeds { key := 0, val := 0 } fs tree with
    ⟨fs', tree', hput, -⟩
  refine ⟨fs', tree', hput, ?_⟩
  intro hsafe
  have hle := hsafe.nextEmpty
  rcases put_eq_ok hput with ⟨hne, -, -⟩ | ⟨-, -, rfl⟩
  · exact hne (hnext.trans hsize.symm)
  · have hroom : (flushedTree FlushEnv.quiet tree).nextEmpty.toNat + 1 < 2 ^ 64 := by
      simp [flushedTree]
    rw [nextEmpty_push hroom] at hle
    simp [Lsm.push, flushedTree, hsize] at hle

/-- For every sequence of calls the buffer stays inside its block exactly when the block has room for
a node and its size in bytes does not wrap. -/
theorem buffer_safe_iff {treeMem : Bool} {blockMem : Option Heap} {bufferSize : UInt64}
    {sorted : Bool} {tree : Lsm}
    (hinit : initNewLsm treeMem blockMem bufferSize sorted = some tree) (fs : FS) :
    CallsSafe fs tree ↔ 1 ≤ bufferSize.toNat ∧ bufferSize.toNat < 2 ^ 61 := by
  have hnew := newTree_of_init hinit
  constructor
  · intro hsafe
    -- no call at all: the block must hold `block_size` nodes
    refine ⟨?_, hnew.lt_of_safe rfl rfl (hsafe [] fs tree rfl).1⟩
    -- one put is enough to leave a block without room
    by_contra hnone
    have hzero : tree.blockSize = 0 := by
      apply UInt64.toNat_inj.1
      simpa [hnew.blockSize] using hnone
    rcases put_unsafe_of_size_zero fs hzero hnew.nextEmpty with ⟨fs', tree', hput, hunsafe⟩
    exact hunsafe (hsafe _ _ _ (run_one_put hput)).1
  · rintro ⟨hpos, hlt⟩ calls fs' tree' hrun
    have hone : 1 ≤ tree.blockSize.toNat := by
      rw [hnew.blockSize]
      exact hpos
    exact ⟨(hnew.safe hlt).run hone hrun, fun _ _ _ _ _ hdelete => nextEmpty_le_of_delete hdelete⟩

/-- A block of two nodes. -/
theorem buffer_safe_two_nodes : CallsSafe noFiles (zeroTree 2 true) :=
  (buffer_safe_iff (initNewLsm_zeroTree 2 true) noFiles).2 (by decide)

/-- A block of size zero: the put stores at index `0`, behind the block, and `next_empty` becomes
`1`. -/
theorem buffer_overflow_size_zero :
    ∃ fs' tree',
      run Call.step (noFiles, zeroTree 0 false) [Call.put FlushEnv.quiet 1 10] =
        .ok (fs', tree') ∧
      tree'.blockSize = 0 ∧ tree'.block.granted = 0 ∧ tree'.nextEmpty = 1 ∧
      tree'.block.stores = [0] ∧ ¬ CallsSafe noFiles (zeroTree 0 false) := by
  rcases writeToDisk_succeeds FlushEnv.quiet_succeeds noFiles (zeroTree 0 false) with
    ⟨ns, -, hw⟩
  have hrun := run_one_put (put_of_full rfl hw { key := 1, val := 10 })
  refine ⟨_, _, hrun, rfl, rfl, rfl, rfl, ?_⟩
  intro hsafe
  exact absurd (hsafe _ _ _ hrun).1.nextEmpty (by decide)

end LSMTree
end DBTest
