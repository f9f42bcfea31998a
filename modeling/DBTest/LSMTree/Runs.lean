import DBTest.LSMTree.Block

/-!
# Runs — sequences of puts on one tree

A run of puts on a new tree keeps the buffer inside its block (`run_keeps`, `run_safe_iff`).  It
follows the abstract store (`run_represents`), which gives the exact contents of the file in sorted
mode (`sorted_run_file`).
-/

namespace DBTest
namespace LSMTree

open KeyedMerge
open FallibleRun

/-! ## Calls of `put` on one tree -/

/-- One call of `put`, with the outcomes of the library calls it makes if it flushes. -/
structure PutCall where
  node : Node
  env : FlushEnv

def putStep (s : FS × Lsm) (c : PutCall) : Except Abort (FS × Lsm) := do
  let (fs, tree, _) ← put c.env c.node.key c.node.val s.1 s.2
  .ok (fs, tree)

def AllSucceed (calls : List PutCall) : Prop :=
  ∀ c ∈ calls, c.env.Succeeds

/-- The nodes put by a list of calls. -/
def nodesPut (calls : List PutCall) : List Node :=
  calls.map PutCall.node

/-- How many of `n` nodes put into an empty buffer have been flushed. -/
def flushedCount (blockSize n : Nat) : Nat :=
  (n - 1) / blockSize * blockSize

@[simp] theorem length_nodesPut (calls : List PutCall) :
    (nodesPut calls).length = calls.length := by
  simp [nodesPut]

theorem AllSucceed.of_concat {calls : List PutCall} {c : PutCall}
    (h : AllSucceed (calls ++ [c])) : AllSucceed calls :=
  fun d hd => h d (List.mem_append_left [c] hd)

theorem putStep_of_put {c : PutCall} {fs fs' : FS} {tree tree' : Lsm} {r : Int32}
    (h : put c.env c.node.key c.node.val fs tree = .ok (fs', tree', r)) :
    putStep (fs, tree) c = .ok (fs', tree') := by
  simp only [putStep, h, bind, Except.bind]

theorem put_of_putStep {c : PutCall} {s t : FS × Lsm} (h : putStep s c = .ok t) :
    ∃ r, put c.env c.node.key c.node.val s.1 s.2 = .ok (t.1, t.2, r) := by
  rcases exists_of_bind_eq h with ⟨⟨fs, tree, r⟩, hput, hok⟩
  cases hok
  exact ⟨r, hput⟩

theorem flushedCount_le (blockSize n : Nat) : flushedCount blockSize n ≤ n := by
  have h := Nat.div_mul_le_self (n - 1) blockSize
  unfold flushedCount
  omega

theorem flushedCount_mono (blockSize : Nat) {m n : Nat} (h : m ≤ n) :
    flushedCount blockSize m ≤ flushedCount blockSize n :=
  Nat.mul_le_mul_right _ (Nat.div_le_div_right (by omega))

/-- Calls that put the given key/value pairs, with no failing library call. -/
def quietCalls (kvs : List (KeyType × ValType)) : List PutCall :=
  kvs.map (fun kv => { node := { key := kv.1, val := kv.2 }, env := FlushEnv.quiet })

@[simp] theorem length_quietCalls (kvs : List (KeyType × ValType)) :
    (quietCalls kvs).length = kvs.length := by
  simp [quietCalls]

theorem quietCalls_succeed (kvs : List (KeyType × ValType)) : AllSucceed (quietCalls kvs) := by
  intro c hc
  rcases List.mem_map.1 hc with ⟨kv, -, rfl⟩
  exact FlushEnv.quiet_succeeds

/-! ## The tree `init_new_lsm` returns -/

/-- An empty buffer in a block of the size asked for, over the common file. -/
structure NewTree (bufferSize : UInt64) (sorted : Bool) (tree : Lsm) : Prop where
  blockSize : tree.blockSize = bufferSize
  nextEmpty : tree.nextEmpty = 0
  disk1 : tree.disk1 = disk1Name
  sorted : tree.sorted = sorted
  granted : tree.block.granted = (bufferSize * 8).toNat / 8
  stores : tree.block.stores = []

theorem newTree_of_init {treeMem : Bool} {blockMem : Option Heap} {bufferSize : UInt64}
    {sorted : Bool} {tree : Lsm} (h : initNewLsm treeMem blockMem bufferSize sorted = some tree) :
    NewTree bufferSize sorted tree := by
  cases treeMem with
  | false => simp [initNewLsm] at h
  | true =>
      cases blockMem with
      | none => simp [initNewLsm] at h
      | some heap =>
          simp only [initNewLsm, if_true, Option.some.injEq] at h
          subst h
          exact ⟨rfl, rfl, rfl, rfl, rfl, rfl⟩

theorem NewTree.buffered {bufferSize : UInt64} {sorted : Bool} {tree : Lsm}
    (h : NewTree bufferSize sorted tree) : tree.buffered = [] := by
  simp [Lsm.buffered, h.nextEmpty]

/-- A new tree is inside its block, if the block has the size asked for. -/
theorem NewTree.safe {bufferSize : UInt64} {sorted : Bool} {tree : Lsm}
    (h : NewTree bufferSize sorted tree) (hlt : bufferSize.toNat < 2 ^ 61) : BufferSafe tree := by
  refine ⟨?_, ?_, ?_⟩
  · rw [h.blockSize, h.granted]
    exact (le_granted_iff bufferSize).2 hlt
  · simp [h.nextEmpty]
  · simp [h.stores]

/-- The new tree when both `malloc`s succeed and the block happens to hold zeros. -/
def zeroTree (bufferSize : UInt64) (sorted : Bool) : Lsm :=
  { blockSize := bufferSize
    nodeSize := 8
    nextEmpty := 0
    block := NodeArr.alloc zeroHeap ((bufferSize * 8).toNat / 8)
    disk1 := disk1Name
    sorted := sorted }

theorem initNewLsm_zeroTree (bufferSize : UInt64) (sorted : Bool) :
    initNewLsm true (some zeroHeap) bufferSize sorted = some (zeroTree bufferSize sorted) := rfl

/-- A new tree over a well-formed file represents the opened store. -/
theorem init_represents {treeMem : Bool} {blockMem : Option Heap} {bufferSize : UInt64}
    {sorted : Bool} {tree : Lsm} (h : initNewLsm treeMem blockMem bufferSize sorted = some tree)
    (hpos : 0 < bufferSize.toNat) {fs : FS} {ns : List Node} (hfile : FileHolds fs disk1Name ns) :
    Represents fs tree (Store.opened bufferSize.toNat hpos sorted ns) := by
  have hnew := newTree_of_init h
  refine ⟨congrArg UInt64.toNat hnew.blockSize, hnew.sorted, hnew.buffered, ?_⟩
  rw [hnew.disk1]
  exact hfile

/-! ## Runs on one tree -/

/-- Whatever the library calls do, a run of puts on a new tree keeps the buffer inside its block and
writes no file but the tree's. -/
theorem run_keeps {treeMem : Bool} {blockMem : Option Heap} {bufferSize : UInt64} {sorted : Bool}
    {tree : Lsm} (hinit : initNewLsm treeMem blockMem bufferSize sorted = some tree)
    (hpos : 1 ≤ bufferSize.toNat) {fs fs' : FS} {tree' : Lsm} {calls : List PutCall}
    (hrun : run putStep (fs, tree) calls = .ok (fs', tree')) :
    SameTree fs tree fs' tree' ∧ tree'.nextEmpty.toNat ≤ tree'.blockSize.toNat := by
  have hnew := newTree_of_init hinit
  refine run_preserves putStep
    (P := fun _ (t : FS × Lsm) => SameTree fs tree t.1 t.2 ∧
      t.2.nextEmpty.toNat ≤ t.2.blockSize.toNat)
    ⟨SameTree.refl fs tree, by simp [hnew.nextEmpty]⟩ ?_ calls (fs', tree') hrun
  rintro _ c t u ⟨hsame, hfits⟩ hstep
  rcases put_of_putStep hstep with ⟨r, hput⟩
  have hpos' : 1 ≤ t.2.blockSize.toNat := by
    rw [hsame.blockSize, hnew.blockSize]
    exact hpos
  -- the block size never changes, so it stays positive
  rcases put_keeps hput hpos' hfits with ⟨hsame', hfits'⟩
  exact ⟨hsame.trans hsame', hfits'⟩

/-- A tree that is safe in the block of a new tree has a size that does not wrap. -/
theorem NewTree.lt_of_safe {bufferSize : UInt64} {sorted : Bool} {tree tree' : Lsm}
    (h : NewTree bufferSize sorted tree) (hsize : tree'.blockSize = tree.blockSize)
    (hgranted : tree'.block.granted = tree.block.granted) (hsafe : BufferSafe tree') :
    bufferSize.toNat < 2 ^ 61 := by
  have hroom := hsafe.granted
  rwa [hsize, hgranted, h.blockSize, h.granted, le_granted_iff] at hroom

/-- Puts keep a buffer of at least one node safe, whatever the library calls do. -/
theorem BufferSafe.puts {fs fs' : FS} {tree tree' : Lsm} (h : BufferSafe tree)
    (hpos : 1 ≤ tree.blockSize.toNat) {calls : List PutCall}
    (hrun : run putStep (fs, tree) calls = .ok (fs', tree')) : BufferSafe tree' := by
  have hkept := run_preserves putStep
    (P := fun _ (t : FS × Lsm) => BufferSafe t.2 ∧ t.2.blockSize = tree.blockSize)
    (s := (fs, tree)) ⟨h, rfl⟩ ?_ calls (fs', tree') hrun
  · exact hkept.1
  · rintro _ c t u ⟨hsafe, hsize⟩ hstep
    rcases put_of_putStep hstep with ⟨r, hput⟩
    refine ⟨hsafe.put ?_ hput, (put_blockSize hput).trans hsize⟩
    rw [hsize]
    exact hpos

/-- The block stays where it is. -/
theorem run_block {fs fs' : FS} {tree tree' : Lsm} {calls : List PutCall}
    (hrun : run putStep (fs, tree) calls = .ok (fs', tree')) :
    tree'.blockSize = tree.blockSize ∧ tree'.block.granted = tree.block.granted := by
  refine run_preserves putStep
    (P := fun _ (t : FS × Lsm) =>
      t.2.blockSize = tree.blockSize ∧ t.2.block.granted = tree.block.granted)
    (s := (fs, tree)) ⟨rfl, rfl⟩ ?_ calls (fs', tree') hrun
  rintro _ c t u ⟨hsize, hgranted⟩ hstep
  rcases put_of_putStep hstep with ⟨r, hput⟩
  exact ⟨(put_blockSize hput).trans hsize, (put_granted hput).trans hgranted⟩

/-- Whatever the library calls do, a run of puts on a new tree stays inside the block exactly when the
size of the block in bytes does not wrap. -/
theorem run_safe_iff {treeMem : Bool} {blockMem : Option Heap} {bufferSize : UInt64} {sorted : Bool}
    {tree : Lsm} (hinit : initNewLsm treeMem blockMem bufferSize sorted = some tree)
    (hpos : 1 ≤ bufferSize.toNat) {fs fs' : FS} {tree' : Lsm} {calls : List PutCall}
    (hrun : run putStep (fs, tree) calls = .ok (fs', tree')) :
    BufferSafe tree' ↔ bufferSize.toNat < 2 ^ 61 := by
  have hnew := newTree_of_init hinit
  rcases run_block hrun with ⟨hsize, hgranted⟩
  constructor
  · exact hnew.lt_of_safe hsize hgranted
  · intro hlt
    refine (hnew.safe hlt).puts ?_ hrun
    rw [hnew.blockSize]
    exact hpos

/-- With succeeding library calls every run of puts returns, and a well-formed file stays well
formed, whatever the counts are. -/
theorem run_returns {treeMem : Bool} {blockMem : Option Heap} {bufferSize : UInt64} {sorted : Bool}
    {tree : Lsm} (hinit : initNewLsm treeMem blockMem bufferSize sorted = some tree)
    (hpos : 1 ≤ bufferSize.toNat) (fs : FS) {calls : List PutCall} (hok : AllSucceed calls) :
    ∃ fs' tree', run putStep (fs, tree) calls = .ok (fs', tree') ∧
      ((∃ ns, FileHolds fs disk1Name ns) → ∃ ns, FileHolds fs' disk1Name ns) := by
  have hname := (newTree_of_init hinit).disk1
  have hrun := run_total putStep (Q := AllSucceed)
    (P := fun cs (t : FS × Lsm) => run putStep (fs, tree) cs = .ok t ∧
      ((∃ ns, FileHolds fs disk1Name ns) → ∃ ns, FileHolds t.1 disk1Name ns))
    (s := (fs, tree)) (fun _ _ h => h.of_concat) ⟨rfl, fun h => h⟩ ?_ calls hok
  · rcases hrun with ⟨⟨fs', tree'⟩, hrun, -, hfile⟩
    exact ⟨fs', tree', hrun, hfile⟩
  · rintro cs c ⟨fs₁, tree₁⟩ hQ ⟨hrun₁, hfile⟩
    rcases put_returns (hQ c (by simp)) c.node fs₁ tree₁ with ⟨fs₂, tree₂, hput, hfile'⟩
    rw [(run_keeps hinit hpos hrun₁).1.disk1, hname] at hfile'
    refine ⟨(fs₂, tree₂), putStep_of_put hput, ?_, fun h => hfile' (hfile h)⟩
    rw [run_concat_of_ok putStep hrun₁, putStep_of_put hput]

/-- As long as the block has room, puts only append and no library call is made. -/
theorem run_unflushed {treeMem : Bool} {blockMem : Option Heap} {bufferSize : UInt64}
    {sorted : Bool} {tree : Lsm}
    (hinit : initNewLsm treeMem blockMem bufferSize sorted = some tree) (fs : FS)
    {calls : List PutCall} (hle : calls.length ≤ bufferSize.toNat) :
    ∃ tree', run putStep (fs, tree) calls = .ok (fs, tree') ∧
      tree'.buffered = nodesPut calls ∧ tree'.nextEmpty.toNat = calls.length ∧
      tree'.blockSize = bufferSize ∧ tree'.disk1 = disk1Name := by
  have hnext : ∀ {cs : List PutCall} {t : Lsm}, t.buffered = nodesPut cs →
      t.nextEmpty.toNat = cs.length := by
    intro cs t h
    simpa using congrArg List.length h
  have hnew := newTree_of_init hinit
  have hrun := run_total putStep (Q := fun cs => cs.length ≤ bufferSize.toNat)
    (P := fun cs (t : FS × Lsm) => t.1 = fs ∧ t.2.buffered = nodesPut cs ∧
      t.2.blockSize = bufferSize ∧ t.2.disk1 = disk1Name)
    (s := (fs, tree)) ?_ ⟨rfl, hnew.buffered, hnew.blockSize, hnew.disk1⟩ ?_ calls hle
  · rcases hrun with ⟨⟨fs', tree'⟩, hrun, rfl, hbuffered, hkept⟩
    exact ⟨tree', hrun, hbuffered, hnext hbuffered, hkept⟩
  · intro cs c hQ
    rw [List.length_append] at hQ
    omega
  · rintro cs c ⟨fs₁, tree₁⟩ hQ ⟨rfl, hbuffered, hsize, hname⟩
    have hlen : tree₁.nextEmpty.toNat = cs.length := hnext hbuffered
    have hcap := bufferSize.toNat_lt
    rw [List.length_append, List.length_singleton] at hQ
    -- fewer nodes than the block has room for, so the test for a full buffer fails
    have hne : tree₁.nextEmpty ≠ tree₁.blockSize := by
      intro heq
      rw [heq, hsize] at hlen
      omega
    refine ⟨(fs₁, tree₁.push c.node), putStep_of_put (put_of_not_full hne c.env c.node fs₁), rfl, ?_,
      hsize, hname⟩
    rw [buffered_push (by omega), hbuffered]
    simp [nodesPut]

/-- A run of puts returns and follows the abstract store, as long as no flush counts past
`INT_MAX`. -/
theorem run_represents {fs : FS} {tree : Lsm} {s : Store Node} (h : Represents fs tree s)
    {calls : List PutCall} (hok : AllSucceed calls)
    (hcount : s.disk.length + flushedCount s.cap (s.buffer.length + calls.length) ≤ intMax) :
    ∃ fs' tree', run putStep (fs, tree) calls = .ok (fs', tree') ∧
      Represents fs' tree' (s.puts Node.key (nodesPut calls)) ∧ SameTree fs tree fs' tree' := by
  have hrun := run_total putStep
    (Q := fun cs => AllSucceed cs ∧
      s.disk.length + flushedCount s.cap (s.buffer.length + cs.length) ≤ intMax)
    (P := fun cs (t : FS × Lsm) =>
      Represents t.1 t.2 (s.puts Node.key (nodesPut cs)) ∧ SameTree fs tree t.1 t.2)
    (s := (fs, tree)) ?_ ⟨h, SameTree.refl fs tree⟩ ?_ calls ⟨hok, hcount⟩
  · rcases hrun with ⟨⟨fs', tree'⟩, hrun, hrep, hsame⟩
    exact ⟨fs', tree', hrun, hrep, hsame⟩
  · -- a shorter run flushes less
    intro cs c hQ
    refine ⟨hQ.1.of_concat, Nat.le_trans ?_ hQ.2⟩
    exact Nat.add_le_add_left (flushedCount_mono _ (by simp)) _
  · intro cs c t hQ hP
    have henv : c.env.Succeeds := hQ.1 c (by simp)
    -- when the buffer is full, everything put so far is about to be on disk
    have hbound : (s.puts Node.key (nodesPut cs)).buffer.length =
          (s.puts Node.key (nodesPut cs)).cap →
        (s.puts Node.key (nodesPut cs)).disk.length +
          (s.puts Node.key (nodesPut cs)).buffer.length ≤ intMax := by
      intro hfull
      rw [Store.puts_cap] at hfull
      have hlen := (Store.puts_perm Node.key s (nodesPut cs)).length_eq
      have hall := Store.flushed_all_of_full Node.key hfull
      have hbnd := hQ.2
      simp only [List.length_append, nodesPut, List.length_map] at hlen hall
      simp only [flushedCount, List.length_append, List.length_singleton, ← Nat.add_assoc,
        Nat.add_sub_cancel, hall] at hbnd
      simp only [nodesPut]
      omega
    rcases put_represents henv hP.1 c.node hbound with ⟨fs', tree', hput, hrep, hsame⟩
    refine ⟨(fs', tree'), putStep_of_put hput, ?_, hP.2.trans hsame⟩
    have hconcat : nodesPut (cs ++ [c]) = nodesPut cs ++ [c.node] := by simp [nodesPut]
    rw [hconcat, Store.puts_concat]
    exact hrep

/-- A run of puts on a new tree over a well-formed file reaches a state that represents a store; its
run on disk ascends exactly when the file did and the blocks are sorted or ascend by themselves. -/
theorem run_from_file {treeMem : Bool} {blockMem : Option Heap} {bufferSize : UInt64}
    {sorted : Bool} {tree : Lsm}
    (hinit : initNewLsm treeMem blockMem bufferSize sorted = some tree)
    (hpos : 1 ≤ bufferSize.toNat) {fs fs' : FS} {tree' : Lsm} {ns : List Node}
    (hfile : FileHolds fs disk1Name ns) {calls : List PutCall} (hok : AllSucceed calls)
    (hrun : run putStep (fs, tree) calls = .ok (fs', tree'))
    (hcount : ns.length + calls.length ≤ intMax) :
    ∃ s : Store Node, Represents fs' tree' s ∧ s.sorted = sorted ∧
      (Ascending Node.key s.disk ↔ Ascending Node.key ns ∧ (sorted = false →
        ∀ b ∈ Store.blocks bufferSize.toNat (nodesPut calls), Ascending Node.key b)) ∧
      s.disk.length + s.buffer.length = ns.length + calls.length := by
  have hrep := init_represents hinit hpos hfile
  have hbound : ns.length + flushedCount bufferSize.toNat (0 + calls.length) ≤ intMax := by
    have hle := flushedCount_le bufferSize.toNat (0 + calls.length)
    omega
  rcases run_represents hrep hok hbound with ⟨fs'', tree'', hrun', hrep', -⟩
  rw [hrun] at hrun'
  cases hrun'
  refine ⟨_, hrep', Store.puts_sorted Node.key _ _, ?_, ?_⟩
  · rw [Store.puts_disk Node.key rfl]
    exact Store.foldl_flushInto_ascending_iff Node.key sorted ns _
  · have hlen := (Store.puts_perm Node.key (Store.opened bufferSize.toNat hpos sorted ns)
      (nodesPut calls)).length_eq
    simpa [Store.opened] using hlen

/-- In sorted mode, starting without a file, the file holds the stable sort of the reverse of the
puts flushed so far, wherever the flushes fell: keys ascend, and the newest flushed node of a key is
the first one a scan meets. -/
theorem sorted_run_file {treeMem : Bool} {blockMem : Option Heap} {bufferSize : UInt64}
    {tree : Lsm} (hinit : initNewLsm treeMem blockMem bufferSize true = some tree)
    (hpos : 1 ≤ bufferSize.toNat) {fs : FS} (hfs : fs disk1Name = none) {calls : List PutCall}
    (hok : AllSucceed calls) (hcount : flushedCount bufferSize.toNat calls.length ≤ intMax) :
    ∃ fs' tree', run putStep (fs, tree) calls = .ok (fs', tree') ∧
      ∃ flushed, nodesPut calls = flushed ++ tree'.buffered ∧
        flushed.length = flushedCount bufferSize.toNat calls.length ∧
        storedNodes fs' disk1Name = stableSort Node.key flushed.reverse ∧
        (flushed ≠ [] →
          fs' disk1Name = some (fileBytes (stableSort Node.key flushed.reverse))) ∧
        Ascending Node.key (storedNodes fs' disk1Name) ∧
        ∀ k, firstMatch Node.key k (storedNodes fs' disk1Name) =
          lastMatch Node.key k flushed := by
  have hrep := init_represents hinit hpos (Or.inl ⟨hfs, rfl⟩ : FileHolds fs disk1Name [])
  rcases run_represents hrep hok (by simpa [Store.opened] using hcount) with
    ⟨fs', tree', hrun, hrep', hsame⟩
  have hname : tree'.disk1 = disk1Name := hsame.disk1.trans (newTree_of_init hinit).disk1
  refine ⟨fs', tree', hrun,
    (nodesPut calls).take (flushedCount bufferSize.toNat calls.length), ?_⟩
  -- the run on disk is the fold of the flushed blocks, each sorted in reverse
  have hdisk : ((Store.opened bufferSize.toNat hpos true []).puts Node.key (nodesPut calls)).disk =
      stableSort Node.key
        ((nodesPut calls).take (flushedCount bufferSize.toNat calls.length)).reverse := by
    have hfold := Store.foldl_flushInto_sorted Node.key []
      (Store.blocks bufferSize.toNat (nodesPut calls))
    have hflat := Store.flatten_blocks bufferSize.toNat (nodesPut calls)
    rw [Store.puts_disk Node.key rfl]
    simp only [Store.opened]
    rw [hflat] at hfold
    simpa [stableSort, nodesPut, flushedCount] using hfold
  have hbuffer : tree'.buffered =
      (nodesPut calls).drop (flushedCount bufferSize.toNat calls.length) := by
    rw [hrep'.buffer, Store.puts_buffer Node.key rfl]
    simp [nodesPut, flushedCount, Store.opened]
  have hfile := hrep'.file
  rw [hname, hdisk] at hfile
  have hstored := hfile.storedNodes_eq
  refine ⟨?_, ?_, hstored, ?_, ?_, ?_⟩
  · rw [hbuffer, List.take_append_drop]
  · have hle := flushedCount_le bufferSize.toNat calls.length
    simpa [nodesPut] using hle
  · intro hne
    rcases hfile with ⟨-, hnil⟩ | ⟨hsome, -⟩
    · exfalso
      apply hne
      have hperm := stableSort_perm Node.key
        ((nodesPut calls).take (flushedCount bufferSize.toNat calls.length)).reverse
      rw [hnil] at hperm
      exact List.reverse_eq_nil_iff.1 hperm.nil_eq.symm
    · exact hsome
  · rw [hstored]
    exact stableSort_ascending Node.key _
  · intro k
    rw [hstored, firstMatch_stableSort, lastMatch]

/-- Five puts with block size two: two flushes have happened, and key `1` was put three times. -/
theorem sorted_run_file_five_puts :
    ∃ fs' tree',
      run putStep (noFiles, zeroTree 2 true)
          (quietCalls [(2, 1), (1, 5), (1, 6), (3, 7), (1, 9)]) = .ok (fs', tree') ∧
        ∃ flushed, nodesPut (quietCalls [(2, 1), (1, 5), (1, 6), (3, 7), (1, 9)]) =
            flushed ++ tree'.buffered ∧
          flushed.length = 4 ∧
          storedNodes fs' disk1Name = stableSort Node.key flushed.reverse := by
  have h := sorted_run_file (initNewLsm_zeroTree 2 true) (by decide)
    (rfl : noFiles disk1Name = none)
    (quietCalls_succeed [(2, 1), (1, 5), (1, 6), (3, 7), (1, 9)]) (by decide)
  rcases h with ⟨fs', tree', hrun, flushed, hsplit, hlen, hstored, -⟩
  exact ⟨fs', tree', hrun, flushed, hsplit, hlen, hstored⟩

end LSMTree
end DBTest
