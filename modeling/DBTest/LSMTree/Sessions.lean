import Mathlib.Algebra.GroupWithZero.Nat
import DBTest.LSMTree.Runs

/-!
# Sessions — trees that use the same file one after the other

A session creates a tree, puts nodes and destroys the tree; what is still buffered then is lost, and
the file stays.  `Session.fileAfter` says what a session does to the list of stored nodes, and
`sessions_file` that a sequence of sessions does this one after the other.

A tree in sorted mode sorts its own block and merges it into the file as if the file were sorted
already.  Whether the file ascends after such a flush is therefore decided by what the unsorted
sessions before it have flushed (`sorted_flush_ascending_iff`).
-/

namespace DBTest
namespace LSMTree

open KeyedMerge
open FallibleRun

/-! ## One session -/

/-- A session whose `malloc`s and file operations succeed. -/
structure Session where
  /-- Memory behind the block of the tree. -/
  heap : Heap
  bufferSize : UInt64
  bufferSize_pos : 1 ≤ bufferSize.toNat
  sorted : Bool
  calls : List PutCall
  calls_succeed : AllSucceed calls

def runSession (fs : FS) (s : Session) : Except Abort FS :=
  match initNewLsm true (some s.heap) s.bufferSize s.sorted with
  | none => .ok fs
  | some tree => do
      let (fs, _) ← run putStep (fs, tree) s.calls
      -- `destruct_lsm` frees the tree together with its buffer
      .ok fs

namespace Session

/-- The blocks the session flushes, in the order of the puts. -/
def blocks (s : Session) : List (List Node) :=
  Store.blocks s.bufferSize.toNat (nodesPut s.calls)

/-- The number of nodes the session flushes. -/
def flushed (s : Session) : Nat :=
  flushedCount s.bufferSize.toNat s.calls.length

/-- The list of stored nodes after the session. -/
def fileAfter (ns : List Node) (s : Session) : List Node :=
  s.blocks.foldl (Store.flushInto Node.key s.sorted) ns

/-- The store the session opens over the stored nodes `ns`. -/
def store (s : Session) (ns : List Node) : Store Node :=
  Store.opened s.bufferSize.toNat s.bufferSize_pos s.sorted ns

theorem fileAfter_eq (s : Session) (ns : List Node) :
    fileAfter ns s = ((s.store ns).puts Node.key (nodesPut s.calls)).disk := by
  rw [Store.puts_disk Node.key rfl]
  rfl

theorem length_fileAfter (s : Session) (ns : List Node) :
    (fileAfter ns s).length = ns.length + s.flushed := by
  have hperm := (Store.puts_perm Node.key (s.store ns) (nodesPut s.calls)).length_eq
  -- what has been put and is no longer buffered is in the file
  have hbuffer : ((s.store ns).puts Node.key (nodesPut s.calls)).buffer.length =
      s.calls.length - s.flushed := by
    rw [Store.puts_buffer Node.key rfl, List.length_drop, length_nodesPut]
    rfl
  have hstart : (s.store ns).disk = ns ∧ (s.store ns).buffer = [] := ⟨rfl, rfl⟩
  have hle : s.flushed ≤ s.calls.length := flushedCount_le _ _
  simp only [List.length_append, hbuffer, ← fileAfter_eq, hstart, List.length_nil,
    length_nodesPut] at hperm
  omega

/-- A session that starts from an ascending file leaves one exactly when it sorts or every block it
flushes ascends. -/
theorem fileAfter_ascending_iff (s : Session) (ns : List Node) :
    Ascending Node.key (fileAfter ns s) ↔
      Ascending Node.key ns ∧ (s.sorted = false → ∀ b ∈ s.blocks, Ascending Node.key b) :=
  Store.foldl_flushInto_ascending_iff Node.key s.sorted ns s.blocks

end Session

/-- A session returns and does to the file what `fileAfter` says. -/
theorem runSession_file (s : Session) {fs : FS} {ns : List Node}
    (hfile : FileHolds fs disk1Name ns) (hcount : ns.length + s.flushed ≤ intMax) :
    ∃ fs', runSession fs s = .ok fs' ∧ FileHolds fs' disk1Name (Session.fileAfter ns s) := by
  cases hinit : initNewLsm true (some s.heap) s.bufferSize s.sorted with
  | none => simp [initNewLsm] at hinit
  | some tree =>
      have hrep := init_represents hinit s.bufferSize_pos hfile
      have hbound : ns.length + flushedCount s.bufferSize.toNat (0 + s.calls.length) ≤ intMax := by
        rw [Nat.zero_add]
        exact hcount
      rcases run_represents hrep s.calls_succeed hbound with ⟨fs', tree', hrun, hrep', hsame⟩
      refine ⟨fs', ?_, ?_⟩
      · simp only [runSession, hinit, hrun, bind, Except.bind]
      · have hname : tree'.disk1 = disk1Name := hsame.disk1.trans (newTree_of_init hinit).disk1
        have hholds := hrep'.file
        rw [hname] at hholds
        rw [Session.fileAfter_eq]
        exact hholds

/-! ## Sequences of sessions -/

/-- The number of nodes a sequence of sessions flushes. -/
def flushedBySessions (ss : List Session) : Nat :=
  (ss.map Session.flushed).sum

theorem length_foldl_fileAfter (ss : List Session) (ns : List Node) :
    (ss.foldl Session.fileAfter ns).length = ns.length + flushedBySessions ss := by
  induction ss generalizing ns with
  | nil => rfl
  | cons s ss ih =>
      rw [List.foldl_cons, ih, Session.length_fileAfter]
      simp [flushedBySessions, Nat.add_assoc]

theorem foldl_fileAfter_ascending_iff (ss : List Session) (ns : List Node) :
    Ascending Node.key (ss.foldl Session.fileAfter ns) ↔
      Ascending Node.key ns ∧
        ∀ s ∈ ss, s.sorted = false → ∀ b ∈ s.blocks, Ascending Node.key b := by
  induction ss generalizing ns with
  | nil => simp
  | cons s ss ih =>
      rw [List.foldl_cons, ih, Session.fileAfter_ascending_iff, and_assoc]
      simp only [List.forall_mem_cons]

/-- Every sequence of sessions returns, and the file holds what the sessions have flushed into it
one after the other. -/
theorem sessions_file {fs : FS} {ns : List Node} (hfile : FileHolds fs disk1Name ns)
    {ss : List Session} (hcount : ns.length + flushedBySessions ss ≤ intMax) :
    ∃ fs', run runSession fs ss = .ok fs' ∧
      FileHolds fs' disk1Name (ss.foldl Session.fileAfter ns) := by
  refine run_total runSession (Q := fun ss => ns.length + flushedBySessions ss ≤ intMax)
    (P := fun ss fs' => FileHolds fs' disk1Name (ss.foldl Session.fileAfter ns))
    (s := fs) ?_ hfile ?_ ss hcount
  · intro ss s hQ
    simp only [flushedBySessions, List.map_append, List.sum_append] at hQ ⊢
    omega
  · intro ss s fs' hQ hP
    have hlen := length_foldl_fileAfter ss ns
    have hbound : (ss.foldl Session.fileAfter ns).length + s.flushed ≤ intMax := by
      simp only [flushedBySessions, List.map_append, List.map_singleton, List.sum_append,
        List.sum_singleton] at hQ hlen
      omega
    -- the next session starts from the file the others have left
    rcases runSession_file s hP hbound with ⟨fs'', hrun, hfile'⟩
    refine ⟨fs'', hrun, ?_⟩
    rw [List.foldl_append]
    exact hfile'

/-! ## The sorted flag -/

/-- A flush by a tree in sorted mode leaves an ascending file exactly when the file ascended at the
beginning and every block that an unsorted session has flushed since was ascending. -/
theorem sorted_flush_ascending_iff {fs fs₁ fs₂ : FS} {ns : List Node}
    (hfile : FileHolds fs disk1Name ns) {ss : List Session} (hss : run runSession fs ss = .ok fs₁)
    {treeMem : Bool} {blockMem : Option Heap} {bufferSize : UInt64} {tree tree₂ : Lsm}
    (hinit : initNewLsm treeMem blockMem bufferSize true = some tree)
    (hpos : 1 ≤ bufferSize.toNat) {calls : List PutCall} (hok : AllSucceed calls)
    (hrun : run putStep (fs₁, tree) calls = .ok (fs₂, tree₂))
    (hfull : tree₂.nextEmpty = tree₂.blockSize) {env : FlushEnv} (henv : env.Succeeds)
    (hcount : ns.length + flushedBySessions ss + calls.length ≤ intMax) :
    ∃ fs₃ tree₃, writeToDisk env fs₂ tree₂ = .ok (fs₃, tree₃, 0) ∧
      (Ascending Node.key (storedNodes fs₃ tree₃.disk1) ↔
        Ascending Node.key ns ∧
          ∀ s ∈ ss, s.sorted = false → ∀ b ∈ s.blocks, Ascending Node.key b) := by
  have hsessions : ns.length + flushedBySessions ss ≤ intMax := by omega
  rcases sessions_file hfile hsessions with ⟨fs₁', hss', hfile₁⟩
  rw [hss] at hss'
  cases hss'
  have hlen := length_foldl_fileAfter ss ns
  rcases run_from_file hinit hpos hfile₁ hok hrun (by omega) with ⟨s, hrep, hsorted, hasc, hsum⟩
  rcases writeToDisk_represents henv hrep hfull (by omega) with ⟨fs₃, tree₃, hw, hstored⟩
  refine ⟨fs₃, tree₃, hw, ?_⟩
  -- the flush sorts its block, so everything rests on the run it merges into
  rw [hstored, hsorted, Store.flushInto_ascending_iff, hasc, foldl_fileAfter_ascending_iff]
  simp

/-- A session that puts the given key/value pairs, with no failing library call. -/
def quietSession (bufferSize : UInt64) (hpos : 1 ≤ bufferSize.toNat) (sorted : Bool)
    (kvs : List (KeyType × ValType)) : Session :=
  { heap := zeroHeap
    bufferSize := bufferSize
    bufferSize_pos := hpos
    sorted := sorted
    calls := quietCalls kvs
    calls_succeed := quietCalls_succeed kvs }

/-- The unsorted session before it has flushed an ascending block. -/
theorem sorted_flush_ascending_two_sessions :
    ∃ fs₁ fs₂ tree₂ fs₃ tree₃,
      run runSession noFiles [quietSession 2 (by decide) false [(1, 0), (2, 0), (5, 0)]] =
        .ok fs₁ ∧
      run putStep (fs₁, zeroTree 1 true) (quietCalls [(3, 0)]) = .ok (fs₂, tree₂) ∧
      writeToDisk FlushEnv.quiet fs₂ tree₂ = .ok (fs₃, tree₃, 0) ∧
      Ascending Node.key (storedNodes fs₃ tree₃.disk1) := by
  have hinit := initNewLsm_zeroTree 1 true
  have hfile : FileHolds noFiles disk1Name [] := Or.inl ⟨rfl, rfl⟩
  have hcount : ([] : List Node).length +
      flushedBySessions [quietSession 2 (by decide) false [(1, 0), (2, 0), (5, 0)]] ≤ intMax := by
    decide
  rcases sessions_file hfile hcount with ⟨fs₁, hss, -⟩
  rcases run_unflushed hinit fs₁ (by decide : (quietCalls [(3, 0)]).length ≤ 1) with
    ⟨tree₂, hrun, -, hnext, hsize, -⟩
  have hfull : tree₂.nextEmpty = tree₂.blockSize := by
    rw [hsize]
    exact UInt64.toNat_inj.1 hnext
  rcases sorted_flush_ascending_iff hfile hss hinit (by decide) (quietCalls_succeed _) hrun
      hfull FlushEnv.quiet_succeeds (by decide) with ⟨fs₃, tree₃, hw, hiff⟩
  refine ⟨fs₁, fs₁, tree₂, fs₃, tree₃, hss, hrun, hw, hiff.2 ⟨List.Pairwise.nil, ?_⟩⟩
  decide

/-- An unsorted session leaves `2, 1` in the file; the flush of a sorted tree leaves `2, 1, 3`. -/
theorem sorted_flush_not_ascending :
    ∃ fs₁ fs₂ tree₂ fs₃ tree₃,
      run runSession noFiles [quietSession 2 (by decide) false [(2, 0), (1, 0), (5, 0)]] =
        .ok fs₁ ∧
      run putStep (fs₁, zeroTree 1 true) (quietCalls [(3, 0)]) = .ok (fs₂, tree₂) ∧
      tree₂.sorted = true ∧ writeToDisk FlushEnv.quiet fs₂ tree₂ = .ok (fs₃, tree₃, 0) ∧
      storedNodes fs₃ tree₃.disk1 =
        [{ key := 2, val := 0 }, { key := 1, val := 0 }, { key := 3, val := 0 }] ∧
      ¬ Ascending Node.key (storedNodes fs₃ tree₃.disk1) := by
  have hstate : ((run runSession noFiles
      [quietSession 2 (by decide) false [(2, 0), (1, 0), (5, 0)]]).toOption.map (fun fs =>
        (run putStep (fs, zeroTree 1 true) (quietCalls [(3, 0)])).toOption.map (fun t =>
          (t.2.sorted, (writeToDisk FlushEnv.quiet t.1 t.2).toOption.map
            (fun u => (u.2.2, storedNodes u.1 u.2.1.disk1)))))) =
      some (some (true, some (0,
        [{ key := 2, val := 0 }, { key := 1, val := 0 }, { key := 3, val := 0 }]))) := by
    decide +kernel
  rcases exists_of_map_eq hstate with ⟨fs₁, hss, hobs⟩
  rcases exists_of_map_eq hobs with ⟨⟨fs₂, tree₂⟩, hrun, hflush⟩
  simp only [Prod.mk.injEq] at hflush
  rcases hflush with ⟨hsorted, hflush⟩
  rcases exists_of_map_eq hflush with ⟨⟨fs₃, tree₃, r⟩, hw, hafter⟩
  simp only [Prod.mk.injEq] at hafter
  rcases hafter with ⟨rfl, hstored⟩
  refine ⟨fs₁, fs₂, tree₂, fs₃, tree₃, hss, hrun, hsorted, hw, hstored, ?_⟩
  rw [hstored]
  decide

end LSMTree
end DBTest
