import DBTest.Library.FallibleRun
import DBTest.LSMTree.Sorting
import DBTest.LSMTree.Store

/-!
# Flush — `write_to_disk` and `put` against the abstract store

Whatever the library calls do, a `put` that returns keeps the buffer inside its block
(`put_keeps`); when they succeed, it returns from every state (`put_returns`).  As long as no count
exceeds `INT_MAX` it does to the buffer and the file what the abstract store does to its buffer and
its run (`put_represents`).
-/

namespace DBTest
namespace LSMTree

open KeyedMerge
open FallibleRun

/-! ## Environments in which nothing fails -/

/-- Memory that happens to hold zeros. -/
def zeroHeap : Heap := fun _ => { key := 0, val := 0 }

def ReadEnv.quiet : ReadEnv :=
  { fopen := true, freadCount := true, fileMem := some zeroHeap, freadNodes := none, numMem := 0 }

def WriteEnv.quiet : WriteEnv :=
  { fopen := true, fwriteCount := true, fseek := true, fwriteNodes := none, fclose := none }

def FlushEnv.quiet : FlushEnv :=
  { heap := zeroHeap, completeMem := zeroHeap, read := ReadEnv.quiet, write := WriteEnv.quiet }

def DeleteEnv.quiet : DeleteEnv :=
  { search := ReadEnv.quiet, read := ReadEnv.quiet, write := WriteEnv.quiet }

theorem ReadEnv.quiet_succeeds : ReadEnv.quiet.Succeeds := ⟨rfl, rfl, rfl, rfl⟩

theorem WriteEnv.quiet_succeeds : WriteEnv.quiet.Succeeds := ⟨rfl, rfl, rfl, rfl, rfl⟩

theorem FlushEnv.quiet_succeeds : FlushEnv.quiet.Succeeds :=
  ⟨ReadEnv.quiet_succeeds, WriteEnv.quiet_succeeds⟩

theorem DeleteEnv.quiet_succeeds : DeleteEnv.quiet.Succeeds :=
  ⟨ReadEnv.quiet_succeeds, ReadEnv.quiet_succeeds, WriteEnv.quiet_succeeds⟩

/-- A file system without files. -/
def noFiles : FS := fun _ => none

@[simp] theorem length_buffered (tree : Lsm) : tree.buffered.length = tree.nextEmpty.toNat :=
  NodeArr.length_window tree.block 0 tree.nextEmpty.toNat

/-! ## `write_to_disk` -/

/-- The block as `write_to_disk` merges it. -/
def flushBlock (env : FlushEnv) (tree : Lsm) : NodeArr :=
  if tree.sorted then mergeSort env.heap tree.block (intOfSize tree.nextEmpty) else tree.block

/-- The tree `write_to_disk` leaves. -/
def flushedTree (env : FlushEnv) (tree : Lsm) : Lsm :=
  { tree with block := flushBlock env tree, nextEmpty := 0 }

/-- What a flush is about to write: the array, and the number of nodes before it is corrected. -/
def flushSource (env : FlushEnv) (fs : FS) (tree : Lsm) : Except Abort (NodeArr × UInt64) :=
  match fs tree.disk1 with
  | none => .ok (flushBlock env tree, 0)
  | some content => mergeWithFile env content tree (flushBlock env tree)

/-- A flush finds out what to write and writes it, whatever the library calls do. -/
theorem writeToDisk_eq (env : FlushEnv) (fs : FS) (tree : Lsm) :
    writeToDisk env fs tree =
      (flushSource env fs tree).bind (fun p =>
        (writeNodes env.write true (if p.2 = 0 then tree.nextEmpty else p.2) p.1).bind
          (fun content =>
            .ok (Function.update fs tree.disk1 (some content), flushedTree env tree, 0))) := by
  cases hfs : fs tree.disk1 with
  | none =>
      simp only [writeToDisk, flushSource, hfs]
      rfl
  | some content =>
      simp only [writeToDisk, flushSource, hfs]
      rfl

/-- A flush that returns has written the one file and emptied the buffer, whatever the library calls
did, and its result is zero. -/
theorem writeToDisk_eq_ok {env : FlushEnv} {fs fs' : FS} {tree tree' : Lsm} {r : Int32}
    (h : writeToDisk env fs tree = .ok (fs', tree', r)) :
    (∃ a num content, flushSource env fs tree = .ok (a, num) ∧
      writeNodes env.write true (if num = 0 then tree.nextEmpty else num) a = .ok content ∧
      fs' = Function.update fs tree.disk1 (some content)) ∧
      tree' = flushedTree env tree ∧ r = 0 := by
  rw [writeToDisk_eq] at h
  rcases exists_of_bind_eq h with ⟨⟨a, num⟩, hsource, hwrite⟩
  rcases exists_of_bind_eq hwrite with ⟨content, hcontent, hok⟩
  cases hok
  exact ⟨⟨a, num, content, hsource, hcontent, rfl⟩, rfl, rfl⟩

/-- When the writing calls write all of it, the file holds the nodes of the array that is written. -/
theorem writeToDisk_of_writes {env : FlushEnv} {fs : FS} {tree : Lsm} {a : NodeArr} {num : UInt64}
    (hsource : flushSource env fs tree = .ok (a, num))
    (hwrite : env.write.Writes (if num = 0 then tree.nextEmpty else num).toNat) :
    writeToDisk env fs tree =
      .ok (Function.update fs tree.disk1
          (some (fileBytes (a.window 0 (if num = 0 then tree.nextEmpty else num).toNat))),
        flushedTree env tree, 0) := by
  rw [writeToDisk_eq, hsource]
  simp only [Except.bind, writeNodes_of_writes true hwrite]

theorem writeToDisk_of_source {env : FlushEnv} (hwrite : env.write.Succeeds) {fs : FS} {tree : Lsm}
    {a : NodeArr} {num : UInt64} (hsource : flushSource env fs tree = .ok (a, num)) :
    writeToDisk env fs tree =
      .ok (Function.update fs tree.disk1
          (some (fileBytes (a.window 0 (if num = 0 then tree.nextEmpty else num).toNat))),
        flushedTree env tree, 0) :=
  writeToDisk_of_writes hsource (hwrite.writes _)

/-- What a flush is about to write over a file it has read: the two sizes are narrowed, and the number
of nodes counts the whole block. -/
theorem flushSource_of_read {env : FlushEnv} (hopen : env.read.fopen = true) {fs : FS} {tree : Lsm}
    {content : List UInt8} (hfs : fs tree.disk1 = some content) {num : UInt64} {a : NodeArr}
    (hread : readNodes env.read content 0 = (num, some a)) :
    flushSource env fs tree =
      .ok (merge (NodeArr.alloc env.completeMem ((8 * (num + tree.nextEmpty)).toNat / 8))
          a (intOfSize num) (flushBlock env tree) (intOfSize tree.nextEmpty),
        num + tree.blockSize) := by
  simp only [flushSource, hfs, mergeWithFile, hopen, if_true, hread]

/-- With succeeding library calls a flush returns, and it leaves a well-formed file. -/
theorem writeToDisk_succeeds {env : FlushEnv} (henv : env.Succeeds) (fs : FS) (tree : Lsm) :
    ∃ ns : List Node, ns.length < 2 ^ 64 ∧
      writeToDisk env fs tree =
        .ok (Function.update fs tree.disk1 (some (fileBytes ns)), flushedTree env tree, 0) := by
  rcases henv with ⟨hread, hwrite⟩
  have hsource : ∃ p, flushSource env fs tree = .ok p := by
    cases hfs : fs tree.disk1 with
    | none =>
        simp only [flushSource, hfs]
        exact ⟨_, rfl⟩
    | some content =>
        rcases Option.isSome_iff_exists.1 hread.2.2.1 with ⟨heap, hheap⟩
        have hnodes : ∃ num a, readNodes env.read content 0 = (num, some a) := by
          simp only [readNodes, hheap, Option.map_some]
          exact ⟨_, _, rfl⟩
        rcases hnodes with ⟨num, a, hnodes⟩
        exact ⟨_, flushSource_of_read hread.1 hfs hnodes⟩
  rcases hsource with ⟨⟨a, num⟩, hsource⟩
  -- whatever array and number are chosen, the written file is well formed
  refine ⟨_, ?_, writeToDisk_of_source hwrite hsource⟩
  rw [NodeArr.length_window]
  exact UInt64.toNat_lt _

/-- The block that is merged holds the buffered nodes, sorted in reverse in sorted mode. -/
theorem flushBlock_window (env : FlushEnv) (tree : Lsm) (h : tree.nextEmpty.toNat ≤ intMax) :
    (flushBlock env tree).window 0 tree.nextEmpty.toNat =
      if tree.sorted then stableSort Node.key tree.buffered.reverse else tree.buffered := by
  have hint : intOfSize tree.nextEmpty = tree.nextEmpty.toNat := intOfSize_of_le h
  cases hsorted : tree.sorted with
  | false =>
      simp [flushBlock, hsorted, Lsm.buffered]
  | true =>
      have hsort := mergeSort_window env.heap tree.block (intOfSize tree.nextEmpty)
      rw [hint] at hsort
      simpa [flushBlock, hsorted, hint, Lsm.buffered] using hsort

/-- Over a well-formed file the array that is merged holds its nodes. -/
theorem flushSource_of_file {env : FlushEnv} (hread : env.read.Succeeds) {fs : FS} {tree : Lsm}
    {ns : List Node} (hfs : fs tree.disk1 = some (fileBytes ns)) (hlen : ns.length < 2 ^ 64) :
    ∃ a : NodeArr, a.window 0 ns.length = ns ∧
      flushSource env fs tree =
        .ok (merge (NodeArr.alloc env.completeMem
              ((8 * (UInt64.ofNat ns.length + tree.nextEmpty)).toNat / 8))
            a (intOfSize (UInt64.ofNat ns.length)) (flushBlock env tree)
            (intOfSize tree.nextEmpty),
          UInt64.ofNat ns.length + tree.blockSize) := by
  rcases readNodes_fileBytes hread hlen 0 with ⟨a, hnodes, hwin⟩
  exact ⟨a, hwin, flushSource_of_read hread.1 hfs hnodes⟩

/-- The reading calls of a flush bring `xs` into memory; without a file there is nothing to read. -/
def ReadsBack (env : ReadEnv) (fs : FS) (name : String) (xs : List Node) : Prop :=
  (fs name = none ∧ xs = []) ∨
    (env.fopen = true ∧ ∃ content a, fs name = some content ∧
      readNodes env content 0 = (UInt64.ofNat xs.length, some a) ∧ a.window 0 xs.length = xs)

theorem FileHolds.readsBack {env : ReadEnv} (henv : env.Succeeds) {fs : FS} {name : String}
    {ns : List Node} (hfile : FileHolds fs name ns) : ReadsBack env fs name ns := by
  rcases hfile with hnone | ⟨hfs, hlen⟩
  · exact Or.inl hnone
  · rcases readNodes_fileBytes henv hlen 0 with ⟨a, hread, hwin⟩
    exact Or.inr ⟨henv.1, _, a, hfs, hread, hwin⟩

/-- A flush of a full buffer is about to write the run of the abstract flush, whatever it has read
before. -/
theorem flushSource_full {env : FlushEnv} {fs : FS} {tree : Lsm} {xs : List Node}
    (hread : ReadsBack env.read fs tree.disk1 xs) (hpos : 0 < tree.blockSize.toNat)
    (hfull : tree.nextEmpty = tree.blockSize)
    (hcount : xs.length + tree.nextEmpty.toNat ≤ intMax) :
    ∃ a num, flushSource env fs tree = .ok (a, num) ∧
      (if num = 0 then tree.nextEmpty else num).toNat = xs.length + tree.nextEmpty.toNat ∧
      a.window 0 (xs.length + tree.nextEmpty.toNat) =
        Store.flushInto Node.key tree.sorted xs tree.buffered := by
  have hblock := flushBlock_window env tree (by omega)
  rcases hread with ⟨hfs, rfl⟩ | ⟨hopen, content, a, hfs, hnodes, hwin⟩
  · -- no file yet: the block itself is written
    have hsource : flushSource env fs tree = .ok (flushBlock env tree, 0) := by
      simp only [flushSource, hfs]
    refine ⟨_, _, hsource, by simp, ?_⟩
    rw [List.length_nil, Nat.zero_add, hblock, Store.flushInto, mergeRight_nil_left]
  · have hmax : intMax < 2 ^ 64 := by decide
    have hbound : xs.length < 2 ^ 64 := by omega
    have hnum : (UInt64.ofNat xs.length).toNat = xs.length := UInt64.toNat_ofNat_of_lt' hbound
    -- both sizes fit into an `int`
    have hleft : intOfSize (UInt64.ofNat xs.length) = xs.length := by
      rw [intOfSize_of_le (by omega), hnum]
    have hright : intOfSize tree.nextEmpty = tree.nextEmpty.toNat := intOfSize_of_le (by omega)
    have hsum : (UInt64.ofNat xs.length + tree.blockSize).toNat =
        xs.length + tree.nextEmpty.toNat := by
      rw [UInt64.toNat_add, hnum, ← hfull]
      exact Nat.mod_eq_of_lt (by omega)
    -- so `num_elements` is not replaced by `next_empty`
    have hne : UInt64.ofNat xs.length + tree.blockSize ≠ 0 := by
      intro h
      rw [h, hfull] at hsum
      simp at hsum
      omega
    have hsource : flushSource env fs tree =
        .ok (merge (NodeArr.alloc env.completeMem
              ((8 * (UInt64.ofNat xs.length + tree.nextEmpty)).toNat / 8))
            a (xs.length : Int) (flushBlock env tree) (tree.nextEmpty.toNat : Int),
          UInt64.ofNat xs.length + tree.blockSize) := by
      rw [flushSource_of_read hopen hfs hnodes, hleft, hright]
    refine ⟨_, _, hsource, ?_, ?_⟩
    · rw [if_neg hne, hsum]
    · rw [window_merge, hwin, hblock]
      rfl

/-- A flush of a full buffer stores the run of the abstract flush. -/
theorem writeToDisk_full {env : FlushEnv} (henv : env.Succeeds) {fs : FS} {tree : Lsm}
    {ns : List Node} (hfile : FileHolds fs tree.disk1 ns) (hpos : 0 < tree.blockSize.toNat)
    (hfull : tree.nextEmpty = tree.blockSize)
    (hcount : ns.length + tree.nextEmpty.toNat ≤ intMax) :
    writeToDisk env fs tree =
      .ok (Function.update fs tree.disk1
          (some (fileBytes (Store.flushInto Node.key tree.sorted ns tree.buffered))),
        flushedTree env tree, 0) := by
  rcases flushSource_full (hfile.readsBack henv.1) hpos hfull hcount with
    ⟨a, num, hsource, hnum, hwin⟩
  rw [writeToDisk_of_source henv.2 hsource, hnum, hwin]

/-! ## `put` -/

/-- The append at the end of `put`. -/
def Lsm.push (tree : Lsm) (n : Node) : Lsm :=
  { tree with
    block := tree.block.store tree.nextEmpty.toNat n
    nextEmpty := tree.nextEmpty + 1 }

theorem put_of_not_full {tree : Lsm} (h : tree.nextEmpty ≠ tree.blockSize) (env : FlushEnv)
    (n : Node) (fs : FS) :
    put env n.key n.val fs tree = .ok (fs, tree.push n, 0) := by
  simp only [put, h, if_false, bind, Except.bind]
  rfl

theorem put_of_full {tree tree' : Lsm} (h : tree.nextEmpty = tree.blockSize) {env : FlushEnv}
    {fs fs' : FS} {r : Int32} (hw : writeToDisk env fs tree = .ok (fs', tree', r)) (n : Node) :
    put env n.key n.val fs tree = .ok (fs', tree'.push n, r) := by
  simp only [put, h, if_true, bind, Except.bind, hw]
  rfl

theorem nextEmpty_push {tree : Lsm} (h : tree.nextEmpty.toNat + 1 < 2 ^ 64) (n : Node) :
    (tree.push n).nextEmpty.toNat = tree.nextEmpty.toNat + 1 := by
  have h' : (tree.nextEmpty + 1).toNat = (tree.nextEmpty.toNat + 1) % 2 ^ 64 :=
    UInt64.toNat_add _ _
  exact h'.trans (Nat.mod_eq_of_lt h)

theorem buffered_push {tree : Lsm} (h : tree.nextEmpty.toNat + 1 < 2 ^ 64) (n : Node) :
    (tree.push n).buffered = tree.buffered ++ [n] := by
  rw [Lsm.buffered, nextEmpty_push h]
  exact NodeArr.window_store_next tree.block tree.nextEmpty.toNat n

/-- A buffer that is not full has room for one more node. -/
theorem nextEmpty_lt_of_ne {tree : Lsm} (hle : tree.nextEmpty.toNat ≤ tree.blockSize.toNat)
    (hne : tree.nextEmpty ≠ tree.blockSize) : tree.nextEmpty.toNat < tree.blockSize.toNat := by
  refine lt_of_le_of_ne hle ?_
  intro h
  exact hne (UInt64.toNat_inj.1 h)

theorem buffered_flushedTree (env : FlushEnv) (tree : Lsm) :
    (flushedTree env tree).buffered = [] := rfl

/-- A put that returns appends to the buffer, after a flush if the buffer was full. -/
theorem put_eq_ok {env : FlushEnv} {n : Node} {fs fs' : FS} {tree tree' : Lsm} {r : Int32}
    (h : put env n.key n.val fs tree = .ok (fs', tree', r)) :
    (tree.nextEmpty ≠ tree.blockSize ∧ fs' = fs ∧ tree' = tree.push n) ∨
      (tree.nextEmpty = tree.blockSize ∧
        (∃ content, fs' = Function.update fs tree.disk1 (some content)) ∧
        tree' = (flushedTree env tree).push n) := by
  by_cases hfull : tree.nextEmpty = tree.blockSize
  · simp only [put, if_pos hfull] at h
    rcases exists_of_bind_eq h with ⟨⟨fs₁, tree₁, r₁⟩, hw, hok⟩
    cases hok
    rcases writeToDisk_eq_ok hw with ⟨⟨_, _, content, -, -, hfile⟩, rfl, -⟩
    exact Or.inr ⟨hfull, ⟨content, hfile⟩, rfl⟩
  · rw [put_of_not_full hfull] at h
    cases h
    exact Or.inl ⟨hfull, rfl, rfl⟩

/-! ## What a put never changes -/

/-- Fields a `put` never changes, and the files it never touches. -/
structure SameTree (fs : FS) (tree : Lsm) (fs' : FS) (tree' : Lsm) : Prop where
  blockSize : tree'.blockSize = tree.blockSize
  sorted : tree'.sorted = tree.sorted
  disk1 : tree'.disk1 = tree.disk1
  files : ∀ name, name ≠ tree.disk1 → fs' name = fs name

theorem SameTree.refl (fs : FS) (tree : Lsm) : SameTree fs tree fs tree :=
  ⟨rfl, rfl, rfl, fun _ _ => rfl⟩

theorem SameTree.trans {fs fs' fs'' : FS} {tree tree' tree'' : Lsm}
    (h : SameTree fs tree fs' tree') (h' : SameTree fs' tree' fs'' tree'') :
    SameTree fs tree fs'' tree'' := by
  refine ⟨h'.blockSize.trans h.blockSize, h'.sorted.trans h.sorted, h'.disk1.trans h.disk1, ?_⟩
  intro name hname
  have hname' : name ≠ tree'.disk1 := by
    rw [h.disk1]
    exact hname
  rw [h'.files name hname', h.files name hname]

/-- A put that returns keeps the buffer inside a block of at least one node. -/
theorem put_keeps {env : FlushEnv} {n : Node} {fs fs' : FS} {tree tree' : Lsm} {r : Int32}
    (h : put env n.key n.val fs tree = .ok (fs', tree', r)) (hpos : 1 ≤ tree.blockSize.toNat)
    (hfits : tree.nextEmpty.toNat ≤ tree.blockSize.toNat) :
    SameTree fs tree fs' tree' ∧ tree'.nextEmpty.toNat ≤ tree'.blockSize.toNat := by
  have hcap := tree.blockSize.toNat_lt
  rcases put_eq_ok h with ⟨hne, rfl, rfl⟩ | ⟨hfull, ⟨content, rfl⟩, rfl⟩
  · have hlt := nextEmpty_lt_of_ne hfits hne
    refine ⟨⟨rfl, rfl, rfl, fun _ _ => rfl⟩, ?_⟩
    rw [nextEmpty_push (by omega) n]
    exact hlt
  · refine ⟨⟨rfl, rfl, rfl, fun name hname => Function.update_of_ne hname _ _⟩, ?_⟩
    have hroom : (flushedTree env tree).nextEmpty.toNat + 1 < 2 ^ 64 := by
      simp [flushedTree]
    rw [nextEmpty_push hroom n]
    simpa [flushedTree, Lsm.push] using hpos

/-- With succeeding library calls `put` returns from every state, and it leaves a well-formed file
well formed. -/
theorem put_returns {env : FlushEnv} (henv : env.Succeeds) (n : Node) (fs : FS) (tree : Lsm) :
    ∃ fs' tree', put env n.key n.val fs tree = .ok (fs', tree', 0) ∧
      ((∃ ns, FileHolds fs tree.disk1 ns) → ∃ ns, FileHolds fs' tree.disk1 ns) := by
  by_cases hfull : tree.nextEmpty = tree.blockSize
  · rcases writeToDisk_succeeds henv fs tree with ⟨ns, hlen, hw⟩
    refine ⟨_, _, put_of_full hfull hw n, ?_⟩
    intro _
    exact ⟨ns, Or.inr ⟨Function.update_self _ _ _, hlen⟩⟩
  · exact ⟨fs, tree.push n, put_of_not_full hfull env n fs, fun h => h⟩

/-! ## The abstract store -/

/-- The tree and its file hold what the store holds. -/
structure Represents (fs : FS) (tree : Lsm) (s : Store Node) : Prop where
  cap : tree.blockSize.toNat = s.cap
  sorted : tree.sorted = s.sorted
  buffer : tree.buffered = s.buffer
  file : FileHolds fs tree.disk1 s.disk

theorem Represents.nextEmpty {fs : FS} {tree : Lsm} {s : Store Node}
    (h : Represents fs tree s) : tree.nextEmpty.toNat = s.buffer.length := by
  rw [← h.buffer, length_buffered]

/-- A tree whose buffer fits its block, over a well-formed file, represents a store. -/
theorem exists_represents {fs : FS} {tree : Lsm} {ns : List Node}
    (hfile : FileHolds fs tree.disk1 ns) (hpos : 0 < tree.blockSize.toNat)
    (hle : tree.nextEmpty.toNat ≤ tree.blockSize.toNat) :
    ∃ s : Store Node, Represents fs tree s ∧ s.disk = ns :=
  ⟨{ cap := tree.blockSize.toNat
     cap_pos := hpos
     sorted := tree.sorted
     disk := ns
     buffer := tree.buffered
     buffer_le := by simpa using hle },
    ⟨rfl, rfl, rfl, hfile⟩, rfl⟩

/-- The buffer is full in the tree exactly when it is full in the store. -/
theorem Represents.full_iff {fs : FS} {tree : Lsm} {s : Store Node}
    (h : Represents fs tree s) :
    tree.nextEmpty = tree.blockSize ↔ s.buffer.length = s.cap := by
  rw [← UInt64.toNat_inj, h.nextEmpty, h.cap]

theorem Represents.blockSize_pos {fs : FS} {tree : Lsm} {s : Store Node}
    (h : Represents fs tree s) : 0 < tree.blockSize.toNat := by
  rw [h.cap]
  exact s.cap_pos

/-- A put on a full buffer: the buffer goes into the run and only the new node stays. -/
theorem put_represents_of_full {env : FlushEnv} (henv : env.Succeeds) {fs : FS} {tree : Lsm}
    {s : Store Node} (h : Represents fs tree s) (n : Node)
    (hfull : tree.nextEmpty = tree.blockSize)
    (hcount : s.disk.length + s.buffer.length ≤ intMax) :
    ∃ fs' tree', put env n.key n.val fs tree = .ok (fs', tree', 0) ∧
      Represents fs' tree' (s.put Node.key n) ∧ SameTree fs tree fs' tree' := by
  have hbound : s.disk.length + tree.nextEmpty.toNat ≤ intMax := by
    rw [h.nextEmpty]
    exact hcount
  have hw := writeToDisk_full henv h.file h.blockSize_pos hfull hbound
  rcases Store.put_of_full Node.key (h.full_iff.1 hfull) n with ⟨hbuf, hdisk⟩
  refine ⟨_, _, put_of_full hfull hw n, ?_, ?_⟩
  · refine ⟨?_, ?_, ?_, ?_⟩
    · simpa [Lsm.push, flushedTree] using h.cap
    · simpa [Lsm.push, flushedTree] using h.sorted
    · have hroom : (flushedTree env tree).nextEmpty.toNat + 1 < 2 ^ 64 := by
        simp [flushedTree]
      rw [hbuf, buffered_push hroom, buffered_flushedTree, List.nil_append]
    · refine Or.inr ⟨?_, ?_⟩
      · rw [hdisk, ← h.buffer, ← h.sorted]
        simp [Lsm.push, flushedTree]
      · have hmax : intMax < 2 ^ 64 := by decide
        rw [hdisk, Store.length_flushInto]
        omega
  · refine ⟨rfl, rfl, rfl, ?_⟩
    intro name hname
    exact Function.update_of_ne hname _ _

/-- A put on a buffer with room: nothing is written. -/
theorem put_represents_of_not_full (env : FlushEnv) {fs : FS} {tree : Lsm} {s : Store Node}
    (h : Represents fs tree s) (n : Node) (hfull : tree.nextEmpty ≠ tree.blockSize) :
    ∃ fs' tree', put env n.key n.val fs tree = .ok (fs', tree', 0) ∧
      Represents fs' tree' (s.put Node.key n) ∧ SameTree fs tree fs' tree' := by
  have hcap := tree.blockSize.toNat_lt
  have hs : s.buffer.length ≠ s.cap := fun hs => hfull (h.full_iff.2 hs)
  have hlt : tree.nextEmpty.toNat < tree.blockSize.toNat := by
    have := s.buffer_le
    rw [h.nextEmpty, h.cap]
    omega
  rcases Store.put_of_not_full Node.key hs n with ⟨hbuf, hdisk⟩
  refine ⟨fs, tree.push n, put_of_not_full hfull env n fs, ?_, ⟨rfl, rfl, rfl, fun _ _ => rfl⟩⟩
  refine ⟨?_, ?_, ?_, ?_⟩
  · simpa [Lsm.push] using h.cap
  · simpa [Lsm.push] using h.sorted
  · rw [hbuf, ← h.buffer]
    exact buffered_push (by omega) n
  · rw [hdisk]
    exact h.file

/-- `put` simulates the abstract put, as long as a flush does not count past `INT_MAX`. -/
theorem put_represents {env : FlushEnv} (henv : env.Succeeds) {fs : FS} {tree : Lsm}
    {s : Store Node} (h : Represents fs tree s) (n : Node)
    (hcount : s.buffer.length = s.cap → s.disk.length + s.buffer.length ≤ intMax) :
    ∃ fs' tree', put env n.key n.val fs tree = .ok (fs', tree', 0) ∧
      Represents fs' tree' (s.put Node.key n) ∧ SameTree fs tree fs' tree' := by
  by_cases hfull : tree.nextEmpty = tree.blockSize
  · exact put_represents_of_full henv h n hfull (hcount (h.full_iff.1 hfull))
  · exact put_represents_of_not_full env h n hfull

/-- `write_to_disk` on a full buffer stores the run of the abstract flush. -/
theorem writeToDisk_represents {env : FlushEnv} (henv : env.Succeeds) {fs : FS} {tree : Lsm}
    {s : Store Node} (h : Represents fs tree s) (hfull : tree.nextEmpty = tree.blockSize)
    (hcount : s.disk.length + s.buffer.length ≤ intMax) :
    ∃ fs' tree', writeToDisk env fs tree = .ok (fs', tree', 0) ∧
      storedNodes fs' tree'.disk1 = Store.flushInto Node.key s.sorted s.disk s.buffer := by
  have hbound : s.disk.length + tree.nextEmpty.toNat ≤ intMax := by
    rw [h.nextEmpty]
    exact hcount
  have hlen : (Store.flushInto Node.key tree.sorted s.disk tree.buffered).length < 2 ^ 64 := by
    have hmax : intMax < 2 ^ 64 := by decide
    rw [Store.length_flushInto, h.buffer]
    omega
  refine ⟨_, _, writeToDisk_full henv h.file h.blockSize_pos hfull hbound, ?_⟩
  rw [← h.buffer, ← h.sorted]
  exact storedNodes_update fs tree.disk1 hlen

end LSMTree
end DBTest
