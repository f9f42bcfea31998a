import DBTest.LSMTree.Files

/-!
# Lsm — the functions of `lsm.c`

One definition per function of the source, under its name.  A call takes the environment of the
library calls it makes, the file system and the tree, and returns the new file system, the new tree
and the result.  A C `int` that counts or sizes is an `Int` where it may be negative and a `Nat`
where it only counts up from zero; `size_t` is `UInt64`.

`search_disk` opens a file by a name of its own.  Its body, and the bodies of its callers, take that
name as an argument (`searchDiskFrom`, `getFrom`, `deleteFrom`, `updateFrom`); the functions of the
source pass `searchDiskName`.

`print_buffer_data` and `print_disk_data` stand with the test program that calls them.  Not modelled:
the texts of the error messages, and field `k`, which nothing reads.
-/

namespace DBTest
namespace LSMTree

/-! ## The tree -/

structure Lsm where
  blockSize : UInt64
  nodeSize : UInt64
  nextEmpty : UInt64
  block : NodeArr
  disk1 : String
  sorted : Bool

/-- `struct _nodei`: a copy of a node and its index. -/
structure NodeI where
  node : Node
  index : Nat
  deriving DecidableEq, Repr

/-- The file the trees store their nodes in. -/
def disk1Name : String := "disk_storage.txt"

/-- The file `search_disk` opens. -/
def searchDiskName : String := "disk_storae.txt"

/-- `block[0 .. next_empty)`. -/
def Lsm.buffered (tree : Lsm) : List Node :=
  tree.block.window 0 tree.nextEmpty.toNat

/-- `init_new_lsm`: `treeMem` says whether the first `malloc` succeeded, `blockMem` is what the
second one returned.  The product of the sizes is computed modulo `2 ^ 64`. -/
def initNewLsm (treeMem : Bool) (blockMem : Option Heap) (bufferSize : UInt64) (sorted : Bool) :
    Option Lsm :=
  if treeMem then
    match blockMem with
    | none => none
    | some heap =>
        let nodeSize : UInt64 := 8
        some
          { blockSize := bufferSize
            nodeSize := nodeSize
            nextEmpty := 0
            -- `malloc` grants the wrapped product
            block := NodeArr.alloc heap ((bufferSize * nodeSize).toNat / 8)
            disk1 := disk1Name
            sorted := sorted }
  else
    none

/-! ## Sorting -/

/-- The local variables of `merge`. -/
structure MergeState where
  l : Nat
  r : Nat
  i : Nat
  whole : NodeArr

/-- The first loop of `merge`: both sides have nodes left. -/
def mergeHeads (left : NodeArr) (leftSize : Int) (right : NodeArr) (rightSize : Int)
    (s : MergeState) : MergeState :=
  if s.l < leftSize ∧ s.r < rightSize then
    if (left.cells s.l).key < (right.cells s.r).key then
      mergeHeads left leftSize right rightSize
        { s with l := s.l + 1, i := s.i + 1, whole := s.whole.store s.i (left.cells s.l) }
    else
      mergeHeads left leftSize right rightSize
        { s with r := s.r + 1, i := s.i + 1, whole := s.whole.store s.i (right.cells s.r) }
  else
    s
termination_by (leftSize - s.l).toNat + (rightSize - s.r).toNat
decreasing_by all_goals omega

/-- The second and the third loop of `merge`: one side is copied to its end. -/
def copyRest (src : NodeArr) (size : Int) (j i : Nat) (whole : NodeArr) : Nat × NodeArr :=
  if j < size then
    copyRest src size (j + 1) (i + 1) (whole.store i (src.cells j))
  else
    (i, whole)
termination_by (size - j).toNat
decreasing_by omega

def merge (whole left : NodeArr) (leftSize : Int) (right : NodeArr) (rightSize : Int) : NodeArr :=
  let s := mergeHeads left leftSize right rightSize { l := 0, r := 0, i := 0, whole := whole }
  let rest := copyRest left leftSize s.l s.i s.whole
  (copyRest right rightSize s.r rest.1 rest.2).2

def mergeSort (heap : Heap) (block : NodeArr) (n : Int) : NodeArr :=
  if n < 2 then
    block
  else
    let mid := n / 2
    let left := NodeArr.memcpy heap block 0 mid.toNat
    let right := NodeArr.memcpy heap block mid.toNat (n - mid).toNat
    merge block (mergeSort heap left mid) mid (mergeSort heap right (n - mid)) (n - mid)
termination_by n.toNat
decreasing_by all_goals omega

/-! ## Searching -/

/-- The loop of `search_buffer` and of `search_disk`; its index is an `int`. -/
def scan (cells : Nat → Node) (n : Nat) (key : KeyType) (i : Nat) :
    Except Abort (Option NodeI) :=
  if i < n then
    if (cells i).key = key then
      .ok (some { node := cells i, index := i })
    else if i = intMax then
      .error .intOverflow
    else
      scan cells n key (i + 1)
  else
    .ok none
termination_by n - i

def searchBuffer (key : KeyType) (tree : Lsm) : Except Abort (Option NodeI) :=
  scan tree.block.cells tree.nextEmpty.toNat key 0

def searchDiskFrom (name : String) (env : ReadEnv) (key : KeyType) (fs : FS) :
    Except Abort (Option NodeI) :=
  match fs name with
  | none => .ok none
  | some content =>
      if env.fopen then
        -- `num_elements` is not initialised here
        match readNodes env content env.numMem with
        | (num, some fileData) => scan fileData.cells num.toNat key 0
        | (num, none) => if num = 0 then .ok none else .error .nullPointer
      else
        .ok none

def getFrom (name : String) (env : ReadEnv) (key : KeyType) (fs : FS) (tree : Lsm) :
    Except Abort (Option Node) := do
  match ← searchBuffer key tree with
  | some ni => .ok (some ni.node)
  | none =>
      match ← searchDiskFrom name env key fs with
      | some ni => .ok (some ni.node)
      | none => .ok none

def get (env : ReadEnv) (key : KeyType) (fs : FS) (tree : Lsm) : Except Abort (Option Node) :=
  getFrom searchDiskName env key fs tree

/-! ## Writing -/

/-- The library calls of one `write_to_disk`. -/
structure FlushEnv where
  /-- Memory behind the arrays of `merge_sort`. -/
  heap : Heap
  /-- Memory that `complete_data` points to. -/
  completeMem : Heap
  read : ReadEnv
  write : WriteEnv

def FlushEnv.Succeeds (env : FlushEnv) : Prop :=
  env.read.Succeeds ∧ env.write.Succeeds

/-- The branch of `write_to_disk` for an existing file: its nodes merged with the block, and the
number of nodes to write, which counts the whole block. -/
def mergeWithFile (env : FlushEnv) (content : List UInt8) (tree : Lsm) (block : NodeArr) :
    Except Abort (NodeArr × UInt64) :=
  if env.read.fopen then
    match readNodes env.read content 0 with
    | (_, none) => .error .assertFailed
    | (num, some fileData) =>
        let completeData :=
          NodeArr.alloc env.completeMem ((8 * (num + tree.nextEmpty)).toNat / 8)
        .ok (merge completeData fileData (intOfSize num) block (intOfSize tree.nextEmpty),
          num + tree.blockSize)
  else
    -- `fread` on the `NULL` stream
    .error .nullPointer

def writeToDisk (env : FlushEnv) (fs : FS) (tree : Lsm) : Except Abort (FS × Lsm × Int32) := do
  -- the buffer is sorted in place
  let block :=
    if tree.sorted then mergeSort env.heap tree.block (intOfSize tree.nextEmpty) else tree.block
  let (completeData, numElements) ←
    match fs tree.disk1 with
    | none => .ok (block, 0)
    | some content => mergeWithFile env content tree block
  -- `num_elements <= 0` on a `size_t`
  let num := if numElements = 0 then tree.nextEmpty else numElements
  let content ← writeNodes env.write true num completeData
  .ok (Function.update fs tree.disk1 (some content), { tree with block := block, nextEmpty := 0 }, 0)

def put (env : FlushEnv) (key : KeyType) (val : ValType) (fs : FS) (tree : Lsm) :
    Except Abort (FS × Lsm × Int32) := do
  let (fs, tree, r) ←
    -- a full buffer is flushed first; the append is unconditional
    if tree.nextEmpty = tree.blockSize then writeToDisk env fs tree else .ok (fs, tree, 0)
  let n : Node := { key := key, val := val }
  .ok (fs,
    { tree with
      block := tree.block.store tree.nextEmpty.toNat n
      nextEmpty := tree.nextEmpty + 1 },
    r)

/-! ## Deleting and updating -/

/-- The library calls of one `delete`. -/
structure DeleteEnv where
  search : ReadEnv
  read : ReadEnv
  write : WriteEnv

def DeleteEnv.Succeeds (env : DeleteEnv) : Prop :=
  env.search.Succeeds ∧ env.read.Succeeds ∧ env.write.Succeeds

/-- The branch of `delete` for a key in the buffer. -/
def deleteBuffered (tree : Lsm) (index : Nat) : Lsm :=
  { tree with
    nextEmpty := tree.nextEmpty - 1
    -- the count is meant in nodes, but `memmove` counts bytes
    block := tree.block.memmove index (index + 1) (tree.blockSize - UInt64.ofNat index).toNat }

/-- The branch of `delete` for a key on disk: read the file, shift, write it again. -/
def deleteStored (env : DeleteEnv) (fs : FS) (tree : Lsm) (index : Nat) : Except Abort FS :=
  match fs tree.disk1 with
  -- `fread` on the `NULL` stream
  | none => .error .nullPointer
  | some content =>
      if env.read.fopen then
        match readNodes env.read content 0 with
        | (_, none) => .error .assertFailed
        | (num, some fileData) => do
            let num := num - 1
            let fileData :=
              -- again a number of nodes passed as bytes
              fileData.memmove index (index + 1) (num - UInt64.ofNat index).toNat
            let content ← writeNodes env.write false num fileData
            .ok (Function.update fs tree.disk1 (some content))
      else
        .error .nullPointer

def deleteFrom (name : String) (env : DeleteEnv) (key : KeyType) (fs : FS) (tree : Lsm) :
    Except Abort (FS × Lsm × Int32) := do
  match ← searchBuffer key tree with
  | some ni => .ok (fs, deleteBuffered tree ni.index, 0)
  | none =>
      match ← searchDiskFrom name env.search key fs with
      -- `assert(ni)`
      | none => .error .assertFailed
      | some ni => do
          let fs ← deleteStored env fs tree ni.index
          .ok (fs, tree, 0)

def delete (env : DeleteEnv) (key : KeyType) (fs : FS) (tree : Lsm) :
    Except Abort (FS × Lsm × Int32) :=
  deleteFrom searchDiskName env key fs tree

/-- `update` prints `ni->index` before it tests `ni` against `NULL`. -/
def updateFrom (name : String) (denv : DeleteEnv) (penv : FlushEnv) (key : KeyType) (val : ValType)
    (fs : FS) (tree : Lsm) : Except Abort (FS × Lsm × Int32) := do
  let found ← searchBuffer key tree
  -- `printf` reads `ni->index` here
  let _ ← (match found with
    | some ni => .ok ni.index
    | none => .error .nullPointer : Except Abort Nat)
  match found with
  | some ni =>
      let n : Node := { key := key, val := val }
      .ok (fs, { tree with block := tree.block.store ni.index n }, 0)
  | none => do
      let (fs, tree, _) ← deleteFrom name denv key fs tree
      let (fs, tree, _) ← put penv key val fs tree
      .ok (fs, tree, 0)

def update (denv : DeleteEnv) (penv : FlushEnv) (key : KeyType) (val : ValType) (fs : FS)
    (tree : Lsm) : Except Abort (FS × Lsm × Int32) :=
  updateFrom searchDiskName denv penv key val fs tree

end LSMTree
end DBTest
