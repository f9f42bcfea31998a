import Mathlib.Algebra.BigOperators.Group.Finset.Basic
import Mathlib.Algebra.Order.BigOperators.Group.Finset
import Mathlib.Algebra.Order.Group.Multiset
import Mathlib.Data.Fintype.Basic
import Mathlib.Data.UInt
import Mathlib.Tactic.Abel
import DBTest.LSMTree.Runs

/-!
# Process — many trees in one memory

Any number of trees may share the file.  As long as each tree has memory of its own, no interleaving
of puts loses or duplicates a node (`Kept.step`).  In the program all trees lie in one memory: a tree
is a pointer to its struct, the struct points to the block, and a store behind the block goes to
whatever lies there.  `malloc` keeps what it grants apart, so the trees have memory of their own as
long as their blocks have the size they were asked for (`interleaved_puts_keep_nodes`); a tree whose
size in bytes wraps writes over the others (`wrapped_block_loses_node`).
-/

namespace DBTest
namespace LSMTree

open ByteLayout
open FallibleRun

/-! ## Many trees over one file -/

section Interleaving

variable {ι : Type} [Fintype ι] [DecidableEq ι]

/-- Any number of trees, each with memory of its own, and the file system they share. -/
structure World (ι : Type) where
  fs : FS
  trees : ι → Lsm

/-- A call of `put` on one of the trees. -/
structure TreeCall (ι : Type) where
  tree : ι
  put : PutCall

def World.step (w : World ι) (c : TreeCall ι) : Except Abort (World ι) := do
  let (fs, tree) ← putStep (w.fs, w.trees c.tree) c.put
  .ok { fs := fs, trees := Function.update w.trees c.tree tree }

/-- All nodes that are buffered in some tree, counted with multiplicity. -/
def World.buffered (w : World ι) : Multiset Node :=
  ∑ i, ((w.trees i).buffered : Multiset Node)

/-- What every interleaving keeps: the file is well formed, no node is lost or duplicated, and no
buffer holds more than its block. -/
structure Kept (sizes : ι → UInt64) (nodes : Multiset Node) (w : World ι) : Prop where
  file : ∃ ns, FileHolds w.fs disk1Name ns ∧ (ns : Multiset Node) + w.buffered = nodes
  disk1 : ∀ i, (w.trees i).disk1 = disk1Name
  blockSize : ∀ i, (w.trees i).blockSize = sizes i
  nextEmpty : ∀ i, (w.trees i).nextEmpty ≤ (w.trees i).blockSize

/-- Replacing one tree changes the buffered nodes in one summand. -/
theorem World.buffered_update (w : World ι) (i : ι) (fs : FS) (tree : Lsm) :
    ({ fs := fs, trees := Function.update w.trees i tree } : World ι).buffered +
        ((w.trees i).buffered : Multiset Node) =
      w.buffered + (tree.buffered : Multiset Node) := by
  have hrest : ∑ j ∈ Finset.univ.erase i,
        ((Function.update w.trees i tree j).buffered : Multiset Node) =
      ∑ j ∈ Finset.univ.erase i, ((w.trees j).buffered : Multiset Node) := by
    refine Finset.sum_congr rfl ?_
    intro j hj
    rw [Function.update_of_ne (Finset.ne_of_mem_erase hj)]
  have hnew := Finset.add_sum_erase Finset.univ
    (fun j => ((Function.update w.trees i tree j).buffered : Multiset Node)) (Finset.mem_univ i)
  have hold := Finset.add_sum_erase Finset.univ
    (fun j => ((w.trees j).buffered : Multiset Node)) (Finset.mem_univ i)
  simp only [Function.update_self] at hnew
  rw [World.buffered, World.buffered, ← hnew, ← hold, hrest]
  abel

omit [DecidableEq ι] in
/-- The called tree and the file represent a store that holds no more than all nodes together. -/
theorem Kept.represents {sizes : ι → UInt64} (hpos : ∀ i, 1 ≤ (sizes i).toNat)
    {nodes : Multiset Node} {w : World ι} (h : Kept sizes nodes w) (i : ι) :
    ∃ s : Store Node, Represents w.fs (w.trees i) s ∧
      (s.disk : Multiset Node) + w.buffered = nodes ∧
      s.disk.length + s.buffer.length ≤ nodes.card := by
  rcases h.file with ⟨ns, hfile, hnodes⟩
  rw [← h.disk1 i] at hfile
  have hsize : 0 < (w.trees i).blockSize.toNat := by
    rw [h.blockSize]
    exact hpos i
  rcases exists_represents hfile hsize (UInt64.le_iff_toNat_le.1 (h.nextEmpty i)) with
    ⟨s, hrep, rfl⟩
  refine ⟨s, hrep, hnodes, ?_⟩
  have hone : ((w.trees i).buffered : Multiset Node) ≤ w.buffered :=
    Finset.single_le_sum (f := fun j => ((w.trees j).buffered : Multiset Node))
      (fun _ _ => Multiset.zero_le _) (Finset.mem_univ i)
  have hcard := Multiset.card_le_card hone
  have htotal := congrArg Multiset.card hnodes
  rw [hrep.buffer] at hcard
  simp only [Multiset.card_add, Multiset.coe_card] at hcard htotal
  omega

/-- A put on one tree adds its node to the nodes of the file and of all buffers. -/
theorem World.nodes_put {w : World ι} {i : ι} {s : Store Node} {fs' : FS} {tree' : Lsm} {n : Node}
    {nodes : Multiset Node} (hnodes : (s.disk : Multiset Node) + w.buffered = nodes)
    (hbuffer : (w.trees i).buffered = s.buffer)
    (hbuffer' : tree'.buffered = (s.put Node.key n).buffer) :
    ((s.put Node.key n).disk : Multiset Node) +
      World.buffered { fs := fs', trees := Function.update w.trees i tree' } = nodes + {n} := by
  -- the abstract put moves nodes between buffer and run and adds one
  have hmoved : (((s.put Node.key n).disk : Multiset Node)) + (tree'.buffered : Multiset Node) =
      s.disk + ((w.trees i).buffered : Multiset Node) + {n} := by
    have hperm := Multiset.coe_eq_coe.2 (Store.put_perm Node.key s n)
    simpa [← Multiset.coe_add, hbuffer, hbuffer', add_assoc] using hperm
  have hswap := w.buffered_update i fs' tree'
  -- the old buffer of the called tree is cancelled on both sides
  refine add_right_cancel (b := ((w.trees i).buffered : Multiset Node)) ?_
  calc
    _ = ((s.put Node.key n).disk : Multiset Node) +
          (w.buffered + (tree'.buffered : Multiset Node)) := by rw [add_assoc, hswap]
    _ = (((s.put Node.key n).disk : Multiset Node) +
          (tree'.buffered : Multiset Node)) + w.buffered := by abel
    _ = (s.disk + ((w.trees i).buffered : Multiset Node) + {n}) + w.buffered := by rw [hmoved]
    _ = nodes + {n} + ((w.trees i).buffered : Multiset Node) := by
          rw [← hnodes]
          abel

/-- One put keeps the invariant and adds its node. -/
theorem Kept.step {sizes : ι → UInt64} (hpos : ∀ i, 1 ≤ (sizes i).toNat) {nodes : Multiset Node}
    {w : World ι} (h : Kept sizes nodes w) {c : TreeCall ι} (hok : c.put.env.Succeeds)
    (hcount : nodes.card ≤ intMax) :
    ∃ w', w.step c = .ok w' ∧ Kept sizes (nodes + {c.put.node}) w' := by
  rcases h.represents hpos c.tree with ⟨s, hrep, hnodes, hbound⟩
  rcases put_represents hok hrep c.put.node (fun _ => hbound.trans hcount) with
    ⟨fs', tree', hput, hrep', hsame⟩
  have hname : tree'.disk1 = disk1Name := hsame.disk1.trans (h.disk1 c.tree)
  have hroom : tree'.nextEmpty ≤ tree'.blockSize := by
    rw [UInt64.le_iff_toNat_le, hrep'.nextEmpty, hrep'.cap]
    exact (s.put Node.key c.put.node).buffer_le
  refine ⟨{ fs := fs', trees := Function.update w.trees c.tree tree' }, ?_, ?_⟩
  · simp only [World.step, putStep_of_put hput, bind, Except.bind]
  · refine ⟨⟨(s.put Node.key c.put.node).disk, ?_, ?_⟩, ?_, ?_, ?_⟩
    · rw [← hname]
      exact hrep'.file
    · exact World.nodes_put hnodes hrep.buffer hrep'.buffer
    -- the other trees are as they were
    · exact (Function.forall_update_iff w.trees (fun _ t => t.disk1 = disk1Name)).2
        ⟨hname, fun i _ => h.disk1 i⟩
    · exact (Function.forall_update_iff w.trees (fun i t => t.blockSize = sizes i)).2
        ⟨hsame.blockSize.trans (h.blockSize c.tree), fun i _ => h.blockSize i⟩
    · exact (Function.forall_update_iff w.trees (fun _ t => t.nextEmpty ≤ t.blockSize)).2
        ⟨hroom, fun i _ => h.nextEmpty i⟩

/-- Two trees look the same from outside: the same struct and the same nodes in use. -/
structure LooksLike (t t' : Lsm) : Prop where
  disk1 : t'.disk1 = t.disk1
  blockSize : t'.blockSize = t.blockSize
  nextEmpty : t'.nextEmpty = t.nextEmpty
  buffered : t'.buffered = t.buffered

omit [DecidableEq ι] in
theorem Kept.congr {sizes : ι → UInt64} {nodes : Multiset Node} {w w' : World ι}
    (h : Kept sizes nodes w) (hfs : w'.fs = w.fs)
    (htrees : ∀ i, LooksLike (w.trees i) (w'.trees i)) : Kept sizes nodes w' := by
  have hbuffered : w'.buffered = w.buffered :=
    Finset.sum_congr rfl (fun i _ => congrArg _ (htrees i).buffered)
  refine ⟨?_, ?_, ?_, ?_⟩
  · rw [hfs, hbuffered]
    exact h.file
  · intro i
    rw [(htrees i).disk1, h.disk1]
  · intro i
    rw [(htrees i).blockSize, h.blockSize]
  · intro i
    rw [(htrees i).nextEmpty, (htrees i).blockSize]
    exact h.nextEmpty i

end Interleaving

/-! ## A tree in memory -/

abbrev Memory := Nat → UInt8

def loadSize (m : Memory) (a : Nat) : UInt64 :=
  UInt64.ofNat (leNat (readBytes m a 8))

/-- `sizeof(lsm)`. -/
def lsmSize : Nat := 48

/-- Offset of `next_empty`. -/
def nextEmptyAt : Nat := 16

/-- Offset of `block`. -/
def blockAt : Nat := 24

/-- The bytes `init_new_lsm` stores in the struct: `block_size`, `k`, `node_size`, `next_empty`,
`block`, `disk1`, `sorted`. -/
def structBytes (bufferSize : UInt64) (block : UInt64) (disk1 : UInt64) (sorted : Bool) :
    List UInt8 :=
  leBytes 8 bufferSize.toNat ++ leBytes 4 2 ++ leBytes 4 8 ++ leBytes 8 0 ++
    leBytes 8 block.toNat ++ leBytes 8 disk1.toNat ++ [if sorted then 1 else 0]

/-- The tree at address `a`: its struct and the block the struct points to.  `text` is what the string
literals hold. -/
def loadTree (text : UInt64 → String) (m : Memory) (a : Nat) : Lsm :=
  { blockSize := loadSize m a
    nodeSize := UInt64.ofNat (leNat (readBytes m (a + 12) 4))
    nextEmpty := loadSize m (a + nextEmptyAt)
    block :=
      { granted := (loadSize m a * 8).toNat / 8
        -- the array goes on behind the granted memory, as the addresses do
        cells := nodeLayout.cellAt (fun x => m ((loadSize m (a + blockAt)).toNat + x))
        stores := [] }
    disk1 := text (loadSize m (a + 32))
    sorted := m (a + 40) ≠ 0 }

/-- What a `put` stores: the nodes at the indices it wrote, then `next_empty`. -/
def storeTree (m : Memory) (a : Nat) (tree : Lsm) : Memory :=
  writeBytes
    (nodeLayout.writeCells m (loadSize m (a + blockAt)).toNat tree.block.cells tree.block.stores)
    (a + nextEmptyAt) (leBytes 8 tree.nextEmpty.toNat)

theorem loadSize_congr {m m' : Memory} {a : Nat} (h : ∀ j, j < 8 → m' (a + j) = m (a + j)) :
    loadSize m' a = loadSize m a := by
  rw [loadSize, loadSize, readBytes_congr h]

theorem loadSize_of_readBytes {m : Memory} {a : Nat} {x : UInt64}
    (h : readBytes m a 8 = leBytes 8 x.toNat) : loadSize m a = x := by
  have hlt : x.toNat < 256 ^ 8 := x.toNat_lt
  rw [loadSize, h, leNat_leBytes_of_lt hlt, UInt64.ofNat_toNat]

theorem loadSize_writeBytes (m : Memory) (a : Nat) (x : UInt64) :
    loadSize (writeBytes m a (leBytes 8 x.toNat)) a = x := by
  have hread := readBytes_writeBytes m a (leBytes 8 x.toNat)
  rw [length_leBytes] at hread
  exact loadSize_of_readBytes hread

/-- A `put` stores inside the block and in `next_empty`. -/
theorem storeTree_of_outside {m : Memory} {a n x : Nat} {tree : Lsm}
    (hstores : ∀ i ∈ tree.block.stores, i < n)
    (hblock : x < (loadSize m (a + blockAt)).toNat ∨ (loadSize m (a + blockAt)).toNat + 8 * n ≤ x)
    (hnext : x < a + nextEmptyAt ∨ a + nextEmptyAt + 8 ≤ x) : storeTree m a tree x = m x := by
  rw [storeTree, writeBytes_of_outside (by rw [length_leBytes]; exact hnext)]
  exact nodeLayout.writeCells_of_outside hstores hblock

/-- The struct as `init_new_lsm` leaves it is the tree `init_new_lsm` returns. -/
theorem initNewLsm_of_structBytes {text : UInt64 → String} {m : Memory} {a : Nat}
    {bufferSize block disk1 : UInt64} {sorted : Bool}
    (h : readBytes m a 41 = structBytes bufferSize block disk1 sorted)
    (htext : text disk1 = disk1Name) :
    initNewLsm true (some (loadTree text m a).block.cells) bufferSize sorted =
      some (loadTree text m a) := by
  have hfield : ∀ i n, i + n ≤ 41 →
      readBytes m (a + i) n = ((structBytes bufferSize block disk1 sorted).drop i).take n := by
    intro i n hin
    rw [← h, drop_take_readBytes m a hin]
  have hsize : loadSize m a = bufferSize :=
    loadSize_of_readBytes (hfield 0 8 (by decide))
  have hnext : loadSize m (a + nextEmptyAt) = 0 :=
    loadSize_of_readBytes (hfield nextEmptyAt 8 (by decide))
  have hdisk1 : loadSize m (a + 32) = disk1 :=
    loadSize_of_readBytes (hfield 32 8 (by decide))
  have hnodeSize : readBytes m (a + 12) 4 = leBytes 4 8 := hfield 12 4 (by decide)
  have hsorted : m (a + 40) = if sorted then 1 else 0 :=
    List.head_eq_of_cons_eq (hfield 40 1 (by decide))
  have hbool : decide (m (a + 40) ≠ 0) = sorted := by
    rw [hsorted]
    cases sorted
    · rfl
    · rfl
  simp only [initNewLsm, if_true, loadTree, NodeArr.alloc, hsize, hnext, hdisk1, htext, hnodeSize,
    hbool]
  rfl

/-! ## One memory for all trees -/

/-- `m` bytes from `a` on and `n` bytes from `b` on have none in common. -/
def Apart (a m b n : Nat) : Prop :=
  a + m ≤ b ∨ b + n ≤ a

instance instDecidableApart (a m b n : Nat) : Decidable (Apart a m b n) :=
  inferInstanceAs (Decidable (_ ∨ _))

/-- A program that holds pointers to trees, its memory and the file system.  What a `put` allocates
for itself and frees again is not part of the memory. -/
structure Process (ι : Type) where
  fs : FS
  mem : Memory
  treeAt : ι → Nat
  text : UInt64 → String

namespace Process

variable {ι : Type}

def tree (w : Process ι) (i : ι) : Lsm :=
  loadTree w.text w.mem (w.treeAt i)

def block (w : Process ι) (i : ι) : Nat :=
  (loadSize w.mem (w.treeAt i + blockAt)).toNat

theorem cells_tree (w : Process ι) (i : ι) :
    (w.tree i).block.cells = nodeLayout.cellAt (fun x => w.mem (w.block i + x)) := rfl

/-- The trees as they are read from memory. -/
def world (w : Process ι) : World ι :=
  { fs := w.fs, trees := w.tree }

/-- The process after a `put` on tree `i` that leaves `tree`. -/
def withTree (w : Process ι) (i : ι) (fs : FS) (tree : Lsm) : Process ι :=
  { w with fs := fs, mem := storeTree w.mem (w.treeAt i) tree }

def step (w : Process ι) (c : TreeCall ι) : Except Abort (Process ι) := do
  let (fs, tree) ← putStep (w.fs, w.tree c.tree) c.put
  .ok (w.withTree c.tree fs tree)

/-- The structs and the blocks, as far as `malloc` granted them, have no byte in common. -/
structure Separate (w : Process ι) : Prop where
  trees : ∀ i j, i ≠ j → Apart (w.treeAt i) lsmSize (w.treeAt j) lsmSize
  blocks : ∀ i j, i ≠ j →
    Apart (w.block i) (8 * (w.tree i).block.granted) (w.block j) (8 * (w.tree j).block.granted)
  treeBlock : ∀ i j, Apart (w.treeAt i) lsmSize (w.block j) (8 * (w.tree j).block.granted)

/-- A tree in memory is inside its block, if the block has the size asked for. -/
theorem tree_safe (w : Process ι) (i : ι) (hlt : (w.tree i).blockSize.toNat < 2 ^ 61)
    (hfits : (w.tree i).nextEmpty.toNat ≤ (w.tree i).blockSize.toNat) : BufferSafe (w.tree i) :=
  ⟨(le_granted_iff _).2 hlt, hfits, fun _ hj => absurd hj List.not_mem_nil⟩

section Stores

-- a put on tree `c` that stored inside the block of `c`
variable {w : Process ι} (hsep : w.Separate) {c : ι} (fs' : FS) {tree' : Lsm}
  (hstores : ∀ j ∈ tree'.block.stores, j < (w.tree c).block.granted)

include hsep hstores

/-- No struct changes but in `next_empty` of the called tree. -/
theorem mem_withTree_struct {i : ι} {x : Nat} (hx : x < lsmSize)
    (hne : i ≠ c ∨ x < nextEmptyAt ∨ nextEmptyAt + 8 ≤ x) :
    (w.withTree c fs' tree').mem (w.treeAt i + x) = w.mem (w.treeAt i + x) := by
  refine storeTree_of_outside hstores ?_ ?_
  · have hapart := hsep.treeBlock i c
    simp only [Apart, block] at hapart
    omega
  · by_cases hi : i = c
    · subst hi
      have hfield := hne.resolve_left (fun h => h rfl)
      omega
    · have hapart := hsep.trees i c hi
      simp only [Apart, lsmSize, nextEmptyAt] at *
      omega

/-- No other block changes. -/
theorem mem_withTree_block {i : ι} (hi : i ≠ c) {x : Nat}
    (hx : x < 8 * (w.tree i).block.granted) :
    (w.withTree c fs' tree').mem (w.block i + x) = w.mem (w.block i + x) := by
  refine storeTree_of_outside hstores ?_ ?_
  · have hapart := hsep.blocks i c hi
    simp only [Apart, block] at *
    omega
  · have hapart := hsep.treeBlock c i
    simp only [Apart, lsmSize, nextEmptyAt] at *
    omega

theorem loadSize_withTree {i : ι} {x : Nat} (hx : x + 8 ≤ lsmSize)
    (hne : i ≠ c ∨ x + 8 ≤ nextEmptyAt ∨ nextEmptyAt + 8 ≤ x) :
    loadSize (w.withTree c fs' tree').mem (w.treeAt i + x) = loadSize w.mem (w.treeAt i + x) := by
  refine loadSize_congr ?_
  intro j hj
  rw [Nat.add_assoc]
  exact mem_withTree_struct hsep fs' hstores (by omega) (hne.imp id (fun h => by omega))

theorem block_withTree (i : ι) : (w.withTree c fs' tree').block i = w.block i :=
  congrArg UInt64.toNat
    (loadSize_withTree hsep fs' hstores (x := blockAt) (by decide) (Or.inr (Or.inr (by decide))))

theorem blockSize_withTree (i : ι) :
    ((w.withTree c fs' tree').tree i).blockSize = (w.tree i).blockSize :=
  loadSize_withTree hsep fs' hstores (x := 0) (by decide) (Or.inr (Or.inl (by decide)))

theorem granted_withTree (i : ι) :
    ((w.withTree c fs' tree').tree i).block.granted = (w.tree i).block.granted :=
  congrArg (fun n : UInt64 => (n * 8).toNat / 8) (blockSize_withTree hsep fs' hstores i)

theorem disk1_withTree (i : ι) :
    ((w.withTree c fs' tree').tree i).disk1 = (w.tree i).disk1 :=
  congrArg w.text
    (loadSize_withTree hsep fs' hstores (x := 32) (by decide) (Or.inr (Or.inr (by decide))))

/-- What is apart stays apart: no pointer and no size changes. -/
theorem Separate.withTree : (w.withTree c fs' tree').Separate := by
  have hblock := block_withTree hsep fs' hstores
  have hgranted := granted_withTree hsep fs' hstores
  refine ⟨hsep.trees, ?_, ?_⟩
  · intro i j hij
    rw [hblock, hblock, hgranted, hgranted]
    exact hsep.blocks i j hij
  · intro i j
    rw [hblock, hgranted]
    exact hsep.treeBlock i j

/-- The other trees hold what they held. -/
theorem tree_withTree_of_ne {i : ι} (hi : i ≠ c)
    (hfits : (w.tree i).nextEmpty.toNat ≤ (w.tree i).block.granted) :
    ((w.withTree c fs' tree').tree i).nextEmpty = (w.tree i).nextEmpty ∧
      ((w.withTree c fs' tree').tree i).buffered = (w.tree i).buffered := by
  have hnext : ((w.withTree c fs' tree').tree i).nextEmpty = (w.tree i).nextEmpty :=
    loadSize_withTree hsep fs' hstores (x := nextEmptyAt) (by decide) (Or.inl hi)
  refine ⟨hnext, ?_⟩
  rw [Lsm.buffered, Lsm.buffered, hnext]
  refine NodeArr.window_congr ?_
  intro x hx
  rw [cells_tree, cells_tree, block_withTree hsep fs' hstores]
  refine nodeLayout.cellAt_congr ?_
  intro j hj
  rw [nodeLayout_width] at hj ⊢
  exact mem_withTree_block hsep fs' hstores hi (by omega)

/-- The called tree holds what the put has left: the cells it stored, and the others as before. -/
theorem tree_withTree_self
    (hcells : ∀ j, j ∉ tree'.block.stores → tree'.block.cells j = (w.tree c).block.cells j)
    (hfits : tree'.nextEmpty.toNat ≤ (w.tree c).block.granted) :
    ((w.withTree c fs' tree').tree c).nextEmpty = tree'.nextEmpty ∧
      ((w.withTree c fs' tree').tree c).buffered = tree'.buffered := by
  have hnext : ((w.withTree c fs' tree').tree c).nextEmpty = tree'.nextEmpty :=
    loadSize_writeBytes _ _ _
  refine ⟨hnext, ?_⟩
  rw [Lsm.buffered, Lsm.buffered, hnext]
  refine NodeArr.window_congr ?_
  intro x hx
  rw [cells_tree, block_withTree hsep fs' hstores]
  -- the store to `next_empty` does not reach the block
  have hframe : nodeLayout.cellAt (fun y => (w.withTree c fs' tree').mem (w.block c + y)) (0 + x) =
      nodeLayout.cellAt (fun y => nodeLayout.writeCells w.mem (w.block c) tree'.block.cells
        tree'.block.stores (w.block c + y)) (0 + x) := by
    refine nodeLayout.cellAt_congr ?_
    intro j hj
    have hapart := hsep.treeBlock c c
    rw [nodeLayout_width] at hj ⊢
    refine writeBytes_of_outside ?_
    rw [length_leBytes]
    simp only [Apart, lsmSize, nextEmptyAt] at *
    omega
  rw [hframe, nodeLayout.cellAt_writeCells]
  by_cases hmem : 0 + x ∈ tree'.block.stores
  · rw [if_pos hmem]
  · rw [if_neg hmem, hcells _ hmem, cells_tree]

end Stores

variable [DecidableEq ι]

/-- A put on one tree, seen from all of them: as if each had memory of its own. -/
theorem step_same {w : Process ι} (hsep : w.Separate) (hsafe : ∀ i, BufferSafe (w.tree i))
    {c : TreeCall ι} (hpos : 1 ≤ (w.tree c.tree).blockSize.toNat) {w₁ : World ι}
    (hstep : w.world.step c = .ok w₁) :
    ∃ w', w.step c = .ok w' ∧ w'.fs = w₁.fs ∧ (∀ i, LooksLike (w₁.trees i) (w'.tree i)) ∧
      w'.Separate := by
  rcases exists_of_bind_eq hstep with ⟨⟨fs', tree'⟩, hput, hok⟩
  cases hok
  rcases put_of_putStep hput with ⟨r, hput'⟩
  have hsafe' : BufferSafe tree' := (hsafe c.tree).put hpos hput'
  have hsize : tree'.blockSize = (w.tree c.tree).blockSize := put_blockSize hput'
  have hroom : tree'.blockSize.toNat ≤ (w.tree c.tree).block.granted := by
    rw [hsize]
    exact (hsafe c.tree).granted
  have hstores : ∀ j ∈ tree'.block.stores, j < (w.tree c.tree).block.granted :=
    fun j hj => Nat.lt_of_lt_of_le (hsafe'.stores j hj) hroom
  refine ⟨w.withTree c.tree fs' tree', ?_, rfl, ?_, hsep.withTree fs' hstores⟩
  · have hput'' : putStep (w.fs, w.tree c.tree) c.put = .ok (fs', tree') := hput
    simp only [step, hput'', bind, Except.bind]
  · intro i
    have hdisk1 := disk1_withTree hsep fs' hstores i
    have hblockSize := blockSize_withTree hsep fs' hstores i
    by_cases hi : i = c.tree
    · subst hi
      rcases tree_withTree_self hsep fs' hstores
        (fun j hj => put_cells_of_not_stored hput' hj) (hsafe'.nextEmpty.trans hroom) with
        ⟨hnext, hbuffered⟩
      simp only [Function.update_self]
      exact ⟨hdisk1.trans (put_disk1 hput').symm, hblockSize.trans hsize.symm, hnext, hbuffered⟩
    · rcases tree_withTree_of_ne hsep fs' hstores hi
        ((hsafe i).nextEmpty.trans (hsafe i).granted) with ⟨hnext, hbuffered⟩
      simp only [Function.update_of_ne hi]
      exact ⟨hdisk1, hblockSize, hnext, hbuffered⟩

end Process

section Interleaving

variable {ι : Type} [Fintype ι] [DecidableEq ι]

/-- In one memory, no node is lost or duplicated by any interleaving of puts on trees that share the
file, as long as no block is smaller than its tree believes: the file and the buffers together hold
the nodes of the initial file and the nodes that were put, the count in the file is the number of
nodes that follow it, and no buffer exceeds its block. -/
theorem interleaved_puts_keep_nodes {treeMem : ι → Bool} {blockMem : ι → Option Heap}
    {sizes : ι → UInt64} {sorted : ι → Bool} {w : Process ι}
    (hinit : ∀ i, initNewLsm (treeMem i) (blockMem i) (sizes i) (sorted i) = some (w.tree i))
    (hsep : w.Separate) (hpos : ∀ i, 1 ≤ (sizes i).toNat) (hlt : ∀ i, (sizes i).toNat < 2 ^ 61)
    {ns : List Node} (hfile : FileHolds w.fs disk1Name ns) {calls : List (TreeCall ι)}
    (hok : ∀ c ∈ calls, c.put.env.Succeeds) (hcount : ns.length + calls.length ≤ intMax) :
    ∃ w', run Process.step w calls = .ok w' ∧
      ∃ ms, FileHolds w'.fs disk1Name ms ∧
        (ms : Multiset Node) + ∑ i, ((w'.tree i).buffered : Multiset Node) =
          (ns : Multiset Node) + (calls.map (fun c => c.put.node) : Multiset Node) ∧
        ∀ i, (w'.tree i).blockSize = sizes i ∧ (w'.tree i).nextEmpty ≤ (w'.tree i).blockSize := by
  have hstart : Kept sizes ns w.world := by
    have hnew := fun i => newTree_of_init (hinit i)
    refine ⟨⟨ns, hfile, ?_⟩, fun i => (hnew i).disk1, fun i => (hnew i).blockSize, ?_⟩
    · have hnone : ∀ i, (w.tree i).buffered = [] := fun i => (hnew i).buffered
      simp [World.buffered, Process.world, hnone]
    · intro i
      simp [Process.world, (hnew i).nextEmpty]
  have hrun := run_total Process.step
    (Q := fun cs : List (TreeCall ι) =>
      (∀ c ∈ cs, c.put.env.Succeeds) ∧ ns.length + cs.length ≤ intMax)
    (P := fun cs w =>
      Kept sizes ((ns : Multiset Node) + (cs.map (fun c => c.put.node) : Multiset Node)) w.world ∧
        w.Separate)
    (s := w) ?_ ⟨by simpa using hstart, hsep⟩ ?_ calls ⟨hok, hcount⟩
  · rcases hrun with ⟨w', hrun, hkept, -⟩
    rcases hkept.file with ⟨ms, hms, hnodes⟩
    exact ⟨w', hrun, ms, hms, hnodes, fun i => ⟨hkept.blockSize i, hkept.nextEmpty i⟩⟩
  · intro cs c hQ
    refine ⟨fun d hd => hQ.1 d (List.mem_append_left [c] hd), ?_⟩
    have hlen := hQ.2
    rw [List.length_append] at hlen
    omega
  · rintro cs c w₁ hQ ⟨hkept, hsep₁⟩
    have hcard : ((ns : Multiset Node) +
        (cs.map (fun c => c.put.node) : Multiset Node)).card ≤ intMax := by
      have hlen := hQ.2
      simp only [List.length_append, List.length_singleton] at hlen
      simp only [Multiset.card_add, Multiset.coe_card, List.length_map]
      omega
    -- every tree is inside its block, so it may as well have memory of its own
    rcases hkept.step hpos (hQ.1 c (by simp)) hcard with ⟨w₂, hstep, hkept₂⟩
    have hsize : ∀ i, (w₁.tree i).blockSize = sizes i := hkept.blockSize
    have hsafe : ∀ i, BufferSafe (w₁.tree i) := by
      intro i
      refine w₁.tree_safe i ?_ (UInt64.le_iff_toNat_le.1 (hkept.nextEmpty i))
      rw [hsize]
      exact hlt i
    have hpos₁ : 1 ≤ (w₁.tree c.tree).blockSize.toNat := by
      rw [hsize]
      exact hpos c.tree
    rcases Process.step_same hsep₁ hsafe hpos₁ hstep with ⟨w', hstep', hfs, htrees, hsep'⟩
    refine ⟨w', hstep', ?_, hsep'⟩
    have hkept' : Kept sizes ((ns : Multiset Node) +
        (cs.map (fun c => c.put.node) : Multiset Node) + {c.put.node}) w'.world :=
      hkept₂.congr hfs htrees
    simpa [← Multiset.coe_add, add_assoc] using hkept'

end Interleaving

/-! ## Two trees -/

/-- Two trees where the allocator of glibc places small chunks: the struct and the block of the first,
then those of the second, each behind a header of eight bytes. -/
def twoTrees (fs : FS) (sizes : Bool → UInt64) (sorted : Bool → Bool) : Process Bool :=
  { fs := fs
    mem := writeBytes
      (writeBytes (fun _ => 0) 16 (structBytes (sizes false) 80 0 (sorted false)))
      112 (structBytes (sizes true) 176 0 (sorted true))
    treeAt := fun i => if i then 112 else 16
    text := fun _ => disk1Name }

theorem initNewLsm_twoTrees (fs : FS) (sizes : Bool → UInt64) (sorted : Bool → Bool) (i : Bool) :
    initNewLsm true (some ((twoTrees fs sizes sorted).tree i).block.cells) (sizes i) (sorted i) =
      some ((twoTrees fs sizes sorted).tree i) := by
  cases i with
  | false =>
      have hfirst : readBytes
          (writeBytes (fun _ => 0) 16 (structBytes (sizes false) 80 0 (sorted false))) 16 41 =
          structBytes (sizes false) 80 0 (sorted false) :=
        readBytes_writeBytes _ _ _
      have hbytes : readBytes (twoTrees fs sizes sorted).mem 16 41 =
          structBytes (sizes false) 80 0 (sorted false) := by
        rw [← hfirst]
        refine readBytes_congr ?_
        intro j hj
        -- the second struct begins behind the first one
        exact writeBytes_of_outside (by omega)
      exact initNewLsm_of_structBytes hbytes rfl
  | true =>
      have hbytes : readBytes (twoTrees fs sizes sorted).mem 112 41 =
          structBytes (sizes true) 176 0 (sorted true) :=
        readBytes_writeBytes _ _ _
      exact initNewLsm_of_structBytes hbytes rfl

def threeCalls : List (TreeCall Bool) :=
  [{ tree := true, put := { node := { key := 2, val := 20 }, env := FlushEnv.quiet } },
    { tree := false, put := { node := { key := 2, val := 21 }, env := FlushEnv.quiet } },
    { tree := true, put := { node := { key := 1, val := 10 }, env := FlushEnv.quiet } }]

/-- An unsorted tree of block size two and a sorted one of block size one, over a file that holds one
node already; the third call flushes. -/
theorem interleaved_puts_keep_nodes_two_trees :
    ∃ w', run Process.step
        (twoTrees (Function.update noFiles disk1Name (some (fileBytes [{ key := 4, val := 40 }])))
          (fun i => if i then 1 else 2) (fun i => i))
        threeCalls = .ok w' ∧
      ∃ ms, FileHolds w'.fs disk1Name ms ∧
        (ms : Multiset Node) + ∑ i, ((w'.tree i).buffered : Multiset Node) =
          ([{ key := 4, val := 40 }] : List Node) +
            ([{ key := 2, val := 20 }, { key := 2, val := 21 }, { key := 1, val := 10 }] :
              List Node) := by
  have hok : ∀ c ∈ threeCalls, c.put.env.Succeeds := by
    simp [threeCalls, FlushEnv.quiet_succeeds]
  have hfile : FileHolds
      (Function.update noFiles disk1Name (some (fileBytes [{ key := 4, val := 40 }])))
      disk1Name [{ key := 4, val := 40 }] :=
    Or.inr ⟨Function.update_self _ _ _, by decide⟩
  have hsep : (twoTrees
      (Function.update noFiles disk1Name (some (fileBytes [{ key := 4, val := 40 }])))
      (fun i => if i then 1 else 2) (fun i => i)).Separate :=
    ⟨by decide +kernel, by decide +kernel, by decide +kernel⟩
  rcases interleaved_puts_keep_nodes (initNewLsm_twoTrees _ _ _) hsep (by decide) (by decide) hfile
    hok (by decide) with ⟨w', hrun, ms, hms, hnodes, -⟩
  exact ⟨w', hrun, ms, hms, hnodes⟩

/-- One put on the second tree, then seven on the first. -/
def eightCalls : List (TreeCall Bool) :=
  { tree := true, put := { node := { key := 9, val := 90 }, env := FlushEnv.quiet } } ::
    List.replicate 7 { tree := false, put := { node := { key := 0, val := 0 }, env := FlushEnv.quiet } }

/-- A tree of size `2 ^ 61` is given a block of no bytes.  The fifth and the seventh node put into it
land on `block_size` and `next_empty` of the second tree, whose node is gone. -/
theorem wrapped_block_loses_node :
    (∀ i, initNewLsm true
        (some ((twoTrees noFiles (fun i => if i then 1 else 2 ^ 61) (fun _ => false)).tree
          i).block.cells) (if i then 1 else 2 ^ 61) false =
      some ((twoTrees noFiles (fun i => if i then 1 else 2 ^ 61) (fun _ => false)).tree i)) ∧
    (twoTrees noFiles (fun i => if i then 1 else 2 ^ 61) (fun _ => false)).Separate ∧
    ∃ w', run Process.step (twoTrees noFiles (fun i => if i then 1 else 2 ^ 61) (fun _ => false))
        eightCalls = .ok w' ∧
      (w'.tree true).buffered = [] ∧ w'.fs disk1Name = none ∧
      ¬ ∃ ms, FileHolds w'.fs disk1Name ms ∧
        (ms : Multiset Node) + ∑ i, ((w'.tree i).buffered : Multiset Node) =
          (eightCalls.map (fun c => c.put.node) : Multiset Node) := by
  refine ⟨initNewLsm_twoTrees _ _ _, ⟨by decide +kernel, by decide +kernel, by decide +kernel⟩, ?_⟩
  have hstate : ((run Process.step
      (twoTrees noFiles (fun i => if i then 1 else 2 ^ 61) (fun _ => false))
      eightCalls).toOption.map (fun w => ((w.tree true).buffered, (w.tree false).buffered,
        w.fs disk1Name))) =
      some ([], List.replicate 7 { key := 0, val := 0 }, none) := by
    decide +kernel
  rcases exists_of_map_eq hstate with ⟨w', hrun, hobs⟩
  simp only [Prod.mk.injEq] at hobs
  rcases hobs with ⟨hsecond, hfirst, hfs⟩
  refine ⟨w', hrun, hsecond, hfs, ?_⟩
  rintro ⟨ms, hms, hnodes⟩
  rcases hms with ⟨-, rfl⟩ | ⟨hsome, -⟩
  · -- seven nodes are left of eight
    have hcard := congrArg Multiset.card hnodes
    simp [hsecond, hfirst, eightCalls] at hcard
  · rw [hfs] at hsome
    cases hsome

end LSMTree
end DBTest
