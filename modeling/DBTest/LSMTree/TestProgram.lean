import DBTest.Library.Decimal
import DBTest.LSMTree.Sessions

/-!
# TestProgram — the program around the tree (`test.c`)

`main` puts the pairs `(i, i)` for `i < data_size` into a new tree and prints the tree.  A program
that ends does not flush: what is still buffered is lost, and the file stays for the next run.

* What is printed depends on memory that was never written: `test_print_tree` looks at the size of
  the file also when `stat` has failed (`main_prints_everything_iff`).
* Over any sequence of runs, also of runs that crash while they print, the file ascends, sorted or
  not, and holds `(i, i)` once for every run that has flushed it (`main_runs_file`).

A printed line is a constructor with the numbers it shows; `perror` and the measured time are left
out.
-/

namespace DBTest
namespace LSMTree

open KeyedMerge
open FallibleRun
open Decimal

/-! ## Printing -/

inductive Line
  | usage
  | time
  | fitsBuffer
  | fitsDisk
  | bufferAndDisk
  | printingDisk
  | numElements (n : Int32)
  | key (k : KeyType)
  | value (v : ValType)
  deriving DecidableEq, Repr

/-- The loop of `print_buffer_data` and of `print_disk_data`; its index is an `int`. -/
def printNodes (cells : Nat → Node) (n i : Nat) : Except Abort (List Line) :=
  if i < n then
    if i = intMax then
      .error .intOverflow
    else do
      let rest ← printNodes cells n (i + 1)
      .ok (.key (cells i).key :: .value (cells i).val :: rest)
  else
    .ok []
termination_by n - i

def printBufferData (tree : Lsm) : Except Abort (List Line) :=
  printNodes tree.block.cells tree.nextEmpty.toNat 0

def printDiskData (env : ReadEnv) (fs : FS) (tree : Lsm) : Except Abort (List Line) :=
  match fs tree.disk1 with
  -- `fread` on the `NULL` stream
  | none => .error .nullPointer
  | some content =>
      if env.fopen then do
        let (num, fileData) := readNodes env content 0
        let lines ← (match fileData with
          | some a => printNodes a.cells num.toNat 0
          -- `fread` into the `NULL` block
          | none => if num = 0 then .ok [] else .error .nullPointer : Except Abort (List Line))
        -- `%d` shows the low half of the `size_t`
        .ok (.printingDisk :: .numElements num.toUInt32.toInt32 :: lines)
      else
        .error .nullPointer

/-- `test_print_tree`: `statMem` is what `s.st_size` holds when `stat` has failed. -/
def testPrintTree (statMem : Int) (env : ReadEnv) (fs : FS) (tree : Lsm) :
    Except Abort (List Line) := do
  let size : Int :=
    match fs tree.disk1 with
    | some content => content.length
    | none => statMem
  let first ←
    if size = 0 ∧ tree.nextEmpty ≠ 0 then do
      let lines ← printBufferData tree
      .ok (.fitsBuffer :: lines)
    else
      .ok []
  let second ←
    if 0 < size ∧ tree.nextEmpty = 0 then do
      let lines ← printDiskData env fs tree
      .ok (.fitsDisk :: lines)
    else
      .ok []
  let third ←
    if 0 < size ∧ tree.nextEmpty ≠ 0 then do
      let buffer ← printBufferData tree
      let disk ← printDiskData env fs tree
      .ok (.bufferAndDisk :: buffer ++ disk)
    else
      .ok []
  .ok (first ++ second ++ third)

/-! ## The program -/

/-- The library calls of one run, and the memory it reads before it is written. -/
structure MainEnv where
  treeMem : Bool
  blockMem : Option Heap
  /-- The calls of the put of the `i`-th pair. -/
  flush : Nat → FlushEnv
  print : ReadEnv
  statMem : Int
  /-- What `testing[3]` holds. -/
  testingMem : UInt8

/-- The `i`-th pair of `test_put`. -/
def testNode (i : Nat) : Node :=
  { key := Int32.ofNat i, val := Int32.ofNat i }

def testCalls (env : MainEnv) (dataSize : Int) : List PutCall :=
  (List.range dataSize.toNat).map (fun i => { node := testNode i, env := env.flush i })

/-- The body of the loop of `test_put`, with its assertion. -/
def testPutStep (s : FS × Lsm) (c : PutCall) : Except Abort (FS × Lsm) := do
  let (fs, tree, r) ← put c.env c.node.key c.node.val s.1 s.2
  if r = 0 then .ok (fs, tree) else .error .assertFailed

def testPut (env : MainEnv) (dataSize : Int) (fs : FS) (tree : Lsm) :
    Except Abort (FS × List Line) := do
  let (fs, tree) ← run testPutStep (fs, tree) (testCalls env dataSize)
  let lines ← testPrintTree env.statMem env.print fs tree
  .ok (fs, .time :: lines)

def isSpace (c : UInt8) : Bool :=
  c == 32 || (9 ≤ c && c ≤ 13)

/-- `atoi`, for texts whose number is an `int`. -/
def atoi (s : List UInt8) : Int :=
  match s.dropWhile isSpace with
  | [] => 0
  | c :: t =>
      if c == 45 then -(value (t.takeWhile isDigit) : Int)
      else if c == 43 then value (t.takeWhile isDigit)
      else value ((c :: t).takeWhile isDigit)

/-- `"put"` with its terminator. -/
def putText : List UInt8 := [112, 117, 116, 0]

/-- The four bytes of `testing` behind the `strncpy` of three. -/
def testingBytes (env : MainEnv) (arg : List UInt8) : List UInt8 :=
  (arg ++ [0, 0, 0]).take 3 ++ [env.testingMem]

def main (env : MainEnv) (argv : List (List UInt8)) (fs : FS) : Except Abort (FS × List Line) :=
  if argv.length < 5 then
    .error .assertFailed
  else
    let dataSize := atoi (argv.getD 1 [])
    let bufferSize := atoi (argv.getD 2 [])
    -- a pointer to any sixth argument is true
    let sorted := argv.length == 6
    let tree := initNewLsm env.treeMem env.blockMem (UInt64.ofInt bufferSize) sorted
    if testingBytes env (argv.getD 4 []) = putText then
      match tree with
      | none => .error .nullPointer
      | some tree => do
          let (fs, lines) ← testPut env dataSize fs tree
          .ok (fs, .usage :: lines)
    else
      .ok (fs, [.usage])

/-! ## What the printing functions print -/

def linesOf (ns : List Node) : List Line :=
  ns.flatMap (fun n => [.key n.key, .value n.val])

def diskLines (ns : List Node) : List Line :=
  .printingDisk :: .numElements (UInt64.ofNat ns.length).toUInt32.toInt32 :: linesOf ns

theorem printNodes_eq (a : NodeArr) {n : Nat} (hn : n ≤ intMax) (m : Nat) {i : Nat}
    (hi : i + m = n) : printNodes a.cells n i = .ok (linesOf (a.window i m)) := by
  induction m generalizing i with
  | zero =>
      have hstop : ¬ i < n := by omega
      rw [printNodes, if_neg hstop]
      rfl
  | succ m ih =>
      have hlt : i < n := by omega
      have hmax : i ≠ intMax := by omega
      rw [printNodes, if_pos hlt, if_neg hmax, ih (show i + 1 + m = n by omega),
        NodeArr.window_succ]
      rfl

theorem printBufferData_eq {tree : Lsm} (h : tree.nextEmpty.toNat ≤ intMax) :
    printBufferData tree = .ok (linesOf tree.buffered) :=
  printNodes_eq tree.block h tree.nextEmpty.toNat (Nat.zero_add _)

theorem printDiskData_eq {env : ReadEnv} (henv : env.Succeeds) {fs : FS} {tree : Lsm}
    {ns : List Node} (hfs : fs tree.disk1 = some (fileBytes ns)) (hlen : ns.length ≤ intMax) :
    printDiskData env fs tree = .ok (diskLines ns) := by
  have hmax : intMax < 2 ^ 64 := by decide
  have hbound : ns.length < 2 ^ 64 := by omega
  rcases readNodes_fileBytes henv hbound 0 with ⟨a, hread, hwin⟩
  have hnum : (UInt64.ofNat ns.length).toNat = ns.length := UInt64.toNat_ofNat_of_lt' hbound
  have hprint := printNodes_eq a hlen ns.length (Nat.zero_add _)
  rw [hwin] at hprint
  simp only [printDiskData, hfs, henv.1, if_true, hread, hnum, hprint, bind, Except.bind]
  rfl

/-- A tree over a file: the file is printed, and in front of it what is buffered. -/
theorem testPrintTree_of_file {env : ReadEnv} (henv : env.Succeeds) (statMem : Int) {fs : FS}
    {tree : Lsm} {ns : List Node} (hfs : fs tree.disk1 = some (fileBytes ns))
    (hlen : ns.length ≤ intMax) (hbuffer : tree.nextEmpty.toNat ≤ intMax) :
    testPrintTree statMem env fs tree =
      .ok (if tree.nextEmpty = 0 then .fitsDisk :: diskLines ns
        else .bufferAndDisk :: linesOf tree.buffered ++ diskLines ns) := by
  have hsize : 0 < (fileBytes ns).length := by
    rw [length_fileBytes]
    omega
  have hne : fileBytes ns ≠ [] := List.ne_nil_of_length_pos hsize
  have hdisk := printDiskData_eq henv hfs hlen
  have hbuf := printBufferData_eq hbuffer
  by_cases hempty : tree.nextEmpty = 0
  · simp [testPrintTree, hfs, hne, hempty, hdisk, bind, Except.bind]
  · simp [testPrintTree, hfs, hne, hsize, hempty, hdisk, hbuf, bind, Except.bind]

/-- Without a file the memory of `s` decides. -/
theorem testPrintTree_of_absent (env : ReadEnv) (statMem : Int) {fs : FS} {tree : Lsm}
    (hfs : fs tree.disk1 = none) (hbuffer : tree.nextEmpty.toNat ≤ intMax) :
    testPrintTree statMem env fs tree =
      if 0 < statMem then .error .nullPointer
      else .ok (if statMem = 0 ∧ tree.nextEmpty ≠ 0 then .fitsBuffer :: linesOf tree.buffered
        else []) := by
  have hdisk : printDiskData env fs tree = .error .nullPointer := by
    simp [printDiskData, hfs]
  have hbuf := printBufferData_eq hbuffer
  by_cases hpos : 0 < statMem
  · rw [if_pos hpos]
    by_cases hempty : tree.nextEmpty = 0
    · simp [testPrintTree, hfs, hpos, hempty, hdisk, bind, Except.bind]
    · simp [testPrintTree, hfs, hpos, hpos.ne', hempty, hdisk, hbuf, bind, Except.bind]
  · rw [if_neg hpos]
    by_cases hzero : statMem = 0 ∧ tree.nextEmpty ≠ 0
    · simp [testPrintTree, hfs, hzero.1, hzero.2, hbuf, bind, Except.bind]
    · have hzero' : ¬ (statMem = 0 ∧ ¬ tree.nextEmpty = 0) := hzero
      simp [testPrintTree, hfs, hpos, hzero', bind, Except.bind]

/-! ## One run -/

/-- A run of the program on `put`, with numbers that are `int`s and succeeding library calls. -/
structure PutRun where
  env : MainEnv
  argv : List (List UInt8)
  argc : 5 ≤ argv.length
  testing : testingBytes env (argv.getD 4 []) = putText
  treeMem : env.treeMem = true
  heap : Heap
  blockMem : env.blockMem = some heap
  flush_succeeds : ∀ i, (env.flush i).Succeeds
  print_succeeds : env.print.Succeeds
  dataSize_ge : -(2 ^ 31) ≤ atoi (argv.getD 1 [])
  dataSize_le : atoi (argv.getD 1 []) ≤ intMax
  bufferSize_pos : 1 ≤ atoi (argv.getD 2 [])
  bufferSize_le : atoi (argv.getD 2 []) ≤ intMax

namespace PutRun

def dataSize (p : PutRun) : Nat :=
  (atoi (p.argv.getD 1 [])).toNat

def bufferSize (p : PutRun) : Nat :=
  (atoi (p.argv.getD 2 [])).toNat

/-- The pairs the run puts. -/
def nodes (p : PutRun) : List Node :=
  (List.range p.dataSize).map testNode

/-- The number of pairs the run flushes. -/
def flushed (p : PutRun) : Nat :=
  flushedCount p.bufferSize p.dataSize

theorem toNat_bufferSize (p : PutRun) :
    (UInt64.ofInt (atoi (p.argv.getD 2 []))).toNat = p.bufferSize := by
  have hmax : (intMax : Int) < 2 ^ 64 := by decide
  have hpos := p.bufferSize_pos
  have hle := p.bufferSize_le
  have hmod : atoi (p.argv.getD 2 []) % 2 ^ 64 = atoi (p.argv.getD 2 []) :=
    Int.emod_eq_of_lt (by omega) (by omega)
  rw [UInt64.ofInt, hmod]
  exact UInt64.toNat_ofNat_of_lt' (show (atoi (p.argv.getD 2 [])).toNat < 2 ^ 64 by omega)

/-- The session of the tree. -/
def session (p : PutRun) : Session where
  heap := p.heap
  bufferSize := UInt64.ofInt (atoi (p.argv.getD 2 []))
  bufferSize_pos := by
    have hpos := p.bufferSize_pos
    rw [toNat_bufferSize, bufferSize]
    omega
  sorted := p.argv.length == 6
  calls := testCalls p.env (atoi (p.argv.getD 1 []))
  calls_succeed := by
    intro c hc
    rcases List.mem_map.1 hc with ⟨i, -, rfl⟩
    exact p.flush_succeeds i

theorem nodesPut_session (p : PutRun) : nodesPut p.session.calls = p.nodes := by
  simp [session, testCalls, nodesPut, nodes, dataSize]

theorem length_calls (p : PutRun) : p.session.calls.length = p.dataSize := by
  simp [session, testCalls, dataSize]

theorem flushed_session (p : PutRun) : p.session.flushed = p.flushed := by
  rw [Session.flushed, length_calls, flushed]
  exact congrArg (fun b => flushedCount b p.dataSize) p.toNat_bufferSize

end PutRun

/-- What a run leaves behind, wherever it ends: the files as they are after its puts, for the printing
writes none. -/
def filesAfter (fs : FS) (p : PutRun) : FS :=
  match initNewLsm p.env.treeMem p.env.blockMem (UInt64.ofInt (atoi (p.argv.getD 2 [])))
      (p.argv.length == 6) with
  | none => fs
  | some tree =>
      (lastState testPutStep (fs, tree) (testCalls p.env (atoi (p.argv.getD 1 [])))).1

/-- Every put that returns returns zero, so the assertion of `test_put` never fails. -/
theorem testPutStep_eq (s : FS × Lsm) (c : PutCall) : testPutStep s c = putStep s c := by
  cases hput : put c.env c.node.key c.node.val s.1 s.2 with
  | error e => simp [testPutStep, putStep, hput, bind, Except.bind]
  | ok result =>
      rcases result with ⟨fs', tree', r⟩
      have hr : r = 0 := by
        by_cases hfull : s.2.nextEmpty = s.2.blockSize
        · rw [put, if_pos hfull] at hput
          rcases exists_of_bind_eq hput with ⟨⟨fs₁, tree₁, r₁⟩, hwrite, hok⟩
          cases hok
          exact (writeToDisk_eq_ok hwrite).2.2
        · rw [put_of_not_full hfull c.env c.node s.1] at hput
          cases hput
          rfl
      simp [testPutStep, putStep, hput, hr, bind, Except.bind]

/-- Nothing is flushed exactly when the pairs fit the buffer. -/
theorem PutRun.flushed_eq_zero_iff (p : PutRun) : p.flushed = 0 ↔ p.dataSize ≤ p.bufferSize := by
  have hpos : 0 < p.bufferSize := by
    have := p.bufferSize_pos
    unfold bufferSize
    omega
  rw [flushed, flushedCount, Nat.mul_eq_zero, Nat.div_eq_zero_iff]
  omega

/-- The state in which the run prints. -/
theorem main_eq (p : PutRun) {fs : FS} {ns : List Node} (hfile : FileHolds fs disk1Name ns)
    (hcount : ns.length + p.flushed ≤ intMax) :
    ∃ fs' tree', main p.env p.argv fs =
        (testPrintTree p.env.statMem p.env.print fs' tree').bind
          (fun lines => .ok (fs', .usage :: .time :: lines)) ∧
      tree'.disk1 = disk1Name ∧ tree'.buffered = p.nodes.drop p.flushed ∧
      FileHolds fs' disk1Name (Session.fileAfter ns p.session) ∧
      (fs' disk1Name = none ↔ fs disk1Name = none ∧ p.dataSize ≤ p.bufferSize) ∧
      filesAfter fs p = fs' := by
  have hsteps : testPutStep = putStep := funext₂ testPutStep_eq
  have hinit : ∃ tree, initNewLsm p.env.treeMem p.env.blockMem p.session.bufferSize p.session.sorted =
      some tree := by
    rw [p.treeMem, p.blockMem]
    exact ⟨_, rfl⟩
  rcases hinit with ⟨tree, hinit⟩
  have hinit' : initNewLsm p.env.treeMem p.env.blockMem
      (UInt64.ofInt (atoi (p.argv.getD 2 []))) (p.argv.length == 6) = some tree := hinit
  have hputs : ∀ {fs' tree'}, run putStep (fs, tree) p.session.calls = .ok (fs', tree') →
      run testPutStep (fs, tree) (testCalls p.env (atoi (p.argv.getD 1 []))) =
        .ok (fs', tree') := by
    intro fs' tree' hrun
    rw [hsteps]
    exact hrun
  have hmain : ∀ {fs' tree'}, run putStep (fs, tree) p.session.calls = .ok (fs', tree') →
      main p.env p.argv fs = (testPrintTree p.env.statMem p.env.print fs' tree').bind
          (fun lines => .ok (fs', .usage :: .time :: lines)) := by
    intro fs' tree' hrun
    rw [main, if_neg (Nat.not_lt.2 p.argc)]
    simp only [hinit', p.testing, if_true, testPut, hputs hrun, bind, Except.bind]
    cases testPrintTree p.env.statMem p.env.print fs' tree' with
    | error e => rfl
    | ok lines => rfl
  have hrep := init_represents hinit p.session.bufferSize_pos hfile
  have hbound : ns.length + flushedCount p.session.bufferSize.toNat (0 + p.session.calls.length) ≤
      intMax := by
    rw [Nat.zero_add]
    have hflushed := p.flushed_session
    unfold Session.flushed at hflushed
    omega
  rcases run_represents hrep p.session.calls_succeed hbound with ⟨fs', tree', hrun, hrep', hsame⟩
  have hdisk1 : tree'.disk1 = disk1Name := hsame.disk1.trans (newTree_of_init hinit).disk1
  have hfile' : FileHolds fs' disk1Name (Session.fileAfter ns p.session) := by
    have hholds := hrep'.file
    rw [hdisk1] at hholds
    rw [Session.fileAfter_eq]
    exact hholds
  refine ⟨fs', tree', hmain hrun, hdisk1, ?_, hfile', ?_, ?_⟩
  · rw [hrep'.buffer, Store.puts_buffer Node.key rfl, p.nodesPut_session, ← p.flushed_session,
      Session.flushed, flushedCount, ← p.nodesPut_session, length_nodesPut]
    rfl
  · by_cases hfits : p.dataSize ≤ p.bufferSize
    · -- nothing is written
      have hle : p.session.calls.length ≤ p.session.bufferSize.toNat := by
        rw [p.length_calls]
        exact hfits.trans (Nat.le_of_eq p.toNat_bufferSize.symm)
      rcases run_unflushed hinit fs hle with ⟨tree'', hrun', -⟩
      have hsame' : fs' = fs := by
        rw [hrun] at hrun'
        cases hrun'
        rfl
      rw [hsame']
      exact ⟨fun h => ⟨h, hfits⟩, fun h => h.1⟩
    · have hlen := p.session.length_fileAfter ns
      have hpos := mt p.flushed_eq_zero_iff.1 hfits
      rw [p.flushed_session] at hlen
      constructor
      · intro hnone
        rcases hfile' with ⟨-, hnil⟩ | ⟨hsome, -⟩
        · rw [hnil, List.length_nil] at hlen
          omega
        · rw [hnone] at hsome
          cases hsome
      · intro h
        exact absurd h.2 hfits
  · simp only [filesAfter, hinit', lastState_of_run testPutStep (hputs hrun)]

/-- What a session adds to the file. -/
theorem Session.fileAfter_perm (s : Session) (ns : List Node) :
    (fileAfter ns s).Perm (ns ++ (nodesPut s.calls).take s.flushed) := by
  have hperm := Store.puts_perm Node.key (s.store ns) (nodesPut s.calls)
  have hbuffer : ((s.store ns).puts Node.key (nodesPut s.calls)).buffer =
      (nodesPut s.calls).drop s.flushed := by
    rw [Store.puts_buffer Node.key rfl, length_nodesPut]
    rfl
  have hstart : (s.store ns).disk ++ (s.store ns).buffer = ns := List.append_nil ns
  rw [← fileAfter_eq, hbuffer, hstart] at hperm
  nth_rewrite 2 [← List.take_append_drop s.flushed (nodesPut s.calls)] at hperm
  rw [← List.append_assoc] at hperm
  exact (List.perm_append_right_iff _).1 hperm

/-! ## What is printed -/

/-- The nodes among the printed lines. -/
def printedNodes : List Line → List Node
  | .key k :: .value v :: lines => { key := k, val := v } :: printedNodes lines
  | _ :: lines => printedNodes lines
  | [] => []

theorem printedNodes_linesOf (ns : List Node) (lines : List Line) :
    printedNodes (linesOf ns ++ lines) = ns ++ printedNodes lines := by
  induction ns with
  | nil => rfl
  | cons n ns ih =>
      have hcons : linesOf (n :: ns) ++ lines = .key n.key :: .value n.val :: (linesOf ns ++ lines) :=
        rfl
      rw [hcons, printedNodes, ih]
      rfl

theorem printedNodes_diskLines (ns : List Node) : printedNodes (diskLines ns) = ns := by
  have hlines := printedNodes_linesOf ns []
  rw [List.append_nil] at hlines
  exact hlines.trans (List.append_nil ns)

/-- The run ends and its lines show what was stored before and what it has put, each node once. -/
def PrintsEverything (p : PutRun) (fs : FS) (ns : List Node) : Prop :=
  ∃ fs' lines, main p.env p.argv fs = .ok (fs', lines) ∧ (printedNodes lines).Perm (ns ++ p.nodes)

/-- When there is a file at the end, the run ends and everything is printed. -/
theorem main_of_file (p : PutRun) {fs : FS} {ns : List Node}
    (hfile : FileHolds fs disk1Name ns) (hcount : ns.length + p.flushed ≤ intMax)
    (h : ¬ (fs disk1Name = none ∧ p.dataSize ≤ p.bufferSize)) :
    ∃ fs' lines, main p.env p.argv fs = .ok (fs', lines) ∧
      fs' disk1Name = some (fileBytes (Session.fileAfter ns p.session)) ∧
      (printedNodes lines).Perm (ns ++ p.nodes) := by
  rcases main_eq p hfile hcount with ⟨fs', tree', hmain, hdisk1, hbuffer, hfile', hnone, -⟩
  have hsome : fs' disk1Name = some (fileBytes (Session.fileAfter ns p.session)) := by
    rcases hfile' with ⟨habsent, -⟩ | ⟨hsome, -⟩
    · exact absurd (hnone.1 habsent) h
    · exact hsome
  have hlen := p.session.length_fileAfter ns
  rw [p.flushed_session] at hlen
  have hnodes : p.nodes.length = p.dataSize := by simp [PutRun.nodes]
  have hnext : tree'.nextEmpty.toNat = p.dataSize - p.flushed := by
    rw [← length_buffered, hbuffer, List.length_drop, hnodes]
  have hdata : p.dataSize ≤ intMax := by
    have := p.dataSize_le
    unfold PutRun.dataSize
    omega
  have hfs : fs' tree'.disk1 = some (fileBytes (Session.fileAfter ns p.session)) := by
    rw [hdisk1]
    exact hsome
  have hprint := testPrintTree_of_file p.print_succeeds p.env.statMem hfs (by omega) (by omega)
  refine ⟨fs', _, by rw [hmain, hprint]; rfl, hsome, ?_⟩
  have hperm := p.session.fileAfter_perm ns
  rw [p.nodesPut_session, p.flushed_session] at hperm
  by_cases hempty : tree'.nextEmpty = 0
  · -- everything has been flushed
    have hdrop : p.nodes.drop p.flushed = [] := by
      rw [← hbuffer]
      simp [Lsm.buffered, hempty]
    have htake : p.nodes.take p.flushed = p.nodes := by
      have hsplit := List.take_append_drop p.flushed p.nodes
      rwa [hdrop, List.append_nil] at hsplit
    rw [htake] at hperm
    rw [if_pos hempty]
    exact (List.Perm.of_eq (printedNodes_diskLines _)).trans hperm
  · rw [if_neg hempty]
    have hlines : printedNodes (.usage :: .time :: (.bufferAndDisk :: linesOf tree'.buffered ++
        diskLines (Session.fileAfter ns p.session))) =
        p.nodes.drop p.flushed ++ Session.fileAfter ns p.session := by
      have hnodes' := printedNodes_linesOf tree'.buffered (diskLines (Session.fileAfter ns p.session))
      rw [printedNodes_diskLines, hbuffer] at hnodes'
      rw [hbuffer]
      exact hnodes'
    rw [hlines]
    calc
      (p.nodes.drop p.flushed ++ Session.fileAfter ns p.session).Perm
          (Session.fileAfter ns p.session ++ p.nodes.drop p.flushed) := List.perm_append_comm
      List.Perm _ (ns ++ p.nodes.take p.flushed ++ p.nodes.drop p.flushed) :=
          hperm.append_right _
      _ = ns ++ p.nodes := by rw [List.append_assoc, List.take_append_drop]

/-- Without a file the printed lines depend on the memory of `s`. -/
theorem printsEverything_of_absent (p : PutRun) {fs : FS} (hfs : fs disk1Name = none)
    (hfits : p.dataSize ≤ p.bufferSize) :
    PrintsEverything p fs [] ↔ p.env.statMem = 0 ∨ (p.dataSize = 0 ∧ p.env.statMem < 0) := by
  have hfile : FileHolds fs disk1Name [] := Or.inl ⟨hfs, rfl⟩
  have hzero := p.flushed_eq_zero_iff.2 hfits
  rcases main_eq p hfile (by rw [hzero]; decide) with
    ⟨fs', tree', hmain, hdisk1, hbuffer, -, hnone, -⟩
  have hnodes : p.nodes.length = p.dataSize := by simp [PutRun.nodes]
  rw [hzero, List.drop_zero] at hbuffer
  have hnext : tree'.nextEmpty.toNat = p.dataSize := by
    rw [← length_buffered, hbuffer, hnodes]
  have hdata : p.dataSize ≤ intMax := by
    have := p.dataSize_le
    unfold PutRun.dataSize
    omega
  have hempty : tree'.nextEmpty = 0 ↔ p.dataSize = 0 := by
    rw [← UInt64.toNat_inj, hnext]
    rfl
  have habsent : fs' tree'.disk1 = none := by
    rw [hdisk1]
    exact hnone.2 ⟨hfs, hfits⟩
  have hprint := testPrintTree_of_absent p.env.print p.env.statMem habsent (by omega)
  rw [hprint] at hmain
  by_cases hpos : 0 < p.env.statMem
  · rw [if_pos hpos] at hmain
    constructor
    · rintro ⟨fs'', lines, hok, -⟩
      rw [hmain] at hok
      cases hok
    · omega
  · rw [if_neg hpos] at hmain
    by_cases hstat : p.env.statMem = 0 ∧ tree'.nextEmpty ≠ 0
    · rw [if_pos hstat] at hmain
      refine ⟨fun _ => Or.inl hstat.1, fun _ => ⟨fs', _, hmain, List.Perm.of_eq ?_⟩⟩
      have hlines := printedNodes_linesOf tree'.buffered []
      rw [List.append_nil, hbuffer] at hlines
      rw [List.nil_append, hbuffer]
      exact hlines.trans (List.append_nil _)
    · rw [if_neg hstat] at hmain
      rw [not_and, not_not, hempty] at hstat
      constructor
      · rintro ⟨fs'', lines, hok, hperm⟩
        rw [hmain] at hok
        cases hok
        -- nothing was printed
        have hlen := hperm.length_eq
        rw [List.nil_append, hnodes] at hlen
        have hnil : p.dataSize = 0 := hlen.symm
        omega
      · intro h
        have hdata0 : p.dataSize = 0 := by
          rcases h with h | h
          · exact hstat h
          · exact h.1
        refine ⟨fs', _, hmain, List.Perm.of_eq ?_⟩
        have hnil : p.nodes = [] := List.eq_nil_of_length_eq_zero (hnodes.trans hdata0)
        rw [hnil]
        rfl

/-- The program prints everything exactly when there is a file in the end, from before or from a flush
of its own, or when the memory that `stat` has not filled happens to hold a zero size; a run without
data may also find a negative one there. -/
theorem main_prints_everything_iff (p : PutRun) {fs : FS} {ns : List Node}
    (hfile : FileHolds fs disk1Name ns) (hcount : ns.length + p.flushed ≤ intMax) :
    PrintsEverything p fs ns ↔
      fs disk1Name ≠ none ∨ p.bufferSize < p.dataSize ∨ p.env.statMem = 0 ∨
        (p.dataSize = 0 ∧ p.env.statMem < 0) := by
  by_cases h : fs disk1Name = none ∧ p.dataSize ≤ p.bufferSize
  · have hnil : ns = [] := by
      rcases hfile with ⟨-, hnil⟩ | ⟨hsome, -⟩
      · exact hnil
      · rw [h.1] at hsome
        cases hsome
    subst hnil
    rw [printsEverything_of_absent p h.1 h.2]
    have hnot : ¬ (fs disk1Name ≠ none ∨ p.bufferSize < p.dataSize) := by
      rintro (hne | hlt)
      · exact hne h.1
      · omega
    constructor
    · intro hstat
      exact Or.inr (Or.inr hstat)
    · rintro (hne | hlt | hstat)
      · exact absurd (Or.inl hne) hnot
      · exact absurd (Or.inr hlt) hnot
      · exact hstat
  · rcases main_of_file p hfile hcount h with ⟨fs', lines, hmain, -, hperm⟩
    refine ⟨fun _ => ?_, fun _ => ⟨fs', lines, hmain, hperm⟩⟩
    by_cases hnone : fs disk1Name = none
    · exact Or.inr (Or.inl (Nat.lt_of_not_le (fun hle => h ⟨hnone, hle⟩)))
    · exact Or.inl hnone

/-- `lsm 3 2 0 put`, with a buffer of two pairs. -/
def threePairs (statMem : Int) : PutRun where
  env :=
    { treeMem := true
      blockMem := some zeroHeap
      flush := fun _ => FlushEnv.quiet
      print := ReadEnv.quiet
      statMem := statMem
      testingMem := 0 }
  argv := [[108, 115, 109], [51], [50], [48], [112, 117, 116]]
  argc := by decide
  testing := rfl
  treeMem := rfl
  heap := zeroHeap
  blockMem := rfl
  flush_succeeds _ := FlushEnv.quiet_succeeds
  print_succeeds := ReadEnv.quiet_succeeds
  dataSize_ge := by decide
  dataSize_le := by decide
  bufferSize_pos := by decide
  bufferSize_le := by decide

theorem main_prints_everything_three_pairs : PrintsEverything (threePairs 7) noFiles [] := by
  have hfile : FileHolds noFiles disk1Name [] := Or.inl ⟨rfl, rfl⟩
  exact (main_prints_everything_iff (threePairs 7) hfile (by decide)).2 (Or.inr (Or.inl (by decide)))

/-! ## Runs one after the other -/

/-- What a run leaves behind that comes to its end. -/
def mainStep (fs : FS) (p : PutRun) : Except Abort FS := do
  let (fs, _) ← main p.env p.argv fs
  .ok fs

theorem testNode_le_iff {i j : Nat} (hi : i ≤ intMax) (hj : j ≤ intMax) :
    (testNode i).key ≤ (testNode j).key ↔ i ≤ j := by
  have hmax : intMax < 2 ^ 31 := by decide
  have hint : ∀ {k : Nat}, k ≤ intMax → (Int32.ofNat k).toInt = k := by
    intro k hk
    exact Int32.toInt_ofNat_of_lt (by omega)
  change Int32.ofNat i ≤ Int32.ofNat j ↔ _
  rw [Int32.le_iff_toInt_le, hint hi, hint hj]
  omega

theorem testNode_inj {i j : Nat} (hi : i ≤ intMax) (hj : j ≤ intMax)
    (h : testNode i = testNode j) : i = j := by
  have hij := (testNode_le_iff hi hj).1 (by rw [h])
  have hji := (testNode_le_iff hj hi).1 (by rw [h])
  omega

namespace PutRun

/-- The pairs the run flushes. -/
def flushedNodes (p : PutRun) : List Node :=
  (List.range p.flushed).map testNode

theorem flushed_le (p : PutRun) : p.flushed ≤ intMax := by
  have hle := flushedCount_le p.bufferSize p.dataSize
  have hdata := p.dataSize_le
  unfold flushed
  unfold dataSize at *
  omega

theorem take_nodes (p : PutRun) : p.nodes.take p.flushed = p.flushedNodes := by
  have hle : p.flushed ≤ p.dataSize := flushedCount_le p.bufferSize p.dataSize
  rw [nodes, flushedNodes, ← List.map_take, List.take_range, Nat.min_eq_left hle]

theorem nodes_ascending (p : PutRun) : Ascending Node.key p.nodes := by
  have hdata := p.dataSize_le
  rw [nodes, Ascending, List.pairwise_map]
  refine List.Pairwise.imp_of_mem ?_ List.pairwise_lt_range
  intro i j hi hj hlt
  have hi' := List.mem_range.1 hi
  have hj' := List.mem_range.1 hj
  unfold dataSize at hi' hj'
  exact (testNode_le_iff (by omega) (by omega)).2 hlt.le

/-- The run keeps an ascending file ascending, also when it does not sort. -/
theorem fileAfter_ascending (p : PutRun) {ns : List Node} (h : Ascending Node.key ns) :
    Ascending Node.key (Session.fileAfter ns p.session) := by
  rw [Session.fileAfter_ascending_iff]
  refine ⟨h, ?_⟩
  intro _ b hb
  rw [Session.blocks, p.nodesPut_session, Store.blocks] at hb
  rcases List.mem_map.1 hb with ⟨j, -, rfl⟩
  exact p.nodes_ascending.sublist ((List.take_sublist _ _).trans (List.drop_sublist _ _))

theorem nodup_flushedNodes (p : PutRun) : p.flushedNodes.Nodup := by
  have hle := p.flushed_le
  refine List.Nodup.map_on ?_ List.nodup_range
  intro i hi j hj hij
  have hi' := List.mem_range.1 hi
  have hj' := List.mem_range.1 hj
  exact testNode_inj (by omega) (by omega) hij

theorem testNode_mem_flushedNodes (p : PutRun) {i : Nat} (hi : i ≤ intMax) :
    testNode i ∈ p.flushedNodes ↔ i < p.flushed := by
  have hle := p.flushed_le
  constructor
  · intro hmem
    rcases List.mem_map.1 hmem with ⟨j, hj, hij⟩
    have hj' := List.mem_range.1 hj
    rwa [← testNode_inj (by omega) hi hij]
  · intro hlt
    exact List.mem_map.2 ⟨i, List.mem_range.2 hlt, rfl⟩

end PutRun

def flushedByRuns (ps : List PutRun) : List Node :=
  (ps.map PutRun.flushedNodes).flatten

theorem flushedByRuns_concat (ps : List PutRun) (p : PutRun) :
    flushedByRuns (ps ++ [p]) = flushedByRuns ps ++ p.flushedNodes := by
  simp [flushedByRuns]

theorem length_flushedByRuns (ps : List PutRun) :
    (flushedByRuns ps).length = (ps.map PutRun.flushed).sum := by
  induction ps with
  | nil => rfl
  | cons p ps ih =>
      have hcons : flushedByRuns (p :: ps) = p.flushedNodes ++ flushedByRuns ps := rfl
      rw [hcons, List.length_append, ih]
      simp [PutRun.flushedNodes]

theorem count_flushedByRuns (ps : List PutRun) {i : Nat} (hi : i ≤ intMax) :
    (flushedByRuns ps).count (testNode i) = ps.countP (fun p => decide (i < p.flushed)) := by
  induction ps with
  | nil => rfl
  | cons p ps ih =>
      have hcons : flushedByRuns (p :: ps) = p.flushedNodes ++ flushedByRuns ps := rfl
      have hone : p.flushedNodes.count (testNode i) = if i < p.flushed then 1 else 0 := by
        have hmem := p.testNode_mem_flushedNodes hi
        split_ifs with hlt
        · exact List.count_eq_one_of_mem p.nodup_flushedNodes (hmem.2 hlt)
        · exact List.count_eq_zero_of_not_mem (fun h => hlt (hmem.1 h))
      rw [hcons, List.count_append, ih, hone, List.countP_cons]
      simp [Nat.add_comm]

/-- The file after any sequence of runs, wherever they ended. -/
theorem filesAfter_runs {fs : FS} (hfs : fs disk1Name = none) (ps : List PutRun)
    (hcount : (ps.map PutRun.flushed).sum ≤ intMax) :
    ∃ ns, FileHolds (ps.foldl filesAfter fs) disk1Name ns ∧ Ascending Node.key ns ∧
      ns.Perm (flushedByRuns ps) := by
  induction ps using List.reverseRecOn with
  | nil => exact ⟨[], Or.inl ⟨hfs, rfl⟩, List.Pairwise.nil, List.Perm.refl _⟩
  | append_singleton qs p ih =>
      rw [List.map_append, List.sum_append, List.map_singleton, List.sum_singleton] at hcount
      rcases ih (by omega) with ⟨ns, hfile, hasc, hperm⟩
      have hlen := hperm.length_eq
      rw [length_flushedByRuns] at hlen
      -- the run finds the file of the runs before it
      rcases main_eq p hfile (by omega) with ⟨fs', -, -, -, -, hfile', -, hfiles⟩
      rw [List.foldl_append, List.foldl_cons, List.foldl_nil, hfiles]
      refine ⟨_, hfile', p.fileAfter_ascending hasc, ?_⟩
      have hadds := p.session.fileAfter_perm ns
      rw [p.nodesPut_session, p.flushed_session, p.take_nodes] at hadds
      rw [flushedByRuns_concat]
      exact hadds.trans (hperm.append_right _)

/-- A run that comes to its end leaves these files. -/
theorem filesAfter_of_mainStep {fs fs' : FS} {p : PutRun} {ns : List Node}
    (hfile : FileHolds fs disk1Name ns) (hcount : ns.length + p.flushed ≤ intMax)
    (h : mainStep fs p = .ok fs') : fs' = filesAfter fs p := by
  rcases main_eq p hfile hcount with ⟨fs₁, tree₁, hmain, -, -, -, -, hfiles⟩
  rcases exists_of_bind_eq h with ⟨⟨fs₂, lines⟩, hok, hend⟩
  rw [hmain] at hok
  rcases exists_of_bind_eq hok with ⟨lines', -, hok'⟩
  cases hok'
  cases hend
  exact hfiles.symm

/-- Over any sequence of runs that starts without a file, the file ascends whether the runs sort or
not, and holds the pair of `i` once for every run that has flushed it and nothing else: what a run
has only buffered is lost.  It does not matter whether the runs end or crash while they print. -/
theorem main_runs_file {fs : FS} (hfs : fs disk1Name = none) {ps : List PutRun}
    (hcount : (ps.map PutRun.flushed).sum ≤ intMax) :
    Ascending Node.key (storedNodes (ps.foldl filesAfter fs) disk1Name) ∧
      (∀ i, i ≤ intMax → (storedNodes (ps.foldl filesAfter fs) disk1Name).count (testNode i) =
        ps.countP (fun p => decide (i < p.flushed))) ∧
      (∀ n ∈ storedNodes (ps.foldl filesAfter fs) disk1Name,
        ∃ p ∈ ps, ∃ i, i < p.flushed ∧ n = testNode i) ∧
      ∀ fs', run mainStep fs ps = .ok fs' → fs' = ps.foldl filesAfter fs := by
  rcases filesAfter_runs hfs ps hcount with ⟨ns, hfile, hasc, hperm⟩
  rw [hfile.storedNodes_eq]
  refine ⟨hasc, ?_, ?_, ?_⟩
  · intro i hi
    rw [hperm.count_eq, count_flushedByRuns ps hi]
  · intro n hn
    rcases List.mem_flatten.1 (hperm.mem_iff.1 hn) with ⟨ms, hms, hn'⟩
    rcases List.mem_map.1 hms with ⟨p, hp, rfl⟩
    rcases List.mem_map.1 hn' with ⟨i, hi, rfl⟩
    exact ⟨p, hp, i, List.mem_range.1 hi, rfl⟩
  · intro fs' hrun
    refine run_preserves mainStep
      (P := fun qs f => (qs.map PutRun.flushed).sum ≤ intMax → f = qs.foldl filesAfter fs)
      (fun _ => rfl) ?_ ps fs' hrun hcount
    intro qs p f g hP hstep hsum
    rw [List.map_append, List.sum_append, List.map_singleton, List.sum_singleton] at hsum
    rcases filesAfter_runs hfs qs (by omega) with ⟨ms, hms, -, hperm'⟩
    have hlen := hperm'.length_eq
    rw [length_flushedByRuns] at hlen
    rw [List.foldl_append, List.foldl_cons, List.foldl_nil]
    rw [hP (by omega)] at hstep
    exact filesAfter_of_mainStep hms (by omega) hstep

/-- `lsm 3 5 0 put`, with a buffer that the pairs fit. -/
def fivePlaces (statMem : Int) : PutRun :=
  { threePairs statMem with
    argv := [[108, 115, 109], [51], [53], [48], [112, 117, 116]]
    argc := by decide
    testing := rfl
    dataSize_ge := by decide
    dataSize_le := by decide
    bufferSize_pos := by decide
    bufferSize_le := by decide }

/-- `lsm 3 5 0 put` without a file: nothing is flushed, and the printing crashes when the memory of `s`
holds a positive size.  Two runs of `lsm 3 2 0 put` after it flush two of their three pairs each. -/
theorem main_runs_file_three_runs :
    mainStep noFiles (fivePlaces 7) = .error .nullPointer ∧
      (storedNodes ([fivePlaces 7, threePairs 7, threePairs 7].foldl filesAfter noFiles)
        disk1Name).count (testNode 1) = 2 ∧
      (storedNodes ([fivePlaces 7, threePairs 7, threePairs 7].foldl filesAfter noFiles)
        disk1Name).count (testNode 2) = 0 := by
  have hfile : FileHolds noFiles disk1Name [] := Or.inl ⟨rfl, rfl⟩
  have hruns := @main_runs_file noFiles rfl [fivePlaces 7, threePairs 7, threePairs 7] (by decide)
  refine ⟨?_, ?_, ?_⟩
  · rcases main_eq (fivePlaces 7) hfile (by decide) with
      ⟨fs', tree', hmain, hdisk1, hbuffer, -, hnone, -⟩
    have habsent : fs' tree'.disk1 = none := by
      rw [hdisk1]
      exact hnone.2 ⟨rfl, by decide⟩
    have hnext : tree'.nextEmpty.toNat = 3 := by
      rw [← length_buffered, hbuffer]
      decide
    rw [testPrintTree_of_absent (fivePlaces 7).env.print (fivePlaces 7).env.statMem habsent
      (by rw [hnext]; decide), if_pos (by decide)] at hmain
    rw [mainStep, hmain]
    rfl
  · rw [hruns.2.1 1 (by decide)]
    decide
  · rw [hruns.2.1 2 (by decide)]
    decide

end LSMTree
end DBTest
