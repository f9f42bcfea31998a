import Mathlib.Data.List.Perm.Subperm
import DBTest.LSMTree.Safety

/-!
# Failures — a flush whose library calls fail

`write_to_disk` truncates the file before it writes it, prints what went wrong, forgets the buffer in
any case and returns zero.  So a flush keeps the nodes only when its calls do all they are asked for
(`FlushKeeps`): along every run whose puts meet that condition nothing is lost, and a put that does
not meet it loses something (`failed_flush_loses_nothing_iff`).
-/

namespace DBTest
namespace LSMTree

open ByteLayout
open KeyedMerge
open FallibleRun

/-! ## What a file holds -/

/-- The nodes of a file that its count covers and that are there as a whole. -/
def heldNodes (content : List UInt8) : List Node :=
  (List.range (min (leNat (content.take 8)) ((content.length - 8) / 8))).map
    (fun i => nodeLayout.decode ((content.drop (8 + 8 * i)).take 8))

/-- The nodes held under a name; an absent file holds none. -/
def heldIn (fs : FS) (name : String) : List Node :=
  match fs name with
  | none => []
  | some content => heldNodes content

theorem length_heldNodes (content : List UInt8) :
    (heldNodes content).length = min (leNat (content.take 8)) ((content.length - 8) / 8) := by
  simp [heldNodes]

/-- A well-formed file holds all its nodes. -/
theorem heldNodes_fileBytes {ns : List Node} (h : ns.length < 2 ^ 64) :
    heldNodes (fileBytes ns) = ns := by
  have hfit : ((fileBytes ns).length - 8) / 8 = ns.length := by
    rw [length_fileBytes]
    omega
  have hnodes : nodesOfBytes (fileBytes ns) = ns := nodesOfBytes_fileBytes h
  rw [nodesOfBytes, leNat_take_fileBytes h] at hnodes
  rw [heldNodes, leNat_take_fileBytes h, hfit, Nat.min_self, hnodes]

theorem FileHolds.heldIn_eq {fs : FS} {name : String} {ns : List Node}
    (h : FileHolds fs name ns) : heldIn fs name = ns := by
  rcases h with ⟨hfs, rfl⟩ | ⟨hfs, hlen⟩
  · simp [heldIn, hfs]
  · simpa [heldIn, hfs] using heldNodes_fileBytes hlen

theorem heldIn_update (fs : FS) (name : String) (content : List UInt8) :
    heldIn (Function.update fs name (some content)) name = heldNodes content := by
  simp [heldIn]

/-- A file that starts with eight zeros counts no nodes. -/
theorem heldNodes_of_zeros {bs : List UInt8} (b : Nat) :
    (heldNodes ((List.replicate 8 0 ++ bs).take b)).length = 0 := by
  have hzeros : leNat (List.replicate (min b 8) 0) = 0 := leNat_append_zeros [] (min b 8)
  have htake : ((List.replicate 8 0 ++ bs).take b).take 8 = List.replicate (min b 8) (0 : UInt8) := by
    rw [List.take_take, Nat.min_comm, List.take_append_of_le_length (by simp), List.take_replicate]
    simp
  rw [length_heldNodes, htake, hzeros, Nat.zero_min]

/-! ## What the calls of a flush have to do -/

/-- The reading calls bring back the nodes `ns` of the file, up to their order.  A node that `fread`
does not get is replaced by what the allocated memory holds, and a count that is not read stays
zero. -/
def ReadEnv.Recovers (env : ReadEnv) (ns : List Node) : Prop :=
  env.fopen = true ∧ ∃ heap, env.fileMem = some heap ∧
    if env.freadCount then
      ((List.range' (env.got ns.length) (ns.length - env.got ns.length)).map heap).Perm
        (ns.drop (env.got ns.length))
    else
      ns = []

/-- The calls of a flush read the stored nodes, if there is a file, and write them and the buffered
nodes; the counts fit into an `int`. -/
structure FlushKeeps (env : FlushEnv) (fs : FS) (tree : Lsm) : Prop where
  count : (storedNodes fs tree.disk1).length + tree.nextEmpty.toNat ≤ intMax
  reads : fs tree.disk1 = none ∨ env.read.Recovers (storedNodes fs tree.disk1)
  writes : env.write.Writes ((storedNodes fs tree.disk1).length + tree.nextEmpty.toNat)

/-- A put that flushes meets the condition. -/
def PutKeeps (env : FlushEnv) (fs : FS) (tree : Lsm) : Prop :=
  tree.nextEmpty = tree.blockSize → FlushKeeps env fs tree

/-- A put that flushes returns; then the file holds the nodes it held and the buffered nodes, or else
the result is not zero and each of these nodes is still in the file or in the buffer. -/
def LosesNothing (env : FlushEnv) (n : Node) (fs : FS) (tree : Lsm) : Prop :=
  tree.nextEmpty = tree.blockSize →
    ∃ fs' tree' r, put env n.key n.val fs tree = .ok (fs', tree', r) ∧
      ((heldIn fs tree.disk1 ++ tree.buffered).Subperm (heldIn fs' tree.disk1) ∨
        (r ≠ 0 ∧ (heldIn fs tree.disk1 ++ tree.buffered).Subperm
          (heldIn fs' tree.disk1 ++ tree'.buffered)))

/-! ## Writing -/

/-- What a flush that gets to its end has written: the count and the nodes, as far as the calls went
and as far as the bytes reached the file.  A count that is not written is missing, or zero when the
`fseek` behind it leaves a hole. -/
theorem writeNodes_eq_ok {env : WriteEnv} {num : UInt64} {a : NodeArr} {content : List UInt8}
    (h : writeNodes env true num a = .ok content) :
    env.fopen = true ∧ ∃ body full : List UInt8,
      body.length = 8 * min num.toNat (env.fwriteNodes.getD num.toNat) ∧
      content = full.take (env.fclose.getD full.length) ∧
      ((env.fwriteCount = true ∧ full = leBytes 8 num.toNat ++ body) ∨
        (env.fwriteCount = false ∧ (full = body ∨ full = List.replicate 8 0 ++ body))) := by
  cases hopen : env.fopen with
  | false =>
      simp only [writeNodes, hopen] at h
      cases h
  | true =>
      have hbody := nodeLayout.length_encodeAll
        (a.window 0 (min num.toNat (env.fwriteNodes.getD num.toNat)))
      rw [NodeArr.length_window, nodeLayout_width] at hbody
      simp only [writeNodes, hopen, if_true, Bool.true_and] at h
      refine ⟨rfl, _, _, hbody, (Except.ok.inj h).symm, ?_⟩
      cases hcount : env.fwriteCount with
      | true =>
          refine Or.inl ⟨rfl, ?_⟩
          have hpos : (if env.fseek = true then 8 else 8) = 8 := ite_self 8
          simp only [if_true, length_leBytes_eight, hpos, Nat.sub_self, List.replicate_zero,
            List.append_nil]
          split
          · rename_i hnil
            rw [hnil, List.append_nil]
          · rfl
      | false =>
          refine Or.inr ⟨rfl, ?_⟩
          split
          · rename_i hnil
            exact Or.inl hnil.symm
          · cases env.fseek with
            | true => exact Or.inr rfl
            | false => exact Or.inl rfl

/-- A file in which `num` nodes are held was written by calls that did all they were asked for. -/
theorem writes_of_held {env : WriteEnv} {num : UInt64} {a : NodeArr} {content : List UInt8}
    (hwrite : writeNodes env true num a = .ok content) (hpos : 0 < num.toNat)
    (hheld : num.toNat ≤ (heldNodes content).length) : env.Writes num.toNat := by
  rcases writeNodes_eq_ok hwrite with ⟨hopen, body, full, hbody, hcontent, hfull⟩
  have hfit : 8 + 8 * num.toNat ≤ content.length := by
    rw [length_heldNodes] at hheld
    omega
  have hlen : content.length = min (env.fclose.getD full.length) full.length := by
    rw [hcontent, List.length_take]
  rcases hfull with ⟨hcount, rfl⟩ | ⟨-, rfl | rfl⟩
  · rw [List.length_append, length_leBytes_eight] at hlen
    refine ⟨hopen, hcount, by omega, ?_⟩
    cases hclose : env.fclose with
    | none => simp
    | some b =>
        rw [hclose, Option.getD_some] at hlen
        rw [Option.getD_some]
        omega
  · -- without a count the file is too short for `num` nodes
    omega
  · -- a hole in place of the count says that there are none
    have hnone : (heldNodes content).length = 0 := by
      rw [hcontent]
      exact heldNodes_of_zeros _
    omega

/-! ## Reading -/

/-- What a flush reads of a well-formed file once it has a stream and memory: never more nodes than
there are, and the same nodes exactly when the calls recover them. -/
theorem readsBack_of_memory {env : ReadEnv} (hopen : env.fopen = true) {heap : Heap}
    (hheap : env.fileMem = some heap) {fs : FS} {name : String} {ns : List Node}
    (hfs : fs name = some (fileBytes ns)) (hlen : ns.length < 2 ^ 64) :
    ∃ xs, ReadsBack env fs name xs ∧ xs.length ≤ ns.length ∧ (xs.Perm ns ↔ env.Recovers ns) := by
  cases hcount : env.freadCount with
  | true =>
      rcases readNodes_of_count hcount hheap hlen 0 with ⟨a, hread, hwin⟩
      have hsame : (a.window 0 ns.length).length = ns.length := a.length_window 0 ns.length
      refine ⟨a.window 0 ns.length, Or.inr ⟨hopen, _, a, hfs, ?_, ?_⟩, hsame.le, ?_⟩
      · rw [hread, hsame]
      · rw [hsame]
      · have hsplit : (a.window 0 ns.length).Perm ns ↔
            ((List.range' (env.got ns.length) (ns.length - env.got ns.length)).map heap).Perm
              (ns.drop (env.got ns.length)) := by
          rw [hwin]
          calc
            (ns.take (env.got ns.length) ++
                  (List.range' (env.got ns.length) (ns.length - env.got ns.length)).map heap).Perm ns
                ↔ (ns.take (env.got ns.length) ++
                    (List.range' (env.got ns.length) (ns.length - env.got ns.length)).map
                      heap).Perm
                  (ns.take (env.got ns.length) ++ ns.drop (env.got ns.length)) := by
                    rw [List.take_append_drop]
            _ ↔ _ := List.perm_append_left_iff _
        rw [hsplit]
        simp [ReadEnv.Recovers, hopen, hheap, hcount]
  | false =>
      -- the count stays zero and no node is read
      have hread : readNodes env (fileBytes ns) 0 = (0, some (freadNodes env.freadNodes
          (fileBytes ns) 0 (NodeArr.alloc heap 0))) := by
        simp [readNodes, freadCount, hcount, hheap]
      refine ⟨[], Or.inr ⟨hopen, _, _, hfs, hread, rfl⟩, Nat.zero_le _, ?_⟩
      simp [ReadEnv.Recovers, hopen, hheap, hcount]

/-- A flush that gets past the existing file had a stream and memory. -/
theorem memory_of_flushSource {env : FlushEnv} {fs : FS} {tree : Lsm} {content : List UInt8}
    (hfs : fs tree.disk1 = some content) {p : NodeArr × UInt64}
    (h : flushSource env fs tree = .ok p) :
    env.read.fopen = true ∧ ∃ heap, env.read.fileMem = some heap := by
  simp only [flushSource, hfs, mergeWithFile] at h
  cases hopen : env.read.fopen with
  | false =>
      rw [hopen] at h
      cases h
  | true =>
      refine ⟨rfl, ?_⟩
      cases hmem : env.read.fileMem with
      | some heap => exact ⟨heap, rfl⟩
      | none =>
          simp only [hopen, if_true, readNodes, hmem, Option.map_none] at h
          cases h

/-- The same over any well-formed file, there or not. -/
theorem readsBack_of_flushSource {env : FlushEnv} {fs : FS} {tree : Lsm} {ns : List Node}
    (hfile : FileHolds fs tree.disk1 ns) {p : NodeArr × UInt64}
    (h : flushSource env fs tree = .ok p) :
    ∃ xs, ReadsBack env.read fs tree.disk1 xs ∧ xs.length ≤ ns.length ∧
      (xs.Perm ns → fs tree.disk1 = none ∨ env.read.Recovers ns) := by
  rcases hfile with ⟨hfs, rfl⟩ | ⟨hfs, hlen⟩
  · exact ⟨[], Or.inl ⟨hfs, rfl⟩, le_rfl, fun _ => Or.inl hfs⟩
  · rcases memory_of_flushSource hfs h with ⟨hopen, heap, hheap⟩
    rcases readsBack_of_memory hopen hheap hfs hlen with ⟨xs, hread, hle, hiff⟩
    exact ⟨xs, hread, hle, fun hperm => Or.inr (hiff.1 hperm)⟩

theorem readsBack_of_recovers {env : ReadEnv} {fs : FS} {name : String} {ns : List Node}
    (hfile : FileHolds fs name ns) (h : fs name = none ∨ env.Recovers ns) :
    ∃ xs, ReadsBack env fs name xs ∧ xs.Perm ns := by
  rcases hfile with ⟨hfs, rfl⟩ | ⟨hfs, hlen⟩
  · exact ⟨[], Or.inl ⟨hfs, rfl⟩, List.Perm.nil⟩
  · rcases h with hnone | hrecovers
    · rw [hfs] at hnone
      cases hnone
    · rcases hrecovers.2 with ⟨heap, hheap, -⟩
      rcases readsBack_of_memory hrecovers.1 hheap hfs hlen with ⟨xs, hread, -, hiff⟩
      exact ⟨xs, hread, hiff.2 hrecovers⟩

/-! ## One put -/

/-- A flush that meets the condition stores the nodes of the file and of the buffer. -/
theorem writeToDisk_of_keeps {env : FlushEnv} {fs : FS} {tree : Lsm} {ns : List Node}
    (hfile : FileHolds fs tree.disk1 ns) (hpos : 0 < tree.blockSize.toNat)
    (hfull : tree.nextEmpty = tree.blockSize) (hkeeps : FlushKeeps env fs tree) :
    ∃ ms, ms.Perm (ns ++ tree.buffered) ∧ ms.length < 2 ^ 64 ∧
      writeToDisk env fs tree =
        .ok (Function.update fs tree.disk1 (some (fileBytes ms)), flushedTree env tree, 0) := by
  rcases hkeeps with ⟨hcount, hreads, hwrites⟩
  rw [hfile.storedNodes_eq] at hcount hreads hwrites
  rcases readsBack_of_recovers hfile hreads with ⟨xs, hread, hperm⟩
  rw [← hperm.length_eq] at hcount hwrites
  rcases flushSource_full hread hpos hfull hcount with ⟨a, num, hsource, hnum, hwin⟩
  rw [← hnum] at hwrites
  have hmax : intMax < 2 ^ 64 := by decide
  refine ⟨Store.flushInto Node.key tree.sorted xs tree.buffered, ?_, ?_, ?_⟩
  · exact (Store.flushInto_perm Node.key tree.sorted xs tree.buffered).trans
      (hperm.append_right tree.buffered)
  · rw [Store.length_flushInto, length_buffered]
    omega
  · rw [writeToDisk_of_writes hsource hwrites, hnum, hwin]

/-- A put that meets the condition returns; it loses nothing and leaves a well-formed file. -/
theorem put_of_keeps {env : FlushEnv} {fs : FS} {tree : Lsm} {ns : List Node}
    (hfile : FileHolds fs tree.disk1 ns) (hpos : 0 < tree.blockSize.toNat)
    (hkeeps : PutKeeps env fs tree) (n : Node) :
    LosesNothing env n fs tree ∧
      ∃ fs' tree', put env n.key n.val fs tree = .ok (fs', tree', 0) ∧
        ∃ ms, FileHolds fs' tree.disk1 ms := by
  by_cases hfull : tree.nextEmpty = tree.blockSize
  · rcases writeToDisk_of_keeps hfile hpos hfull (hkeeps hfull) with ⟨ms, hperm, hlen, hw⟩
    have hput := put_of_full hfull hw n
    have hfile' : FileHolds (Function.update fs tree.disk1 (some (fileBytes ms))) tree.disk1 ms :=
      Or.inr ⟨Function.update_self _ _ _, hlen⟩
    refine ⟨fun _ => ⟨_, _, _, hput, Or.inl ?_⟩, _, _, hput, ms, hfile'⟩
    rw [hfile.heldIn_eq, hfile'.heldIn_eq]
    exact hperm.symm.subperm
  · exact ⟨fun h => absurd h hfull, fs, tree.push n, put_of_not_full hfull env n fs, ns, hfile⟩

/-- When the file holds everything after a flush of a full buffer, all of it was written and all of
it was read: the file is long enough only for the one, and nothing is missing only for the other. -/
theorem flush_of_held {env : FlushEnv} {fs : FS} {tree : Lsm} {ns xs : List Node}
    (hread : ReadsBack env.read fs tree.disk1 xs) (hle : xs.length ≤ ns.length)
    (hpos : 0 < tree.blockSize.toNat) (hfull : tree.nextEmpty = tree.blockSize)
    (hcount : ns.length + tree.nextEmpty.toNat ≤ intMax) {a : NodeArr} {num : UInt64}
    (hsource : flushSource env fs tree = .ok (a, num)) {content : List UInt8}
    (hwrite : writeNodes env.write true (if num = 0 then tree.nextEmpty else num) a = .ok content)
    (hsub : (ns ++ tree.buffered).Subperm (heldNodes content)) :
    xs.Perm ns ∧ env.write.Writes (ns.length + tree.nextEmpty.toNat) := by
  rcases flushSource_full hread hpos hfull (by omega) with ⟨b, num', hsource', hnum, hwin⟩
  rw [hsource] at hsource'
  cases hsource'
  have hlong : ns.length + tree.nextEmpty.toNat ≤ (heldNodes content).length := by
    have hlen := hsub.length_le
    rwa [List.length_append, length_buffered] at hlen
  have hnumPos : 0 < (if num = 0 then tree.nextEmpty else num).toNat := by
    rw [hnum, hfull]
    omega
  have hwrites := writes_of_held hwrite hnumPos (by omega)
  -- so the file is well formed, and it holds what was read and the buffer
  have hcontent : heldNodes content = Store.flushInto Node.key tree.sorted xs tree.buffered := by
    have hlen : (Store.flushInto Node.key tree.sorted xs tree.buffered).length < 2 ^ 64 := by
      have hmax : intMax < 2 ^ 64 := by decide
      rw [Store.length_flushInto, length_buffered]
      omega
    have heq := hwrite.symm.trans (writeNodes_of_writes true hwrites a)
    rw [Except.ok.inj heq, hnum, hwin, heldNodes_fileBytes hlen]
  rw [hcontent] at hsub
  have hsame : (ns ++ tree.buffered).Perm (xs ++ tree.buffered) := by
    refine (hsub.perm_of_length_le ?_).trans
      (Store.flushInto_perm Node.key tree.sorted xs tree.buffered)
    rw [Store.length_flushInto, List.length_append]
    omega
  have hperm : xs.Perm ns := (List.perm_append_right_iff tree.buffered).1 hsame.symm
  refine ⟨hperm, ?_⟩
  rw [← hperm.length_eq, ← hnum]
  exact hwrites

/-- A put that loses nothing meets the condition. -/
theorem keeps_of_losesNothing {env : FlushEnv} {n : Node} {fs : FS} {tree : Lsm} {ns : List Node}
    (hfile : FileHolds fs tree.disk1 ns) (hpos : 0 < tree.blockSize.toNat)
    (hcount : ns.length + tree.nextEmpty.toNat ≤ intMax) (h : LosesNothing env n fs tree) :
    PutKeeps env fs tree := by
  intro hfull
  rcases h hfull with ⟨fs', tree', r, hput, hkept⟩
  simp only [put, if_pos hfull] at hput
  rcases exists_of_bind_eq hput with ⟨⟨fs₁, tree₁, r₁⟩, hw, hok⟩
  cases hok
  rcases writeToDisk_eq_ok hw with ⟨⟨a, num, content, hsource, hwrite, rfl⟩, rfl, rfl⟩
  -- the result is zero, so the file has to hold everything
  have hsub : (ns ++ tree.buffered).Subperm (heldNodes content) := by
    rcases hkept with hheld | ⟨hne, -⟩
    · rwa [hfile.heldIn_eq, heldIn_update] at hheld
    · exact absurd rfl hne
  rcases readsBack_of_flushSource hfile hsource with ⟨xs, hread, hle, hrecovers⟩
  rcases flush_of_held hread hle hpos hfull hcount hsource hwrite hsub with ⟨hperm, hwrites⟩
  have hstored := hfile.storedNodes_eq
  exact ⟨by rwa [hstored], by rw [hstored]; exact hrecovers hperm, by rwa [hstored]⟩

/-! ## Runs -/

/-- A call of one of the four operations, or of `write_to_disk` from outside. -/
inductive LibCall
  | op (c : Call)
  | writeToDisk (env : FlushEnv)

def LibCall.step (s : FS × Lsm) : LibCall → Except Abort (FS × Lsm)
  | .op c => Call.step s c
  | .writeToDisk env => do
      let (fs, tree, _) ← LSMTree.writeToDisk env s.1 s.2
      .ok (fs, tree)

/-- The condition on a call in a state: a put meets its own, and the other calls that write the file
succeed in writing it. -/
def LibCall.Keeps (s : FS × Lsm) : LibCall → Prop
  | .op (.put env _ _) => PutKeeps env s.1 s.2
  | .op (.update _ _ _ _) => True
  | .op (.get _ _) => True
  | .op (.delete env _) => env.write.Succeeds
  | .writeToDisk env => env.write.Succeeds

/-- Every call of a run meets the condition in the state it is made in. -/
def StepsKeep (s : FS × Lsm) (calls : List LibCall) : Prop :=
  ∀ cs c rest t, calls = cs ++ c :: rest → run LibCall.step s cs = .ok t → c.Keeps t

theorem StepsKeep.of_append {s : FS × Lsm} {cs rest : List LibCall}
    (h : StepsKeep s (cs ++ rest)) : StepsKeep s cs := by
  rintro ds c rest' t rfl hrun
  exact h ds c (rest' ++ rest) t (by simp) hrun

/-- The file is absent or well formed, it is the common one, and the block has the size it had. -/
structure FileKept (bufferSize : UInt64) (s : FS × Lsm) : Prop where
  file : ∃ ns, FileHolds s.1 disk1Name ns
  disk1 : s.2.disk1 = disk1Name
  blockSize : s.2.blockSize = bufferSize

theorem FileKept.pos {bufferSize : UInt64} (hpos : 1 ≤ bufferSize.toNat) {s : FS × Lsm}
    (h : FileKept bufferSize s) : 0 < s.2.blockSize.toNat := by
  rw [h.blockSize]
  exact hpos

/-- Writing calls that succeed leave a well-formed file. -/
theorem fileHolds_of_writeNodes {env : WriteEnv} (henv : env.Succeeds) {seek : Bool} {num : UInt64}
    {a : NodeArr} {content : List UInt8} (h : writeNodes env seek num a = .ok content) (fs : FS)
    (name : String) : ∃ ns, FileHolds (Function.update fs name (some content)) name ns := by
  rw [writeNodes_succeeds henv] at h
  cases h
  refine ⟨a.window 0 num.toNat, Or.inr ⟨Function.update_self _ _ _, ?_⟩⟩
  rw [NodeArr.length_window]
  exact num.toNat_lt

theorem FileKept.writeToDisk {bufferSize : UInt64} {fs fs' : FS} {tree tree' : Lsm}
    (h : FileKept bufferSize (fs, tree)) {env : FlushEnv} (henv : env.write.Succeeds) {r : Int32}
    (hw : LSMTree.writeToDisk env fs tree = .ok (fs', tree', r)) :
    FileKept bufferSize (fs', tree') := by
  rcases writeToDisk_eq_ok hw with ⟨⟨a, num, content, -, hwrite, rfl⟩, rfl, -⟩
  have hfile := fileHolds_of_writeNodes henv hwrite fs tree.disk1
  rw [h.disk1] at hfile ⊢
  exact ⟨hfile, h.disk1, h.blockSize⟩

theorem FileKept.deleteStored {bufferSize : UInt64} {fs fs' : FS} {tree : Lsm}
    (h : FileKept bufferSize (fs, tree)) {env : DeleteEnv} (henv : env.write.Succeeds) {i : Nat}
    (hdelete : LSMTree.deleteStored env fs tree i = .ok fs') :
    FileKept bufferSize (fs', tree) := by
  cases hfs : fs tree.disk1 with
  | none =>
      simp only [LSMTree.deleteStored, hfs] at hdelete
      cases hdelete
  | some content =>
      simp only [LSMTree.deleteStored, hfs] at hdelete
      split at hdelete
      · split at hdelete
        · cases hdelete
        · rcases exists_of_bind_eq hdelete with ⟨content', hwrite, hok⟩
          cases hok
          have hfile := fileHolds_of_writeNodes henv hwrite fs tree.disk1
          rw [h.disk1] at hfile ⊢
          exact ⟨hfile, h.disk1, h.blockSize⟩
      · cases hdelete

/-- One call that meets the condition leaves a well-formed file. -/
theorem FileKept.step {bufferSize : UInt64} (hpos : 1 ≤ bufferSize.toNat) {s t : FS × Lsm}
    (h : FileKept bufferSize s) {c : LibCall} (hkeeps : c.Keeps s)
    (hstep : LibCall.step s c = .ok t) : FileKept bufferSize t := by
  rcases s with ⟨fs, tree⟩
  cases c with
  | writeToDisk env =>
      rcases exists_of_bind_eq hstep with ⟨⟨fs', tree', r⟩, hw, hok⟩
      cases hok
      exact h.writeToDisk hkeeps hw
  | op c =>
      cases c with
      | put env k v =>
          rcases exists_of_bind_eq hstep with ⟨⟨fs', tree', r⟩, hput, hok⟩
          cases hok
          rcases h.file with ⟨ns, hfile⟩
          rw [← h.disk1] at hfile
          rcases (put_of_keeps hfile (h.pos hpos) hkeeps { key := k, val := v }).2 with
            ⟨fs₁, tree₁, hput', hfile'⟩
          rw [hput] at hput'
          cases hput'
          rw [h.disk1] at hfile'
          rcases put_eq_ok (n := { key := k, val := v }) hput with ⟨-, -, rfl⟩ | ⟨-, -, rfl⟩
          · exact ⟨hfile', h.disk1, h.blockSize⟩
          · exact ⟨hfile', h.disk1, h.blockSize⟩
      | update denv penv k v =>
          rcases exists_of_bind_eq hstep with ⟨⟨fs', tree', r⟩, hupdate, hok⟩
          cases hok
          rcases update_eq_ok hupdate with ⟨i, -, rfl, rfl⟩
          exact ⟨h.file, h.disk1, h.blockSize⟩
      | get env k =>
          rcases exists_of_bind_eq hstep with ⟨found, -, hok⟩
          cases hok
          exact h
      | delete env k =>
          rcases exists_of_bind_eq hstep with ⟨⟨fs', tree', r⟩, hdelete, hok⟩
          cases hok
          rcases delete_eq_ok hdelete with ⟨i, -, rfl, rfl⟩ | ⟨⟨i, hstored⟩, rfl⟩
          · exact ⟨h.file, h.disk1, h.blockSize⟩
          · exact h.deleteStored hkeeps hstored

/-- A run whose calls meet the condition leaves a well-formed file. -/
theorem FileKept.run {bufferSize : UInt64} (hpos : 1 ≤ bufferSize.toNat) {s t : FS × Lsm}
    (h : FileKept bufferSize s) {calls : List LibCall} (hsteps : StepsKeep s calls)
    (hrun : run LibCall.step s calls = .ok t) : FileKept bufferSize t := by
  have hkept := run_preserves LibCall.step
    (P := fun cs u => FallibleRun.run LibCall.step s cs = .ok u ∧
      (StepsKeep s cs → FileKept bufferSize u))
    ⟨rfl, fun _ => h⟩ ?_ calls t hrun
  · exact hkept.2 hsteps
  · rintro cs c u v ⟨hcs, hinv⟩ hstep
    refine ⟨(run_concat_of_ok LibCall.step hcs c).trans hstep, ?_⟩
    intro hall
    exact (hinv hall.of_append).step hpos (hall cs c [] u rfl hcs) hstep

/-- In every run whose calls meet the condition, no put loses anything; and in the state such a run
reaches, as long as the counts fit into an `int`, the next put loses nothing exactly when it meets the
condition. -/
theorem failed_flush_loses_nothing_iff {treeMem : Bool} {blockMem : Option Heap}
    {bufferSize : UInt64} {sorted : Bool} {tree : Lsm}
    (hinit : initNewLsm treeMem blockMem bufferSize sorted = some tree)
    (hpos : 1 ≤ bufferSize.toNat) {fs : FS} {ns : List Node} (hfile : FileHolds fs disk1Name ns)
    {calls : List LibCall} (hsteps : StepsKeep (fs, tree) calls) :
    (∀ cs env k v rest fs₁ tree₁, calls = cs ++ .op (.put env k v) :: rest →
      run LibCall.step (fs, tree) cs = .ok (fs₁, tree₁) →
      LosesNothing env { key := k, val := v } fs₁ tree₁) ∧
    ∀ fs' tree' env n, run LibCall.step (fs, tree) calls = .ok (fs', tree') →
      (storedNodes fs' disk1Name).length + tree'.nextEmpty.toNat ≤ intMax →
      (LosesNothing env n fs' tree' ↔ PutKeeps env fs' tree') := by
  have hnew := newTree_of_init hinit
  have hstart : FileKept bufferSize (fs, tree) := ⟨⟨ns, hfile⟩, hnew.disk1, hnew.blockSize⟩
  constructor
  · rintro cs env k v rest fs₁ tree₁ rfl hrun
    have hkept := hstart.run hpos hsteps.of_append hrun
    rcases hkept.file with ⟨ms, hms⟩
    rw [← hkept.disk1] at hms
    exact (put_of_keeps hms (hkept.pos hpos) (hsteps cs _ rest _ rfl hrun) { key := k, val := v }).1
  · intro fs' tree' env n hrun hcount
    have hkept := hstart.run hpos hsteps hrun
    rcases hkept.file with ⟨ms, hms⟩
    rw [hms.storedNodes_eq] at hcount
    rw [← hkept.disk1] at hms
    constructor
    · exact keeps_of_losesNothing hms (hkept.pos hpos) hcount
    · intro hkeeps
      exact (put_of_keeps hms (hkept.pos hpos) hkeeps n).1

/-- A full block of one node. -/
def fullTree : Lsm := (zeroTree 1 true).push { key := 1, val := 10 }

/-- It is reached by one put. -/
theorem run_fullTree :
    run LibCall.step (noFiles, zeroTree 1 true) [.op (.put FlushEnv.quiet 1 10)] =
      .ok (noFiles, fullTree) := by
  have hne : (zeroTree 1 true).nextEmpty ≠ (zeroTree 1 true).blockSize := by decide
  have hput := put_of_not_full hne FlushEnv.quiet { key := 1, val := 10 } noFiles
  refine (run_concat_of_ok LibCall.step (run_nil LibCall.step _) _).trans ?_
  simp only [LibCall.step, Call.step, bind, Except.bind, hput]
  rfl

/-- Library calls of which only the `fseek` behind the count fails. -/
def seekFails : FlushEnv :=
  { FlushEnv.quiet with write := { WriteEnv.quiet with fseek := false } }

/-- Library calls of which only the `fwrite` of the nodes fails. -/
def fwriteFails : FlushEnv :=
  { FlushEnv.quiet with write := { WriteEnv.quiet with fwriteNodes := some 0 } }

theorem stepsKeep_fullTree :
    StepsKeep (noFiles, zeroTree 1 true) [.op (.put FlushEnv.quiet 1 10)] := by
  intro cs c rest t hcalls hrun
  rcases List.singleton_eq_append_iff.1 hcalls with ⟨rfl, hc⟩ | ⟨-, hc⟩
  · cases hc
    cases hrun
    intro hfull
    exact absurd hfull (by decide)
  · cases hc

/-- After one put into a block of one node, the next put loses nothing when only the `fseek` fails,
and loses something when the nodes are not written. -/
theorem failed_flush_loses_nothing_one_node :
    run LibCall.step (noFiles, zeroTree 1 true) [.op (.put FlushEnv.quiet 1 10)] =
        .ok (noFiles, fullTree) ∧
      LosesNothing seekFails { key := 2, val := 20 } noFiles fullTree ∧
      ¬ LosesNothing fwriteFails { key := 2, val := 20 } noFiles fullTree := by
  have hnone : FileHolds noFiles disk1Name [] := Or.inl ⟨rfl, rfl⟩
  rcases failed_flush_loses_nothing_iff (initNewLsm_zeroTree 1 true) (by decide) hnone
    stepsKeep_fullTree with ⟨-, hnext⟩
  have hcount : (storedNodes noFiles disk1Name).length + fullTree.nextEmpty.toNat ≤ intMax := by
    decide
  refine ⟨run_fullTree, ?_, ?_⟩
  · refine (hnext _ _ seekFails _ run_fullTree hcount).2 ?_
    intro _
    exact ⟨hcount, Or.inl rfl, rfl, rfl, by decide, by decide⟩
  · intro h
    have hkeeps := (hnext _ _ fwriteFails _ run_fullTree hcount).1 h (by decide)
    exact absurd hkeeps.writes.fwriteNodes (by decide)

/-- In the same state the put that cannot write the nodes returns zero; the file holds no node and
the buffer only the new one. -/
theorem failed_flush_loses_node :
    ∃ fs' tree', run LibCall.step (noFiles, zeroTree 1 true) [.op (.put FlushEnv.quiet 1 10)] =
        .ok (noFiles, fullTree) ∧
      put fwriteFails 2 20 noFiles fullTree = .ok (fs', tree', 0) ∧
      heldIn fs' fullTree.disk1 = [] ∧ tree'.buffered = [{ key := 2, val := 20 }] ∧
      ¬ LosesNothing fwriteFails { key := 2, val := 20 } noFiles fullTree := by
  have hfull : fullTree.nextEmpty = fullTree.blockSize := by decide
  have hwrite : writeToDisk fwriteFails noFiles fullTree =
      .ok (Function.update noFiles fullTree.disk1 (some (leBytes 8 1)),
        flushedTree fwriteFails fullTree, 0) := rfl
  have hput := put_of_full hfull hwrite { key := 2, val := 20 }
  have hheld : heldIn (Function.update noFiles fullTree.disk1 (some (leBytes 8 1)))
      fullTree.disk1 = [] := by
    rw [heldIn_update]
    decide
  refine ⟨_, _, run_fullTree, hput, hheld, rfl, ?_⟩
  intro h
  rcases h hfull with ⟨fs', tree', r, hput', hkept⟩
  rw [hput] at hput'
  cases hput'
  rcases hkept with hsub | ⟨hne, -⟩
  · rw [hheld] at hsub
    exact absurd hsub.length_le (by decide)
  · exact absurd rfl hne

end LSMTree
end DBTest
