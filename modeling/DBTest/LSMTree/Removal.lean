import DBTest.LSMTree.Delete

/-!
# Removal — when `delete` takes out exactly one node

A correct `delete` would leave the list of nodes without the element at the index that was found.
The `memmove` covers too few bytes for that: it closes the gap only as far as its count goes, so the
result is right exactly when the nodes it does not reach look the same one place further down
(`movedDown_eq_eraseIdx_iff`).  The same condition, with the two counts the source uses, decides the
branch for the buffer (`delete_buffered_removes_iff`) and the branch for the file
(`delete_stored_removes_iff`).

`update` of a key that is not buffered was meant to be a `delete` and a `put`.  It never comes to
them (`update_stored_never_moves`).
-/

namespace DBTest
namespace LSMTree

open KeyedMerge
open FallibleRun

/-! ## Closing a gap -/

theorem torn_node_eq_iff (r : Nat) (new old : Node) :
    nodeLayout.torn r new old = new ↔
      (nodeLayout.encode old).drop r = (nodeLayout.encode new).drop r :=
  nodeLayout.torn_eq_iff (fun _ h => nodeLayout_encode_decode h) r new old

/-- The moved list is the list without node `i` when every node from there on became its
successor. -/
theorem movedDown_eq_eraseIdx_iff_torn {xs : List Node} {i bytes : Nat} (hi : i < xs.length) :
    movedDown xs i bytes = xs.eraseIdx i ↔
      ∀ j, (h : j + 1 < xs.length) → i ≤ j →
        nodeLayout.torn (bytes - 8 * (j - i)) xs[j + 1] xs[j] = xs[j + 1] := by
  have hlen : (xs.eraseIdx i).length = xs.length - 1 := List.length_eraseIdx_of_lt hi
  constructor
  · intro heq j h hij
    have hmoved := getElem_movedDown xs i bytes h
    have herased : (xs.eraseIdx i)[j]? = some xs[j + 1] := by
      rw [List.getElem?_eraseIdx_of_ge hij, List.getElem?_eq_getElem h]
    rw [heq, herased, if_neg (Nat.not_lt.2 hij)] at hmoved
    exact (Option.some.inj hmoved).symm
  · intro htorn
    apply List.ext_getElem?
    intro j
    by_cases hj : j + 1 < xs.length
    · rw [getElem_movedDown xs i bytes hj]
      by_cases hji : j < i
      · rw [if_pos hji, List.getElem?_eraseIdx_of_lt hji, List.getElem?_eq_getElem]
      · have hij : i ≤ j := Nat.le_of_not_lt hji
        rw [if_neg hji, htorn j hj hij, List.getElem?_eraseIdx_of_ge hij,
          List.getElem?_eq_getElem hj]
    · rw [List.getElem?_eq_none (by rw [length_movedDown]; omega),
        List.getElem?_eq_none (by omega)]

theorem movedDown_eq_eraseIdx_iff {xs : List Node} {i bytes : Nat} (hi : i < xs.length) :
    movedDown xs i bytes = xs.eraseIdx i ↔ GapClosed xs i bytes := by
  rw [movedDown_eq_eraseIdx_iff_torn hi]
  constructor
  · intro htorn
    refine ⟨?_, ?_⟩
    · intro j h hij
      -- the move has ended before place `j`
      have hzero : bytes - 8 * (j - i) = 0 := by omega
      have hnode := htorn j h (by omega)
      rwa [hzero, nodeLayout.torn_zero] at hnode
    · intro h
      have hrest : bytes - 8 * (i + bytes / 8 - i) = bytes % 8 := by omega
      have hnode := htorn (i + bytes / 8) h (by omega)
      rw [hrest] at hnode
      exact (torn_node_eq_iff _ _ _).1 hnode
  · rintro ⟨hkept, hlast⟩ j h hij
    -- moved whole, torn, or not reached
    rcases Nat.lt_trichotomy j (i + bytes / 8) with hlt | rfl | hgt
    · exact nodeLayout.torn_of_width_le (by simp; omega) _ _
    · have hrest : bytes - 8 * (i + bytes / 8 - i) = bytes % 8 := by omega
      rw [hrest]
      exact (torn_node_eq_iff _ _ _).2 (hlast h)
    · have hzero : bytes - 8 * (j - i) = 0 := by omega
      rw [hzero, nodeLayout.torn_zero]
      exact hkept j h hgt

/-! ## A buffered key -/

/-- The block has room for `block_size` nodes, so that the move stores nothing behind it; `delete`
returns, the file is as before, and the buffer has lost the first node of the key and nothing else. -/
def RemovesBuffered (env : DeleteEnv) (fs : FS) (tree : Lsm) (k : KeyType) : Prop :=
  tree.blockSize.toNat ≤ tree.block.granted ∧ ∃ tree', delete env k fs tree = .ok (fs, tree', 0) ∧
    tree'.nextEmpty.toNat + 1 = tree.nextEmpty.toNat ∧
    tree'.buffered = tree.buffered.eraseIdx (firstIndex k tree.buffered)

/-- `delete` of a buffered key from the block of `init_new_lsm` removes exactly its first node when the
size of the block does not wrap, the index of the search reaches that node and the move, of as many
bytes as the block has nodes from there on, closes the gap. -/
theorem delete_buffered_removes_iff (env : DeleteEnv) (fs : FS) {tree : Lsm} {k : KeyType}
    (hblock : tree.block.granted = (tree.blockSize * 8).toNat / 8)
    (hfits : tree.nextEmpty.toNat ≤ tree.blockSize.toNat)
    (hmem : ∃ n ∈ tree.buffered, n.key = k) :
    RemovesBuffered env fs tree k ↔
      tree.blockSize.toNat < 2 ^ 61 ∧ firstIndex k tree.buffered ≤ intMax ∧
        GapClosed tree.buffered (firstIndex k tree.buffered)
          (tree.blockSize.toNat - firstIndex k tree.buffered) := by
  have hindex := firstIndex_lt_length.2 hmem
  have hlt : firstIndex k tree.buffered < tree.nextEmpty.toNat := by
    simpa using hindex
  rw [RemovesBuffered, hblock, le_granted_iff, ← movedDown_eq_eraseIdx_iff hindex,
    ← buffered_deleteBuffered hlt hfits]
  refine and_congr_right (fun _ => ?_)
  constructor
  · rintro ⟨tree', hdelete, -, hbuffered⟩
    by_cases hfar : intMax < firstIndex k tree.buffered
    · have herror := deleteFrom_of_far_buffered searchDiskName env fs hmem hfar
      rw [delete, herror] at hdelete
      cases hdelete
    · have hreach := Nat.le_of_not_lt hfar
      rw [delete, deleteFrom_of_buffered searchDiskName env fs hmem hreach] at hdelete
      cases hdelete
      exact ⟨hreach, hbuffered⟩
  · rintro ⟨hreach, hbuffered⟩
    refine ⟨_, deleteFrom_of_buffered searchDiskName env fs hmem hreach, ?_, hbuffered⟩
    rw [nextEmpty_deleteBuffered hlt]
    omega

/-- The last buffered node is removed. -/
theorem delete_buffered_removes_last :
    ∃ tree₁, run putStep (noFiles, zeroTree 2 true) (quietCalls [(1, 10), (2, 20)]) =
        .ok (noFiles, tree₁) ∧
      RemovesBuffered DeleteEnv.quiet noFiles tree₁ 2 := by
  rcases run_unflushed (initNewLsm_zeroTree 2 true) noFiles
    (by decide : (quietCalls [(1, 10), (2, 20)]).length ≤ 2) with
    ⟨tree₁, hrun, hbuffered, hnext, hsize, -⟩
  have hgranted : tree₁.block.granted = (tree₁.blockSize * 8).toNat / 8 := by
    rw [(run_block hrun).2, hsize]
    rfl
  have hmem : ∃ n ∈ tree₁.buffered, n.key = 2 := by
    rw [hbuffered]
    decide
  have hindex : firstIndex 2 (nodesPut (quietCalls [(1, 10), (2, 20)])) = 1 := by decide
  have hlen : (nodesPut (quietCalls [(1, 10), (2, 20)])).length = 2 := by decide
  refine ⟨tree₁, hrun, (delete_buffered_removes_iff _ _ hgranted ?_ hmem).2 ?_⟩
  · rw [hnext, hsize]
    decide
  · rw [hbuffered, hindex, hsize]
    refine ⟨by decide, by decide, ?_, ?_⟩
    · intro j h hj
      rw [hlen] at h
      omega
    · intro h
      rw [hlen] at h
      omega

/-- In a block of two, deleting key `1` leaves key `2` with the value of key `1`: two bytes are
moved. -/
theorem delete_buffered_tears_node :
    ∃ tree₁ tree₂,
      run putStep (noFiles, zeroTree 2 true) (quietCalls [(1, 10), (2, 20)]) =
        .ok (noFiles, tree₁) ∧
      delete DeleteEnv.quiet 1 noFiles tree₁ = .ok (noFiles, tree₂, 0) ∧
      tree₂.buffered = [{ key := 2, val := 10 }] ∧
      ¬ RemovesBuffered DeleteEnv.quiet noFiles tree₁ 1 := by
  rcases run_unflushed (initNewLsm_zeroTree 2 true) noFiles
    (by decide : (quietCalls [(1, 10), (2, 20)]).length ≤ 2) with
    ⟨tree₁, hrun, hbuffered, hnext, hsize, -⟩
  have hmem : ∃ n ∈ tree₁.buffered, n.key = 1 := by
    rw [hbuffered]
    decide
  have hindex : firstIndex 1 tree₁.buffered = 0 := by
    rw [hbuffered]
    decide
  have hdelete := deleteFrom_of_buffered searchDiskName DeleteEnv.quiet noFiles hmem
    (by rw [hindex]; decide)
  rw [hindex] at hdelete
  have hafter : (deleteBuffered tree₁ 0).buffered = [{ key := 2, val := 10 }] := by
    have hlt : 0 < tree₁.nextEmpty.toNat := by
      rw [hnext]
      decide
    have hfits : tree₁.nextEmpty.toNat ≤ tree₁.blockSize.toNat := by
      rw [hnext, hsize]
      decide
    rw [buffered_deleteBuffered hlt hfits, hbuffered, hsize]
    decide
  refine ⟨tree₁, _, hrun, hdelete, hafter, ?_⟩
  rintro ⟨-, tree', hdelete', -, herased⟩
  rw [delete, hdelete] at hdelete'
  cases hdelete'
  rw [hafter, hbuffered] at herased
  exact absurd herased (by decide)

/-! ## A stored key -/

/-- A file determines the nodes it was written with. -/
theorem fileBytes_inj {ns ms : List Node} (hns : ns.length < 2 ^ 64) (hms : ms.length < 2 ^ 64)
    (h : fileBytes ns = fileBytes ms) : ns = ms := by
  have hnodes := congrArg nodesOfBytes h
  rwa [nodesOfBytes_fileBytes hns, nodesOfBytes_fileBytes hms] at hnodes

/-- `delete` returns, the buffer is as before, and the file has lost the first node of the key and
nothing else, so it ascends if it did. -/
def RemovesStored (env : DeleteEnv) (fs : FS) (tree : Lsm) (ns : List Node) (k : KeyType) : Prop :=
  ∃ fs' tree', delete env k fs tree = .ok (fs', tree', 0) ∧
    fs' tree.disk1 = some (fileBytes (ns.eraseIdx (firstIndex k ns))) ∧
    (Ascending Node.key ns → Ascending Node.key (storedNodes fs' tree.disk1)) ∧
    tree'.buffered = tree.buffered ∧ tree'.nextEmpty = tree.nextEmpty

/-- With a `search_disk` that finds the bytes of the tree's own file, `delete` of a key that is only
stored removes exactly its first node when both searches come to their end and the move, of as many
bytes as the file has nodes behind that one, closes the gap. -/
theorem delete_stored_removes_iff {env : DeleteEnv} (henv : env.Succeeds) {fs : FS} {tree : Lsm}
    {ns : List Node} (hfile : fs tree.disk1 = some (fileBytes ns)) (hbound : ns.length < 2 ^ 64)
    (hsame : fs searchDiskName = fs tree.disk1) {k : KeyType}
    (hnot : ∀ n ∈ tree.buffered, n.key ≠ k) (hmem : ∃ n ∈ ns, n.key = k) :
    RemovesStored env fs tree ns k ↔
      tree.nextEmpty.toNat ≤ intMax ∧ firstIndex k ns ≤ intMax ∧
        GapClosed ns (firstIndex k ns) (ns.length - 1 - firstIndex k ns) := by
  have hindex := firstIndex_lt_length.2 hmem
  have hholds : FileHolds fs tree.disk1 ns := Or.inr ⟨hfile, hbound⟩
  have hname : FileHolds fs searchDiskName ns := Or.inr ⟨hsame.trans hfile, hbound⟩
  have hmoved := length_movedDown_lt hholds (firstIndex k ns) (ns.length - 1 - firstIndex k ns)
  have herased : (ns.eraseIdx (firstIndex k ns)).length < 2 ^ 64 :=
    Nat.lt_of_le_of_lt (List.length_eraseIdx_le _ _) hbound
  rw [← movedDown_eq_eraseIdx_iff hindex]
  constructor
  · rintro ⟨fs', tree', hdelete, hcontent, -, -⟩
    rw [delete] at hdelete
    -- neither search may overflow
    by_cases hlong : intMax < tree.nextEmpty.toNat
    · rw [deleteFrom_of_long_buffer searchDiskName env fs hnot hlong] at hdelete
      cases hdelete
    have hbuffer := searchBuffer_of_not_mem hnot
    rw [if_pos (Nat.le_of_not_lt hlong)] at hbuffer
    by_cases hfar : intMax < firstIndex k ns
    · rw [deleteFrom_of_far_stored henv.1 hname hbuffer hmem hfar] at hdelete
      cases hdelete
    have hreach := Nat.le_of_not_lt hfar
    rw [deleteFrom_of_stored henv hname hholds hbuffer hmem hreach] at hdelete
    cases hdelete
    rw [Function.update_self] at hcontent
    exact ⟨Nat.le_of_not_lt hlong, hreach, fileBytes_inj hmoved herased (Option.some.inj hcontent)⟩
  · rintro ⟨hshort, hreach, hgap⟩
    have hbuffer := searchBuffer_of_not_mem hnot
    rw [if_pos hshort] at hbuffer
    have hdelete := deleteFrom_of_stored henv hname hholds hbuffer hmem hreach
    rw [hgap] at hdelete
    refine ⟨_, _, hdelete, Function.update_self _ _ _, ?_, rfl, rfl⟩
    intro hasc
    rw [storedNodes_update fs tree.disk1 herased]
    exact hasc.sublist (List.eraseIdx_sublist ns _)

def twoNodes : List Node :=
  [{ key := 1, val := 10 }, { key := 2, val := 20 }]

/-- A file system in which every name holds the two nodes. -/
def twoNodeFiles : FS := fun _ => some (fileBytes twoNodes)

/-- The last node of a file is removed. -/
theorem delete_stored_removes_last :
    RemovesStored DeleteEnv.quiet twoNodeFiles (zeroTree 1 true) twoNodes 2 := by
  have hindex : firstIndex 2 twoNodes = 1 := by decide
  have hlen : twoNodes.length = 2 := rfl
  refine (delete_stored_removes_iff DeleteEnv.quiet_succeeds rfl (by decide) rfl ?_ ?_).2 ?_
  · intro n hn
    cases hn
  · decide
  · rw [hindex]
    refine ⟨by decide, by decide, ?_, ?_⟩
    · intro j h hj
      omega
    · intro h
      omega

/-- In a file of two nodes, deleting key `1` leaves key `2` with the value of key `1`: one byte is
moved. -/
theorem delete_stored_tears_node :
    ∃ fs', delete DeleteEnv.quiet 1 twoNodeFiles (zeroTree 1 true) =
        .ok (fs', zeroTree 1 true, 0) ∧
      fs' (zeroTree 1 true).disk1 = some (fileBytes [{ key := 2, val := 10 }]) ∧
      ¬ RemovesStored DeleteEnv.quiet twoNodeFiles (zeroTree 1 true) twoNodes 1 := by
  have hholds : ∀ name, FileHolds twoNodeFiles name twoNodes :=
    fun _ => Or.inr ⟨rfl, by decide⟩
  have hbuffer : searchBuffer 1 (zeroTree 1 true) = .ok none := by
    rw [searchBuffer_eq]
    rfl
  have hdelete := deleteFrom_of_stored DeleteEnv.quiet_succeeds (hholds searchDiskName)
    (hholds (zeroTree 1 true).disk1) hbuffer (by decide) (by decide)
  have hmoved : movedDown twoNodes (firstIndex 1 twoNodes)
      (twoNodes.length - 1 - firstIndex 1 twoNodes) = [{ key := 2, val := 10 }] := by
    decide
  rw [hmoved] at hdelete
  refine ⟨_, hdelete, Function.update_self _ _ _, ?_⟩
  rintro ⟨fs', tree', hdelete', hcontent, -, -⟩
  rw [delete, hdelete] at hdelete'
  cases hdelete'
  rw [Function.update_self] at hcontent
  exact absurd (fileBytes_inj (by decide) (by decide) (Option.some.inj hcontent)) (by decide)

/-! ## `update` of a stored key -/

/-- `update` of a key that is only stored, as its second branch means it: the first node of the key
leaves the file and the new node is appended to the buffer, which is flushed first if it is full. -/
def UpdateMovesNode (denv : DeleteEnv) (penv : FlushEnv) (k : KeyType) (v : ValType) (fs : FS)
    (tree : Lsm) : Prop :=
  ∃ fs' tree', updateFrom tree.disk1 denv penv k v fs tree = .ok (fs', tree', 0) ∧
    (storedNodes fs' tree.disk1).length + tree'.nextEmpty.toNat =
      (storedNodes fs tree.disk1).length + tree.nextEmpty.toNat ∧
    (tree.nextEmpty ≠ tree.blockSize →
      storedNodes fs' tree.disk1 =
          (storedNodes fs tree.disk1).eraseIdx (firstIndex k (storedNodes fs tree.disk1)) ∧
        tree'.buffered = tree.buffered ++ [{ key := k, val := v }]) ∧
    (tree.nextEmpty = tree.blockSize →
      (storedNodes fs' tree.disk1).Perm
          ((storedNodes fs tree.disk1).eraseIdx (firstIndex k (storedNodes fs tree.disk1)) ++
            tree.buffered) ∧
        tree'.buffered = [{ key := k, val := v }])

/-- The index of the missing node is printed before it is known to be missing. -/
theorem updateFrom_of_not_buffered (name : String) (denv : DeleteEnv) (penv : FlushEnv)
    {k : KeyType} (v : ValType) (fs : FS) {tree : Lsm} (hnot : ∀ n ∈ tree.buffered, n.key ≠ k) :
    updateFrom name denv penv k v fs tree =
      .error (if tree.nextEmpty.toNat ≤ intMax then .nullPointer else .intOverflow) := by
  have hsearch := searchBuffer_of_not_mem hnot
  by_cases hle : tree.nextEmpty.toNat ≤ intMax
  · rw [if_pos hle] at hsearch ⊢
    simp only [updateFrom, hsearch, bind, Except.bind]
  · rw [if_neg hle] at hsearch ⊢
    simp only [updateFrom, hsearch, bind, Except.bind]

/-- From no state does `update` of a key that is not buffered return. -/
theorem update_stored_never_moves (denv : DeleteEnv) (penv : FlushEnv) {k : KeyType} (v : ValType)
    (fs : FS) {tree : Lsm} (hnot : ∀ n ∈ tree.buffered, n.key ≠ k) :
    (∀ result, update denv penv k v fs tree ≠ .ok result) ∧
      ¬ UpdateMovesNode denv penv k v fs tree := by
  refine ⟨?_, ?_⟩
  · intro result hresult
    rw [update, updateFrom_of_not_buffered searchDiskName denv penv v fs hnot] at hresult
    cases hresult
  · rintro ⟨fs', tree', hupdate, -, -, -⟩
    rw [updateFrom_of_not_buffered tree.disk1 denv penv v fs hnot] at hupdate
    cases hupdate

/-- Key `1` is stored and key `2` is buffered. -/
theorem update_stored_never_moves_two_puts :
    ∃ fs' tree', run putStep (noFiles, zeroTree 1 true) (quietCalls [(1, 10), (2, 20)]) =
        .ok (fs', tree') ∧
      storedNodes fs' tree'.disk1 = [{ key := 1, val := 10 }] ∧
      ¬ UpdateMovesNode DeleteEnv.quiet FlushEnv.quiet 1 99 fs' tree' := by
  rcases run_two_puts with ⟨fs', tree', hrun, hstored, hbuffered⟩
  refine ⟨fs', tree', hrun, hstored, (update_stored_never_moves _ _ _ _ ?_).2⟩
  rw [hbuffered]
  decide

/-- After the two puts `update` of the stored key reads through `NULL`. -/
theorem update_reads_null :
    ∃ fs' tree', run putStep (noFiles, zeroTree 1 true) (quietCalls [(1, 10), (2, 20)]) =
        .ok (fs', tree') ∧
      storedNodes fs' tree'.disk1 = [{ key := 1, val := 10 }] ∧
      updateFrom tree'.disk1 DeleteEnv.quiet FlushEnv.quiet 1 99 fs' tree' = .error .nullPointer ∧
      ¬ UpdateMovesNode DeleteEnv.quiet FlushEnv.quiet 1 99 fs' tree' := by
  rcases run_two_puts with ⟨fs', tree', hrun, hstored, hbuffered⟩
  have hupdate := updateFrom_of_not_buffered tree'.disk1 DeleteEnv.quiet FlushEnv.quiet 99 fs'
    (k := 1) (by rw [hbuffered]; decide)
  have hshort : tree'.nextEmpty.toNat ≤ intMax := by
    rw [← length_buffered, hbuffered]
    decide
  rw [if_pos hshort] at hupdate
  refine ⟨fs', tree', hrun, hstored, hupdate, ?_⟩
  rintro ⟨fs₁, tree₁, hreturns, -, -, -⟩
  rw [hupdate] at hreturns
  cases hreturns

end LSMTree
end DBTest
