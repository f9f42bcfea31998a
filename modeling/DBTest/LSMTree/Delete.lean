import DBTest.LSMTree.Search

/-!
# Delete — what `delete` leaves in the buffer and in the file

`delete` closes the gap with a `memmove` whose count is a number of nodes where the function takes
bytes, so most nodes behind the gap stay where they are and one of them may be torn
(`movedDown`).  It also works on one node only, in the buffer or else in the file.

`delete_erases_iff` says for which states no node of the key is left.  `search_disk` is taken to
read the tree's own file: the results are about `deleteFrom` with the name of that file.
-/

namespace DBTest
namespace LSMTree

open KeyedMerge
open FallibleRun

/-! ## Moving bytes down by one node -/

/-- The nodes of `xs` without the last place, after `bytes` bytes have been moved from node `i + 1`
to node `i`. -/
def movedDown (xs : List Node) (i bytes : Nat) : List Node :=
  (xs.zip xs.tail).mapIdx (fun j p =>
    if j < i then p.1 else nodeLayout.torn (bytes - 8 * (j - i)) p.2 p.1)

@[simp] theorem length_movedDown (xs : List Node) (i bytes : Nat) :
    (movedDown xs i bytes).length = xs.length - 1 := by
  simp [movedDown]

theorem getElem_movedDown (xs : List Node) (i bytes : Nat) {j : Nat} (h : j + 1 < xs.length) :
    (movedDown xs i bytes)[j]? = some
      (if j < i then xs[j] else nodeLayout.torn (bytes - 8 * (j - i)) xs[j + 1] xs[j]) := by
  have hj : j < (movedDown xs i bytes).length := by
    rw [length_movedDown]
    omega
  rw [List.getElem?_eq_getElem hj]
  simp [movedDown]

theorem window_memmove (a : NodeArr) (i bytes n : Nat) :
    (a.memmove i (i + 1) bytes).window 0 (n - 1) = movedDown (a.window 0 n) i bytes := by
  apply List.ext_getElem?
  intro j
  by_cases hj : j + 1 < n
  · have hwindow : j + 1 < (a.window 0 n).length := by simpa using hj
    rw [getElem_movedDown _ i bytes hwindow]
    rw [List.getElem?_eq_getElem (by simp; omega), NodeArr.getElem_window, NodeArr.memmove_cells]
    simp [NodeArr.getElem_window]
  · rw [List.getElem?_eq_none (by simp; omega), List.getElem?_eq_none (by simp; omega)]

/-- Where a key survives the move: a node that is moved whole, a node that is not reached and not
dropped, or the node at the end of the move, which gets only some bytes of its successor. -/
def Erased (xs : List Node) (i bytes : Nat) (k : KeyType) : Prop :=
  (∀ j, (h : j < xs.length) → i < j → j ≤ i + bytes / 8 → xs[j].key ≠ k) ∧
    (∀ j, (h : j + 1 < xs.length) → i + bytes / 8 < j → xs[j].key ≠ k) ∧
    ∀ h : i + bytes / 8 + 1 < xs.length,
      spliceInt (bytes % 8) xs[i + bytes / 8 + 1].key xs[i + bytes / 8].key ≠ k

/-- The nodes that a move of `bytes` bytes into place `i` does not reach are equal to their
successors, and so is the untouched part of the last node it does reach. -/
def GapClosed (xs : List Node) (i bytes : Nat) : Prop :=
  (∀ j, (h : j + 1 < xs.length) → i + bytes / 8 < j → xs[j] = xs[j + 1]) ∧
    ∀ h : i + bytes / 8 + 1 < xs.length,
      (nodeLayout.encode xs[i + bytes / 8]).drop (bytes % 8) =
        (nodeLayout.encode xs[i + bytes / 8 + 1]).drop (bytes % 8)

theorem forall_mem_movedDown {xs : List Node} {i bytes : Nat} {P : Node → Prop} :
    (∀ x ∈ movedDown xs i bytes, P x) ↔
      ∀ j, (h : j + 1 < xs.length) →
        P (if j < i then xs[j] else nodeLayout.torn (bytes - 8 * (j - i)) xs[j + 1] xs[j]) := by
  constructor
  · intro hall j h
    exact hall _ (List.mem_of_getElem? (getElem_movedDown xs i bytes h))
  · intro hall x hx
    rcases List.mem_iff_getElem?.1 hx with ⟨j, hj⟩
    have hlt : j < (movedDown xs i bytes).length := (List.getElem?_eq_some_iff.1 hj).1
    rw [length_movedDown] at hlt
    have h : j + 1 < xs.length := by omega
    rw [getElem_movedDown xs i bytes h] at hj
    cases hj
    exact hall j h

/-- No node of the key is left exactly when the three places hold none. -/
theorem forall_movedDown_iff {xs : List Node} {i bytes : Nat} {k : KeyType}
    (hbefore : ∀ j, (h : j < xs.length) → j < i → xs[j].key ≠ k) :
    (∀ x ∈ movedDown xs i bytes, x.key ≠ k) ↔ Erased xs i bytes k := by
  rw [forall_mem_movedDown]
  constructor
  · intro hall
    refine ⟨?_, ?_, ?_⟩
    · intro j h hij hmoved
      cases j with
      | zero => omega
      | succ j =>
          -- node `j + 1` has moved down to place `j`
          have hkey := hall j h
          rw [if_neg (by omega), nodeLayout.torn_of_width_le (by simp; omega)] at hkey
          exact hkey
    · intro j h hij
      have hkey := hall j h
      -- the move has ended before place `j`
      have hzero : bytes - 8 * (j - i) = 0 := by omega
      rw [if_neg (by omega), hzero, nodeLayout.torn_zero] at hkey
      exact hkey
    · intro h
      have hkey := hall (i + bytes / 8) h
      -- the last place the move reaches
      have hrest : bytes - 8 * (i + bytes / 8 - i) = bytes % 8 := by omega
      rw [if_neg (by omega), hrest, key_torn] at hkey
      exact hkey
  · rintro ⟨hmoved, hkept, htorn⟩ j h
    by_cases hji : j < i
    · rw [if_pos hji]
      exact hbefore j (by omega) hji
    · rw [if_neg hji]
      -- moved whole, torn, or not reached
      rcases Nat.lt_trichotomy j (i + bytes / 8) with hlt | rfl | hgt
      · rw [nodeLayout.torn_of_width_le (by simp; omega)]
        exact hmoved (j + 1) h (by omega) (by omega)
      · have hrest : bytes - 8 * (i + bytes / 8 - i) = bytes % 8 := by omega
        rw [hrest, key_torn]
        exact htorn h
      · have hzero : bytes - 8 * (j - i) = 0 := by omega
        rw [hzero, nodeLayout.torn_zero]
        exact hkept j h hgt

theorem key_ne_of_lt_firstIndex {k : KeyType} {xs : List Node} {j : Nat} (h : j < xs.length)
    (hlt : j < firstIndex k xs) : xs[j].key ≠ k := by
  have hnot := List.not_of_lt_findIdx hlt
  simpa using hnot

/-- The same for a move that starts at the first node of the key. -/
theorem movedDown_firstIndex_iff (k : KeyType) (xs : List Node) (bytes : Nat) :
    (∀ x ∈ movedDown xs (firstIndex k xs) bytes, x.key ≠ k) ↔
      Erased xs (firstIndex k xs) bytes k :=
  forall_movedDown_iff (fun _ h hlt => key_ne_of_lt_firstIndex h hlt)

/-! ## The two branches of `delete` -/

/-- `next_empty` is positive when a buffered node is deleted, so it does not wrap. -/
theorem nextEmpty_deleteBuffered {tree : Lsm} {i : Nat} (hi : i < tree.nextEmpty.toNat) :
    (deleteBuffered tree i).nextEmpty.toNat = tree.nextEmpty.toNat - 1 := by
  have hone : (1 : UInt64) ≤ tree.nextEmpty := by
    rw [UInt64.le_iff_toNat_le]
    exact Nat.one_le_of_lt hi
  exact UInt64.toNat_sub_of_le _ _ hone

theorem buffered_deleteBuffered {tree : Lsm} {i : Nat} (hi : i < tree.nextEmpty.toNat)
    (hfits : tree.nextEmpty.toNat ≤ tree.blockSize.toNat) :
    (deleteBuffered tree i).buffered =
      movedDown tree.buffered i (tree.blockSize.toNat - i) := by
  have hnext : (tree.nextEmpty - 1).toNat = tree.nextEmpty.toNat - 1 :=
    nextEmpty_deleteBuffered hi
  have hcap := tree.blockSize.toNat_lt
  have hofNat : (UInt64.ofNat i).toNat = i :=
    UInt64.toNat_ofNat_of_lt' (Nat.lt_trans (Nat.lt_of_lt_of_le hi hfits) hcap)
  have hbytes : (tree.blockSize - UInt64.ofNat i).toNat = tree.blockSize.toNat - i := by
    rw [UInt64.toNat_sub_of_le, hofNat]
    rw [UInt64.le_iff_toNat_le, hofNat]
    omega
  simp only [Lsm.buffered, deleteBuffered, hnext, hbytes]
  exact window_memmove tree.block i _ tree.nextEmpty.toNat

theorem BufferSafe.deleteBuffered {tree : Lsm} (h : BufferSafe tree) {i : Nat}
    (hi : i < tree.nextEmpty.toNat) : BufferSafe (deleteBuffered tree i) := by
  have hnext := nextEmpty_deleteBuffered hi
  refine ⟨h.granted, ?_, h.stores⟩
  have hle := h.nextEmpty
  rw [hnext]
  exact Nat.le_trans (Nat.sub_le _ _) hle

/-- The file after `delete` has moved its nodes. -/
theorem deleteStored_eq {env : DeleteEnv} (henv : env.Succeeds) {fs : FS} {tree : Lsm}
    {ns : List Node} (hfile : FileHolds fs tree.disk1 ns) {i : Nat} (hi : i < ns.length) :
    deleteStored env fs tree i =
      .ok (Function.update fs tree.disk1
        (some (fileBytes (movedDown ns i (ns.length - 1 - i))))) := by
  rcases henv with ⟨-, hread, hwrite⟩
  rcases hfile with ⟨-, rfl⟩ | ⟨hfs, hlen⟩
  · simp at hi
  · rcases readNodes_fileBytes hread hlen 0 with ⟨a, hnodes, hwin⟩
    have hnum : (UInt64.ofNat ns.length).toNat = ns.length := UInt64.toNat_ofNat_of_lt' hlen
    have hofNat : (UInt64.ofNat i).toNat = i := UInt64.toNat_ofNat_of_lt' (Nat.lt_trans hi hlen)
    have hless : (UInt64.ofNat ns.length - 1).toNat = ns.length - 1 := by
      rw [UInt64.toNat_sub_of_le, hnum]
      · rfl
      · rw [UInt64.le_iff_toNat_le, hnum]
        exact Nat.one_le_of_lt hi
    have hbytes : (UInt64.ofNat ns.length - 1 - UInt64.ofNat i).toNat = ns.length - 1 - i := by
      rw [UInt64.toNat_sub_of_le, hless, hofNat]
      rw [UInt64.le_iff_toNat_le, hless, hofNat]
      omega
    -- the nodes behind the last written one are dropped
    have hmoved := window_memmove a i (ns.length - 1 - i) ns.length
    rw [hwin] at hmoved
    simp only [deleteStored, hfs, hread.1, if_true, hnodes, bind, Except.bind,
      writeNodes_succeeds hwrite, hless, hbytes, hmoved]

/-- `delete` of a buffered key does not touch the file. -/
theorem deleteFrom_of_buffered (name : String) (env : DeleteEnv) {k : KeyType} (fs : FS)
    {tree : Lsm} (hmem : ∃ n ∈ tree.buffered, n.key = k)
    (hreach : firstIndex k tree.buffered ≤ intMax) :
    deleteFrom name env k fs tree =
      .ok (fs, deleteBuffered tree (firstIndex k tree.buffered), 0) := by
  rcases searchList_of_mem hmem hreach with ⟨ni, hsearch, hindex⟩
  rw [← searchBuffer_eq] at hsearch
  simp only [deleteFrom, hsearch, bind, Except.bind, hindex]

/-- The search of the buffer overflows before it comes to the key. -/
theorem deleteFrom_of_far_buffered (name : String) (env : DeleteEnv) {k : KeyType} (fs : FS)
    {tree : Lsm} (hmem : ∃ n ∈ tree.buffered, n.key = k)
    (hfar : intMax < firstIndex k tree.buffered) :
    deleteFrom name env k fs tree = .error .intOverflow := by
  have hsearch := searchList_of_far hmem hfar
  rw [← searchBuffer_eq] at hsearch
  simp only [deleteFrom, hsearch, bind, Except.bind]

/-- The search of the buffer overflows without a match. -/
theorem deleteFrom_of_long_buffer (name : String) (env : DeleteEnv) {k : KeyType} (fs : FS)
    {tree : Lsm} (hnot : ∀ n ∈ tree.buffered, n.key ≠ k) (hlong : intMax < tree.nextEmpty.toNat) :
    deleteFrom name env k fs tree = .error .intOverflow := by
  have hsearch := searchBuffer_of_not_mem hnot
  rw [if_neg (Nat.not_le.2 hlong)] at hsearch
  simp only [deleteFrom, hsearch, bind, Except.bind]

/-- The search of the file overflows before it comes to the key. -/
theorem deleteFrom_of_far_stored {name : String} {env : DeleteEnv} (henv : env.search.Succeeds)
    {k : KeyType} {fs : FS} {tree : Lsm} {ns : List Node} (hfile : FileHolds fs name ns)
    (hbuffer : searchBuffer k tree = .ok none) (hmem : ∃ n ∈ ns, n.key = k)
    (hfar : intMax < firstIndex k ns) : deleteFrom name env k fs tree = .error .intOverflow := by
  have hsearch := searchList_of_far hmem hfar
  rw [← searchDiskFrom_eq henv k hfile] at hsearch
  simp only [deleteFrom, hbuffer, hsearch, bind, Except.bind]

/-- `delete` of a key that is only stored does not touch the buffer; the file that is searched holds
the same nodes as the tree's own. -/
theorem deleteFrom_of_stored {name : String} {env : DeleteEnv} (henv : env.Succeeds) {k : KeyType}
    {fs : FS} {tree : Lsm} {ns : List Node} (hname : FileHolds fs name ns)
    (hfile : FileHolds fs tree.disk1 ns) (hbuffer : searchBuffer k tree = .ok none)
    (hmem : ∃ n ∈ ns, n.key = k) (hreach : firstIndex k ns ≤ intMax) :
    deleteFrom name env k fs tree =
      .ok (Function.update fs tree.disk1 (some (fileBytes
        (movedDown ns (firstIndex k ns) (ns.length - 1 - firstIndex k ns)))), tree, 0) := by
  rcases searchList_of_mem hmem hreach with ⟨ni, hsearch, hindex⟩
  rw [← searchDiskFrom_eq henv.1 k hname] at hsearch
  have hstored := deleteStored_eq henv hfile (firstIndex_lt_length.2 hmem)
  simp only [deleteFrom, hbuffer, hsearch, bind, Except.bind, hindex, hstored]

/-- The file that is written again is one node shorter. -/
theorem length_movedDown_lt {fs : FS} {name : String} {ns : List Node} (hfile : FileHolds fs name ns)
    (i bytes : Nat) : (movedDown ns i bytes).length < 2 ^ 64 := by
  rcases hfile with ⟨-, rfl⟩ | ⟨-, hbound⟩
  · simp
  · rw [length_movedDown]
    omega

/-! ## When nothing of the key is left -/

/-- Neither the buffer nor the file holds a node of the key. -/
def KeyAbsent (fs : FS) (tree : Lsm) (k : KeyType) : Prop :=
  (∀ n ∈ tree.buffered, n.key ≠ k) ∧ ∀ n ∈ storedNodes fs tree.disk1, n.key ≠ k

/-- `delete` returns, has stored nothing outside the block and leaves no node of the key. -/
def DeletesKey (name : String) (env : DeleteEnv) (k : KeyType) (fs : FS) (tree : Lsm) : Prop :=
  ∃ fs' tree' r, deleteFrom name env k fs tree = .ok (fs', tree', r) ∧ BufferSafe tree' ∧
    KeyAbsent fs' tree' k

/-- The states from which the moves of `delete` leave no node of the key, with a search that reaches
it.  For a buffered key the move covers as many bytes as the block has nodes from the index on; for a
stored key, as the file has nodes behind the index. -/
def DeleteErases (tree : Lsm) (stored : List Node) (k : KeyType) : Prop :=
  ((∃ n ∈ tree.buffered, n.key = k) →
      firstIndex k tree.buffered ≤ intMax ∧ (∀ n ∈ stored, n.key ≠ k) ∧
        Erased tree.buffered (firstIndex k tree.buffered)
          (tree.blockSize.toNat - firstIndex k tree.buffered) k) ∧
    ((∀ n ∈ tree.buffered, n.key ≠ k) →
      tree.nextEmpty.toNat ≤ intMax ∧ firstIndex k stored ≤ intMax ∧
        Erased stored (firstIndex k stored) (stored.length - 1 - firstIndex k stored) k)

/-- `delete` of a buffered key: the key is gone exactly when the file does not hold it either and
the move leaves none of it in the buffer. -/
theorem delete_buffered_erases_iff {env : DeleteEnv} {k : KeyType} {fs : FS} {tree : Lsm}
    (hfits : tree.nextEmpty.toNat ≤ tree.blockSize.toNat)
    (hmem : ∃ n ∈ tree.buffered, n.key = k) (name : String) :
    DeletesKey name env k fs tree ↔
      BufferSafe tree ∧ firstIndex k tree.buffered ≤ intMax ∧
        (∀ n ∈ storedNodes fs tree.disk1, n.key ≠ k) ∧
        Erased tree.buffered (firstIndex k tree.buffered)
          (tree.blockSize.toNat - firstIndex k tree.buffered) k := by
  have hlt : firstIndex k tree.buffered < tree.nextEmpty.toNat := by
    simpa using firstIndex_lt_length.2 hmem
  have hiff := movedDown_firstIndex_iff k tree.buffered
    (tree.blockSize.toNat - firstIndex k tree.buffered)
  rw [← buffered_deleteBuffered hlt hfits] at hiff
  constructor
  · rintro ⟨fs', tree', r, hok, hsafe, habsent⟩
    by_cases hfar : intMax < firstIndex k tree.buffered
    · rw [deleteFrom_of_far_buffered name env fs hmem hfar] at hok
      cases hok
    · have hreach := Nat.le_of_not_lt hfar
      rw [deleteFrom_of_buffered name env fs hmem hreach] at hok
      cases hok
      -- the file stays, so it must not hold the key either
      exact ⟨⟨hsafe.granted, hfits, hsafe.stores⟩, hreach, habsent.2, hiff.1 habsent.1⟩
  · rintro ⟨hsafe, hreach, hstored, herased⟩
    exact ⟨_, _, _, deleteFrom_of_buffered name env fs hmem hreach, hsafe.deleteBuffered hlt,
      hiff.2 herased, hstored⟩

/-- `delete` of a key that is only stored: the key is gone exactly when the move leaves none of it in
the file. -/
theorem delete_stored_erases_iff {env : DeleteEnv} (henv : env.Succeeds) {k : KeyType} {fs : FS}
    {tree : Lsm} {ns : List Node} (hfile : FileHolds fs tree.disk1 ns)
    (hnot : ∀ n ∈ tree.buffered, n.key ≠ k) (hmem : ∃ n ∈ ns, n.key = k) :
    DeletesKey tree.disk1 env k fs tree ↔
      BufferSafe tree ∧ tree.nextEmpty.toNat ≤ intMax ∧ firstIndex k ns ≤ intMax ∧
        Erased ns (firstIndex k ns) (ns.length - 1 - firstIndex k ns) k := by
  have hiff := movedDown_firstIndex_iff k ns (ns.length - 1 - firstIndex k ns)
  rw [← storedNodes_update fs tree.disk1 (length_movedDown_lt hfile _ _)] at hiff
  have hbuffer := searchBuffer_of_not_mem hnot
  constructor
  · rintro ⟨fs', tree', r, hok, hsafe, habsent⟩
    by_cases hlong : intMax < tree.nextEmpty.toNat
    · rw [deleteFrom_of_long_buffer tree.disk1 env fs hnot hlong] at hok
      cases hok
    · have hle := Nat.le_of_not_lt hlong
      rw [if_pos hle] at hbuffer
      by_cases hfar : intMax < firstIndex k ns
      · rw [deleteFrom_of_far_stored henv.1 hfile hbuffer hmem hfar] at hok
        cases hok
      · have hreach := Nat.le_of_not_lt hfar
        rw [deleteFrom_of_stored henv hfile hfile hbuffer hmem hreach] at hok
        cases hok
        exact ⟨hsafe, hle, hreach, hiff.1 habsent.2⟩
  · rintro ⟨hsafe, hle, hreach, herased⟩
    rw [if_pos hle] at hbuffer
    exact ⟨_, _, _, deleteFrom_of_stored henv hfile hfile hbuffer hmem hreach, hsafe, hnot,
      hiff.2 herased⟩

/-- After any run of puts, `delete` of a key returns and leaves no node of it in the buffer or the file
exactly when the size of the block does not wrap and the state is one that `DeleteErases`
describes. -/
theorem delete_erases_iff {treeMem : Bool} {blockMem : Option Heap} {bufferSize : UInt64}
    {sorted : Bool} {tree : Lsm}
    (hinit : initNewLsm treeMem blockMem bufferSize sorted = some tree)
    (hpos : 1 ≤ bufferSize.toNat) {fs fs₁ : FS} {tree₁ : Lsm} {ns : List Node}
    (hfile : FileHolds fs disk1Name ns) {calls : List PutCall} (hok : AllSucceed calls)
    (hrun : run putStep (fs, tree) calls = .ok (fs₁, tree₁)) {env : DeleteEnv}
    (henv : env.Succeeds) {k : KeyType}
    (hmem : (∃ n ∈ tree₁.buffered, n.key = k) ∨
      ∃ n ∈ storedNodes fs₁ tree₁.disk1, n.key = k) :
    DeletesKey tree₁.disk1 env k fs₁ tree₁ ↔
      bufferSize.toNat < 2 ^ 61 ∧ DeleteErases tree₁ (storedNodes fs₁ tree₁.disk1) k := by
  rcases run_keeps hinit hpos hrun with ⟨hsame, hfits⟩
  rw [← run_safe_iff hinit hpos hrun]
  by_cases hbuffered : ∃ n ∈ tree₁.buffered, n.key = k
  · rw [delete_buffered_erases_iff hfits hbuffered tree₁.disk1]
    refine and_congr_right (fun _ => ⟨fun h => ⟨fun _ => h, fun hnot => ?_⟩, fun h => h.1 hbuffered⟩)
    rcases hbuffered with ⟨n, hn, hkey⟩
    exact absurd hkey (hnot n hn)
  · have hnot : ∀ n ∈ tree₁.buffered, n.key ≠ k := fun n hn hkey => hbuffered ⟨n, hn, hkey⟩
    have hholds : ∃ ms, FileHolds fs₁ tree₁.disk1 ms := by
      have hname : tree₁.disk1 = disk1Name := hsame.disk1.trans (newTree_of_init hinit).disk1
      rcases run_returns hinit hpos fs hok with ⟨fs₁', tree₁', hrun', hkeeps⟩
      rw [hrun] at hrun'
      cases hrun'
      rw [hname]
      exact hkeeps ⟨ns, hfile⟩
    rcases hholds with ⟨ms, hms⟩
    have hstored := hmem.resolve_left hbuffered
    rw [hms.storedNodes_eq] at hstored ⊢
    rw [delete_stored_erases_iff henv hms hnot hstored]
    exact and_congr_right
      (fun _ => ⟨fun h => ⟨fun hb => absurd hb hbuffered, fun _ => h⟩, fun h => h.2 hnot⟩)

/-- Two different keys in a block of two: two bytes of key `2` are enough to replace key `1`. -/
theorem delete_erases_two_keys :
    ∃ fs₁ tree₁,
      run putStep (noFiles, zeroTree 2 true) (quietCalls [(1, 10), (2, 20)]) = .ok (fs₁, tree₁) ∧
      DeletesKey tree₁.disk1 DeleteEnv.quiet 1 fs₁ tree₁ := by
  have hinit := initNewLsm_zeroTree 2 true
  rcases run_unflushed hinit noFiles (by decide : (quietCalls [(1, 10), (2, 20)]).length ≤ 2) with
    ⟨tree₁, hrun, hbuffered, -, hsize, -⟩
  have hfile : FileHolds noFiles disk1Name [] := Or.inl ⟨rfl, rfl⟩
  have hmem : ∃ n ∈ tree₁.buffered, n.key = 1 := by
    rw [hbuffered]
    decide
  refine ⟨noFiles, tree₁, hrun, ?_⟩
  refine (delete_erases_iff hinit (by decide) hfile (quietCalls_succeed _) hrun
    DeleteEnv.quiet_succeeds (Or.inl hmem)).2 ⟨by decide, fun _ => ?_, ?_⟩
  · have hindex : firstIndex 1 (nodesPut (quietCalls [(1, 10), (2, 20)])) = 0 := by decide
    rw [hbuffered, hsize, hindex]
    refine ⟨by decide, fun n hn => ?_, ?_, ?_, ?_⟩
    · cases hn
    · intro j _ hj hmoved
      exact absurd hj (Nat.not_lt.2 hmoved)
    · intro j h hj
      exact absurd h (by simp; omega)
    · intro _
      exact (by decide : spliceInt 2 2 1 ≠ 1)
  · intro hnot
    rcases hmem with ⟨n, hn, hkey⟩
    exact absurd hkey (hnot n hn)

/-- Key `1` is buffered and stored; `delete` takes the buffered node and the old one stays. -/
theorem delete_leaves_stored_node :
    ∃ fs₁ tree₁ fs₂ tree₂,
      run putStep (noFiles, zeroTree 2 true) (quietCalls [(1, 10), (2, 20), (1, 30)]) =
        .ok (fs₁, tree₁) ∧
      tree₁.buffered = [{ key := 1, val := 30 }] ∧
      deleteFrom tree₁.disk1 DeleteEnv.quiet 1 fs₁ tree₁ = .ok (fs₂, tree₂, 0) ∧
      storedNodes fs₂ tree₂.disk1 = [{ key := 1, val := 10 }, { key := 2, val := 20 }] ∧
      ¬ KeyAbsent fs₂ tree₂ 1 ∧ ¬ DeletesKey tree₁.disk1 DeleteEnv.quiet 1 fs₁ tree₁ := by
  have hstate : ((run putStep (noFiles, zeroTree 2 true)
      (quietCalls [(1, 10), (2, 20), (1, 30)])).toOption.map
        (fun t => (t.2.buffered, (deleteFrom t.2.disk1 DeleteEnv.quiet 1 t.1 t.2).toOption.map
          (fun u => (u.2.2, storedNodes u.1 u.2.1.disk1))))) =
      some ([{ key := 1, val := 30 }],
        some (0, [{ key := 1, val := 10 }, { key := 2, val := 20 }])) := by
    decide +kernel
  rcases exists_of_map_eq hstate with ⟨⟨fs₁, tree₁⟩, hrun, hobs⟩
  simp only [Prod.mk.injEq] at hobs
  rcases hobs with ⟨hbuffered, hobs⟩
  rcases exists_of_map_eq hobs with ⟨⟨fs₂, tree₂, r⟩, hdelete, hafter⟩
  simp only [Prod.mk.injEq] at hafter
  rcases hafter with ⟨rfl, hstored⟩
  have hleft : ¬ KeyAbsent fs₂ tree₂ 1 := by
    rintro ⟨-, habsent⟩
    rw [hstored] at habsent
    exact absurd habsent (by decide)
  refine ⟨fs₁, tree₁, fs₂, tree₂, hrun, hbuffered, hdelete, hstored, hleft, ?_⟩
  rintro ⟨fs₂', tree₂', r, hdelete', -, habsent⟩
  rw [hdelete] at hdelete'
  cases hdelete'
  exact hleft habsent

end LSMTree
end DBTest
