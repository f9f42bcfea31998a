import DBTest.LSMTree.Search

/-!
# Lookup — what a reader of the right file would see

`Lsm.lookup` is the order in which `get` consults the buffer and the disk, with `search_disk` taken
to read the file that `write_to_disk` wrote (`getFrom_eq_lookup`).  The buffer is scanned oldest
first and a sorted flush puts the newest node of a key first, so the two places disagree about
duplicates:

* a flush is invisible for a key exactly when its oldest and its newest buffered node are the same
  (`flush_invisible_iff`);
* an update, which goes to the oldest buffered node, survives the flush exactly when no newer node
  of the key with another value is buffered (`update_survives_iff`);
* an unsorted flush keeps the newest value in front exactly when nothing in the block delays it
  behind the stored one (`unsorted_flush_newest_iff`).
-/

namespace DBTest
namespace LSMTree

open KeyedMerge
open FallibleRun

/-! ## The reader -/

/-- The first match in the buffer, else the first match in the file. -/
def Lsm.lookup (tree : Lsm) (fs : FS) (k : KeyType) : Option Node :=
  (firstMatch Node.key k tree.buffered).or (firstMatch Node.key k (storedNodes fs tree.disk1))

/-- `get` with a `search_disk` that opens the tree's own file. -/
theorem getFrom_eq_lookup {env : ReadEnv} (henv : env.Succeeds) (k : KeyType) {fs : FS}
    {tree : Lsm} {ns : List Node} (hfile : FileHolds fs tree.disk1 ns)
    (hlen : ns.length ≤ intMax) (hbuffer : tree.nextEmpty.toNat ≤ intMax) :
    getFrom tree.disk1 env k fs tree = .ok (tree.lookup fs k) := by
  have hsearch := searchBuffer_eq_of_le k hbuffer
  have hdisk := (searchDiskFrom_eq henv k hfile).trans (searchList_of_le k hlen)
  have hfirst := firstNodeI_node k tree.buffered 0
  have hstored := firstNodeI_node k ns 0
  rw [Lsm.lookup, hfile.storedNodes_eq, ← hfirst, ← hstored]
  cases hb : firstNodeI k tree.buffered 0 with
  | some ni => simp [getFrom, hsearch, hb, bind, Except.bind]
  | none =>
      cases hd : firstNodeI k ns 0 with
      | some ni => simp [getFrom, hsearch, hb, hdisk, hd, bind, Except.bind]
      | none => simp [getFrom, hsearch, hb, hdisk, hd, bind, Except.bind]

theorem Represents.lookup_eq {fs : FS} {tree : Lsm} {s : Store Node} (h : Represents fs tree s)
    (k : KeyType) : tree.lookup fs k = s.lookup Node.key k := by
  rw [Lsm.lookup, Store.lookup, h.buffer, h.file.storedNodes_eq]

/-- Appending a node of another key does not change what is found. -/
theorem lookup_push {tree : Lsm} (hroom : tree.nextEmpty.toNat + 1 < 2 ^ 64) {n : Node}
    {k : KeyType} (hk : n.key ≠ k) (fs : FS) : (tree.push n).lookup fs k = tree.lookup fs k := by
  have hnone : firstMatch Node.key k [n] = none := by simp [firstMatch, hk]
  rw [Lsm.lookup, buffered_push hroom, firstMatch_append, hnone, Option.or_none]
  rfl

/-- A run of puts in sorted mode on a new tree without a file reaches a state that represents a store
with an ascending run. -/
theorem sorted_run_represents {treeMem : Bool} {blockMem : Option Heap} {bufferSize : UInt64}
    {tree : Lsm} (hinit : initNewLsm treeMem blockMem bufferSize true = some tree)
    (hpos : 1 ≤ bufferSize.toNat) {fs fs' : FS} {tree' : Lsm} (hfs : fs disk1Name = none)
    {calls : List PutCall} (hok : AllSucceed calls)
    (hrun : run putStep (fs, tree) calls = .ok (fs', tree')) (hcount : calls.length ≤ intMax) :
    ∃ s : Store Node, Represents fs' tree' s ∧ s.sorted = true ∧ Ascending Node.key s.disk ∧
      s.disk.length + s.buffer.length = calls.length := by
  have hfile : FileHolds fs disk1Name [] := Or.inl ⟨hfs, rfl⟩
  rcases run_from_file hinit hpos hfile hok hrun (by simpa using hcount) with
    ⟨s, hrep, hsorted, hasc, hlen⟩
  refine ⟨s, hrep, hsorted, hasc.2 ⟨List.Pairwise.nil, ?_⟩, by simpa using hlen⟩
  intro hfalse
  cases hfalse

/-! ## A flush in sorted mode -/

/-- In sorted mode a put of another key is invisible for `k` exactly when it does not flush, or when
the oldest and the newest buffered node of `k` are the same. -/
theorem flush_invisible_iff {treeMem : Bool} {blockMem : Option Heap} {bufferSize : UInt64}
    {tree : Lsm} (hinit : initNewLsm treeMem blockMem bufferSize true = some tree)
    (hpos : 1 ≤ bufferSize.toNat) {fs fs₁ fs₂ : FS} {tree₁ tree₂ : Lsm}
    (hfs : fs disk1Name = none) {calls : List PutCall} (hok : AllSucceed calls)
    (hrun : run putStep (fs, tree) calls = .ok (fs₁, tree₁)) {env : FlushEnv}
    (henv : env.Succeeds) {k k' : KeyType} {v' : ValType} {r : Int32}
    (hput : put env k' v' fs₁ tree₁ = .ok (fs₂, tree₂, r)) (hk : k ≠ k')
    (hcount : tree₁.nextEmpty = tree₁.blockSize → calls.length ≤ intMax) :
    tree₂.lookup fs₂ k = tree₁.lookup fs₁ k ↔
      tree₁.nextEmpty ≠ tree₁.blockSize ∨
        firstMatch Node.key k tree₁.buffered = lastMatch Node.key k tree₁.buffered := by
  by_cases hfull : tree₁.nextEmpty = tree₁.blockSize
  · -- the put flushes: compare the two reads in the store
    rcases sorted_run_represents hinit hpos hfs hok hrun (hcount hfull) with
      ⟨s, hrep, hsorted, hasc, hlen⟩
    have hbound : s.disk.length + s.buffer.length ≤ intMax := by
      rw [hlen]
      exact hcount hfull
    rcases put_represents henv hrep { key := k', val := v' } (fun _ => hbound) with
      ⟨fs₂', tree₂', hput', hrep', -⟩
    rw [hput] at hput'
    cases hput'
    have hiff := Store.lookup_put_iff Node.key hsorted hasc
      (a := { key := k', val := v' }) (k := k) hk.symm
    rw [hrep'.lookup_eq, hrep.lookup_eq, hiff, hrep.buffer, Ne, Ne, hrep.full_iff]
  · -- the put only appends a node of another key
    have hfits := (run_keeps hinit hpos hrun).2
    have hlt := nextEmpty_lt_of_ne hfits hfull
    have hcap := tree₁.blockSize.toNat_lt
    rcases put_eq_ok (n := { key := k', val := v' }) hput with ⟨-, rfl, rfl⟩ | ⟨hfull', -⟩
    · have hsame : (tree₁.push { key := k', val := v' }).lookup fs₂ k = tree₁.lookup fs₂ k :=
        lookup_push (by omega) hk.symm fs₂
      exact ⟨fun _ => Or.inl hfull, fun _ => hsame⟩
    · exact absurd hfull' hfull

/-- A flush of a block with two different keys. -/
theorem flush_invisible_two_keys :
    ∃ fs₁ tree₁ fs₂ tree₂,
      run putStep (noFiles, zeroTree 2 true) (quietCalls [(1, 10), (3, 30)]) = .ok (fs₁, tree₁) ∧
      put FlushEnv.quiet 2 5 fs₁ tree₁ = .ok (fs₂, tree₂, 0) ∧
      tree₂.lookup fs₂ 1 = tree₁.lookup fs₁ 1 := by
  have hinit := initNewLsm_zeroTree 2 true
  rcases run_unflushed hinit noFiles (by decide : (quietCalls [(1, 10), (3, 30)]).length ≤ 2) with
    ⟨tree₁, hrun, hbuffered, -⟩
  rcases put_returns FlushEnv.quiet_succeeds { key := 2, val := 5 } noFiles tree₁ with
    ⟨fs₂, tree₂, hput, -⟩
  refine ⟨noFiles, tree₁, fs₂, tree₂, hrun, hput, ?_⟩
  refine (flush_invisible_iff hinit (by decide) rfl (quietCalls_succeed _) hrun
    FlushEnv.quiet_succeeds hput (by decide) (fun _ => by decide)).2 (Or.inr ?_)
  rw [hbuffered]
  decide

/-- Two buffered nodes of key `1`: the put of key `2` flushes them and the value found for `1`
changes from `10` to `20`. -/
theorem flush_visible_duplicate_key :
    ∃ fs₁ tree₁ fs₂ tree₂,
      run putStep (noFiles, zeroTree 2 true) (quietCalls [(1, 10), (1, 20)]) = .ok (fs₁, tree₁) ∧
      put FlushEnv.quiet 2 5 fs₁ tree₁ = .ok (fs₂, tree₂, 0) ∧
      tree₁.lookup fs₁ 1 = some { key := 1, val := 10 } ∧
      tree₂.lookup fs₂ 1 = some { key := 1, val := 20 } ∧
      tree₂.lookup fs₂ 1 ≠ tree₁.lookup fs₁ 1 := by
  have hstate : ((run putStep (noFiles, zeroTree 2 true)
      (quietCalls [(1, 10), (1, 20)])).toOption.map
        (fun t => (t.2.lookup t.1 1, (put FlushEnv.quiet 2 5 t.1 t.2).toOption.map
          (fun u => (u.2.2, u.2.1.lookup u.1 1))))) =
      some (some { key := 1, val := 10 }, some (0, some { key := 1, val := 20 })) := by
    decide +kernel
  rcases exists_of_map_eq hstate with ⟨⟨fs₁, tree₁⟩, hrun, hobs⟩
  have hbefore : tree₁.lookup fs₁ 1 = some { key := 1, val := 10 } := congrArg Prod.fst hobs
  rcases exists_of_map_eq (congrArg Prod.snd hobs) with ⟨⟨fs₂, tree₂, r⟩, hput, hobs'⟩
  cases congrArg Prod.fst hobs'
  have hafter : tree₂.lookup fs₂ 1 = some { key := 1, val := 20 } := congrArg Prod.snd hobs'
  refine ⟨fs₁, tree₁, fs₂, tree₂, hrun, hput, hbefore, hafter, ?_⟩
  rw [hbefore, hafter]
  decide

/-! ## Updates -/

/-- The tree `update` leaves when it finds the key in the buffer. -/
def Lsm.setNode (tree : Lsm) (i : Nat) (n : Node) : Lsm :=
  { tree with block := tree.block.store i n }

/-- A store at the first index of a key replaces its first node. -/
theorem set_firstIndex (k : KeyType) (xs : List Node) (n : Node) :
    xs.set (firstIndex k xs) n = setFirst Node.key k n xs := by
  induction xs with
  | nil => rfl
  | cons x xs ih =>
      by_cases hx : x.key = k
      · simp [firstIndex, List.findIdx_cons, setFirst, hx]
      · have hindex : firstIndex k (x :: xs) = firstIndex k xs + 1 := by
          simp [firstIndex, List.findIdx_cons, hx]
        rw [hindex, List.set_cons_succ, ih]
        simp [setFirst, hx]

theorem buffered_setNode (tree : Lsm) (i : Nat) (n : Node) :
    (tree.setNode i n).buffered = tree.buffered.set i n := by
  apply List.ext_getElem
  · simp [Lsm.buffered, Lsm.setNode]
  · intro j hj hj'
    simp only [Lsm.buffered, Lsm.setNode, NodeArr.getElem_window, List.getElem_set,
      NodeArr.store_cells, Nat.zero_add]
    by_cases hij : i = j
    · rw [if_pos hij, hij, Function.update_self]
    · rw [if_neg hij, Function.update_of_ne (Ne.symm hij)]

theorem BufferSafe.setNode {tree : Lsm} (h : BufferSafe tree) {i : Nat}
    (hi : i < tree.nextEmpty.toNat) (n : Node) : BufferSafe (tree.setNode i n) := by
  refine ⟨h.granted, h.nextEmpty, ?_⟩
  intro j hj
  simp only [Lsm.setNode, NodeArr.store_stores, List.mem_append, List.mem_singleton] at hj
  rcases hj with hj | rfl
  · exact h.stores j hj
  · exact Nat.lt_of_lt_of_le hi h.nextEmpty

/-- `update` of a buffered key replaces its first node. -/
theorem update_of_buffered (denv : DeleteEnv) (penv : FlushEnv) {k : KeyType} (v : ValType)
    (fs : FS) {tree : Lsm} (hle : tree.nextEmpty.toNat ≤ intMax)
    (hmem : ∃ n ∈ tree.buffered, n.key = k) :
    ∃ i, i < tree.nextEmpty.toNat ∧
      update denv penv k v fs tree = .ok (fs, tree.setNode i { key := k, val := v }, 0) ∧
      (tree.setNode i { key := k, val := v }).buffered =
        setFirst Node.key k { key := k, val := v } tree.buffered := by
  have hsearch := searchBuffer_eq_of_le k hle
  cases hfirst : firstNodeI k tree.buffered 0 with
  | none =>
      rcases hmem with ⟨n, hn, hkey⟩
      exact absurd hkey (firstNodeI_eq_none.1 hfirst n hn)
  | some ni =>
      rcases index_of_firstNodeI hfirst with ⟨hindex, hlt⟩
      refine ⟨ni.index, ?_, ?_, ?_⟩
      · simpa [hindex] using hlt
      · simp only [update, updateFrom, hsearch, hfirst, bind, Except.bind]
        rfl
      · rw [buffered_setNode, hindex, Nat.zero_add]
        exact set_firstIndex k tree.buffered _

/-- The store a tree represents after an update of a buffered key. -/
theorem Represents.setNode {fs : FS} {tree : Lsm} {s : Store Node} (h : Represents fs tree s)
    {i : Nat} {k : KeyType} {n : Node}
    (hset : (tree.setNode i n).buffered = setFirst Node.key k n tree.buffered) :
    ∃ s' : Store Node, Represents fs (tree.setNode i n) s' ∧ s'.cap = s.cap ∧
      s'.sorted = s.sorted ∧ s'.disk = s.disk ∧ s'.buffer = setFirst Node.key k n s.buffer := by
  refine ⟨{ s with
      buffer := setFirst Node.key k n s.buffer
      buffer_le := by simpa using s.buffer_le }, ⟨h.cap, h.sorted, ?_, h.file⟩, rfl, rfl, rfl, rfl⟩
  rw [hset, h.buffer]

/-- What is found of a key whose first buffered item was replaced, after puts of other keys: the new
item as long as nothing is flushed; afterwards the newest buffered item, which is the new one when
there was only one or when it was that item already. -/
theorem lookup_puts_setFirst {s' : Store Node} (hs : s'.sorted = true)
    (hd : Ascending Node.key s'.disk) {k : KeyType} {ns : List Node}
    (hk : ∀ n ∈ ns, n.key ≠ k) {n : Node} (hkey : n.key = k) {buffer : List Node}
    (hmem : ∃ m ∈ buffer, m.key = k) (hbuffer : s'.buffer = setFirst Node.key k n buffer) :
    Store.lookup Node.key (s'.puts Node.key ns) k = some n ↔
      buffer.length + ns.length ≤ s'.cap ∨ (withKey Node.key k buffer).length = 1 ∨
        lastMatch Node.key k buffer = some n := by
  have hfirst : firstMatch Node.key k s'.buffer = some n := by
    rw [hbuffer]
    exact firstMatch_setFirst Node.key hkey hmem
  have hlen : s'.buffer.length = buffer.length := by
    rw [hbuffer, length_setFirst]
  rw [Store.lookup_puts Node.key hs hd hk, hlen]
  by_cases hfits : buffer.length + ns.length ≤ s'.cap
  · rw [if_pos hfits, Store.lookup, hfirst]
    exact ⟨fun _ => Or.inl hfits, fun _ => rfl⟩
  · -- after the first flush the newest buffered node of the key is the one found
    have hor : (lastMatch Node.key k s'.buffer).or (firstMatch Node.key k s'.disk) =
        lastMatch Node.key k s'.buffer := by
      cases hl : lastMatch Node.key k s'.buffer with
      | none =>
          rw [(firstMatch_eq_none_iff_lastMatch Node.key).2 hl] at hfirst
          cases hfirst
      | some m => rfl
    rw [if_neg hfits, hor, hbuffer, lastMatch_setFirst_eq_iff Node.key hkey hmem]
    simp [hfits]

/-- `update` of a buffered key in sorted mode and puts of other keys after it: nothing but the value
of that key changes, the new value is found at once, and it is still found when the puts do not flush,
or the key is buffered only once, or its newest buffered node holds the new value anyway. -/
theorem update_then_puts {treeMem : Bool} {blockMem : Option Heap} {bufferSize : UInt64}
    {tree : Lsm} (hinit : initNewLsm treeMem blockMem bufferSize true = some tree)
    (hpos : 1 ≤ bufferSize.toNat) {fs fs₁ : FS} {tree₁ : Lsm}
    (hfs : fs disk1Name = none) {calls later : List PutCall} (hok : AllSucceed calls)
    (hrun : run putStep (fs, tree) calls = .ok (fs₁, tree₁)) {k : KeyType}
    (hmem : ∃ n ∈ tree₁.buffered, n.key = k) (hlater : AllSucceed later)
    (hk : ∀ c ∈ later, c.node.key ≠ k) (hcount : calls.length + later.length ≤ intMax)
    (denv : DeleteEnv) (penv : FlushEnv) (v : ValType) :
    ∃ i fs₃ tree₃, i < tree₁.nextEmpty.toNat ∧
      update denv penv k v fs₁ tree₁ = .ok (fs₁, tree₁.setNode i { key := k, val := v }, 0) ∧
      (tree₁.setNode i { key := k, val := v }).buffered.map Node.key =
        tree₁.buffered.map Node.key ∧
      (∀ k', k' ≠ k →
        (tree₁.setNode i { key := k, val := v }).lookup fs₁ k' = tree₁.lookup fs₁ k') ∧
      (tree₁.setNode i { key := k, val := v }).lookup fs₁ k = some { key := k, val := v } ∧
      run putStep (fs₁, tree₁.setNode i { key := k, val := v }) later = .ok (fs₃, tree₃) ∧
      (tree₃.lookup fs₃ k = some { key := k, val := v } ↔
        tree₁.nextEmpty.toNat + later.length ≤ tree₁.blockSize.toNat ∨
          (withKey Node.key k tree₁.buffered).length = 1 ∨
          lastMatch Node.key k tree₁.buffered = some { key := k, val := v }) := by
  rcases sorted_run_represents hinit hpos hfs hok hrun (by omega) with
    ⟨s, hrep, hsorted, hasc, hlen⟩
  have hle : tree₁.nextEmpty.toNat ≤ intMax := by
    rw [hrep.nextEmpty]
    omega
  rcases update_of_buffered denv penv v fs₁ hle hmem with ⟨i, hi, hupdate, hset⟩
  rcases hrep.setNode hset with ⟨s', hrep', hcap', hsorted', hdisk', hbuffer'⟩
  -- the puts that follow are puts on the updated store
  have hbound : s'.disk.length + flushedCount s'.cap (s'.buffer.length + later.length) ≤ intMax := by
    have hflushed := flushedCount_le s'.cap (s'.buffer.length + later.length)
    rw [hdisk', hbuffer', length_setFirst] at *
    omega
  rcases run_represents hrep' hlater hbound with ⟨fs₃, tree₃, hrun₃, hrep₃, -⟩
  -- the update itself: the first buffered node of the key is replaced
  have hmem' : ∃ n ∈ s.buffer, n.key = k := by
    rw [← hrep.buffer]
    exact hmem
  have hkey : ({ key := k, val := v } : Node).key = k := rfl
  have hfirst : firstMatch Node.key k s'.buffer = some { key := k, val := v } := by
    rw [hbuffer']
    exact firstMatch_setFirst Node.key hkey hmem'
  refine ⟨i, fs₃, tree₃, hi, hupdate, ?_, ?_, ?_, hrun₃, ?_⟩
  · rw [hset]
    exact map_key_setFirst Node.key hkey tree₁.buffered
  · intro k' hk'
    rw [hrep'.lookup_eq, hrep.lookup_eq, Store.lookup, Store.lookup, hbuffer', hdisk',
      firstMatch_setFirst_of_ne Node.key hkey hk']
  · rw [hrep'.lookup_eq, Store.lookup, hfirst]
    rfl
  · have hother : ∀ n ∈ nodesPut later, n.key ≠ k := by
      intro n hn
      rcases List.mem_map.1 hn with ⟨c, hc, rfl⟩
      exact hk c hc
    have hasc' : Ascending Node.key s'.disk := by
      rw [hdisk']
      exact hasc
    have hlater' := lookup_puts_setFirst (hsorted'.trans hsorted) hasc' hother hkey hmem' hbuffer'
    rw [hcap', length_nodesPut, ← hrep.nextEmpty, ← hrep.cap] at hlater'
    rw [hrep₃.lookup_eq, hrep.buffer]
    exact hlater'

/-- `update` returns and leaves `next_empty`, the sequence of keys, the file and what is found for the
other keys; the new value is found at once and after the puts that follow, and all of this inside the
block. -/
def UpdateSurvives (denv : DeleteEnv) (penv : FlushEnv) (k : KeyType) (v : ValType) (fs : FS)
    (tree : Lsm) (later : List PutCall) : Prop :=
  ∃ tree₂ fs₃ tree₃, update denv penv k v fs tree = .ok (fs, tree₂, 0) ∧
    tree₂.nextEmpty = tree.nextEmpty ∧
    tree₂.buffered.map Node.key = tree.buffered.map Node.key ∧
    (∀ k', k' ≠ k → tree₂.lookup fs k' = tree.lookup fs k') ∧
    tree₂.lookup fs k = some { key := k, val := v } ∧
    run putStep (fs, tree₂) later = .ok (fs₃, tree₃) ∧ BufferSafe tree₃ ∧
    tree₃.lookup fs₃ k = some { key := k, val := v }

/-- In sorted mode `update` of a buffered key is not lost exactly when the size of the block does not
wrap and the later puts of other keys do not flush, or the key is buffered only once, or its newest
buffered node holds the new value anyway. -/
theorem update_survives_iff {treeMem : Bool} {blockMem : Option Heap} {bufferSize : UInt64}
    {tree : Lsm} (hinit : initNewLsm treeMem blockMem bufferSize true = some tree)
    (hpos : 1 ≤ bufferSize.toNat) {fs fs₁ : FS} {tree₁ : Lsm}
    (hfs : fs disk1Name = none) {calls later : List PutCall} (hok : AllSucceed calls)
    (hrun : run putStep (fs, tree) calls = .ok (fs₁, tree₁)) {k : KeyType}
    (hmem : ∃ n ∈ tree₁.buffered, n.key = k) (hlater : AllSucceed later)
    (hk : ∀ c ∈ later, c.node.key ≠ k) (hcount : calls.length + later.length ≤ intMax)
    (denv : DeleteEnv) (penv : FlushEnv) (v : ValType) :
    UpdateSurvives denv penv k v fs₁ tree₁ later ↔
      bufferSize.toNat < 2 ^ 61 ∧
        (tree₁.nextEmpty.toNat + later.length ≤ tree₁.blockSize.toNat ∨
          (withKey Node.key k tree₁.buffered).length = 1 ∨
          lastMatch Node.key k tree₁.buffered = some { key := k, val := v }) := by
  rcases update_then_puts hinit hpos hfs hok hrun hmem hlater hk hcount denv penv v with
    ⟨i, fs₃, tree₃, hi, hupdate, hkeys, hothers, hnow, hrun₃, hiff⟩
  have hnew := newTree_of_init hinit
  rcases run_block hrun with ⟨hsize, hgranted⟩
  rcases run_block hrun₃ with ⟨hsize₃, hgranted₃⟩
  -- neither the update nor a put changes the block
  have hsafe : BufferSafe tree₃ ↔ bufferSize.toNat < 2 ^ 61 := by
    constructor
    · exact hnew.lt_of_safe (hsize₃.trans hsize) (hgranted₃.trans hgranted)
    · intro hlt
      have hsafe₁ := (run_safe_iff hinit hpos hrun).2 hlt
      refine (hsafe₁.setNode hi _).puts ?_ hrun₃
      rw [Lsm.setNode, hsize, hnew.blockSize]
      exact hpos
  rw [← hsafe, ← hiff]
  constructor
  · rintro ⟨tree₂, fs₃', tree₃', hupdate', -, -, -, -, hrun₃', hsafe₃, hfound⟩
    rw [hupdate] at hupdate'
    cases hupdate'
    rw [hrun₃] at hrun₃'
    cases hrun₃'
    exact ⟨hsafe₃, hfound⟩
  · rintro ⟨hsafe₃, hfound⟩
    exact ⟨_, fs₃, tree₃, hupdate, rfl, hkeys, hothers, hnow, hrun₃, hsafe₃, hfound⟩

/-- The updated key is buffered once, so its new value survives the flush. -/
theorem update_survives_single_node :
    ∃ fs₁ tree₁,
      run putStep (noFiles, zeroTree 2 true) (quietCalls [(1, 10), (3, 30)]) = .ok (fs₁, tree₁) ∧
      UpdateSurvives DeleteEnv.quiet FlushEnv.quiet 1 99 fs₁ tree₁ (quietCalls [(2, 5)]) := by
  have hinit := initNewLsm_zeroTree 2 true
  rcases run_unflushed hinit noFiles (by decide : (quietCalls [(1, 10), (3, 30)]).length ≤ 2) with
    ⟨tree₁, hrun, hbuffered, -⟩
  have hmem : ∃ n ∈ tree₁.buffered, n.key = 1 := by
    rw [hbuffered]
    decide
  refine ⟨noFiles, tree₁, hrun, (update_survives_iff hinit (by decide) rfl (quietCalls_succeed _) hrun
    hmem (quietCalls_succeed [(2, 5)]) (by decide) (by decide) DeleteEnv.quiet FlushEnv.quiet 99).2
    ⟨by decide, Or.inr (Or.inl ?_)⟩⟩
  rw [hbuffered]
  decide

/-- Key `1` is buffered twice; the update goes to the older node, and the flush brings the newer one
back. -/
theorem update_lost_duplicate_key :
    ∃ fs₁ tree₁ fs₂ tree₂ fs₃ tree₃,
      run putStep (noFiles, zeroTree 2 true) (quietCalls [(1, 10), (1, 20)]) = .ok (fs₁, tree₁) ∧
      update DeleteEnv.quiet FlushEnv.quiet 1 30 fs₁ tree₁ = .ok (fs₂, tree₂, 0) ∧
      tree₂.lookup fs₂ 1 = some { key := 1, val := 30 } ∧
      run putStep (fs₂, tree₂) (quietCalls [(2, 5)]) = .ok (fs₃, tree₃) ∧
      tree₃.lookup fs₃ 1 = some { key := 1, val := 20 } ∧
      ¬ UpdateSurvives DeleteEnv.quiet FlushEnv.quiet 1 30 fs₁ tree₁ (quietCalls [(2, 5)]) := by
  have hstate : ((run putStep (noFiles, zeroTree 2 true)
      (quietCalls [(1, 10), (1, 20)])).toOption.map (fun t =>
        (update DeleteEnv.quiet FlushEnv.quiet 1 30 t.1 t.2).toOption.map (fun u =>
          (u.2.2, u.2.1.lookup u.1 1,
            (run putStep (u.1, u.2.1) (quietCalls [(2, 5)])).toOption.map
              (fun w => w.2.lookup w.1 1))))) =
      some (some (0, some { key := 1, val := 30 }, some (some { key := 1, val := 20 }))) := by
    decide +kernel
  rcases exists_of_map_eq hstate with ⟨⟨fs₁, tree₁⟩, hrun, hobs⟩
  rcases exists_of_map_eq hobs with ⟨⟨fs₂, tree₂, r⟩, hupdate, hobs'⟩
  cases congrArg Prod.fst hobs'
  have hnow : tree₂.lookup fs₂ 1 = some { key := 1, val := 30 } :=
    congrArg (fun x => x.2.1) hobs'
  rcases exists_of_map_eq (congrArg (fun x => x.2.2) hobs') with ⟨⟨fs₃, tree₃⟩, hrun₃, hlater⟩
  refine ⟨fs₁, tree₁, fs₂, tree₂, fs₃, tree₃, hrun, hupdate, hnow, hrun₃, hlater, ?_⟩
  rintro ⟨tree₂', fs₃', tree₃', hupdate', -, -, -, -, hrun₃', -, hfound⟩
  rw [hupdate] at hupdate'
  cases hupdate'
  rw [hrun₃] at hrun₃'
  cases hrun₃'
  have hlast : tree₃.lookup fs₃ 1 = some { key := 1, val := 20 } := hlater
  rw [hlast] at hfound
  exact absurd hfound (by decide)

/-! ## A flush in unsorted mode -/

/-- In unsorted mode a flush leaves the newest value of `k` in front exactly when `k` is only in the
buffer or only in the file, or no node before it in the buffer delays it behind the stored one, or
the two nodes are equal. -/
theorem unsorted_flush_newest_iff {treeMem : Bool} {blockMem : Option Heap} {bufferSize : UInt64}
    {tree : Lsm} (hinit : initNewLsm treeMem blockMem bufferSize false = some tree)
    (hpos : 1 ≤ bufferSize.toNat) {fs fs₁ : FS} {tree₁ : Lsm}
    (hfs : fs disk1Name = none) {calls : List PutCall} (hok : AllSucceed calls)
    (hrun : run putStep (fs, tree) calls = .ok (fs₁, tree₁))
    (hfull : tree₁.nextEmpty = tree₁.blockSize) (hcount : calls.length ≤ intMax)
    {env : FlushEnv} (henv : env.Succeeds) (k : KeyType) :
    ∃ fs₂ tree₂, writeToDisk env fs₁ tree₁ = .ok (fs₂, tree₂, 0) ∧
      (firstMatch Node.key k (storedNodes fs₂ tree₂.disk1) = tree₁.lookup fs₁ k ↔
        (∀ n ∈ tree₁.buffered, n.key ≠ k) ∨ (∀ n ∈ storedNodes fs₁ tree₁.disk1, n.key ≠ k) ∨
          RightReaches Node.key k (storedNodes fs₁ tree₁.disk1) tree₁.buffered ∨
          firstMatch Node.key k tree₁.buffered =
            firstMatch Node.key k (storedNodes fs₁ tree₁.disk1)) := by
  have hfile : FileHolds fs disk1Name [] := Or.inl ⟨hfs, rfl⟩
  rcases run_from_file hinit hpos hfile hok hrun (by simpa using hcount) with
    ⟨s, hrep, hsorted, -, hlen⟩
  have hbound : s.disk.length + s.buffer.length ≤ intMax := by
    simpa [hlen] using hcount
  rcases writeToDisk_represents henv hrep hfull hbound with ⟨fs₂, tree₂, hw, hstored⟩
  refine ⟨fs₂, tree₂, hw, ?_⟩
  rw [hstored, hsorted, Lsm.lookup, hrep.file.storedNodes_eq, hrep.buffer]
  exact Store.firstMatch_flushInto_unsorted_iff Node.key s.disk s.buffer k

/-- Two unsorted blocks with the same keys in opposite order: one is stored and the other buffered.
The flush interleaves them as `1, 3, 1, 3`. -/
theorem run_two_blocks :
    ∃ fs₁ tree₁ fs₂ tree₂,
      run putStep (noFiles, zeroTree 2 false) (quietCalls [(1, 10), (3, 30), (3, 31), (1, 11)]) =
        .ok (fs₁, tree₁) ∧
      tree₁.nextEmpty = tree₁.blockSize ∧
      tree₁.buffered = [{ key := 3, val := 31 }, { key := 1, val := 11 }] ∧
      storedNodes fs₁ tree₁.disk1 = [{ key := 1, val := 10 }, { key := 3, val := 30 }] ∧
      writeToDisk FlushEnv.quiet fs₁ tree₁ = .ok (fs₂, tree₂, 0) ∧
      storedNodes fs₂ tree₂.disk1 =
        [{ key := 1, val := 10 }, { key := 3, val := 31 }, { key := 1, val := 11 },
          { key := 3, val := 30 }] := by
  have hstate : ((run putStep (noFiles, zeroTree 2 false)
      (quietCalls [(1, 10), (3, 30), (3, 31), (1, 11)])).toOption.map
        (fun t => (t.2.buffered, storedNodes t.1 t.2.disk1,
          (writeToDisk FlushEnv.quiet t.1 t.2).toOption.map
            (fun u => (u.2.2, storedNodes u.1 u.2.1.disk1))))) =
      some ([{ key := 3, val := 31 }, { key := 1, val := 11 }],
        [{ key := 1, val := 10 }, { key := 3, val := 30 }],
        some (0, [{ key := 1, val := 10 }, { key := 3, val := 31 }, { key := 1, val := 11 },
          { key := 3, val := 30 }])) := by
    decide +kernel
  rcases exists_of_map_eq hstate with ⟨⟨fs₁, tree₁⟩, hrun, hobs⟩
  simp only [Prod.mk.injEq] at hobs
  rcases hobs with ⟨hbuffered, hstored, hflush⟩
  rcases exists_of_map_eq hflush with ⟨⟨fs₂, tree₂, r⟩, hw, hafter⟩
  simp only [Prod.mk.injEq] at hafter
  rcases hafter with ⟨rfl, hafter⟩
  refine ⟨fs₁, tree₁, fs₂, tree₂, hrun, ?_, hbuffered, hstored, hw, hafter⟩
  have hnext : tree₁.nextEmpty.toNat = 2 := by
    simpa using congrArg List.length hbuffered
  rw [(run_keeps (initNewLsm_zeroTree 2 false) (by decide) hrun).1.blockSize]
  exact UInt64.toNat_inj.1 hnext

/-- Key `3` is first in the buffer, so nothing delays it behind the stored one. -/
theorem unsorted_flush_newest_two_blocks :
    ∃ fs₁ tree₁ fs₂ tree₂,
      run putStep (noFiles, zeroTree 2 false) (quietCalls [(1, 10), (3, 30), (3, 31), (1, 11)]) =
        .ok (fs₁, tree₁) ∧
      writeToDisk FlushEnv.quiet fs₁ tree₁ = .ok (fs₂, tree₂, 0) ∧
      firstMatch Node.key 3 (storedNodes fs₂ tree₂.disk1) = tree₁.lookup fs₁ 3 := by
  have hinit := initNewLsm_zeroTree 2 false
  rcases run_two_blocks with ⟨fs₁, tree₁, -, -, hrun, hfull, hbuffered, hstored, -⟩
  rcases unsorted_flush_newest_iff hinit (by decide) rfl (quietCalls_succeed _) hrun hfull
      (by decide) FlushEnv.quiet_succeeds 3 with ⟨fs₂, tree₂, hw, hiff⟩
  refine ⟨fs₁, tree₁, fs₂, tree₂, hrun, hw, hiff.2 (Or.inr (Or.inr (Or.inl ?_)))⟩
  rw [hbuffered, hstored]
  simp [RightReaches, before]

/-- The buffer is full and its keys differ, but the stored node of key `1` is found before the newer
one: key `3` in front of it is larger than everything the file holds before its own key `1`. -/
theorem unsorted_flush_stale_two_blocks :
    ∃ fs₁ tree₁ fs₂ tree₂,
      run putStep (noFiles, zeroTree 2 false) (quietCalls [(1, 10), (3, 30), (3, 31), (1, 11)]) =
        .ok (fs₁, tree₁) ∧
      tree₁.nextEmpty = tree₁.blockSize ∧ (tree₁.buffered.map Node.key).Nodup ∧
      writeToDisk FlushEnv.quiet fs₁ tree₁ = .ok (fs₂, tree₂, 0) ∧
      tree₁.lookup fs₁ 1 = some { key := 1, val := 11 } ∧
      firstMatch Node.key 1 (storedNodes fs₂ tree₂.disk1) = some { key := 1, val := 10 } ∧
      firstMatch Node.key 1 (storedNodes fs₂ tree₂.disk1) ≠ tree₁.lookup fs₁ 1 := by
  rcases run_two_blocks with ⟨fs₁, tree₁, fs₂, tree₂, hrun, hfull, hbuffered, -, hw, hstored⟩
  have hbefore : tree₁.lookup fs₁ 1 = some { key := 1, val := 11 } := by
    rw [Lsm.lookup, hbuffered]
    rfl
  have hafter : firstMatch Node.key 1 (storedNodes fs₂ tree₂.disk1) =
      some { key := 1, val := 10 } := by
    rw [hstored]
    rfl
  refine ⟨fs₁, tree₁, fs₂, tree₂, hrun, hfull, ?_, hw, hbefore, hafter, ?_⟩
  · rw [hbuffered]
    decide
  · rw [hafter, hbefore]
    decide

end LSMTree
end DBTest
