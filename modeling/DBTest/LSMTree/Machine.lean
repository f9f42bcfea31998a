import Mathlib.Algebra.Order.Group.Multiset
import DBTest.LSMTree.Removal
import DBTest.LSMTree.Safety

/-!
# Machine — the four operations as one machine

`Store.step` says what `put`, `update`, `get` and `delete` do to a buffered store, in terms of lists:
a `get` looks only at the buffer, an `update` or a `delete` of a key that is not buffered ends the
program, and a `delete` moves down the bytes it moves.  Every run of calls on a new tree whose block
has the size asked for ends like the run of this machine, with the same answers or with the same abort
(`calls_simulate_store`).  What holds of all runs is then proved of lists.
-/

namespace DBTest
namespace LSMTree

open KeyedMerge
open FallibleRun

/-! ## The abstract machine -/

inductive Op
  | put (n : Node)
  | update (n : Node)
  | get (k : KeyType)
  | delete (k : KeyType)
  deriving DecidableEq, Repr

/-- A state and the answers of the `get`s so far. -/
abbrev Answered (σ : Type) : Type := σ × List (Option Node)

namespace Store

/-- The first buffered node of the key of `n` is replaced. -/
def update (s : Store Node) (n : Node) : Store Node :=
  { s with
    buffer := setFirst Node.key n.key n s.buffer
    buffer_le := by simpa using s.buffer_le }

/-- The buffer behind the first node of `k` moves down, by as many bytes as the block has nodes from
there on. -/
def delete (s : Store Node) (k : KeyType) : Store Node :=
  { s with
    buffer := movedDown s.buffer (firstIndex k s.buffer) (s.cap - firstIndex k s.buffer)
    buffer_le := by
      have := s.buffer_le
      rw [length_movedDown]
      omega }

def Buffers (s : Store Node) (k : KeyType) : Prop :=
  ∃ n ∈ s.buffer, n.key = k

instance instDecidableBuffers (s : Store Node) (k : KeyType) : Decidable (s.Buffers k) :=
  inferInstanceAs (Decidable (∃ n ∈ s.buffer, n.key = k))

def step (st : Answered (Store Node)) : Op → Except Abort (Answered (Store Node))
  | .put n => .ok (st.1.put Node.key n, st.2)
  | .update n => if st.1.Buffers n.key then .ok (st.1.update n, st.2) else .error .nullPointer
  | .get k => .ok (st.1, st.2 ++ [firstMatch Node.key k st.1.buffer])
  | .delete k => if st.1.Buffers k then .ok (st.1.delete k, st.2) else .error .assertFailed

end Store

/-! ## Calls with their answers -/

def Call.op : Call → Op
  | .put _ key val => .put { key := key, val := val }
  | .update _ _ key val => .update { key := key, val := val }
  | .get _ key => .get key
  | .delete _ key => .delete key

def Call.Succeeds : Call → Prop
  | .put env _ _ => env.Succeeds
  | .update denv penv _ _ => denv.Succeeds ∧ penv.Succeeds
  | .get env _ => env.Succeeds
  | .delete env _ => env.Succeeds

/-- A call, and the node that `get` returns. -/
def Call.answer (st : Answered (FS × Lsm)) (c : Call) : Except Abort (Answered (FS × Lsm)) :=
  match c with
  | .get env key => do
      let found ← LSMTree.get env key st.1.1 st.1.2
      .ok (st.1, st.2 ++ [found])
  | c => do
      let s ← c.step st.1
      .ok (s, st.2)

def putsOf (ops : List Op) : List Node :=
  ops.filterMap (fun op => match op with | .put n => some n | _ => none)

def deletesOf (ops : List Op) : List KeyType :=
  ops.filterMap (fun op => match op with | .delete k => some k | _ => none)

/-! ## One call -/

/-- Without the file that `search_disk` opens, `get` answers from the buffer. -/
theorem get_of_absent {fs : FS} (habsent : fs searchDiskName = none) (env : ReadEnv) (k : KeyType)
    {tree : Lsm} (hle : tree.nextEmpty.toNat ≤ intMax) :
    get env k fs tree = .ok (firstMatch Node.key k tree.buffered) := by
  have hsearch := searchBuffer_eq_of_le k hle
  have hdisk := searchDiskFrom_of_absent habsent env k
  rw [← firstNodeI_node k tree.buffered 0]
  cases hfirst : firstNodeI k tree.buffered 0 with
  | none => simp [get, getFrom, hsearch, hfirst, hdisk, bind, Except.bind]
  | some ni => simp [get, getFrom, hsearch, hfirst, bind, Except.bind]

/-- What the tree and the store have in common, and what bounds them. -/
structure Follows (bound : Nat) (c : Answered (FS × Lsm)) (a : Answered (Store Node)) : Prop where
  represents : Represents c.1.1 c.1.2 a.1
  answers : c.2 = a.2
  count : a.1.disk.length + a.1.buffer.length ≤ bound
  absent : c.1.1 searchDiskName = none
  disk1 : c.1.2.disk1 = disk1Name

theorem Follows.buffered_le {bound : Nat} {c : Answered (FS × Lsm)} {a : Answered (Store Node)}
    (h : Follows bound c a) : c.1.2.nextEmpty.toNat ≤ bound := by
  have hcount := h.count
  rw [h.represents.nextEmpty]
  omega

theorem Follows.buffers_iff {bound : Nat} {c : Answered (FS × Lsm)} {a : Answered (Store Node)}
    (h : Follows bound c a) (k : KeyType) :
    a.1.Buffers k ↔ ∃ n ∈ c.1.2.buffered, n.key = k := by
  rw [h.represents.buffer]
  rfl

theorem searchDiskName_ne : searchDiskName ≠ disk1Name := by
  decide

section Step

variable {bound : Nat} {c : Answered (FS × Lsm)} {a : Answered (Store Node)}

theorem put_follows (h : Follows bound c a) (hbound : bound ≤ intMax) {env : FlushEnv}
    (henv : env.Succeeds) (n : Node) :
    EndAlike (Follows (bound + 1)) ((Call.put env n.key n.val).answer c) (Store.step a (.put n)) := by
  have hcount := h.count
  rcases put_represents henv h.represents n (fun _ => by omega) with
    ⟨fs', tree', hput, hrep, hsame⟩
  have hlen := (Store.put_perm Node.key a.1 n).length_eq
  simp only [List.length_append, List.length_singleton] at hlen
  refine Or.inl ⟨((fs', tree'), c.2), _, ?_, rfl, ⟨hrep, h.answers, ?_, ?_, ?_⟩⟩
  · simp [Call.answer, Call.step, hput, bind, Except.bind]
  · change (a.1.put Node.key n).disk.length + (a.1.put Node.key n).buffer.length ≤ bound + 1
    omega
  · have hname : searchDiskName ≠ c.1.2.disk1 := by
      rw [h.disk1]
      exact searchDiskName_ne
    exact (hsame.files searchDiskName hname).trans h.absent
  · exact hsame.disk1.trans h.disk1

theorem update_follows (h : Follows bound c a) (hbound : bound ≤ intMax) (denv : DeleteEnv)
    (penv : FlushEnv) (n : Node) :
    EndAlike (Follows bound) ((Call.update denv penv n.key n.val).answer c)
      (Store.step a (.update n)) := by
  have hle := h.buffered_le
  by_cases hbuf : a.1.Buffers n.key
  · rcases update_of_buffered denv penv n.val c.1.1 (by omega) ((h.buffers_iff n.key).1 hbuf) with
      ⟨i, -, hupdate, hset⟩
    refine Or.inl ⟨((c.1.1, c.1.2.setNode i n), c.2), (a.1.update n, a.2), ?_, ?_,
      ⟨⟨h.represents.cap, h.represents.sorted, ?_, h.represents.file⟩, h.answers, ?_, h.absent,
        h.disk1⟩⟩
    · simp [Call.answer, Call.step, hupdate, bind, Except.bind]
    · simp [Store.step, hbuf]
    · rw [h.represents.buffer] at hset
      exact hset
    · simpa [Store.update] using h.count
  · -- `search_disk` finds no file either, and `update` goes on with its `NULL`
    refine Or.inr ⟨.nullPointer, ?_, by simp [Store.step, hbuf]⟩
    have hnot : ∀ m ∈ c.1.2.buffered, m.key ≠ n.key := by
      intro m hm hkey
      exact hbuf ((h.buffers_iff n.key).2 ⟨m, hm, hkey⟩)
    have herror := updateFrom_of_not_buffered searchDiskName denv penv n.val c.1.1 hnot
    rw [if_pos (by omega)] at herror
    simp [Call.answer, Call.step, update, herror, bind, Except.bind]

theorem get_follows (h : Follows bound c a) (hbound : bound ≤ intMax) (env : ReadEnv) (k : KeyType) :
    EndAlike (Follows bound) ((Call.get env k).answer c) (Store.step a (.get k)) := by
  have hle := h.buffered_le
  have hget := get_of_absent h.absent env k (hle.trans hbound)
  refine Or.inl ⟨(c.1, c.2 ++ [firstMatch Node.key k c.1.2.buffered]), _, ?_, rfl,
    ⟨h.represents, ?_, h.count, h.absent, h.disk1⟩⟩
  · simp [Call.answer, hget, bind, Except.bind]
  · rw [h.answers, h.represents.buffer]

theorem delete_follows (h : Follows bound c a) (hbound : bound ≤ intMax) (env : DeleteEnv)
    (k : KeyType) :
    EndAlike (Follows bound) ((Call.delete env k).answer c) (Store.step a (.delete k)) := by
  have hle := h.buffered_le
  by_cases hbuf : a.1.Buffers k
  · have hmem := (h.buffers_iff k).1 hbuf
    -- the index is inside the block
    have hindex : firstIndex k c.1.2.buffered < c.1.2.nextEmpty.toNat := by
      simpa using firstIndex_lt_length.2 hmem
    have hfits : c.1.2.nextEmpty.toNat ≤ c.1.2.blockSize.toNat := by
      rw [h.represents.nextEmpty, h.represents.cap]
      exact a.1.buffer_le
    have hdelete := deleteFrom_of_buffered searchDiskName env c.1.1 hmem (by omega)
    refine Or.inl ⟨((c.1.1, deleteBuffered c.1.2 (firstIndex k c.1.2.buffered)), c.2),
      (a.1.delete k, a.2), ?_, ?_,
      ⟨⟨h.represents.cap, h.represents.sorted, ?_, h.represents.file⟩, h.answers, ?_, h.absent,
        h.disk1⟩⟩
    · simp [Call.answer, Call.step, delete, hdelete, bind, Except.bind]
    · simp [Store.step, hbuf]
    · rw [buffered_deleteBuffered hindex hfits, h.represents.buffer, h.represents.cap]
      rfl
    · have hcount := h.count
      simp only [Store.delete, length_movedDown]
      omega
  · -- neither search finds the key, which `delete` asserts
    refine Or.inr ⟨.assertFailed, ?_, by simp [Store.step, hbuf]⟩
    have hnot : ∀ m ∈ c.1.2.buffered, m.key ≠ k := by
      intro m hm hkey
      exact hbuf ((h.buffers_iff k).2 ⟨m, hm, hkey⟩)
    have hsearch := searchBuffer_of_not_mem hnot
    rw [if_pos (by omega)] at hsearch
    have herror := deleteFrom_of_not_found hsearch
      (searchDiskFrom_of_absent h.absent env.search k)
    simp [Call.answer, Call.step, delete, herror, bind, Except.bind]

end Step

/-! ## Whole runs -/

@[simp] theorem putsOf_append (ops ops' : List Op) : putsOf (ops ++ ops') = putsOf ops ++ putsOf ops' :=
  List.filterMap_append

@[simp] theorem deletesOf_append (ops ops' : List Op) :
    deletesOf (ops ++ ops') = deletesOf ops ++ deletesOf ops' :=
  List.filterMap_append

theorem answer_follows {bound : Nat} {c : Answered (FS × Lsm)} {a : Answered (Store Node)}
    (h : Follows bound c a) (hbound : bound ≤ intMax) {call : Call} (hok : call.Succeeds) :
    EndAlike (Follows (bound + (putsOf [call.op]).length)) (call.answer c)
      (Store.step a call.op) := by
  cases call with
  | put env key val => exact put_follows h hbound hok { key := key, val := val }
  | update denv penv key val => exact update_follows h hbound denv penv { key := key, val := val }
  | get env key => exact get_follows h hbound env key
  | delete env key => exact delete_follows h hbound env key

theorem run_follows {bound : Nat} {c : Answered (FS × Lsm)} {a : Answered (Store Node)}
    (h : Follows bound c a) {calls : List Call} (hok : ∀ call ∈ calls, call.Succeeds)
    (hbound : bound + (putsOf (calls.map Call.op)).length ≤ intMax) :
    EndAlike (Follows (bound + (putsOf (calls.map Call.op)).length)) (run Call.answer c calls)
      (run Store.step a (calls.map Call.op)) := by
  refine run_simulates Call.answer
    (Q := fun cs => (∀ call ∈ cs, call.Succeeds) ∧
      bound + (putsOf (cs.map Call.op)).length ≤ intMax)
    (R := fun cs => Follows (bound + (putsOf (cs.map Call.op)).length)) ?_ h ?_ calls ⟨hok, hbound⟩
  · intro cs call hQ
    refine ⟨fun d hd => hQ.1 d (List.mem_append_left _ hd), ?_⟩
    have hle := hQ.2
    simp only [List.map_append, putsOf_append, List.length_append] at hle
    omega
  · intro cs call c' a' hQ hR
    -- the bound grows with the puts so far
    have hle := hQ.2
    simp only [List.map_append, putsOf_append, List.length_append, ← Nat.add_assoc] at hle ⊢
    exact answer_follows hR (by omega) (hQ.1 call (by simp))

/-- A new tree over a well-formed file, in a directory without the file that `search_disk` opens. -/
theorem init_follows {treeMem : Bool} {blockMem : Option Heap} {bufferSize : UInt64}
    {sorted : Bool} {tree : Lsm} (hinit : initNewLsm treeMem blockMem bufferSize sorted = some tree)
    (hpos : 0 < bufferSize.toNat) {fs : FS} {ns : List Node} (hfile : FileHolds fs disk1Name ns)
    (habsent : fs searchDiskName = none) :
    Follows ns.length ((fs, tree), []) (Store.opened bufferSize.toNat hpos sorted ns, []) :=
  ⟨init_represents hinit hpos hfile, rfl, by simp [Store.opened], habsent,
    (newTree_of_init hinit).disk1⟩

theorem step_of_answer {call : Call} {c c' : Answered (FS × Lsm)} (h : call.answer c = .ok c') :
    call.step c.1 = .ok c'.1 := by
  cases call with
  | get env key =>
      rcases exists_of_bind_eq h with ⟨found, hget, hok⟩
      cases hok
      simp only [Call.step, hget, bind, Except.bind]
  | put env key val =>
      rcases exists_of_bind_eq h with ⟨s, hstep, hok⟩
      cases hok
      exact hstep
  | update denv penv key val =>
      rcases exists_of_bind_eq h with ⟨s, hstep, hok⟩
      cases hok
      exact hstep
  | delete env key =>
      rcases exists_of_bind_eq h with ⟨s, hstep, hok⟩
      cases hok
      exact hstep

/-- A run of calls on a new tree stores inside the block, if the block has the size asked for. -/
theorem answers_safe {treeMem : Bool} {blockMem : Option Heap} {bufferSize : UInt64}
    {sorted : Bool} {tree : Lsm} (hinit : initNewLsm treeMem blockMem bufferSize sorted = some tree)
    (hpos : 0 < bufferSize.toNat) (hlt : bufferSize.toNat < 2 ^ 61) {fs : FS} {calls : List Call}
    {c : Answered (FS × Lsm)} (hrun : run Call.answer ((fs, tree), []) calls = .ok c) :
    BufferSafe c.1.2 := by
  have hnew := newTree_of_init hinit
  have hsteps : run Call.step (fs, tree) calls = .ok c.1 := by
    refine run_preserves Call.answer (P := fun cs d => run Call.step (fs, tree) cs = .ok d.1) rfl ?_
      calls c hrun
    intro cs call d e hd hstep
    rw [run_concat_of_ok Call.step hd, step_of_answer hstep]
  refine (hnew.safe hlt).run ?_ hsteps
  rw [hnew.blockSize]
  exact hpos

/-- Every run of the four operations on a new tree, with succeeding library calls, ends like the run
of the abstract machine: the same answers and a tree and a file that represent its store, or the
same abort.  No store leaves the block. -/
theorem calls_simulate_store {treeMem : Bool} {blockMem : Option Heap} {bufferSize : UInt64}
    {sorted : Bool} {tree : Lsm} (hinit : initNewLsm treeMem blockMem bufferSize sorted = some tree)
    (hpos : 0 < bufferSize.toNat) (hlt : bufferSize.toNat < 2 ^ 61) {fs : FS} {ns : List Node}
    (hfile : FileHolds fs disk1Name ns) (habsent : fs searchDiskName = none) {calls : List Call}
    (hok : ∀ call ∈ calls, call.Succeeds)
    (hcount : ns.length + (putsOf (calls.map Call.op)).length ≤ intMax) :
    EndAlike (fun c a => (Represents c.1.1 c.1.2 a.1 ∧ c.2 = a.2) ∧ BufferSafe c.1.2)
      (run Call.answer ((fs, tree), []) calls)
      (run Store.step (Store.opened bufferSize.toNat hpos sorted ns, []) (calls.map Call.op)) := by
  have hfollows := run_follows (init_follows hinit hpos hfile habsent) hok hcount
  have halike := hfollows.imp (fun _ _ h => And.intro h.represents h.answers)
  exact halike.and_left (fun _ hrun => answers_safe hinit hpos hlt hrun)

/-- Calls with no failing library call. -/
def quietCall : Op → Call
  | .put n => .put FlushEnv.quiet n.key n.val
  | .update n => .update DeleteEnv.quiet FlushEnv.quiet n.key n.val
  | .get k => .get ReadEnv.quiet k
  | .delete k => .delete DeleteEnv.quiet k

theorem quietCall_succeeds (ops : List Op) : ∀ call ∈ ops.map quietCall, call.Succeeds := by
  intro call hcall
  rcases List.mem_map.1 hcall with ⟨op, -, rfl⟩
  cases op with
  | put n => exact FlushEnv.quiet_succeeds
  | update n => exact ⟨DeleteEnv.quiet_succeeds, FlushEnv.quiet_succeeds⟩
  | get k => exact ReadEnv.quiet_succeeds
  | delete k => exact DeleteEnv.quiet_succeeds

def sevenOps : List Op :=
  [.put ⟨1, 10⟩, .put ⟨2, 20⟩, .update ⟨2, 21⟩, .get 2, .put ⟨3, 30⟩, .get 2, .delete 3]

/-- The third put flushes, and with it the key `2` is no longer found. -/
theorem calls_simulate_store_seven_ops :
    ∃ c : Answered (FS × Lsm),
      run Call.answer ((noFiles, zeroTree 2 true), []) (sevenOps.map quietCall) = .ok c ∧
      c.2 = [some ⟨2, 21⟩, none] := by
  have hfile : FileHolds noFiles disk1Name [] := Or.inl ⟨rfl, rfl⟩
  have hends := calls_simulate_store (initNewLsm_zeroTree 2 true) (by decide) (by decide) hfile rfl
    (quietCall_succeeds sevenOps) (by decide)
  have hops : (sevenOps.map quietCall).map Call.op = sevenOps := rfl
  rw [hops] at hends
  rcases hends.exists_left rfl with ⟨c, hrun, ⟨-, hanswers⟩, -⟩
  exact ⟨c, hrun, hanswers⟩

/-! ## What every run keeps -/

/-- The branch of `delete` for a stored key writes the tree's file and no other. -/
theorem deleteStored_eq_ok {env : DeleteEnv} {fs fs' : FS} {tree : Lsm} {i : Nat}
    (h : deleteStored env fs tree i = .ok fs') :
    ∃ content, fs' = Function.update fs tree.disk1 (some content) := by
  unfold deleteStored at h
  cases hfile : fs tree.disk1 with
  | none =>
      rw [hfile] at h
      cases h
  | some content =>
      rw [hfile] at h
      cases hopen : env.read.fopen with
      | false =>
          simp only [hopen] at h
          cases h
      | true =>
          simp only [hopen, if_true] at h
          cases hread : readNodes env.read content 0 with
          | mk num fileData =>
              rw [hread] at h
              cases fileData with
              | none => cases h
              | some a =>
                  rcases exists_of_bind_eq h with ⟨content', -, hok⟩
                  cases hok
                  exact ⟨content', rfl⟩

/-- A call that returns writes no file but the tree's, whatever the library calls do. -/
theorem answer_files {call : Call} {c c' : Answered (FS × Lsm)} (h : call.answer c = .ok c') :
    c'.1.2.disk1 = c.1.2.disk1 ∧ ∀ name, name ≠ c.1.2.disk1 → c'.1.1 name = c.1.1 name := by
  cases call with
  | put env key val =>
      rcases exists_of_bind_eq h with ⟨s, hstep, hok⟩
      rcases exists_of_bind_eq hstep with ⟨⟨fs, tree, r⟩, hput, hok'⟩
      cases hok'
      cases hok
      rcases put_eq_ok (n := ⟨key, val⟩) hput with ⟨-, rfl, rfl⟩ | ⟨-, ⟨content, rfl⟩, rfl⟩
      · exact ⟨rfl, fun _ _ => rfl⟩
      · exact ⟨rfl, fun name hname => Function.update_of_ne hname _ _⟩
  | update denv penv key val =>
      rcases exists_of_bind_eq h with ⟨s, hstep, hok⟩
      rcases exists_of_bind_eq hstep with ⟨⟨fs, tree, r⟩, hupdate, hok'⟩
      cases hok'
      cases hok
      rcases update_eq_ok hupdate with ⟨i, -, rfl, rfl⟩
      exact ⟨rfl, fun _ _ => rfl⟩
  | get env key =>
      rcases exists_of_bind_eq h with ⟨found, -, hok⟩
      cases hok
      exact ⟨rfl, fun _ _ => rfl⟩
  | delete env key =>
      rcases exists_of_bind_eq h with ⟨s, hstep, hok⟩
      rcases exists_of_bind_eq hstep with ⟨⟨fs, tree, r⟩, hdelete, hok'⟩
      cases hok'
      cases hok
      rcases delete_eq_ok hdelete with ⟨i, -, rfl, rfl⟩ | ⟨⟨i, hstored⟩, rfl⟩
      · exact ⟨rfl, fun _ _ => rfl⟩
      · rcases deleteStored_eq_ok hstored with ⟨content, rfl⟩
        exact ⟨rfl, fun name hname => Function.update_of_ne hname _ _⟩

theorem run_files {calls : List Call} {c c' : Answered (FS × Lsm)}
    (h : run Call.answer c calls = .ok c') :
    c'.1.2.disk1 = c.1.2.disk1 ∧ ∀ name, name ≠ c.1.2.disk1 → c'.1.1 name = c.1.1 name := by
  refine run_preserves Call.answer
    (P := fun _ d => d.1.2.disk1 = c.1.2.disk1 ∧ ∀ name, name ≠ c.1.2.disk1 → d.1.1 name = c.1.1 name)
    ⟨rfl, fun _ _ => rfl⟩ ?_ calls c' h
  intro as call d e hd hstep
  rcases answer_files hstep with ⟨hdisk1, hfiles⟩
  refine ⟨hdisk1.trans hd.1, ?_⟩
  intro name hname
  have hname' : name ≠ d.1.2.disk1 := by
    rw [hd.1]
    exact hname
  rw [hfiles name hname', hd.2 name hname]

namespace Store

/-- What a step of the machine does to the number of nodes and to the run on disk. -/
structure Conserves (s s' : Store Node) (ops : List Op) : Prop where
  cap : s'.cap = s.cap
  count : s'.disk.length + s'.buffer.length + (deletesOf ops).length =
    s.disk.length + s.buffer.length + (putsOf ops).length
  kept : (s.disk : Multiset Node) ≤ s'.disk
  blocks : s.cap ∣ s'.disk.length - s.disk.length

theorem step_conserves {a a' : Answered (Store Node)} {op : Op} (h : step a op = .ok a') :
    Conserves a.1 a'.1 [op] := by
  cases op with
  | put n =>
      cases h
      have hperm := (put_perm Node.key a.1 n).length_eq
      simp only [List.length_append, List.length_singleton] at hperm
      refine ⟨put_cap Node.key a.1 n, ?_, ?_, ?_⟩
      · simpa [putsOf, deletesOf] using hperm
      · -- a flush merges the whole buffer into the run
        by_cases hfull : a.1.buffer.length = a.1.cap
        · rw [(put_of_full Node.key hfull n).2,
            Multiset.coe_eq_coe.2 (flushInto_perm Node.key a.1.sorted a.1.disk a.1.buffer),
            ← Multiset.coe_add]
          exact Multiset.le_add_right _ _
        · rw [(put_of_not_full Node.key hfull n).2]
      · by_cases hfull : a.1.buffer.length = a.1.cap
        · rw [(put_of_full Node.key hfull n).2, length_flushInto, Nat.add_sub_cancel_left]
          exact ⟨1, hfull.trans (Nat.mul_one _).symm⟩
        · rw [(put_of_not_full Node.key hfull n).2, Nat.sub_self]
          exact Nat.dvd_zero _
  | update n =>
      by_cases hbuf : a.1.Buffers n.key
      · simp only [step, if_pos hbuf] at h
        cases h
        exact ⟨rfl, by simp [update, putsOf, deletesOf], le_rfl, by simp [update]⟩
      · simp only [step, if_neg hbuf] at h
        cases h
  | get k =>
      cases h
      exact ⟨rfl, by simp [putsOf, deletesOf], le_rfl, by simp⟩
  | delete k =>
      by_cases hbuf : a.1.Buffers k
      · simp only [step, if_pos hbuf] at h
        cases h
        -- the buffer is one node shorter, even where the move tears nodes
        refine ⟨rfl, ?_, le_rfl, by simp [delete]⟩
        rcases hbuf with ⟨n, hn, -⟩
        have hpos := List.length_pos_of_mem hn
        simp only [delete, length_movedDown, putsOf, deletesOf, List.filterMap_cons,
          List.filterMap_nil, List.length_singleton, List.length_nil]
        omega
      · simp only [step, if_neg hbuf] at h
        cases h

theorem Conserves.trans {s s' s'' : Store Node} {ops ops' : List Op} (h : Conserves s s' ops)
    (h' : Conserves s' s'' ops') : Conserves s s'' (ops ++ ops') := by
  have hle := Multiset.card_le_card h.kept
  have hle' := Multiset.card_le_card h'.kept
  simp only [Multiset.coe_card] at hle hle'
  refine ⟨h'.cap.trans h.cap, ?_, h.kept.trans h'.kept, ?_⟩
  · have hcount := h.count
    have hcount' := h'.count
    simp only [deletesOf_append, putsOf_append, List.length_append]
    omega
  · have hsplit : s''.disk.length - s.disk.length =
        s''.disk.length - s'.disk.length + (s'.disk.length - s.disk.length) := by
      omega
    have hblocks := h'.blocks
    rw [h.cap] at hblocks
    rw [hsplit]
    exact Nat.dvd_add hblocks h.blocks

theorem run_conserves {a a' : Answered (Store Node)} {ops : List Op}
    (h : run step a ops = .ok a') : Conserves a.1 a'.1 ops := by
  refine run_preserves step (P := fun ops b => Conserves a.1 b.1 ops) ?_ ?_ ops a' h
  · exact ⟨rfl, rfl, le_rfl, by simp⟩
  · intro ops op b b' hb hstep
    exact hb.trans (step_conserves hstep)

end Store

/-- Along every run of the four operations that returns, nodes appear only by puts and disappear only
by deletes, one at a time; what has reached the file stays in it, for `delete` never finds it there,
and the file grows by whole blocks.  No other file is written, and no store leaves the block. -/
theorem calls_conserve_nodes {treeMem : Bool} {blockMem : Option Heap} {bufferSize : UInt64}
    {sorted : Bool} {tree : Lsm} (hinit : initNewLsm treeMem blockMem bufferSize sorted = some tree)
    (hpos : 0 < bufferSize.toNat) (hlt : bufferSize.toNat < 2 ^ 61) {fs fs' : FS} {tree' : Lsm}
    {answers : List (Option Node)} {ns : List Node} (hfile : FileHolds fs disk1Name ns)
    (habsent : fs searchDiskName = none) {calls : List Call} (hok : ∀ call ∈ calls, call.Succeeds)
    (hcount : ns.length + (putsOf (calls.map Call.op)).length ≤ intMax)
    (hrun : run Call.answer ((fs, tree), []) calls = .ok ((fs', tree'), answers)) :
    (storedNodes fs' disk1Name).length + tree'.nextEmpty.toNat +
          (deletesOf (calls.map Call.op)).length =
        ns.length + (putsOf (calls.map Call.op)).length ∧
      (ns : Multiset Node) ≤ storedNodes fs' disk1Name ∧
      bufferSize.toNat ∣ (storedNodes fs' disk1Name).length - ns.length ∧
      (∀ name, name ≠ disk1Name → fs' name = fs name) ∧ BufferSafe tree' := by
  have hfollows := run_follows (init_follows hinit hpos hfile habsent) hok hcount
  rcases hfollows.exists_right hrun with ⟨a, habstract, hfollow⟩
  have hconserves := Store.run_conserves habstract
  have hstored : storedNodes fs' disk1Name = a.1.disk := by
    have hrep := hfollow.represents.file.storedNodes_eq
    rw [hfollow.disk1] at hrep
    exact hrep
  have hnext : tree'.nextEmpty.toNat = a.1.buffer.length := hfollow.represents.nextEmpty
  have hfiles := (run_files hrun).2
  rw [(newTree_of_init hinit).disk1] at hfiles
  rw [hstored, hnext]
  refine ⟨?_, hconserves.kept, hconserves.blocks, hfiles, answers_safe hinit hpos hlt hrun⟩
  simpa [Store.opened] using hconserves.count

theorem run_sevenOps :
    ∃ c, run Call.answer ((noFiles, zeroTree 2 true), []) (sevenOps.map quietCall) = .ok c := by
  have hfile : FileHolds noFiles disk1Name [] := Or.inl ⟨rfl, rfl⟩
  have hfollows := run_follows (init_follows (initNewLsm_zeroTree 2 true) (by decide) hfile rfl)
    (quietCall_succeeds sevenOps) (by decide)
  rcases hfollows.exists_left rfl with ⟨c, hrun, -⟩
  exact ⟨c, hrun⟩

/-- Three puts and one delete, with one flush. -/
theorem calls_conserve_nodes_seven_ops :
    ∃ fs' tree' answers,
      run Call.answer ((noFiles, zeroTree 2 true), []) (sevenOps.map quietCall) =
        .ok ((fs', tree'), answers) ∧
      (storedNodes fs' disk1Name).length + tree'.nextEmpty.toNat + 1 = 3 := by
  have hfile : FileHolds noFiles disk1Name [] := Or.inl ⟨rfl, rfl⟩
  rcases run_sevenOps with ⟨⟨⟨fs', tree'⟩, answers⟩, hrun⟩
  have hconserves := calls_conserve_nodes (initNewLsm_zeroTree 2 true) (by decide) (by decide) hfile rfl
    (quietCall_succeeds sevenOps) (by decide) hrun
  exact ⟨fs', tree', answers, hrun, hconserves.1⟩

end LSMTree
end DBTest
