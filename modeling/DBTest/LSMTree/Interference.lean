import Mathlib.Algebra.BigOperators.Group.Finset.Basic
import Mathlib.Algebra.Order.BigOperators.Group.Finset
import Mathlib.Data.Fintype.Basic
import DBTest.LSMTree.Machine

/-!
# Interference — the four operations on trees that share the file

Trees that are open at the same time write to one file.  None of them reads it except to merge its
own block into it, so their calls may be interleaved in any way: every tree gives the answers that it
gives alone, and the interleaving comes to its end exactly when every tree does so alone
(`interleaved_calls_do_not_interfere`).  Each tree has memory of its own here; that it needs no other
is part of the result.  The nodes of all trees and of the file are still counted by
the puts and the deletes.
-/

namespace DBTest
namespace LSMTree

open KeyedMerge
open FallibleRun

/-! ## A store over another run -/

namespace Store

/-- The store with what other trees have written. -/
def withDisk (s : Store Node) (ns : List Node) : Store Node :=
  { s with disk := ns }

/-- The stores agree but for the run on disk, and so do the answers. -/
def SameBuffer (a b : Answered (Store Node)) : Prop :=
  a.1.cap = b.1.cap ∧ a.1.sorted = b.1.sorted ∧ a.1.buffer = b.1.buffer ∧ a.2 = b.2

/-- What a step does to the buffer, and what it answers, does not depend on the run on disk. -/
theorem step_withDisk (a : Answered (Store Node)) (ns : List Node) (op : Op) :
    EndAlike SameBuffer (step a op) (step (a.1.withDisk ns, a.2) op) := by
  cases op with
  | put n =>
      refine Or.inl ⟨_, _, rfl, rfl, ?_⟩
      refine ⟨(put_cap Node.key a.1 n).trans (put_cap Node.key (a.1.withDisk ns) n).symm,
        (put_sorted Node.key a.1 n).trans (put_sorted Node.key (a.1.withDisk ns) n).symm, ?_, rfl⟩
      by_cases hfull : a.1.buffer.length = a.1.cap
      · exact (put_of_full Node.key hfull n).1.trans
          (put_of_full Node.key (s := a.1.withDisk ns) hfull n).1.symm
      · exact (put_of_not_full Node.key hfull n).1.trans
          (put_of_not_full Node.key (s := a.1.withDisk ns) hfull n).1.symm
  | update n =>
      by_cases hbuf : a.1.Buffers n.key
      · exact Or.inl ⟨(a.1.update n, a.2), ((a.1.withDisk ns).update n, a.2), if_pos hbuf,
          if_pos hbuf, rfl, rfl, rfl, rfl⟩
      · exact Or.inr ⟨.nullPointer, if_neg hbuf, if_neg hbuf⟩
  | get k => exact Or.inl ⟨_, _, rfl, rfl, rfl, rfl, rfl, rfl⟩
  | delete k =>
      by_cases hbuf : a.1.Buffers k
      · exact Or.inl ⟨(a.1.delete k, a.2), ((a.1.withDisk ns).delete k, a.2), if_pos hbuf,
          if_pos hbuf, rfl, rfl, rfl, rfl⟩
      · exact Or.inr ⟨.assertFailed, if_neg hbuf, if_neg hbuf⟩

end Store

/-! ## Trees over one file -/

section

variable {ι : Type} [Fintype ι] [DecidableEq ι]

/-- The files, and for each tree its memory and the answers of its `get`s. -/
structure SharedWorld (ι : Type) where
  fs : FS
  trees : ι → Lsm
  answers : ι → List (Option Node)

/-- A call on one of the trees. -/
def SharedWorld.step (w : SharedWorld ι) (c : ι × Call) : Except Abort (SharedWorld ι) := do
  let r ← c.2.answer ((w.fs, w.trees c.1), w.answers c.1)
  .ok
    { fs := r.1.1
      trees := Function.update w.trees c.1 r.1.2
      answers := Function.update w.answers c.1 r.2 }

/-- A tree and the store it would have alone, which differ in what is on disk. -/
structure AsAlone (tree : Lsm) (answers : List (Option Node)) (own : Answered (Store Node)) :
    Prop where
  cap : tree.blockSize.toNat = own.1.cap
  sorted : tree.sorted = own.1.sorted
  buffer : tree.buffered = own.1.buffer
  disk1 : tree.disk1 = disk1Name
  answers : answers = own.2

/-- Every tree is as it would be alone, over one file that holds what is no longer buffered. -/
structure Shares (start : Nat) (ops : List Op) (w : SharedWorld ι)
    (own : ι → Answered (Store Node)) : Prop where
  file : ∃ ns, FileHolds w.fs disk1Name ns ∧
    ns.length + ∑ i, (own i).1.buffer.length + (deletesOf ops).length =
      start + (putsOf ops).length
  absent : w.fs searchDiskName = none
  alone : ∀ i, AsAlone (w.trees i) (w.answers i) (own i)

/-- Replacing one store changes the number of buffered nodes in one summand. -/
theorem sum_buffer_update (own : ι → Answered (Store Node)) (i : ι) (b : Answered (Store Node)) :
    ∑ j, (Function.update own i b j).1.buffer.length + (own i).1.buffer.length =
      ∑ j, (own j).1.buffer.length + b.1.buffer.length := by
  have hrest : ∑ j ∈ Finset.univ.erase i, (Function.update own i b j).1.buffer.length =
      ∑ j ∈ Finset.univ.erase i, (own j).1.buffer.length := by
    refine Finset.sum_congr rfl ?_
    intro j hj
    rw [Function.update_of_ne (Finset.ne_of_mem_erase hj)]
  have hnew := Finset.add_sum_erase Finset.univ
    (fun j => (Function.update own i b j).1.buffer.length) (Finset.mem_univ i)
  have hold := Finset.add_sum_erase Finset.univ
    (fun j => (own j).1.buffer.length) (Finset.mem_univ i)
  simp only [Function.update_self] at hnew
  omega

omit [DecidableEq ι] in
/-- The called tree follows its own store over the shared file. -/
theorem Shares.follows {start : Nat} {ops : List Op} {w : SharedWorld ι}
    {own : ι → Answered (Store Node)} (h : Shares start ops w own) {ns : List Node}
    (hfile : FileHolds w.fs disk1Name ns)
    (hcount : ns.length + ∑ i, (own i).1.buffer.length + (deletesOf ops).length =
      start + (putsOf ops).length) (i : ι) :
    Follows (start + (putsOf ops).length) ((w.fs, w.trees i), w.answers i)
      ((own i).1.withDisk ns, (own i).2) := by
  have hone : (own i).1.buffer.length ≤ ∑ j, (own j).1.buffer.length :=
    Finset.single_le_sum (f := fun j => (own j).1.buffer.length) (fun _ _ => Nat.zero_le _)
      (Finset.mem_univ i)
  have halone := h.alone i
  refine ⟨⟨halone.cap, halone.sorted, halone.buffer, ?_⟩, halone.answers, ?_, h.absent, halone.disk1⟩
  · rw [show ((w.fs, w.trees i), w.answers i).1.2.disk1 = disk1Name from halone.disk1]
    exact hfile
  · change ns.length + (own i).1.buffer.length ≤ _
    omega

theorem Shares.step {start : Nat} {ops : List Op} {w : SharedWorld ι}
    {own : ι → Answered (Store Node)} (h : Shares start ops w own)
    (hbound : start + (putsOf ops).length ≤ intMax) {c : ι × Call} (hok : c.2.Succeeds) :
    EndAlike (Shares start (ops ++ [c.2.op])) (w.step c)
      (stepAt Store.step own (c.1, c.2.op)) := by
  rcases h.file with ⟨ns, hfile, hcount⟩
  have hsame := Store.step_withDisk (own c.1) ns c.2.op
  rcases answer_follows (h.follows hfile hcount c.1) hbound hok with
    ⟨r, b, hr, hb, hfollows⟩ | ⟨e, hr, hb⟩
  · -- over the shared file and over its own the tree takes the same step
    rcases hsame.exists_left hb with ⟨b', hb', hcap, hsorted, hbuffer, hanswers⟩
    have hconserves := (Store.step_conserves hb).count
    have hsum := sum_buffer_update own c.1 b'
    refine Or.inl ⟨_, Function.update own c.1 b', by rw [SharedWorld.step, hr]; rfl,
      by rw [stepAt, hb']; rfl, ?_⟩
    refine ⟨⟨b.1.disk, ?_, ?_⟩, hfollows.absent, ?_⟩
    · have hholds := hfollows.represents.file
      rw [hfollows.disk1] at hholds
      exact hholds
    · rw [hbuffer] at hsum
      simp only [Store.withDisk] at hconserves
      simp only [deletesOf_append, putsOf_append, List.length_append]
      omega
    · intro i
      by_cases hi : i = c.1
      · subst hi
        simp only [Function.update_self]
        exact ⟨hfollows.represents.cap.trans hcap.symm,
          hfollows.represents.sorted.trans hsorted.symm,
          hfollows.represents.buffer.trans hbuffer.symm, hfollows.disk1,
          hfollows.answers.trans hanswers.symm⟩
      · -- the other trees and their stores are as they were
        simp only [Function.update_of_ne hi]
        exact h.alone i
  · -- the call aborts alone as well
    rcases hsame with ⟨b', b, -, hb', -⟩ | ⟨e', he, he'⟩
    · cases hb.symm.trans hb'
    · cases hb.symm.trans he'
      exact Or.inr ⟨e, by rw [SharedWorld.step, hr]; rfl, by rw [stepAt, he]; rfl⟩

/-! ## Whole runs -/

/-- The operations of an interleaving, in its order. -/
def opsOf (calls : List (ι × Call)) : List Op :=
  calls.map (fun c => c.2.op)

theorem run_shares {start : Nat} {w : SharedWorld ι} {own : ι → Answered (Store Node)}
    (h : Shares start [] w own) {calls : List (ι × Call)} (hok : ∀ c ∈ calls, c.2.Succeeds)
    (hcount : start + (putsOf (opsOf calls)).length ≤ intMax) :
    EndAlike (Shares start (opsOf calls)) (run SharedWorld.step w calls)
      (run (stepAt Store.step) own (calls.map (fun c => (c.1, c.2.op)))) := by
  refine run_simulates SharedWorld.step
    (Q := fun cs => (∀ c ∈ cs, c.2.Succeeds) ∧ start + (putsOf (opsOf cs)).length ≤ intMax)
    (R := fun cs => Shares start (opsOf cs)) ?_ h ?_ calls ⟨hok, hcount⟩
  · intro cs c hQ
    refine ⟨fun d hd => hQ.1 d (List.mem_append_left _ hd), ?_⟩
    have hle := hQ.2
    simp only [opsOf, List.map_append, putsOf_append, List.length_append] at hle ⊢
    omega
  · intro cs c w' own' hQ hR
    have hle := hQ.2
    simp only [opsOf, List.map_append, putsOf_append, List.length_append] at hle
    have hstep := hR.step (c := c) (by simp only [opsOf]; omega) (hQ.1 c (by simp))
    simpa [opsOf] using hstep

omit [DecidableEq ι] in
/-- New trees over a well-formed file. -/
theorem init_shares {treeMem : ι → Bool} {blockMem : ι → Option Heap} {sizes : ι → UInt64}
    {sorted : ι → Bool} {trees : ι → Lsm}
    (hinit : ∀ i, initNewLsm (treeMem i) (blockMem i) (sizes i) (sorted i) = some (trees i))
    (hpos : ∀ i, 0 < (sizes i).toNat) {fs : FS} {ns : List Node}
    (hfile : FileHolds fs disk1Name ns) (habsent : fs searchDiskName = none) :
    Shares ns.length [] { fs := fs, trees := trees, answers := fun _ => [] }
      (fun i => (Store.opened (sizes i).toNat (hpos i) (sorted i) ns, [])) := by
  refine ⟨⟨ns, hfile, by simp [Store.opened, putsOf, deletesOf]⟩, habsent, ?_⟩
  intro i
  have hrep := init_represents (hinit i) (hpos i) hfile
  exact ⟨hrep.cap, hrep.sorted, hrep.buffer, (newTree_of_init (hinit i)).disk1, rfl⟩

omit [Fintype ι] in
/-- The calls of one tree are no more than all calls. -/
theorem inputsOf_bounds {calls : List (ι × Call)} (hok : ∀ c ∈ calls, c.2.Succeeds) (i : ι) :
    (∀ call ∈ inputsOf i calls, call.Succeeds) ∧
      (putsOf ((inputsOf i calls).map Call.op)).length ≤ (putsOf (opsOf calls)).length := by
  have hsub := inputsOf_sublist i calls
  constructor
  · intro call hcall
    rcases List.mem_map.1 (hsub.subset hcall) with ⟨c, hc, rfl⟩
    exact hok c hc
  · have hops : opsOf calls = (calls.map Prod.snd).map Call.op := by
      simp [opsOf]
    rw [hops]
    exact ((hsub.map Call.op).filterMap _).length_le

omit [Fintype ι] in
/-- Interleaved calls keep every tree inside its block, whatever the library calls do. -/
theorem run_trees_safe {treeMem : ι → Bool} {blockMem : ι → Option Heap} {sizes : ι → UInt64}
    {sorted : ι → Bool} {trees : ι → Lsm}
    (hinit : ∀ i, initNewLsm (treeMem i) (blockMem i) (sizes i) (sorted i) = some (trees i))
    (hpos : ∀ i, 0 < (sizes i).toNat) (hlt : ∀ i, (sizes i).toNat < 2 ^ 61) {fs : FS}
    {calls : List (ι × Call)} {w : SharedWorld ι}
    (hrun : run SharedWorld.step { fs := fs, trees := trees, answers := fun _ => [] } calls = .ok w) :
    ∀ i, BufferSafe (w.trees i) := by
  have hnew := fun i => newTree_of_init (hinit i)
  have hkept := run_preserves SharedWorld.step
    (P := fun _ (w : SharedWorld ι) =>
      ∀ i, BufferSafe (w.trees i) ∧ (w.trees i).blockSize = sizes i)
    (fun i => ⟨(hnew i).safe (hlt i), (hnew i).blockSize⟩) ?_ calls w hrun
  · exact fun i => (hkept i).1
  · intro _ c w₁ w₂ hw hstep
    rcases exists_of_bind_eq hstep with ⟨r, hr, hok⟩
    cases hok
    rcases hw c.1 with ⟨hsafe, hsize⟩
    have hpos' : 1 ≤ (w₁.trees c.1).blockSize.toNat := by
      rw [hsize]
      exact hpos c.1
    rcases hsafe.step hpos' (step_of_answer hr) with ⟨hsafe', hsize'⟩
    exact (Function.forall_update_iff w₁.trees
      (fun i t => BufferSafe t ∧ t.blockSize = sizes i)).2
      ⟨⟨hsafe', hsize'.trans hsize⟩, fun i _ => hw i⟩

/-- Trees that were opened over the same file, called in any order.  The interleaving comes to its end
exactly when every tree does so alone, on its own calls; each tree then has the answers and the
buffer that it has alone and no store outside its block; and the file and the buffers hold one node
more for each put and one less for each delete. -/
theorem interleaved_calls_do_not_interfere {treeMem : ι → Bool} {blockMem : ι → Option Heap}
    {sizes : ι → UInt64} {sorted : ι → Bool} {trees : ι → Lsm}
    (hinit : ∀ i, initNewLsm (treeMem i) (blockMem i) (sizes i) (sorted i) = some (trees i))
    (hpos : ∀ i, 0 < (sizes i).toNat) (hlt : ∀ i, (sizes i).toNat < 2 ^ 61) {fs : FS}
    {ns : List Node} (hfile : FileHolds fs disk1Name ns) (habsent : fs searchDiskName = none)
    {calls : List (ι × Call)} (hok : ∀ c ∈ calls, c.2.Succeeds)
    (hcount : ns.length + (putsOf (opsOf calls)).length ≤ intMax) :
    ((∃ w, run SharedWorld.step { fs := fs, trees := trees, answers := fun _ => [] } calls = .ok w) ↔
        ∀ i, ∃ c, run Call.answer ((fs, trees i), []) (inputsOf i calls) = .ok c) ∧
      ∀ w, run SharedWorld.step { fs := fs, trees := trees, answers := fun _ => [] } calls = .ok w →
        (∀ i c, run Call.answer ((fs, trees i), []) (inputsOf i calls) = .ok c →
          w.answers i = c.2 ∧ (w.trees i).buffered = c.1.2.buffered) ∧
        (∀ i, BufferSafe (w.trees i)) ∧
        (storedNodes w.fs disk1Name).length + ∑ i, (w.trees i).nextEmpty.toNat +
            (deletesOf (opsOf calls)).length =
          ns.length + (putsOf (opsOf calls)).length := by
  have hshared := run_shares (init_shares hinit hpos hfile habsent) hok hcount
  -- each tree alone, on its own calls
  have halone : ∀ i, EndAlike (Follows (ns.length + (putsOf ((inputsOf i calls).map Call.op)).length))
      (run Call.answer ((fs, trees i), []) (inputsOf i calls))
      (run Store.step (Store.opened (sizes i).toNat (hpos i) (sorted i) ns, [])
        (inputsOf i (calls.map (fun c => (c.1, c.2.op))))) := by
    intro i
    rcases inputsOf_bounds hok i with ⟨hoki, hle⟩
    rw [inputsOf_map Call.op]
    exact run_follows (init_follows (hinit i) (hpos i) hfile habsent) hoki (by omega)
  constructor
  · constructor
    · rintro ⟨w, hw⟩ i
      rcases hshared.exists_right hw with ⟨own, hown, -⟩
      rcases (halone i).exists_left (run_stepAt Store.step hown i) with ⟨c, hc, -⟩
      exact ⟨c, hc⟩
    · intro hall
      have hruns : ∀ i, ∃ a, run Store.step (Store.opened (sizes i).toNat (hpos i) (sorted i) ns, [])
          (inputsOf i (calls.map (fun c => (c.1, c.2.op)))) = .ok a := by
        intro i
        rcases hall i with ⟨c, hc⟩
        rcases (halone i).exists_right hc with ⟨a, ha, -⟩
        exact ⟨a, ha⟩
      rcases exists_run_stepAt Store.step hruns with ⟨own, hown⟩
      rcases hshared.exists_left hown with ⟨w, hw, -⟩
      exact ⟨w, hw⟩
  · intro w hw
    rcases hshared.exists_right hw with ⟨own, hown, hshares⟩
    refine ⟨?_, run_trees_safe hinit hpos hlt hw, ?_⟩
    · intro i c hc
      rcases (halone i).exists_right hc with ⟨a, ha, hfollows⟩
      -- the run alone and the run in the interleaving follow one and the same store
      cases (run_stepAt Store.step hown i).symm.trans ha
      have hi := hshares.alone i
      exact ⟨hi.answers.trans hfollows.answers.symm,
        hi.buffer.trans hfollows.represents.buffer.symm⟩
    · rcases hshares.file with ⟨ms, hms, hnodes⟩
      have hnext : ∀ i, (w.trees i).nextEmpty.toNat = (own i).1.buffer.length := by
        intro i
        rw [← (hshares.alone i).buffer, length_buffered]
      rw [hms.storedNodes_eq]
      simp only [hnext]
      exact hnodes

end

/-- A sorted tree of block size one and an unsorted one of block size two. -/
def oneAndTwo (i : Bool) : Lsm :=
  zeroTree (if i then 1 else 2) i

/-- The third call flushes the tree of block size one; the other tree still has its node. -/
def sharedCalls : List (Bool × Call) :=
  [(true, quietCall (.put ⟨2, 20⟩)), (false, quietCall (.put ⟨2, 21⟩)),
    (true, quietCall (.put ⟨1, 10⟩)), (false, quietCall (.get 2))]

theorem interleaved_calls_do_not_interfere_two_trees :
    ∃ w, run SharedWorld.step { fs := noFiles, trees := oneAndTwo, answers := fun _ => [] }
        sharedCalls = .ok w ∧
      w.answers false = [some ⟨2, 21⟩] := by
  have hfile : FileHolds noFiles disk1Name [] := Or.inl ⟨rfl, rfl⟩
  have hinit : ∀ i, initNewLsm true (some zeroHeap) (if i then 1 else 2) i = some (oneAndTwo i) :=
    fun _ => rfl
  have hok : ∀ c ∈ sharedCalls, c.2.Succeeds := by
    simp [sharedCalls, quietCall, Call.Succeeds, FlushEnv.quiet_succeeds, ReadEnv.quiet_succeeds]
  have h := interleaved_calls_do_not_interfere hinit (by decide) (by decide) hfile rfl hok (by decide)
  have htrue := (run_follows (init_follows (hinit true) (by decide) hfile rfl)
    (inputsOf_bounds hok true).1 (by decide)).exists_left rfl
  have hfalse := (run_follows (init_follows (hinit false) (by decide) hfile rfl)
    (inputsOf_bounds hok false).1 (by decide)).exists_left rfl
  rcases htrue with ⟨c, hc, -⟩
  rcases hfalse with ⟨d, hd, hanswers⟩
  have hall : ∀ i, ∃ c, run Call.answer ((noFiles, oneAndTwo i), []) (inputsOf i sharedCalls) =
      .ok c := by
    intro i
    cases i with
    | true => exact ⟨c, hc⟩
    | false => exact ⟨d, hd⟩
  rcases h.1.2 hall with ⟨w, hw⟩
  exact ⟨w, hw, ((h.2 w hw).1 false d hd).1.trans hanswers.answers⟩

end LSMTree
end DBTest
