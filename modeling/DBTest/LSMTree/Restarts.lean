import Mathlib.Algebra.GroupWithZero.Nat
import DBTest.LSMTree.Machine

/-!
# Restarts — programs that use the file one after the other and may abort

A program opens a tree, calls the four operations and ends, at the end of its calls or where an
`update` or a `delete` of a key that is not buffered stops it.  Such a call stops before it writes.
The next program finds the file as it is then.

Whatever the programs do, the file stays well formed and only grows: what was stored once is there
after any number of programs, and with trees in sorted mode it is in order
(`restarts_keep_stored_nodes`).
-/

namespace DBTest
namespace LSMTree

open KeyedMerge
open FallibleRun

/-! ## One program -/

/-- A program whose library calls succeed, with a block of the size asked for. -/
structure OpSession where
  /-- Memory behind the block of the tree. -/
  heap : Heap
  bufferSize : UInt64
  bufferSize_pos : 0 < bufferSize.toNat
  bufferSize_lt : bufferSize.toNat < 2 ^ 61
  sorted : Bool
  calls : List Call
  calls_succeed : ∀ call ∈ calls, call.Succeeds

namespace OpSession

/-- The files the program leaves. -/
def run (fs : FS) (s : OpSession) : FS :=
  match initNewLsm true (some s.heap) s.bufferSize s.sorted with
  | none => fs
  | some tree => (lastState Call.answer ((fs, tree), []) s.calls).1.1

/-- At its end, or where an abort breaks it off, the program has stored nothing outside its block. -/
def Safe (fs : FS) (s : OpSession) : Prop :=
  ∀ tree, initNewLsm true (some s.heap) s.bufferSize s.sorted = some tree →
    BufferSafe (lastState Call.answer ((fs, tree), []) s.calls).1.2

theorem safe (s : OpSession) (fs : FS) : s.Safe fs := by
  intro tree hinit
  rcases exists_prefix_of_lastState Call.answer ((fs, tree), []) s.calls with ⟨calls, -, hrun⟩
  exact answers_safe hinit s.bufferSize_pos s.bufferSize_lt hrun

/-- The number of its puts, those behind an abort included. -/
def puts (s : OpSession) : Nat :=
  (putsOf (s.calls.map Call.op)).length

end OpSession

theorem Store.step_ascending {a a' : Answered (Store Node)} {op : Op}
    (h : Store.step a op = .ok a') (hsorted : a.1.sorted = true)
    (hdisk : Ascending Node.key a.1.disk) :
    a'.1.sorted = true ∧ Ascending Node.key a'.1.disk := by
  cases op with
  | put n =>
      cases h
      exact ⟨(Store.put_sorted Node.key a.1 n).trans hsorted,
        Store.put_ascending Node.key hsorted hdisk n⟩
  | update n =>
      by_cases hbuf : a.1.Buffers n.key
      · simp only [Store.step, if_pos hbuf] at h
        cases h
        exact ⟨hsorted, hdisk⟩
      · simp only [Store.step, if_neg hbuf] at h
        cases h
  | get k =>
      cases h
      exact ⟨hsorted, hdisk⟩
  | delete k =>
      by_cases hbuf : a.1.Buffers k
      · simp only [Store.step, if_pos hbuf] at h
        cases h
        exact ⟨hsorted, hdisk⟩
      · simp only [Store.step, if_neg hbuf] at h
        cases h

theorem Store.run_ascending {a a' : Answered (Store Node)} {ops : List Op}
    (h : FallibleRun.run Store.step a ops = .ok a') (hsorted : a.1.sorted = true)
    (hdisk : Ascending Node.key a.1.disk) : Ascending Node.key a'.1.disk := by
  have hkeep := run_preserves Store.step
    (P := fun _ b => b.1.sorted = true ∧ Ascending Node.key b.1.disk) ⟨hsorted, hdisk⟩
    (fun _ _ _ _ hb hstep => Store.step_ascending hstep hb.1 hb.2) ops a' h
  exact hkeep.2

/-- What a program may do to the stored nodes and to the other files. -/
structure Grows (fs fs' : FS) (ns ns' : List Node) (puts : Nat) : Prop where
  file : FileHolds fs' disk1Name ns'
  kept : (ns : Multiset Node) ≤ ns'
  length_le : ns'.length ≤ ns.length + puts
  others : ∀ name, name ≠ disk1Name → fs' name = fs name

theorem Grows.trans {fs fs' fs'' : FS} {ns ns' ns'' : List Node} {p p' : Nat}
    (h : Grows fs fs' ns ns' p) (h' : Grows fs' fs'' ns' ns'' p') :
    Grows fs fs'' ns ns'' (p + p') := by
  have hle := h.length_le
  have hle' := h'.length_le
  refine ⟨h'.file, h.kept.trans h'.kept, by omega, ?_⟩
  intro name hname
  rw [h'.others name hname, h.others name hname]

theorem OpSession.run_grows (s : OpSession) {fs : FS} {ns : List Node}
    (hfile : FileHolds fs disk1Name ns) (habsent : fs searchDiskName = none)
    (hcount : ns.length + s.puts ≤ intMax) :
    ∃ ns', Grows fs (s.run fs) ns ns' s.puts ∧
      (s.sorted = true → Ascending Node.key ns → Ascending Node.key ns') := by
  cases hinit : initNewLsm true (some s.heap) s.bufferSize s.sorted with
  | none => simp [initNewLsm] at hinit
  | some tree =>
      -- the calls before the abort, if there is one, are a run of their own
      rcases exists_prefix_of_lastState Call.answer ((fs, tree), []) s.calls with
        ⟨calls, hpre, hrun⟩
      have hputs : (putsOf (calls.map Call.op)).length ≤ s.puts :=
        ((hpre.sublist.map Call.op).filterMap _).length_le
      have hfollows := run_follows (init_follows hinit s.bufferSize_pos hfile habsent)
        (fun call hcall => s.calls_succeed call (hpre.sublist.subset hcall)) (by omega)
      rcases hfollows.exists_right hrun with ⟨a, habstract, hfollow⟩
      have hconserves := Store.run_conserves habstract
      have hcounts := hconserves.count
      have hfiles := (run_files hrun).2
      have hholds := hfollow.represents.file
      rw [hfollow.disk1] at hholds
      rw [(newTree_of_init hinit).disk1] at hfiles
      have hend : s.run fs = (lastState Call.answer ((fs, tree), []) s.calls).1.1 := by
        simp only [OpSession.run, hinit]
      rw [hend]
      refine ⟨a.1.disk, ⟨hholds, hconserves.kept, ?_, hfiles⟩, ?_⟩
      · -- what is still buffered is lost, so the file may have gained less than the puts
        simp only [Store.opened, List.length_nil] at hcounts
        omega
      · intro hsorted hasc
        exact Store.run_ascending habstract hsorted hasc

/-! ## Any number of programs -/

/-- The files after the programs, one after the other. -/
def restarts (fs : FS) (ss : List OpSession) : FS :=
  ss.foldl OpSession.run fs

/-- The number of puts of all programs. -/
def totalPuts (ss : List OpSession) : Nat :=
  (ss.map OpSession.puts).sum

theorem restarts_grow (ss : List OpSession) {fs : FS} {ns : List Node}
    (hfile : FileHolds fs disk1Name ns) (habsent : fs searchDiskName = none)
    (hcount : ns.length + totalPuts ss ≤ intMax) :
    ∃ ns', Grows fs (restarts fs ss) ns ns' (totalPuts ss) ∧
      ((∀ s ∈ ss, s.sorted = true) → Ascending Node.key ns → Ascending Node.key ns') := by
  -- each program starts from the file that the one before it leaves
  induction ss generalizing fs ns with
  | nil =>
      exact ⟨ns, ⟨hfile, le_rfl, le_rfl, fun _ _ => rfl⟩, fun _ hasc => hasc⟩
  | cons s ss ih =>
      have hsum : totalPuts (s :: ss) = s.puts + totalPuts ss := by
        simp [totalPuts]
      rw [hsum] at hcount ⊢
      rcases s.run_grows hfile habsent (by omega) with ⟨mid, hgrow, hasc⟩
      have hle := hgrow.length_le
      have habsent' : s.run fs searchDiskName = none :=
        (hgrow.others searchDiskName searchDiskName_ne).trans habsent
      rcases ih hgrow.file habsent' (by omega) with ⟨ns', hgrow', hasc'⟩
      refine ⟨ns', hgrow.trans hgrow', ?_⟩
      intro hsorted hns
      exact hasc' (fun t ht => hsorted t (List.mem_cons_of_mem s ht))
        (hasc (hsorted s List.mem_cons_self) hns)

/-- Programs run one after the other on one file, each of them to its end or to an abort.  At the end
of each of them the file is well formed and holds all that it held when an earlier one ended, with at
most one node more for each put in between; it is in order if it was so and all trees sort; and no
other file has changed.  Whatever files a program finds, it stores nothing outside its block. -/
theorem restarts_keep_stored_nodes {fs : FS} {ns : List Node} (hfile : FileHolds fs disk1Name ns)
    (habsent : fs searchDiskName = none) {ss later : List OpSession}
    (hcount : ns.length + totalPuts (ss ++ later) ≤ intMax) :
    FileHolds (restarts fs ss) disk1Name (storedNodes (restarts fs ss) disk1Name) ∧
      (storedNodes (restarts fs ss) disk1Name : Multiset Node) ≤
        storedNodes (restarts fs (ss ++ later)) disk1Name ∧
      (storedNodes (restarts fs (ss ++ later)) disk1Name).length ≤
        (storedNodes (restarts fs ss) disk1Name).length + totalPuts later ∧
      ((∀ s ∈ ss, s.sorted = true) → Ascending Node.key ns →
        Ascending Node.key (storedNodes (restarts fs ss) disk1Name)) ∧
      (∀ name, name ≠ disk1Name → restarts fs (ss ++ later) name = fs name) ∧
      ∀ s ∈ ss ++ later, ∀ fs', s.Safe fs' := by
  have hsum : totalPuts (ss ++ later) = totalPuts ss + totalPuts later := by
    simp [totalPuts]
  have hsplit : restarts fs (ss ++ later) = restarts (restarts fs ss) later := by
    simp [restarts]
  rw [hsum] at hcount
  rcases restarts_grow ss hfile habsent (by omega) with ⟨mid, hmid, hasc⟩
  have hle := hmid.length_le
  have habsent' : restarts fs ss searchDiskName = none :=
    (hmid.others searchDiskName searchDiskName_ne).trans habsent
  rcases restarts_grow later hmid.file habsent' (by omega) with ⟨ns', hend, -⟩
  rw [hsplit, hmid.file.storedNodes_eq, hend.file.storedNodes_eq]
  exact ⟨hmid.file, hend.kept, hend.length_le, hasc, (hmid.trans hend).others,
    fun s _ fs' => s.safe fs'⟩

/-- The second put flushes the first, and the update of a key that is not there stops the program
before its third put. -/
def abortingProgram : OpSession where
  heap := zeroHeap
  bufferSize := 1
  bufferSize_pos := by decide
  bufferSize_lt := by decide
  sorted := true
  calls := [Op.put ⟨1, 10⟩, Op.put ⟨2, 20⟩, Op.update ⟨5, 50⟩, Op.put ⟨3, 30⟩].map quietCall
  calls_succeed := quietCall_succeeds _

/-- A second run of the same program keeps what the first has stored. -/
theorem restarts_keep_stored_nodes_aborting :
    (storedNodes (restarts noFiles [abortingProgram]) disk1Name : Multiset Node) ≤
        storedNodes (restarts noFiles [abortingProgram, abortingProgram]) disk1Name ∧
      Ascending Node.key (storedNodes (restarts noFiles [abortingProgram]) disk1Name) := by
  have h := @restarts_keep_stored_nodes noFiles [] (Or.inl ⟨rfl, rfl⟩) rfl [abortingProgram]
    [abortingProgram] (by decide)
  exact ⟨h.2.1, h.2.2.2.1 (by simp [abortingProgram]) List.Pairwise.nil⟩

end LSMTree
end DBTest
