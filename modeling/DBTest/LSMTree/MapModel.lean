import DBTest.LSMTree.Machine

/-!
# MapModel — when the tree is a map

The source promises a map from keys to values.  The results about single calls show where it is none;
here is how a caller can use it as one.  A put is guarded when no node of its key is buffered (and,
without sorting, none is stored), a delete when it hits the newest buffered node and no older node of
the key is stored.  In guarded runs nothing aborts, a reader of the right file finds exactly what the
map holds, and the `get` of the source, which never sees the file, answers with the value of the map
or with `NULL` (`guarded_calls_are_a_map`).
-/

namespace DBTest
namespace LSMTree

open KeyedMerge
open FallibleRun

/-! ## The map -/

abbrev KeyMap : Type := KeyType → Option ValType

def mapStep (m : Answered KeyMap) : Op → Answered KeyMap
  | .put n => (Function.update m.1 n.key (some n.val), m.2)
  | .update n => (Function.update m.1 n.key (some n.val), m.2)
  | .get k => (m.1, m.2 ++ [(m.1 k).map (fun v => { key := k, val := v })])
  | .delete k => (Function.update m.1 k none, m.2)

/-- The map behind a sequence of operations, and what its `get`s should have answered. -/
def mapRun (ops : List Op) : Answered KeyMap :=
  ops.foldl mapStep (fun _ => none, [])

/-- What the caller has to keep to. -/
def Guarded (sorted : Bool) (disk buffer : List Node) : Op → Prop
  | .put n =>
      (∀ m ∈ buffer, m.key ≠ n.key) ∧ (sorted = false → ∀ m ∈ disk, m.key ≠ n.key)
  | .update n => ∃ m ∈ buffer, m.key = n.key
  | .get _ => True
  | .delete k => buffer.getLast?.map Node.key = some k ∧ ∀ m ∈ disk, m.key ≠ k

/-! ## Lists with distinct keys -/

theorem length_withKey_le_one {xs : List Node} (h : (xs.map Node.key).Nodup) (k : KeyType) :
    (withKey Node.key k xs).length ≤ 1 := by
  have hsub : ((withKey Node.key k xs).map Node.key).Nodup :=
    h.sublist ((List.filter_sublist).map Node.key)
  have hrep : (withKey Node.key k xs).map Node.key =
      List.replicate (withKey Node.key k xs).length k := by
    rw [List.eq_replicate_iff]
    refine ⟨by simp, ?_⟩
    intro b hb
    rcases List.mem_map.1 hb with ⟨n, hn, rfl⟩
    exact ((mem_withKey Node.key).1 hn).2
  rw [hrep] at hsub
  exact List.nodup_replicate.1 hsub

theorem lastMatch_eq_firstMatch {xs : List Node} (h : (xs.map Node.key).Nodup) (k : KeyType) :
    lastMatch Node.key k xs = firstMatch Node.key k xs := by
  have hlen := length_withKey_le_one h k
  rw [lastMatch_eq_getLast?, firstMatch_eq_head?]
  cases hw : withKey Node.key k xs with
  | nil => rfl
  | cons n ns =>
      rw [hw, List.length_cons] at hlen
      have hnil : ns = [] := List.eq_nil_of_length_eq_zero (by omega)
      rw [hnil]
      rfl

/-- A move that starts at the last node only drops it. -/
theorem movedDown_last (xs : List Node) (bytes : Nat) :
    movedDown xs (xs.length - 1) bytes = xs.dropLast := by
  apply List.ext_getElem?
  intro j
  by_cases hj : j + 1 < xs.length
  · rw [getElem_movedDown xs _ bytes hj, if_pos (by omega), List.getElem?_dropLast,
      if_pos (by omega), List.getElem?_eq_getElem]
  · rw [List.getElem?_eq_none (by rw [length_movedDown]; omega),
      List.getElem?_eq_none (by rw [List.length_dropLast]; omega)]

/-! ## Stores in which no key is ambiguous -/

/-- Buffered keys are distinct, a sorted run ascends, and without sorting no key is both buffered and
stored. -/
structure Tidy (s : Store Node) : Prop where
  buffer : (s.buffer.map Node.key).Nodup
  disk : s.sorted = true → Ascending Node.key s.disk
  apart : s.sorted = false → ∀ n ∈ s.disk, ∀ m ∈ s.buffer, n.key ≠ m.key

/-- A flush of a tidy store is invisible. -/
theorem Tidy.firstMatch_flushInto {s : Store Node} (h : Tidy s) (k : KeyType) :
    firstMatch Node.key k (Store.flushInto Node.key s.sorted s.disk s.buffer) =
      Store.lookup Node.key s k := by
  cases hsorted : s.sorted with
  | true =>
      -- a sorted flush shows the newest node of a key, which is the only one
      rw [Store.firstMatch_flushInto_sorted Node.key (h.disk hsorted), lastMatch_eq_firstMatch h.buffer]
      rfl
  | false =>
      -- an unsorted one can hide a key only behind a stored node of the same key
      refine (Store.firstMatch_flushInto_unsorted_iff Node.key s.disk s.buffer k).2 ?_
      by_cases hk : ∃ m ∈ s.buffer, m.key = k
      · rcases hk with ⟨m, hm, rfl⟩
        exact Or.inr (Or.inl (fun n hn => h.apart hsorted n hn m hm))
      · refine Or.inl ?_
        intro m hm hkey
        exact hk ⟨m, hm, hkey⟩

theorem firstMatch_singleton (k : KeyType) (n : Node) :
    firstMatch Node.key k [n] = if n.key = k then some n else none := by
  by_cases hk : n.key = k
  · rw [if_pos hk, firstMatch_cons_pos Node.key [] hk]
  · rw [if_neg hk, firstMatch_cons_neg Node.key [] hk]
    rfl

section Guarded

variable {s : Store Node}

theorem Tidy.lookup_put (h : Tidy s) {n : Node} (hg : Guarded s.sorted s.disk s.buffer (.put n))
    (k : KeyType) :
    Store.lookup Node.key (s.put Node.key n) k =
      if n.key = k then some n else Store.lookup Node.key s k := by
  by_cases hfull : s.buffer.length = s.cap
  · rcases Store.put_of_full Node.key hfull n with ⟨hbuf, hdisk⟩
    rw [Store.lookup, hbuf, hdisk, h.firstMatch_flushInto, firstMatch_singleton]
    split_ifs <;> rfl
  · rcases Store.put_of_not_full Node.key hfull n with ⟨hbuf, hdisk⟩
    rw [Store.lookup, hbuf, hdisk, firstMatch_append, firstMatch_singleton]
    split_ifs with hk
    · have hnone : firstMatch Node.key k s.buffer = none :=
        (firstMatch_eq_none Node.key).2 (fun m hm hkey => hg.1 m hm (hkey.trans hk.symm))
      rw [hnone]
      rfl
    · rw [Option.or_none]
      rfl

theorem Tidy.put (h : Tidy s) {n : Node} (hg : Guarded s.sorted s.disk s.buffer (.put n)) :
    Tidy (s.put Node.key n) := by
  by_cases hfull : s.buffer.length = s.cap
  · rcases Store.put_of_full Node.key hfull n with ⟨hbuf, hdisk⟩
    refine ⟨?_, ?_, ?_⟩
    · rw [hbuf]
      simp
    · intro hsorted
      rw [Store.put_sorted] at hsorted
      exact Store.put_ascending Node.key hsorted (h.disk hsorted) n
    · intro hsorted m hm m' hm'
      rw [Store.put_sorted] at hsorted
      rw [hbuf, List.mem_singleton] at hm'
      rw [hdisk, (Store.flushInto_perm Node.key s.sorted s.disk s.buffer).mem_iff,
        List.mem_append] at hm
      subst hm'
      -- stored before, or flushed just now
      rcases hm with hm | hm
      · exact hg.2 hsorted m hm
      · exact hg.1 m hm
  · rcases Store.put_of_not_full Node.key hfull n with ⟨hbuf, hdisk⟩
    refine ⟨?_, ?_, ?_⟩
    · rw [hbuf, List.map_append, List.nodup_append]
      refine ⟨h.buffer, by simp, ?_⟩
      intro k hk k' hk'
      rcases List.mem_map.1 hk with ⟨m, hm, rfl⟩
      rw [List.map_cons, List.map_nil, List.mem_singleton] at hk'
      rw [hk']
      exact hg.1 m hm
    · intro hsorted
      rw [Store.put_sorted] at hsorted
      rw [hdisk]
      exact h.disk hsorted
    · intro hsorted m hm m' hm'
      rw [Store.put_sorted] at hsorted
      rw [hdisk] at hm
      rw [hbuf, List.mem_append, List.mem_singleton] at hm'
      rcases hm' with hm' | rfl
      · exact h.apart hsorted m hm m' hm'
      · exact hg.2 hsorted m hm

theorem lookup_update {n : Node} (hg : Guarded s.sorted s.disk s.buffer (.update n)) (k : KeyType) :
    Store.lookup Node.key (s.update n) k =
      if n.key = k then some n else Store.lookup Node.key s k := by
  rw [Store.lookup, Store.update]
  split_ifs with hk
  · subst hk
    simp only [firstMatch_setFirst Node.key rfl hg]
    rfl
  · simp only [firstMatch_setFirst_of_ne Node.key rfl (Ne.symm hk)]
    rfl

theorem Tidy.update (h : Tidy s) (n : Node) : Tidy (s.update n) := by
  have hkeys : (s.update n).buffer.map Node.key = s.buffer.map Node.key :=
    map_key_setFirst Node.key rfl s.buffer
  refine ⟨?_, h.disk, ?_⟩
  · rw [hkeys]
    exact h.buffer
  · intro hsorted m hm m' hm'
    have hmem : m'.key ∈ s.buffer.map Node.key := by
      rw [← hkeys]
      exact List.mem_map_of_mem hm'
    rcases List.mem_map.1 hmem with ⟨m'', hm'', hkey⟩
    rw [← hkey]
    exact h.apart hsorted m hm m'' hm''

/-- The buffer a guarded delete finds and the one it leaves. -/
theorem Tidy.buffer_delete (h : Tidy s) {k : KeyType}
    (hg : Guarded s.sorted s.disk s.buffer (.delete k)) :
    ∃ n, s.buffer = (s.delete k).buffer ++ [n] ∧ n.key = k ∧
      ∀ m ∈ (s.delete k).buffer, m.key ≠ k := by
  rcases Option.map_eq_some_iff.1 hg.1 with ⟨n, hlast, hkey⟩
  obtain ⟨bs, hbs⟩ := List.getLast?_eq_some_iff.1 hlast
  have hnot : ∀ m ∈ bs, m.key ≠ k := by
    have hnodup := h.buffer
    rw [hbs, List.map_append, List.nodup_append] at hnodup
    intro m hm hmk
    exact hnodup.2.2 m.key (List.mem_map_of_mem hm) n.key (by simp) (hmk.trans hkey.symm)
  -- the first node of the key is the last of the buffer, so the move drops it and tears nothing
  have hindex : firstIndex k s.buffer = s.buffer.length - 1 := by
    rw [hbs, firstIndex, List.findIdx_append, List.length_append, List.length_singleton]
    have hbefore : bs.findIdx (fun m => decide (m.key = k)) = bs.length := by
      rw [List.findIdx_eq_length]
      intro m hm
      simpa using hnot m hm
    simp [hbefore, hkey]
  have hbuffer : (s.delete k).buffer = bs := by
    change movedDown s.buffer (firstIndex k s.buffer) _ = bs
    rw [hindex, movedDown_last, hbs, List.dropLast_concat]
  rw [hbuffer]
  exact ⟨n, hbs, hkey, hnot⟩

theorem Tidy.lookup_delete (h : Tidy s) {k : KeyType}
    (hg : Guarded s.sorted s.disk s.buffer (.delete k)) (k' : KeyType) :
    Store.lookup Node.key (s.delete k) k' =
      if k = k' then none else Store.lookup Node.key s k' := by
  rcases h.buffer_delete hg with ⟨n, hbuffer, hkey, hnot⟩
  have hdisk : (s.delete k).disk = s.disk := rfl
  rw [Store.lookup, Store.lookup, hdisk, hbuffer, firstMatch_append, firstMatch_singleton, hkey]
  split_ifs with hk
  · subst hk
    rw [(firstMatch_eq_none Node.key).2 hnot, (firstMatch_eq_none Node.key).2 hg.2]
    rfl
  · rw [Option.or_none]

theorem Tidy.delete (h : Tidy s) {k : KeyType}
    (hg : Guarded s.sorted s.disk s.buffer (.delete k)) : Tidy (s.delete k) := by
  rcases h.buffer_delete hg with ⟨n, hbuffer, -, -⟩
  have hsub : List.Sublist (s.delete k).buffer s.buffer := by
    have happend := List.sublist_append_left (s.delete k).buffer [n]
    rw [← hbuffer] at happend
    exact happend
  refine ⟨h.buffer.sublist (hsub.map Node.key), h.disk, ?_⟩
  intro hsorted m hm m' hm'
  exact h.apart hsorted m hm m' (hsub.subset hm')

end Guarded

/-! ## Guarded runs -/

/-- The store holds the map, and every answer so far is the one of the map or `NULL`. -/
structure Agrees (a : Answered (Store Node)) (m : Answered KeyMap) : Prop where
  tidy : Tidy a.1
  lookup : ∀ k, Store.lookup Node.key a.1 k = (m.1 k).map (fun v => { key := k, val := v })
  answers : List.Forall₂ (fun got want => got = none ∨ got = want) a.2 m.2

/-- The entry of a key that has just been written. -/
theorem map_update_eq (m : KeyMap) (n : Node) (k : KeyType) :
    (Function.update m n.key (some n.val) k).map (fun v => ({ key := k, val := v } : Node)) =
      if n.key = k then some n else (m k).map (fun v => { key := k, val := v }) := by
  split_ifs with hk
  · subst hk
    rw [Function.update_self]
    rfl
  · rw [Function.update_of_ne (Ne.symm hk)]

theorem step_agrees {a : Answered (Store Node)} {m : Answered KeyMap} (h : Agrees a m) {op : Op}
    (hg : Guarded a.1.sorted a.1.disk a.1.buffer op) :
    ∃ a', Store.step a op = .ok a' ∧ Agrees a' (mapStep m op) := by
  cases op with
  | put n =>
      refine ⟨_, rfl, h.tidy.put hg, ?_, h.answers⟩
      intro k
      simp only [mapStep]
      rw [map_update_eq, h.tidy.lookup_put hg, h.lookup]
  | update n =>
      have hbuf : a.1.Buffers n.key := hg
      refine ⟨(a.1.update n, a.2), by simp [Store.step, hbuf], h.tidy.update n, ?_, h.answers⟩
      intro k
      simp only [mapStep]
      rw [map_update_eq, lookup_update hg, h.lookup]
  | get k =>
      refine ⟨_, rfl, h.tidy, h.lookup, ?_⟩
      refine List.rel_append h.answers ?_
      refine List.Forall₂.cons ?_ List.Forall₂.nil
      -- `get` sees the buffer only: what it finds there is what a reader of both would find
      rw [← h.lookup k, Store.lookup]
      cases firstMatch Node.key k a.1.buffer with
      | none => exact Or.inl rfl
      | some n => exact Or.inr rfl
  | delete k =>
      have hbuf : a.1.Buffers k := by
        rcases h.tidy.buffer_delete hg with ⟨n, hbuffer, hkey, -⟩
        refine ⟨n, ?_, hkey⟩
        rw [hbuffer]
        simp
      refine ⟨(a.1.delete k, a.2), by simp [Store.step, hbuf], h.tidy.delete hg, ?_, h.answers⟩
      intro k'
      simp only [mapStep]
      rw [h.tidy.lookup_delete hg, h.lookup]
      split_ifs with hk
      · subst hk
        rw [Function.update_self]
        rfl
      · rw [Function.update_of_ne (Ne.symm hk)]

/-- Every call of a run is guarded in the state it finds. -/
def GuardedRun (c : Answered (FS × Lsm)) (calls : List Call) : Prop :=
  ∀ (before : List Call) (call : Call) (after : List Call) (d : Answered (FS × Lsm)),
    calls = before ++ call :: after → run Call.answer c before = .ok d →
      Guarded d.1.2.sorted (storedNodes d.1.1 d.1.2.disk1) d.1.2.buffered call.op

theorem mapRun_concat (ops : List Op) (op : Op) :
    mapRun (ops ++ [op]) = mapStep (mapRun ops) op := by
  simp [mapRun, List.foldl_append]

theorem guarded_run_agrees {bound : Nat} {c : Answered (FS × Lsm)} {a : Answered (Store Node)}
    (h : Follows bound c a) (hagrees : Agrees a (mapRun [])) {calls : List Call}
    (hok : ∀ call ∈ calls, call.Succeeds)
    (hbound : bound + (putsOf (calls.map Call.op)).length ≤ intMax) (hguard : GuardedRun c calls) :
    ∃ d b, run Call.answer c calls = .ok d ∧
      Follows (bound + (putsOf (calls.map Call.op)).length) d b ∧
      Agrees b (mapRun (calls.map Call.op)) := by
  -- the guard speaks of the state a call finds, so the invariant also says which run led there
  have hrun := run_total Call.answer
    (Q := fun cs => (∀ call ∈ cs, call.Succeeds) ∧
      bound + (putsOf (cs.map Call.op)).length ≤ intMax ∧ GuardedRun c cs)
    (P := fun cs d => run Call.answer c cs = .ok d ∧
      ∃ b, Follows (bound + (putsOf (cs.map Call.op)).length) d b ∧ Agrees b (mapRun (cs.map Call.op)))
    (s := c) ?_ ⟨rfl, a, h, hagrees⟩ ?_ calls ⟨hok, hbound, hguard⟩
  · rcases hrun with ⟨d, hrun, -, b, hfollows, hb⟩
    exact ⟨d, b, hrun, hfollows, hb⟩
  · rintro cs call ⟨hok', hbound', hguard'⟩
    refine ⟨fun d hd => hok' d (List.mem_append_left _ hd), ?_, ?_⟩
    · simp only [List.map_append, putsOf_append, List.length_append] at hbound'
      omega
    · intro before call' after d hsplit hd
      refine hguard' before call' (after ++ [call]) d ?_ hd
      rw [hsplit, List.append_assoc, List.cons_append]
  · rintro cs call d ⟨hok', hbound', hguard'⟩ ⟨hd, b, hfollows, hb⟩
    have hg := hguard' cs call [] d rfl hd
    rw [hfollows.represents.file.storedNodes_eq, hfollows.represents.buffer,
      hfollows.represents.sorted] at hg
    rcases step_agrees hb hg with ⟨b', hstep, hb'⟩
    simp only [List.map_append, putsOf_append, List.length_append, ← Nat.add_assoc] at hbound' ⊢
    have hends := answer_follows hfollows (by omega) (hok' call (by simp))
    rcases hends.exists_left hstep with ⟨d', hanswer, hfollows'⟩
    refine ⟨d', hanswer, ?_, b', hfollows', ?_⟩
    · rw [run_concat_of_ok Call.answer hd, hanswer]
    · rw [List.map_cons, List.map_nil, mapRun_concat]
      exact hb'

/-- A guarded run on a new tree without a file returns, with no store outside the block.  Afterwards a
`get` that reads the tree's own file finds exactly what the map of the operations holds, and every
`get` of the source on the way answered with the value the map had or with `NULL`. -/
theorem guarded_calls_are_a_map {treeMem : Bool} {blockMem : Option Heap} {bufferSize : UInt64}
    {sorted : Bool} {tree : Lsm} (hinit : initNewLsm treeMem blockMem bufferSize sorted = some tree)
    (hpos : 0 < bufferSize.toNat) (hlt : bufferSize.toNat < 2 ^ 61) {fs : FS}
    (hfs : fs disk1Name = none) (habsent : fs searchDiskName = none) {calls : List Call}
    (hok : ∀ call ∈ calls, call.Succeeds)
    (hcount : (putsOf (calls.map Call.op)).length ≤ intMax)
    (hguard : GuardedRun ((fs, tree), []) calls) :
    ∃ fs' tree' answers,
      run Call.answer ((fs, tree), []) calls = .ok ((fs', tree'), answers) ∧
      (∀ (env : ReadEnv) (k : KeyType), env.Succeeds →
        getFrom disk1Name env k fs' tree' =
          .ok (((mapRun (calls.map Call.op)).1 k).map (fun v => { key := k, val := v }))) ∧
      List.Forall₂ (fun got want => got = none ∨ got = want) answers
        (mapRun (calls.map Call.op)).2 ∧
      BufferSafe tree' := by
  have hfile : FileHolds fs disk1Name [] := Or.inl ⟨hfs, rfl⟩
  have hagrees : Agrees (Store.opened bufferSize.toNat hpos sorted [], []) (mapRun []) :=
    ⟨⟨List.nodup_nil, fun _ => List.Pairwise.nil, fun _ n hn => by cases hn⟩, fun _ => rfl,
      List.Forall₂.nil⟩
  rcases guarded_run_agrees (init_follows hinit hpos hfile habsent) hagrees hok
    (by simpa using hcount) hguard with ⟨⟨⟨fs', tree'⟩, answers⟩, b, hrun, hfollows, hb⟩
  refine ⟨fs', tree', answers, hrun, ?_, ?_, answers_safe hinit hpos hlt hrun⟩
  · intro env k henv
    have hbound := hfollows.count
    have hnext := hfollows.buffered_le
    simp only [List.length_nil, Nat.zero_add] at hbound hnext
    have hget := getFrom_eq_lookup henv k hfollows.represents.file (by omega) (hnext.trans hcount)
    rw [hfollows.disk1] at hget
    rw [hget, hfollows.represents.lookup_eq, hb.lookup]
  · rw [show answers = b.2 from hfollows.answers]
    exact hb.answers

/-- The same condition, checked along the run of the abstract machine. -/
def GuardedOps (a : Answered (Store Node)) : List Op → Prop
  | [] => True
  | op :: ops =>
      Guarded a.1.sorted a.1.disk a.1.buffer op ∧ ∀ a', Store.step a op = .ok a' → GuardedOps a' ops

theorem guardedRun_of_ops {bound : Nat} {c : Answered (FS × Lsm)} {a : Answered (Store Node)}
    (h : Follows bound c a) {calls : List Call} (hok : ∀ call ∈ calls, call.Succeeds)
    (hbound : bound + (putsOf (calls.map Call.op)).length ≤ intMax)
    (hops : GuardedOps a (calls.map Call.op)) : GuardedRun c calls := by
  induction calls generalizing bound c a with
  | nil =>
      intro before call after d hsplit
      simp at hsplit
  | cons first calls ih =>
      rcases hops with ⟨hfirst, hrest⟩
      intro before call after d hsplit hd
      -- the call is the first one, or it is met after the first one has been answered
      cases before with
      | nil =>
          cases hd
          cases hsplit
          rw [h.represents.file.storedNodes_eq, h.represents.buffer, h.represents.sorted]
          exact hfirst
      | cons first' before =>
          rw [List.cons_append] at hsplit
          rcases List.cons.inj hsplit with ⟨rfl, htail⟩
          rcases exists_of_bind_eq hd with ⟨c₁, hstep, hd₁⟩
          have hputs : putsOf ((first :: calls).map Call.op) =
              putsOf [first.op] ++ putsOf (calls.map Call.op) :=
            putsOf_append [first.op] (calls.map Call.op)
          rw [hputs, List.length_append, ← Nat.add_assoc] at hbound
          have hends := answer_follows h (by omega) (hok first List.mem_cons_self)
          rcases hends.exists_right hstep with ⟨a₁, habstract, hfollows⟩
          exact ih hfollows (fun d hd => hok d (List.mem_cons_of_mem first hd)) hbound
            (hrest a₁ habstract) before call after d htail hd₁

/-- Two flushes, a put of a stored key and an update. -/
def guardedOps : List Op :=
  [.put ⟨1, 10⟩, .put ⟨2, 20⟩, .put ⟨1, 11⟩, .update ⟨1, 12⟩, .get 2]

theorem guarded_calls_are_a_map_five_ops :
    ∃ fs' tree' answers,
      run Call.answer ((noFiles, zeroTree 1 true), []) (guardedOps.map quietCall) =
        .ok ((fs', tree'), answers) ∧
      getFrom disk1Name ReadEnv.quiet 1 fs' tree' = .ok (some ⟨1, 12⟩) ∧
      getFrom disk1Name ReadEnv.quiet 2 fs' tree' = .ok (some ⟨2, 20⟩) := by
  have hfile : FileHolds noFiles disk1Name [] := Or.inl ⟨rfl, rfl⟩
  have hops : (guardedOps.map quietCall).map Call.op = guardedOps := rfl
  have hguard : GuardedRun ((noFiles, zeroTree 1 true), []) (guardedOps.map quietCall) := by
    refine guardedRun_of_ops (init_follows (initNewLsm_zeroTree 1 true) (by decide) hfile rfl)
      (quietCall_succeeds guardedOps) (by decide) ?_
    rw [hops]
    refine ⟨⟨by decide, by decide⟩, ?_⟩
    rintro - ⟨⟩
    refine ⟨⟨by decide, fun h => by cases h⟩, ?_⟩
    rintro - ⟨⟩
    refine ⟨⟨by decide, fun h => by cases h⟩, ?_⟩
    rintro - ⟨⟩
    refine ⟨⟨⟨1, 11⟩, by decide, rfl⟩, ?_⟩
    rintro - ⟨⟩
    exact ⟨trivial, fun _ _ => trivial⟩
  rcases guarded_calls_are_a_map (initNewLsm_zeroTree 1 true) (by decide) (by decide) rfl rfl
    (quietCall_succeeds guardedOps) (by decide) hguard with ⟨fs', tree', answers, hrun, hget, -⟩
  rw [hops] at hget
  exact ⟨fs', tree', answers, hrun, hget _ 1 ReadEnv.quiet_succeeds, hget _ 2 ReadEnv.quiet_succeeds⟩

end LSMTree
end DBTest
