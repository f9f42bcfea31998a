import DBTest.LSMTree.Memory

/-!
# Files — the file system and the C library calls of `lsm.c`

A file system maps names to byte strings.  `write_to_disk`, `delete` and `search_disk` each read the
node file with the same sequence of calls and two of them write it with the same sequence, so the
sequences are modelled once: `readNodes` and `writeNodes`.

Every call may fail or transfer fewer items than asked; the outcomes are chosen by an environment
(`ReadEnv`, `WriteEnv`).  The code checks almost none of them, so most outcomes only change what is
in memory or in the file.  Failures that end the process are errors (`Abort`).  The messages of
`perror` are not modelled: nothing depends on them.
-/

namespace DBTest
namespace LSMTree

open ByteLayout

/-- Files by name; a name without contents is an absent file. -/
abbrev FS := String → Option (List UInt8)

/-- Ways a call does not return. -/
inductive Abort
  | nullPointer
  | assertFailed
  | intOverflow
  deriving DecidableEq, Repr

/-- `INT_MAX`. -/
def intMax : Nat := 2 ^ 31 - 1

/-- A `size_t` passed where an `int` is expected. -/
def intOfSize (n : UInt64) : Int :=
  Int.bmod n.toNat (2 ^ 32)

theorem intOfSize_of_le {n : UInt64} (h : n.toNat ≤ intMax) : intOfSize n = n.toNat := by
  have hlt : n.toNat < 2 ^ 31 := Nat.lt_of_le_of_lt h (by decide)
  exact Int.bmod_eq_of_le (by omega) (by omega)

/-! ## The node file -/

/-- The contents that hold the nodes `ns`: their number in eight bytes, then the nodes. -/
def fileBytes (ns : List Node) : List UInt8 :=
  leBytes 8 ns.length ++ nodeLayout.encodeAll ns

/-- The nodes a file holds by its own count. -/
def nodesOfBytes (content : List UInt8) : List Node :=
  (List.range (leNat (content.take 8))).map
    (fun i => nodeLayout.decode ((content.drop (8 + 8 * i)).take 8))

/-- The node list stored under a name; an absent file stores none. -/
def storedNodes (fs : FS) (name : String) : List Node :=
  match fs name with
  | none => []
  | some content => nodesOfBytes content

/-- The file is absent, or well formed with the nodes `ns`. -/
def FileHolds (fs : FS) (name : String) (ns : List Node) : Prop :=
  (fs name = none ∧ ns = []) ∨ (fs name = some (fileBytes ns) ∧ ns.length < 2 ^ 64)

/-! ## Reading -/

/-- Outcomes of `fopen(name, "r")`, the two `fread`s and the `malloc` between them. -/
structure ReadEnv where
  fopen : Bool
  freadCount : Bool
  /-- The memory `malloc` returned for the nodes; `none` is `NULL`. -/
  fileMem : Option Heap
  /-- The number of nodes `fread` stops at; `none` when it does not stop early. -/
  freadNodes : Option Nat
  /-- What an uninitialised `num_elements` holds. -/
  numMem : UInt64

def ReadEnv.Succeeds (env : ReadEnv) : Prop :=
  env.fopen = true ∧ env.freadCount = true ∧ env.fileMem.isSome = true ∧ env.freadNodes = none

/-- `fread(&num_elements, sizeof(size_t), 1, f)`: the bytes that are there replace the low bytes of
the old value. -/
def freadCount (ok : Bool) (content : List UInt8) (old : UInt64) : UInt64 :=
  if ok then
    let bs := content.take 8
    UInt64.ofNat (leNat (bs ++ (leBytes 8 old.toNat).drop bs.length))
  else
    old

/-- `fread(file_data, sizeof(node), n, f)`. -/
def freadNodes (limit : Option Nat) (rest : List UInt8) (n : Nat) (a : NodeArr) : NodeArr :=
  { a with cells := nodeLayout.overlay (rest.take (8 * min n (limit.getD n))) a.cells }

/-- The common sequence: read the count, allocate, read the nodes. -/
def readNodes (env : ReadEnv) (content : List UInt8) (init : UInt64) :
    UInt64 × Option NodeArr :=
  let num := freadCount env.freadCount content init
  let rest := if env.freadCount then content.drop 8 else content
  (num, env.fileMem.map (fun heap =>
    freadNodes env.freadNodes rest num.toNat (NodeArr.alloc heap ((8 * num).toNat / 8))))

/-! ## Writing -/

/-- Outcomes of `fopen(name, "w")`, the two `fwrite`s, the `fseek` between them and `fclose`. -/
structure WriteEnv where
  fopen : Bool
  fwriteCount : Bool
  fseek : Bool
  /-- The number of nodes `fwrite` stops at; `none` when it does not stop early. -/
  fwriteNodes : Option Nat
  /-- The number of bytes that reached the file when `fclose` fails. -/
  fclose : Option Nat

def WriteEnv.Succeeds (env : WriteEnv) : Prop :=
  env.fopen = true ∧ env.fwriteCount = true ∧ env.fseek = true ∧ env.fwriteNodes = none ∧
    env.fclose = none

/-- The common sequence on a truncated file: write the count, seek behind it if the caller does so
(`seek`), write `num` nodes of `a`.  The first `fseek(fw, 0, SEEK_SET)` never moves anything. -/
def writeNodes (env : WriteEnv) (seek : Bool) (num : UInt64) (a : NodeArr) :
    Except Abort (List UInt8) :=
  if env.fopen then
    let head := if env.fwriteCount then leBytes 8 num.toNat else []
    let pos := if seek && env.fseek then 8 else head.length
    let body := nodeLayout.encodeAll (a.window 0 (min num.toNat (env.fwriteNodes.getD num.toNat)))
    -- a position past the end leaves a hole of zero bytes once something is written there
    let content := if body = [] then head else head ++ List.replicate (pos - head.length) 0 ++ body
    .ok (content.take (env.fclose.getD content.length))
  else
    -- `fseek` on the `NULL` stream
    .error .nullPointer

/-! ## Well-formed files are read and written exactly -/

theorem length_leBytes_eight (n : Nat) : (leBytes 8 n).length = 8 := length_leBytes 8 n

theorem length_fileBytes (ns : List Node) : (fileBytes ns).length = 8 + 8 * ns.length := by
  have hlen := nodeLayout.length_encodeAll ns
  simp only [fileBytes, List.length_append, length_leBytes_eight, hlen, nodeLayout_width]

theorem take_fileBytes (ns : List Node) : (fileBytes ns).take 8 = leBytes 8 ns.length :=
  List.take_left' (length_leBytes_eight _)

theorem drop_fileBytes (ns : List Node) : (fileBytes ns).drop 8 = nodeLayout.encodeAll ns :=
  List.drop_left' (length_leBytes_eight _)

theorem leNat_take_fileBytes {ns : List Node} (h : ns.length < 2 ^ 64) :
    leNat ((fileBytes ns).take 8) = ns.length := by
  rw [take_fileBytes]
  exact leNat_leBytes_of_lt (by simpa using h)

theorem nodesOfBytes_fileBytes {ns : List Node} (h : ns.length < 2 ^ 64) :
    nodesOfBytes (fileBytes ns) = ns := by
  -- record `i` starts behind the count and `i` records
  have hnode : ∀ i, (hi : i < ns.length) →
      nodeLayout.decode (((fileBytes ns).drop (8 + 8 * i)).take 8) = ns[i] := by
    intro i hi
    have hdrop : (fileBytes ns).drop (8 + 8 * i) = (nodeLayout.encodeAll ns).drop (8 * i) := by
      rw [← List.drop_drop, drop_fileBytes]
    have hbytes : ((nodeLayout.encodeAll ns).drop (8 * i)).take 8 = nodeLayout.encode ns[i] :=
      nodeLayout.take_drop_encodeAll hi
    rw [hdrop, hbytes, nodeLayout.decode_encode]
  rw [nodesOfBytes, leNat_take_fileBytes h]
  apply List.ext_getElem
  · simp
  · intro i hi hi'
    simpa using hnode i hi'

/-- A well-formed file stores the nodes it holds. -/
theorem FileHolds.storedNodes_eq {fs : FS} {name : String} {ns : List Node}
    (h : FileHolds fs name ns) : storedNodes fs name = ns := by
  rcases h with ⟨hfs, rfl⟩ | ⟨hfs, hlen⟩
  · simp [storedNodes, hfs]
  · simpa [storedNodes, hfs] using nodesOfBytes_fileBytes hlen

theorem storedNodes_update (fs : FS) (name : String) {ns : List Node} (h : ns.length < 2 ^ 64) :
    storedNodes (Function.update fs name (some (fileBytes ns))) name = ns := by
  have hfile : FileHolds (Function.update fs name (some (fileBytes ns))) name ns :=
    Or.inr ⟨Function.update_self _ _ _, h⟩
  exact hfile.storedNodes_eq

/-- The number of nodes `fread` gets when `n` are asked for. -/
def ReadEnv.got (env : ReadEnv) (n : Nat) : Nat :=
  min n (env.freadNodes.getD n)

/-- Once the count of a well-formed file is read, the nodes that `fread` does not get are whatever
the allocated memory held. -/
theorem readNodes_of_count {env : ReadEnv} (hcount : env.freadCount = true) {heap : Heap}
    (hheap : env.fileMem = some heap) {ns : List Node} (hlen : ns.length < 2 ^ 64)
    (init : UInt64) :
    ∃ a : NodeArr, readNodes env (fileBytes ns) init = (UInt64.ofNat ns.length, some a) ∧
      a.window 0 ns.length = ns.take (env.got ns.length) ++
        (List.range' (env.got ns.length) (ns.length - env.got ns.length)).map heap := by
  have hnum : freadCount env.freadCount (fileBytes ns) init = UInt64.ofNat ns.length := by
    have hall : (leBytes 8 init.toNat).drop (leBytes 8 ns.length).length = [] := by
      simp
    rw [freadCount, hcount, if_pos rfl, take_fileBytes]
    simp only [hall, List.append_nil]
    rw [leNat_leBytes_of_lt (by simpa using hlen)]
  have htoNat : (UInt64.ofNat ns.length).toNat = ns.length := UInt64.toNat_ofNat_of_lt' hlen
  have hbytes : (nodeLayout.encodeAll ns).take (8 * env.got ns.length) =
      nodeLayout.encodeAll (ns.take (env.got ns.length)) :=
    nodeLayout.take_encodeAll ns (env.got ns.length)
  have hgot : env.got ns.length ≤ ns.length := Nat.min_le_left _ _
  refine ⟨freadNodes env.freadNodes (nodeLayout.encodeAll ns) ns.length
      (NodeArr.alloc heap ((8 * UInt64.ofNat ns.length).toNat / 8)), ?_, ?_⟩
  · simp only [readNodes, hnum, htoNat, hheap, Option.map_some]
    rw [hcount, if_pos rfl, drop_fileBytes]
  · apply List.ext_getElem
    · simp only [NodeArr.length_window, List.length_append, List.length_take, List.length_map,
        List.length_range']
      omega
    · intro i hi hi'
      rw [NodeArr.getElem_window, Nat.zero_add]
      change nodeLayout.overlay ((nodeLayout.encodeAll ns).take (8 * env.got ns.length)) heap i = _
      rw [hbytes, nodeLayout.overlay_encodeAll, List.getElem_append]
      by_cases hlt : i < (ns.take (env.got ns.length)).length
      · rw [dif_pos hlt, dif_pos hlt]
      · -- behind the nodes that were read
        have hle : (ns.take (env.got ns.length)).length = env.got ns.length := by
          rw [List.length_take, Nat.min_eq_left hgot]
        have hindex : env.got ns.length + (i - env.got ns.length) = i := by omega
        rw [dif_neg hlt, dif_neg hlt, List.getElem_map, List.getElem_range', hle, Nat.one_mul,
          hindex]

theorem readNodes_fileBytes {env : ReadEnv} (henv : env.Succeeds) {ns : List Node}
    (hlen : ns.length < 2 ^ 64) (init : UInt64) :
    ∃ a : NodeArr, readNodes env (fileBytes ns) init = (UInt64.ofNat ns.length, some a) ∧
      a.window 0 ns.length = ns := by
  rcases henv with ⟨-, hcount, hmem, hnodes⟩
  rcases Option.isSome_iff_exists.1 hmem with ⟨heap, hheap⟩
  rcases readNodes_of_count hcount hheap hlen init with ⟨a, hread, hwin⟩
  have hgot : env.got ns.length = ns.length := by
    simp [ReadEnv.got, hnodes]
  refine ⟨a, hread, ?_⟩
  simpa [hgot] using hwin

/-- The calls write `num` nodes; a failing `fseek` does not matter, since it would not have moved
the position. -/
structure WriteEnv.Writes (env : WriteEnv) (num : Nat) : Prop where
  fopen : env.fopen = true
  fwriteCount : env.fwriteCount = true
  fwriteNodes : num ≤ env.fwriteNodes.getD num
  fclose : 8 + 8 * num ≤ env.fclose.getD (8 + 8 * num)

theorem WriteEnv.Succeeds.writes {env : WriteEnv} (henv : env.Succeeds) (num : Nat) :
    env.Writes num := by
  rcases henv with ⟨hopen, hcount, -, hnodes, hclose⟩
  exact ⟨hopen, hcount, by simp [hnodes], by simp [hclose]⟩

theorem writeNodes_of_writes {env : WriteEnv} (seek : Bool) {num : UInt64}
    (henv : env.Writes num.toNat) (a : NodeArr) :
    writeNodes env seek num a = .ok (fileBytes (a.window 0 num.toNat)) := by
  have hhead : (leBytes 8 num.toNat).length = 8 := length_leBytes_eight _
  have hpos : (if (seek && env.fseek) = true then 8 else 8) = 8 := ite_self 8
  have hall : min num.toNat (env.fwriteNodes.getD num.toNat) = num.toNat :=
    Nat.min_eq_left henv.fwriteNodes
  have hcontent : (if nodeLayout.encodeAll (a.window 0 num.toNat) = [] then leBytes 8 num.toNat
      else leBytes 8 num.toNat ++ nodeLayout.encodeAll (a.window 0 num.toNat)) =
      fileBytes (a.window 0 num.toNat) := by
    rw [fileBytes, NodeArr.length_window]
    by_cases hbody : nodeLayout.encodeAll (a.window 0 num.toNat) = []
    · rw [if_pos hbody, hbody, List.append_nil]
    · rw [if_neg hbody]
  simp only [writeNodes, henv.fopen, henv.fwriteCount, if_true, hhead, hpos, hall, Nat.sub_self,
    List.replicate_zero, List.append_nil, hcontent]
  -- everything reaches the file
  have hlen : (fileBytes (a.window 0 num.toNat)).length = 8 + 8 * num.toNat := by
    rw [length_fileBytes, NodeArr.length_window]
  rw [List.take_of_length_le]
  rw [hlen]
  exact henv.fclose

theorem writeNodes_succeeds {env : WriteEnv} (henv : env.Succeeds) (seek : Bool) (num : UInt64)
    (a : NodeArr) :
    writeNodes env seek num a = .ok (fileBytes (a.window 0 num.toNat)) :=
  writeNodes_of_writes seek (henv.writes num.toNat) a

end LSMTree
end DBTest
