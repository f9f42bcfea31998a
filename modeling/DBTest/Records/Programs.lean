import DBTest.Records.Rows

/-!
# Programs — the speed tests over a whole file

`main` of each speed test calls its lambda for one line of the file after the other.  What a store
holds in the end is decided by the last line with a key:

* RocksDB holds the record of that line, from which all of its fields can be read
  (`rocksdb_file_keeps_last_lines`);
* the Redis server has the same keys, and under each of them the number of fields and none of the
  fields (`redis_file_keeps_counts`);
* the Aerospike record has room for the first two keys that are short enough
  (`aerospike_file_keeps_two_keys`).

The RocksDB program stays in range on every file whose lines have their four fields.  The other two
also read behind an empty string, so what is said of them is about the runs that come to their end.
-/

namespace DBTest
namespace Records

open ByteLayout
open FallibleRun

/-! ## A file, line by line -/

/-- A line, and the memory behind `out` while the line is handled. -/
structure LineCall where
  line : Bytes
  mem : Nat → UInt8

/-- The calls of the callback of `read_file_line`; `mems i` is the memory during call `i`. -/
def fileCalls (mems : Nat → Nat → UInt8) (content : Bytes) : List LineCall :=
  (readFileLine content).mapIdx (fun i line => { line := line, mem := mems i })

theorem map_line_fileCalls (mems : Nat → Nat → UInt8) (content : Bytes) :
    (fileCalls mems content).map LineCall.line = readFileLine content := by
  apply List.ext_getElem
  · simp [fileCalls]
  · intro i hi hi'
    simp [fileCalls]

theorem line_mem_of_mem_fileCalls {mems : Nat → Nat → UInt8} {content : Bytes} {c : LineCall}
    (h : c ∈ fileCalls mems content) : c.line ∈ readFileLine content := by
  rw [← map_line_fileCalls mems content]
  exact List.mem_map_of_mem h

/-- The store, and the `value`s of the lines so far. -/
structure FileState (S : Type) where
  store : S
  values : List Bytes

/-- One call of a per-line lambda. -/
def fileStep {S : Type} (lambda : (Nat → UInt8) → S → Bytes → Except Halt (S × Bytes))
    (s : FileState S) (c : LineCall) : Except Halt (FileState S) := do
  let (store, value) ← lambda c.mem s.store c.line
  .ok { store := store, values := s.values ++ [value] }

/-- `main` of `rocksdb_rw_speed_test.cpp` on an open database. -/
def rocksdbFile (db : KeyValueStore) (mems : Nat → Nat → UInt8) (s : db.State) (content : Bytes) :
    Except Halt (FileState db.State) :=
  run (fileStep (rocksdbLine db)) { store := s, values := [] } (fileCalls mems content)

/-- `main` of `redis_rw_speed_test.cpp` on an open connection. -/
def redisFile (server : KeyValueStore) (mems : Nat → Nat → UInt8) (s : server.State)
    (content : Bytes) : Except Halt (FileState server.State) :=
  run (fileStep (redisLine server)) { store := s, values := [] } (fileCalls mems content)

/-! ## The last line with a key -/

/-- The last line whose key goes by the name `key`. -/
def lastLine (name : Bytes → Bytes) (lines : List Bytes) (key : Bytes) : Option Bytes :=
  lines.reverse.find? (fun line => (recordKey (split line comma)).map name = some key)

theorem lastLine_concat (name : Bytes → Bytes) (lines : List Bytes) (line key : Bytes) :
    lastLine name (lines ++ [line]) key =
      if (recordKey (split line comma)).map name = some key then some line
      else lastLine name lines key := by
  rw [lastLine, List.reverse_append, List.reverse_singleton, List.singleton_append,
    List.find?_cons]
  by_cases hkey : (recordKey (split line comma)).map name = some key
  · simp [hkey]
  · simp [hkey, lastLine]

theorem of_lastLine_eq_some {name : Bytes → Bytes} {lines : List Bytes} {key line : Bytes}
    (h : lastLine name lines key = some line) :
    line ∈ lines ∧ (recordKey (split line comma)).map name = some key := by
  have hmem := List.mem_of_find?_eq_some h
  have hkey := List.find?_some h
  exact ⟨List.mem_reverse.1 hmem, of_decide_eq_true hkey⟩

/-- Two ways to name the keys find the same line when they name the keys of the file alike. -/
theorem lastLine_congr {name name' : Bytes → Bytes} {lines : List Bytes}
    (h : ∀ line ∈ lines, (recordKey (split line comma)).map name =
      (recordKey (split line comma)).map name') (key : Bytes) :
    lastLine name lines key = lastLine name' lines key := by
  induction lines using List.reverseRecOn with
  | nil => rfl
  | append_singleton lines line ih =>
      rw [lastLine_concat, lastLine_concat, h line (by simp),
        ih (fun l hl => h l (List.mem_append_left [line] hl))]

/-! ## Programs that put a record for each line -/

/-- The lambda stores `record ret` under `name key` and computes `value`, and reads past the end of
the vector when the line has no key. -/
structure PutsRecord (db : KeyValueStore)
    (lambda : (Nat → UInt8) → db.State → Bytes → Except Halt (db.State × Bytes))
    (name : Bytes → Bytes) (record : List Bytes → Bytes)
    (value : (Nat → UInt8) → List Bytes → Bytes) : Prop where
  puts : ∀ mem s line key, recordKey (split line comma) = some key →
    lambda mem s line = .ok (db.set s (name key) (record (split line comma)),
      value mem (split line comma))
  stops : ∀ mem s line, recordKey (split line comma) = none →
    lambda mem s line = .error .outOfRange

theorem rocksdbLine_puts (db : KeyValueStore) :
    PutsRecord db (rocksdbLine db) id encode
      (fun mem ret => decodeField mem (encode ret) CafeKey.customerId.index) where
  puts mem s line key hkey := by
    simp only [rocksdbLine, hkey, db.get_set, Option.getD_some, id]
  stops mem s line hkey := by
    simp only [rocksdbLine, hkey]

theorem redisLine_puts (server : KeyValueStore) :
    PutsRecord server (redisLine server) cStr (fun ret => cStr (encode ret))
      (fun mem _ => decodeField mem [] CafeKey.customerId.index) where
  puts mem s line key hkey := by
    simp only [redisLine, hkey]
  stops mem s line hkey := by
    simp only [redisLine, hkey]

/-- The vector of a line with a key has four entries. -/
theorem four_le_of_recordKey {ret : List Bytes} {key : Bytes} (h : recordKey ret = some key) :
    4 ≤ ret.length := by
  simp only [recordKey, Option.bind_eq_bind, Option.bind_eq_some_iff] at h
  rcases h with ⟨_, _, _, _, _, _, customerId, hcustomer, _⟩
  exact (List.getElem?_eq_some_iff.1 hcustomer).1

section

variable {db : SeparateStore}
  {lambda : (Nat → UInt8) → db.State → Bytes → Except Halt (db.State × Bytes)}
  {name : Bytes → Bytes} {record : List Bytes → Bytes} {value : (Nat → UInt8) → List Bytes → Bytes}

/-- What the store holds after the lines, and what was computed from them. -/
def Holds (db : SeparateStore) (name : Bytes → Bytes) (record : List Bytes → Bytes)
    (value : (Nat → UInt8) → List Bytes → Bytes) (start : db.State) (cs : List LineCall)
    (s : FileState db.State) : Prop :=
  s.values = cs.map (fun c => value c.mem (split c.line comma)) ∧
    ∀ key, db.get s.store key =
      ((lastLine name (cs.map LineCall.line) key).map (fun line => record (split line comma))).or
        (db.get start key)

theorem Holds.step (h : PutsRecord db.toKeyValueStore lambda name record value) {start : db.State}
    {cs : List LineCall} {s : FileState db.State} (hs : Holds db name record value start cs s)
    {c : LineCall} (hfour : 4 ≤ (split c.line comma).length) :
    ∃ s', fileStep lambda s c = .ok s' ∧ Holds db name record value start (cs ++ [c]) s' := by
  rcases recordKey_isSome hfour with ⟨key, hkey⟩
  refine ⟨_, by rw [fileStep, h.puts c.mem s.store c.line key hkey]; rfl, ?_, ?_⟩
  · simp [hs.1]
  · intro key'
    rw [List.map_append, List.map_cons, List.map_nil, lastLine_concat, hkey, Option.map_some]
    -- the name that was just written, or any other
    by_cases hname : name key = key'
    · subst hname
      rw [if_pos rfl, db.get_set]
      rfl
    · have hne : key' ≠ name key := fun heq => hname heq.symm
      rw [if_neg (by simpa using hname), db.get_set_of_ne _ _ _ _ hne, hs.2 key']

/-- With four fields in every line no read is out of range, and every key has the record of the last
line with it. -/
theorem run_holds (h : PutsRecord db.toKeyValueStore lambda name record value) (start : db.State)
    (cs : List LineCall) (hfour : ∀ c ∈ cs, 4 ≤ (split c.line comma).length) :
    ∃ s, run (fileStep lambda) { store := start, values := [] } cs = .ok s ∧
      Holds db name record value start cs s :=
  run_total (fileStep lambda) (Q := fun cs => ∀ c ∈ cs, 4 ≤ (split c.line comma).length)
    (P := Holds db name record value start)
    (fun cs c hQ d hd => hQ d (List.mem_append_left [c] hd))
    ⟨rfl, fun _ => rfl⟩
    (fun cs c s hQ hs => hs.step h (hQ c (by simp))) cs hfour

theorem four_le_of_run (h : PutsRecord db.toKeyValueStore lambda name record value)
    {start : db.State} {cs : List LineCall} {s : FileState db.State}
    (hrun : run (fileStep lambda) { store := start, values := [] } cs = .ok s) :
    ∀ c ∈ cs, 4 ≤ (split c.line comma).length := by
  refine run_preserves (fileStep lambda)
    (P := fun cs _ => ∀ c ∈ cs, 4 ≤ (split c.line comma).length) (by simp) ?_ cs s hrun
  intro cs c t u hcs hstep d hd
  rcases List.mem_append.1 hd with hold | hnew
  · exact hcs d hold
  · cases List.mem_singleton.1 hnew
    -- a line without a key stops the program
    cases hkey : recordKey (split c.line comma) with
    | none =>
        rw [fileStep, h.stops c.mem t.store c.line hkey] at hstep
        cases hstep
    | some key => exact four_le_of_recordKey hkey

theorem holds_of_run (h : PutsRecord db.toKeyValueStore lambda name record value)
    {start : db.State} {cs : List LineCall} {s : FileState db.State}
    (hrun : run (fileStep lambda) { store := start, values := [] } cs = .ok s) :
    Holds db name record value start cs s := by
  rcases run_holds h start cs (four_le_of_run h hrun) with ⟨s', hs', hholds⟩
  cases hrun.symm.trans hs'
  exact hholds

end

/-! ## RocksDB -/

/-- The lines have the fields that build the key. -/
def FourFieldLines (content : Bytes) : Prop :=
  ∀ line ∈ readFileLine content, 4 ≤ line.count comma ∨
    (line.count comma = 3 ∧ line.getLast? ≠ some comma)

theorem FourFieldLines.four_le {content : Bytes} (h : FourFieldLines content)
    {mems : Nat → Nat → UInt8} : ∀ c ∈ fileCalls mems content, 4 ≤ (split c.line comma).length := by
  intro c hc
  exact (four_le_length_split_iff c.line).2 (h c.line (line_mem_of_mem_fileCalls hc))

/-- These are the files on which no read of a field or of a table entry is out of range. -/
theorem lineInRange_iff_fourFieldLines (file : InputFile) :
    (∀ line ∈ readFileLine file.content, ∀ mem, LineInRange mem line) ↔
      FourFieldLines file.content := by
  constructor
  · intro h line hline
    have hrange := h line hline (fun _ => 0)
    exact (four_le_length_split_iff line).1 ((lineInRange_iff_four_le file _ hline).1 hrange)
  · intro h line hline mem
    have hfour := (four_le_length_split_iff line).2 (h line hline)
    exact (lineInRange_iff_four_le file mem hline).2 hfour

/-- The value that is read back is the customer, when the line is not too long. -/
theorem decodeField_customer {line : Bytes} (hfour : 4 ≤ (split line comma).length)
    (hlen : line.length < 2 ^ 16) (mem : Nat → UInt8) :
    some (decodeField mem (encode (split line comma)) CafeKey.customerId.index) =
      (split line comma)[CafeKey.customerId.index]? := by
  have hi : CafeKey.customerId.index < (split line comma).length := hfour
  have htotal := sum_length_split_le line
  have hle := sum_take_add_le hi
  have hvalue := decodeField_encode (lineFields line hlen) hi
    (show _ < 2 ^ 16 by simp only [lineFields]; omega)
    (show _ < 2 ^ 16 by simp only [lineFields]; omega) mem
  rw [List.getElem?_eq_getElem hi]
  exact congrArg some hvalue

/-- All fields of a line that is not too long can be read from its record. -/
theorem decodeAll_line {line : Bytes} (hlen : line.length < 2 ^ 16) (mem : Nat → UInt8) :
    decodeAll mem (encode (split line comma)) = split line comma :=
  decodeAll_encode mem (lineFields line hlen) (Nat.lt_of_le_of_lt (sum_length_split_le line) hlen)

/-- The program stays inside the vector and the table on all lines of a file exactly when they have
their four fields.  It then comes to its end, and each key has the record of the last line with it, or
what it had before; with lines below `2 ^ 16` bytes the customers of all lines were read back, and the
records that are left give all fields. -/
theorem rocksdb_file_keeps_last_lines (db : SeparateStore) (mems : Nat → Nat → UInt8)
    (start : db.State) (file : InputFile) :
    ((∀ line ∈ readFileLine file.content, ∀ mem, LineInRange mem line) ↔
        FourFieldLines file.content) ∧
      (FourFieldLines file.content →
        ∃ s, rocksdbFile db.toKeyValueStore mems start file.content = .ok s ∧
          (∀ key, db.get s.store key =
            ((lastLine id (readFileLine file.content) key).map
              (fun line => encode (split line comma))).or (db.get start key)) ∧
          ((∀ line ∈ readFileLine file.content, line.length < 2 ^ 16) →
            s.values.map some = (readFileLine file.content).map
              (fun line => (split line comma)[CafeKey.customerId.index]?) ∧
            ∀ key line, lastLine id (readFileLine file.content) key = some line →
              ∃ out, db.get s.store key = some out ∧
                ∀ mem, decodeAll mem out = split line comma)) := by
  refine ⟨lineInRange_iff_fourFieldLines file, ?_⟩
  intro hfields
  rcases run_holds (rocksdbLine_puts db.toKeyValueStore) start (fileCalls mems file.content)
    hfields.four_le with ⟨s, hs, hvalues, hget⟩
  have hlines := map_line_fileCalls mems file.content
  rw [hlines] at hget
  refine ⟨s, hs, hget, ?_⟩
  intro hshort
  refine ⟨?_, ?_⟩
  · -- the values, line by line
    rw [hvalues, ← hlines, List.map_map, List.map_map]
    refine List.map_congr_left ?_
    intro c hc
    exact decodeField_customer (hfields.four_le c hc) (hshort _ (line_mem_of_mem_fileCalls hc)) c.mem
  · intro key line hlast
    have hlen := hshort line (of_lastLine_eq_some hlast).1
    exact ⟨encode (split line comma), by rw [hget, hlast]; rfl, decodeAll_line hlen⟩

theorem fourFieldLines_fourFieldsFile : FourFieldLines fourFieldsFile := by
  intro line hline
  rw [readFileLine_fourFieldsFile] at hline
  rw [List.mem_singleton.1 hline]
  decide

theorem lastLine_fourFieldsFile {name : Bytes → Bytes}
    (h : name [99, 58, 99, 58, 100, 95, 116, 95, 114] = [99, 58, 99, 58, 100, 95, 116, 95, 114]) :
    lastLine name (readFileLine fourFieldsFile) [99, 58, 99, 58, 100, 95, 116, 95, 114] =
      some fourFields := by
  rw [readFileLine_fourFieldsFile, ← List.nil_append [fourFields], lastLine_concat,
    recordKey_fourFields, Option.map_some, h, if_pos rfl]

/-- The file of the line `d,t,r,c` on an empty store: the record is stored under the key of nine
bytes, and the customer is read back. -/
theorem rocksdb_file_keeps_one_line :
    ∃ s, rocksdbFile mapStore (fun _ _ => 0) (fun _ => none) fourFieldsFile = .ok s ∧
      s.values = [[99]] ∧
      s.store [99, 58, 99, 58, 100, 95, 116, 95, 114] =
        some (encode [[100], [116], [114], [99]]) := by
  rcases (rocksdb_file_keeps_last_lines separateMap (fun _ _ => 0) (fun _ => none)
    { content := fourFieldsFile, size_lt := by decide }).2 fourFieldLines_fourFieldsFile with
    ⟨s, hs, hget, hshort⟩
  have hkey := hget [99, 58, 99, 58, 100, 95, 116, 95, 114]
  simp only [readFileLine_fourFieldsFile, List.mem_singleton, forall_eq] at hshort
  have hvalues := (hshort (by decide)).1
  refine ⟨s, hs, ?_, ?_⟩
  · rw [List.map_singleton, split_fourFields] at hvalues
    have hsome : s.values.map some = [[99]].map some := hvalues
    exact (List.map_inj_right (fun _ _ => Option.some.inj)).1 hsome
  · simp only [lastLine_fourFieldsFile (show id _ = _ from rfl), Option.map_some, split_fourFields,
      Option.some_or] at hkey
    exact hkey

/-! ## Redis -/

/-- Of a record the server sees no more than the bytes of the count before the first zero. -/
theorem cStr_encode {ret : List Bytes} (h : ret ≠ []) :
    cStr (encode ret) = cStr (leBytes 8 ret.length) := by
  cases ret with
  | nil => exact absurd rfl h
  | cons field fields =>
      have hzero : ∃ rest, blockLayout.encodeAll (blockTable 0 (field :: fields)) ++
          (field :: fields).flatten = 0 :: rest := by
        simp [blockTable, Layout.encodeAll, blockLayout, leBytes]
      rcases hzero with ⟨rest, hrest⟩
      rw [cStr, cStr, encode, hrest, List.takeWhile_append]
      split_ifs with hall
      · -- eight bytes without a zero: the table begins with one
        have hself := (List.takeWhile_prefix (p := fun b : UInt8 => decide (b ≠ 0))
          (l := leBytes 8 (field :: fields).length)).eq_of_length hall
        rw [List.takeWhile_cons_of_neg (by simp), List.append_nil, hself]
      · rfl

/-- A line is the text before the first newline, or all that is left. -/
theorem of_getline {text line rest : Bytes} (h : getline text = some (line, rest)) :
    newline ∉ line ∧ (text = line ++ newline :: rest ∨ text = line ∧ rest = []) := by
  cases text with
  | nil => cases h
  | cons b bs =>
      simp only [getline] at h
      cases hcut : Tokens.cutAt newline (b :: bs) with
      | none =>
          simp only [hcut] at h
          cases h
          exact ⟨Tokens.cutAt_eq_none.1 hcut, Or.inr ⟨rfl, rfl⟩⟩
      | some p =>
          simp only [hcut] at h
          cases h
          have hp := Tokens.eq_of_cutAt hcut
          exact ⟨hp.2, Or.inl hp.1⟩

theorem mem_of_mem_line {content line : Bytes} (hline : line ∈ readFileLine content) {b : UInt8}
    (hb : b ∈ line) : b ∈ content := by
  -- induction on the calls of `getline`
  induction content using readFileLine.induct with
  | case1 content first rest hget ih =>
      rw [readFileLine, hget] at hline
      have htext := (of_getline hget).2
      rcases List.mem_cons.1 hline with rfl | hrest
      · rcases htext with rfl | ⟨rfl, -⟩
        · exact List.mem_append_left _ hb
        · exact hb
      · rcases htext with rfl | ⟨rfl, rfl⟩
        · exact List.mem_append_right _ (List.mem_cons_of_mem _ (ih hrest))
        · simp [readFileLine, getline] at hrest
  | case2 content hget =>
      rw [readFileLine, hget] at hline
      cases hline

/-- In a file without zero bytes the server gets the keys whole. -/
theorem map_cStr_recordKey {line : Bytes} (hline : 0 ∉ line) :
    (recordKey (split line comma)).map cStr = (recordKey (split line comma)).map id := by
  cases hkey : recordKey (split line comma) with
  | none => rfl
  | some key =>
      simp [cStr_of_zero_not_mem (zero_not_mem_recordKey hline hkey)]

theorem split_ne_nil_of_map {name : Bytes → Bytes} {line key : Bytes}
    (h : (recordKey (split line comma)).map name = some key) : split line comma ≠ [] := by
  rcases Option.map_eq_some_iff.1 h with ⟨k, hk, -⟩
  exact split_ne_nil_of_recordKey hk

/-- When the program has come to the end of a file, the server holds under the key of a line the bytes
of the number of fields before the first zero, whatever the fields are.  On a file without zero bytes,
with both stores empty before, it has the keys of the RocksDB program and under none of them the same
value. -/
theorem redis_file_keeps_counts (server : SeparateStore) (mems : Nat → Nat → UInt8)
    (start : server.State) (content : Bytes) (s : FileState server.State)
    (hs : redisFile server.toKeyValueStore mems start content = .ok s) :
    (∀ key, server.get s.store key =
      ((lastLine cStr (readFileLine content) key).map
        (fun line => cStr (leBytes 8 (split line comma).length))).or (server.get start key)) ∧
      (0 ∉ content → (∀ key, server.get start key = none) →
        ∀ (db : SeparateStore) (dbMems : Nat → Nat → UInt8) (d : db.State)
          (t : FileState db.State), (∀ key, db.get d key = none) →
          rocksdbFile db.toKeyValueStore dbMems d content = .ok t →
          ∀ key, (server.get s.store key).isSome = (db.get t.store key).isSome ∧
            ∀ out, server.get s.store key = some out → db.get t.store key ≠ some out) := by
  have hget := (holds_of_run (redisLine_puts server.toKeyValueStore) hs).2
  rw [map_line_fileCalls] at hget
  have hcount : ∀ key, server.get s.store key =
      ((lastLine cStr (readFileLine content) key).map
        (fun line => cStr (leBytes 8 (split line comma).length))).or (server.get start key) := by
    intro key
    rw [hget key]
    cases hlast : lastLine cStr (readFileLine content) key with
    | none => rfl
    | some line =>
        have hne := split_ne_nil_of_map (of_lastLine_eq_some hlast).2
        simp [cStr_encode hne]
  refine ⟨hcount, ?_⟩
  intro hzero hstart db dbMems d t hempty ht key
  have hdb := (holds_of_run (rocksdbLine_puts db.toKeyValueStore) ht).2 key
  -- the two programs name the keys of the file alike
  have hnames := @lastLine_congr cStr id (readFileLine content)
    (fun line hline => map_cStr_recordKey fun h => hzero (mem_of_mem_line hline h)) key
  rw [map_line_fileCalls, hempty key, Option.or_none] at hdb
  rw [hget key, hstart key, Option.or_none, hnames, hdb]
  cases hlast : lastLine id (readFileLine content) key with
  | none => simp
  | some line =>
      have hne := split_ne_nil_of_map (of_lastLine_eq_some hlast).2
      refine ⟨by simp, ?_⟩
      intro out hout heq
      -- a C string is never a whole record
      simp only [Option.map_some, Option.some.injEq] at hout heq
      exact ne_encode_of_zero_not_mem (zero_not_mem_cStr _) hne (hout.trans heq.symm)

/-- The file of the line `d,t,r,c` on an empty server, with zeros behind `out`: of its record one byte
is left. -/
theorem redis_file_keeps_one_count :
    ∃ s, redisFile mapStore (fun _ _ => 0) (fun _ => none) fourFieldsFile = .ok s ∧
      s.store [99, 58, 99, 58, 100, 95, 116, 95, 114] = some [4] := by
  rcases run_holds (redisLine_puts separateMap.toKeyValueStore) (fun _ => none)
    (fileCalls (fun _ _ => 0) fourFieldsFile) fourFieldLines_fourFieldsFile.four_le with ⟨s, hs, -⟩
  have hkey := (redis_file_keeps_counts separateMap (fun _ _ => 0) (fun _ => none) fourFieldsFile s
    hs).1 [99, 58, 99, 58, 100, 95, 116, 95, 114]
  rw [lastLine_fourFieldsFile (by decide), Option.map_some, split_fourFields, Option.some_or] at hkey
  exact ⟨s, hs, hkey⟩

/-! ## Aerospike -/

/-- One more element changes the first `m` distinct ones only when it is new and there is room. -/
theorem take_eraseDups_concat {α : Type*} [BEq α] [LawfulBEq α] (m : Nat) (xs : List α) (x : α) :
    (x ∉ xs.eraseDups.take m ∧ (xs.eraseDups.take m).length < m →
        (xs ++ [x]).eraseDups.take m = xs.eraseDups.take m ++ [x]) ∧
      (¬ (x ∉ xs.eraseDups.take m ∧ (xs.eraseDups.take m).length < m) →
        (xs ++ [x]).eraseDups.take m = xs.eraseDups.take m) := by
  have hlen : (xs.eraseDups.take m).length = min m xs.eraseDups.length := List.length_take
  have hone : [x].eraseDups = [x] := by
    simp [List.eraseDups_cons]
  constructor
  · rintro ⟨hnot, hroom⟩
    -- with room left, nothing has been cut off
    have hall : xs.eraseDups.take m = xs.eraseDups := List.take_of_length_le (by omega)
    rw [hall] at hnot hroom ⊢
    have hx : x ∉ xs := by simpa using hnot
    have hnew : (xs ++ [x]).eraseDups = xs.eraseDups ++ [x] := by
      simp [List.eraseDups_append, List.removeAll, hx, hone]
    rw [hnew, List.take_of_length_le (by rw [List.length_append, List.length_singleton]; omega)]
  · intro hfull
    by_cases hx : x ∈ xs
    · have hsame : (xs ++ [x]).eraseDups = xs.eraseDups := by
        simp [List.eraseDups_append, List.removeAll, hx]
      rw [hsame]
    · -- a new element finds no room
      have hnot : x ∉ xs.eraseDups.take m := by
        intro hmem
        exact hx (by simpa using List.mem_of_mem_take hmem)
      have hroom : m ≤ xs.eraseDups.length := by
        by_contra hlt
        exact hfull ⟨hnot, by omega⟩
      rw [List.eraseDups_append, List.take_append_of_le_length hroom]

/-- The bin names of the lines that are not too long for the client. -/
def shortNames (lines : List Bytes) : List Bytes :=
  (lines.filterMap (fun line => (recordKey (split line comma)).map cStr)).filter
    (fun name => name.length ≤ asBinNameMaxLen)

/-- The first names that the record has room for. -/
def keptNames (lines : List Bytes) : List Bytes :=
  (shortNames lines).eraseDups.take recordCapacity

theorem shortNames_concat {line key : Bytes} (hkey : recordKey (split line comma) = some key)
    (lines : List Bytes) :
    shortNames (lines ++ [line]) =
      if (cStr key).length ≤ asBinNameMaxLen then shortNames lines ++ [cStr key]
      else shortNames lines := by
  simp only [shortNames, List.filterMap_append, List.filter_append]
  by_cases hlen : (cStr key).length ≤ asBinNameMaxLen
  · simp [hkey, hlen]
  · simp [hkey, hlen]

theorem length_le_of_mem_keptNames {lines : List Bytes} {n : Bytes} (h : n ∈ keptNames lines) :
    n.length ≤ asBinNameMaxLen := by
  have hmem : n ∈ shortNames lines := by
    simpa using List.mem_of_mem_take h
  simpa using (List.mem_filter.1 hmem).2

/-- The client has room for one more bin of that name. -/
def Taken (lines : List Bytes) (name : Bytes) : Prop :=
  name.length ≤ asBinNameMaxLen ∧ name ∉ keptNames lines ∧
    (keptNames lines).length < recordCapacity

theorem keptNames_concat_of_taken {line key : Bytes} (hkey : recordKey (split line comma) = some key)
    {lines : List Bytes} (h : Taken lines (cStr key)) :
    keptNames (lines ++ [line]) = keptNames lines ++ [cStr key] := by
  rw [keptNames, shortNames_concat hkey, if_pos h.1]
  exact (take_eraseDups_concat recordCapacity (shortNames lines) (cStr key)).1 h.2

theorem keptNames_concat_of_not_taken {line key : Bytes}
    (hkey : recordKey (split line comma) = some key) {lines : List Bytes}
    (h : ¬ Taken lines (cStr key)) : keptNames (lines ++ [line]) = keptNames lines := by
  rw [keptNames, shortNames_concat hkey]
  split_ifs with hlen
  · exact (take_eraseDups_concat recordCapacity (shortNames lines) (cStr key)).2
      (fun hroom => h ⟨hlen, hroom⟩)
  · rfl

theorem mem_keptNames_concat {line key : Bytes} (hkey : recordKey (split line comma) = some key)
    {lines : List Bytes} {n : Bytes} (h : n ∈ keptNames lines) :
    n ∈ keptNames (lines ++ [line]) := by
  by_cases htaken : Taken lines (cStr key)
  · rw [keptNames_concat_of_taken hkey htaken]
    exact List.mem_append_left _ h
  · rwa [keptNames_concat_of_not_taken hkey htaken]

/-- The bins of the record after the lines are those of the kept names, and the database has the same
names.  A value has to outlive the record and does not: it lives in the `buffer` of its line.  Only
the bin of the last line is known to have its own. -/
structure HoldsKept (lines : List Bytes) (s : AsState) : Prop where
  length_bins : s.bins.length = (keptNames lines).length
  bins_iff : ∀ n, (s.bins.lookup n).isSome = true ↔ n ∈ keptNames lines
  stored_iff : ∀ n, (s.stored.lookup n).isSome = true ↔ n ∈ keptNames lines
  stored_last : ∀ line key, lines.getLast? = some line → recordKey (split line comma) = some key →
    cStr key ∈ keptNames lines → s.stored.lookup (cStr key) = some (cStr (encode (split line comma)))

theorem HoldsKept.start : HoldsKept [] AsState.start where
  length_bins := rfl
  bins_iff n := by simp [AsState.start, keptNames, shortNames]
  stored_iff n := by simp [AsState.start, keptNames, shortNames]
  stored_last line key hlast := by cases hlast

/-- The names of the record after one more line, whether its bin is set, replaced or refused. -/
theorem HoldsKept.setStr (client : AsClient) {lines : List Bytes} {s : AsState}
    (hs : HoldsKept lines s) {line key : Bytes}
    (hkey : recordKey (split line comma) = some key) (value : Bytes) :
    (client.setStr recordCapacity s.bins (cStr key) value).2.length =
        (keptNames (lines ++ [line])).length ∧
      (∀ n, ((client.setStr recordCapacity s.bins (cStr key) value).2.lookup n).isSome = true ↔
        n ∈ keptNames (lines ++ [line])) ∧
      (cStr key ∈ keptNames (lines ++ [line]) →
        (client.setStr recordCapacity s.bins (cStr key) value).2.lookup (cStr key) = some value) := by
  have hsome := hs.bins_iff (cStr key)
  by_cases hroom : (cStr key).length ≤ asBinNameMaxLen ∧
      ((s.bins.lookup (cStr key)).isSome = true ∨ s.bins.length < recordCapacity)
  · rcases client.set_stored recordCapacity s.bins (cStr key) value hroom.1 hroom.2 with
      ⟨-, hlen, hset⟩
    have hnames : ∀ n, ((client.setStr recordCapacity s.bins (cStr key) value).2.lookup n).isSome =
        true ↔ n = cStr key ∨ n ∈ keptNames lines := by
      intro n
      rw [hset n, ← hs.bins_iff n]
      by_cases hn : n = cStr key
      · simp [hn]
      · simp [hn]
    have hvalue : (client.setStr recordCapacity s.bins (cStr key) value).2.lookup (cStr key) =
        some value := by
      rw [hset, if_pos rfl]
    by_cases hmem : cStr key ∈ keptNames lines
    · -- the bin is there already and gets a new value
      have hkept : keptNames (lines ++ [line]) = keptNames lines :=
        keptNames_concat_of_not_taken hkey (fun htaken => htaken.2.1 hmem)
      rw [hkept]
      refine ⟨by rw [hlen, if_pos (hsome.2 hmem), hs.length_bins], ?_, fun _ => hvalue⟩
      intro n
      rw [hnames n]
      constructor
      · rintro (rfl | hold)
        · exact hmem
        · exact hold
      · exact Or.inr
    · -- the bin is new
      have hfew : s.bins.length < recordCapacity :=
        hroom.2.resolve_left (fun hold => hmem (hsome.1 hold))
      have htaken : Taken lines (cStr key) := ⟨hroom.1, hmem, hs.length_bins ▸ hfew⟩
      rw [keptNames_concat_of_taken hkey htaken, List.length_append, List.length_singleton,
        ← hs.length_bins]
      refine ⟨by rw [hlen, if_neg (fun hold => hmem (hsome.1 hold))], ?_, fun _ => hvalue⟩
      intro n
      rw [hnames n, List.mem_append, List.mem_singleton]
      exact or_comm
  · -- the bin is refused: its name is not one of those that were kept
    have hmem : cStr key ∉ keptNames lines := fun hmem =>
      hroom ⟨length_le_of_mem_keptNames hmem, Or.inl (hsome.2 hmem)⟩
    have hkept : keptNames (lines ++ [line]) = keptNames lines :=
      keptNames_concat_of_not_taken hkey
        (fun htaken => hroom ⟨htaken.1, Or.inr (hs.length_bins ▸ htaken.2.2)⟩)
    rw [client.set_refused _ _ _ _ hroom, hkept]
    exact ⟨hs.length_bins, hs.bins_iff, fun h => absurd h hmem⟩

theorem HoldsKept.step {client : AsClient} {lines : List Bytes} {s : AsState}
    (hs : HoldsKept lines s) {c : AsCall} (hfour : 4 ≤ (split c.line comma).length)
    (hok : c.keyPut = true ∧ c.keyGet = true) :
    ∃ s', aerospikeLine client s c = .ok s' ∧ HoldsKept (lines ++ [c.line]) s' := by
  rcases recordKey_isSome hfour with ⟨key, hkey⟩
  -- whether the bin was refused is not looked at, so the put is made in either case
  have hbins := hs.setStr client hkey (cStr (encode (split c.line comma)))
  refine ⟨_, by simp only [aerospikeLine, hkey, hok.1, hok.2, if_true]; rfl, ?_⟩
  refine ⟨hbins.1, hbins.2.1, ?_, ?_⟩
  · -- the put adds the names of the record to those that are stored, which it had before
    intro n
    rw [client.put_merged, Option.isSome_or, Bool.or_eq_true, hbins.2.1 n, hs.stored_iff n]
    exact or_iff_left_of_imp (mem_keptNames_concat hkey)
  · intro line key' hlast hkey' hmem
    rw [List.getLast?_concat, Option.some.injEq] at hlast
    subst hlast
    cases hkey.symm.trans hkey'
    -- the bins of the record go before those that are stored
    rw [client.put_merged, hbins.2.2 hmem, Option.some_or]

/-- A line that comes to its end has its fields, and its calls went through. -/
theorem of_aerospikeLine {client : AsClient} {s s' : AsState} {c : AsCall}
    (h : aerospikeLine client s c = .ok s') :
    4 ≤ (split c.line comma).length ∧ c.keyPut = true ∧ c.keyGet = true := by
  simp only [aerospikeLine] at h
  cases hkey : recordKey (split c.line comma) with
  | none =>
      simp only [hkey] at h
      cases h
  | some key =>
      simp only [hkey] at h
      refine ⟨four_le_of_recordKey hkey, ?_⟩
      split_ifs at h with hput hget
      exact ⟨hput, hget⟩

/-- All lines have their fields, and no call fails. -/
def CallsSucceed (calls : List AsCall) : Prop :=
  ∀ c ∈ calls, 4 ≤ (split c.line comma).length ∧ c.keyPut = true ∧ c.keyGet = true

theorem callsSucceed_of_run {client : AsClient} {s : AsState} {calls : List AsCall}
    (hs : run (aerospikeLine client) AsState.start calls = .ok s) : CallsSucceed calls := by
  refine run_preserves (aerospikeLine client) (P := fun cs _ => CallsSucceed cs)
    (by simp [CallsSucceed]) ?_ calls s hs
  intro cs c t u hcs hstep d hd
  rcases List.mem_append.1 hd with hold | hnew
  · exact hcs d hold
  · cases List.mem_singleton.1 hnew
    exact of_aerospikeLine hstep

theorem run_holdsKept (client : AsClient) {calls : List AsCall} (h : CallsSucceed calls) :
    ∃ s, run (aerospikeLine client) AsState.start calls = .ok s ∧
      HoldsKept (calls.map AsCall.line) s := by
  refine run_total (aerospikeLine client) (Q := CallsSucceed)
    (P := fun cs s => HoldsKept (cs.map AsCall.line) s)
    (fun cs c hQ d hd => hQ d (List.mem_append_left [c] hd)) HoldsKept.start ?_ calls h
  intro cs c s hQ hs
  have hc := hQ c (by simp)
  simpa using hs.step hc.1 hc.2

theorem holdsKept_of_run {client : AsClient} {calls : List AsCall} {s : AsState}
    (hs : run (aerospikeLine client) AsState.start calls = .ok s) :
    HoldsKept (calls.map AsCall.line) s := by
  rcases run_holdsKept client (callsSucceed_of_run hs) with ⟨s', hs', hkept⟩
  cases hs.symm.trans hs'
  exact hkept

/-- When the program has come to the end of a file, the database has of its keys, cut at a zero byte,
the first two that fit into a bin name and no other; if the key of the last line is one of them, the
number of its fields is stored under it. -/
theorem aerospike_file_keeps_two_keys (client : AsClient) (content : Bytes) (calls : List AsCall)
    (hlines : calls.map AsCall.line = readFileLine content) (s : AsState)
    (hs : run (aerospikeLine client) AsState.start calls = .ok s) :
    (∀ n, (s.stored.lookup n).isSome = true ↔ n ∈ keptNames (readFileLine content)) ∧
      ∀ line key, (readFileLine content).getLast? = some line →
        recordKey (split line comma) = some key → cStr key ∈ keptNames (readFileLine content) →
        s.stored.lookup (cStr key) = some (cStr (leBytes 8 (split line comma).length)) := by
  have hkept := holdsKept_of_run hs
  rw [hlines] at hkept
  refine ⟨hkept.stored_iff, ?_⟩
  intro line key hlast hkey hmem
  rw [hkept.stored_last line key hlast hkey hmem, cStr_encode (split_ne_nil_of_recordKey hkey)]

theorem keptNames_fourFields :
    keptNames [fourFields] = [[99, 58, 99, 58, 100, 95, 116, 95, 114]] := by
  simp only [keptNames, shortNames, List.filterMap_cons, recordKey_fourFields]
  decide

/-- The file of the line `d,t,r,c`, with zeros behind `out`: its key has nine bytes, and the database
holds the number of fields under it. -/
theorem aerospike_file_keeps_one_key :
    ∃ s, run (aerospikeLine listClient) AsState.start fourFieldsCalls = .ok s ∧
      s.stored.lookup [99, 58, 99, 58, 100, 95, 116, 95, 114] = some [4] := by
  have hcalls : CallsSucceed fourFieldsCalls := by
    simp [CallsSucceed, fourFieldsCalls, split_fourFields]
  rcases run_holdsKept listClient hcalls with ⟨s, hs, -⟩
  have h := aerospike_file_keeps_two_keys listClient fourFieldsFile fourFieldsCalls
    readFileLine_fourFieldsFile.symm s hs
  refine ⟨s, hs, ?_⟩
  have hlast := h.2 fourFields _ (by rw [readFileLine_fourFieldsFile]; rfl)
    recordKey_fourFields (by rw [readFileLine_fourFieldsFile, keptNames_fourFields]; decide)
  rw [split_fourFields] at hlast
  exact hlast

end Records
end DBTest
