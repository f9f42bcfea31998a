import Mathlib.Data.List.TakeWhile
import DBTest.Library.FallibleRun
import DBTest.Records.Lines

/-!
# Stores — what the three speed tests write for a line and read back

The per-line lambda of each program, over a store of its own kind.  RocksDB, hiredis with its server
and the Aerospike client are not part of the repository: they are structures whose fields state what
the programs rely on (`KeyValueStore`, `AsClient`).

The record of a line contains a zero byte, in the offset of its first field at the latest.  The
RocksDB program passes it as a string with a length and can read the field back.  The other two pass
`buffer.c_str()`, and the record that arrives is cut at its first zero byte:

* the Redis program never stores the record of a line (`redis_never_keeps_record`);
* the Aerospike program keeps all lines of a file only when there are none
  (`aerospike_keeps_lines_iff`).
-/

namespace DBTest
namespace Records

open ByteLayout
open FallibleRun

/-! ## C strings -/

/-- What a function that takes a C string sees of `bs.c_str()`. -/
def cStr (bs : Bytes) : Bytes :=
  bs.takeWhile (fun b => b ≠ 0)

theorem zero_not_mem_cStr (bs : Bytes) : 0 ∉ cStr bs := by
  intro h
  simpa using List.mem_takeWhile_imp h

theorem cStr_of_zero_not_mem {bs : Bytes} (h : 0 ∉ bs) : cStr bs = bs := by
  rw [cStr, List.takeWhile_eq_self_iff]
  intro b hb
  have hne : b ≠ 0 := fun heq => h (heq ▸ hb)
  simpa using hne

/-- The table starts with the offset of the first field, which is zero. -/
theorem zero_mem_encode {ret : List Bytes} (h : ret ≠ []) : 0 ∈ encode ret := by
  cases ret with
  | nil => exact absurd rfl h
  | cons field fields =>
      simp [encode, blockTable, Layout.encodeAll, blockLayout, leBytes]

/-- No C string is the record of a line. -/
theorem ne_encode_of_zero_not_mem {bs : Bytes} (hbs : 0 ∉ bs) {ret : List Bytes} (h : ret ≠ []) :
    bs ≠ encode ret := by
  rintro rfl
  exact hbs (zero_mem_encode h)

/-! ## Keys -/

/-- A key is made of bytes of the line, colons and underscores. -/
theorem zero_not_mem_recordKey {line key : Bytes} (hline : 0 ∉ line)
    (h : recordKey (split line comma) = some key) : 0 ∉ key := by
  have hfield : ∀ (i : Nat) (field : Bytes), (split line comma)[i]? = some field → 0 ∉ field := by
    intro i field hget hzero
    have hmem : 0 ∈ (split line comma).flatten :=
      List.mem_flatten_of_mem (List.mem_of_getElem? hget) hzero
    exact hline ((Tokens.flatten_tokens_sublist comma line).subset hmem)
  simp only [recordKey, Option.bind_eq_bind, Option.bind_eq_some_iff, Option.some.injEq] at h
  rcases h with ⟨transDate, hdate, transTime, htime, refNbr, href, customerId, hcustomer, rfl⟩
  simp [hfield _ _ hdate, hfield _ _ htime, hfield _ _ href, hfield _ _ hcustomer]

theorem split_ne_nil_of_recordKey {line key : Bytes}
    (h : recordKey (split line comma) = some key) : split line comma ≠ [] := by
  intro hnil
  rw [hnil] at h
  cases h

/-! ## RocksDB and Redis -/

/-- Ways the processing of a line does not come to its end.  `ret[i]` is not checked: a read past the
end of the vector is undefined, and nothing is said about what the program does after it. -/
inductive Halt
  | outOfRange
  | exit
  deriving DecidableEq, Repr

/-- A store that returns the bytes last written under a key: `Put` and `Get` of RocksDB, `SET` and
`GET` of the Redis server, when they succeed. -/
structure KeyValueStore where
  State : Type
  set : State → Bytes → Bytes → State
  get : State → Bytes → Option Bytes
  get_set : ∀ s key value, get (set s key value) key = some value

/-- The per-line lambda of `rocksdb_rw_speed_test.cpp`: the store it leaves, and `value`.  `mem` is
the memory behind `out`. -/
def rocksdbLine (db : KeyValueStore) (mem : Nat → UInt8) (s : db.State) (line : Bytes) :
    Except Halt (db.State × Bytes) :=
  let ret := split line comma
  match recordKey ret with
  | none => .error .outOfRange
  | some key =>
      let buffer := encode ret
      let s := db.set s key buffer
      let out := (db.get s key).getD []
      .ok (s, decodeField mem out CafeKey.customerId.index)

/-- The per-line lambda of `redis_rw_speed_test.cpp`.  `%s` takes a C string; the reply to `GET` is
freed and `out` stays empty.  The value is then read through a pointer that is made of the bytes
behind it, and the program may fault there: the result is that of a line that comes to its end. -/
def redisLine (server : KeyValueStore) (mem : Nat → UInt8) (s : server.State) (line : Bytes) :
    Except Halt (server.State × Bytes) :=
  let ret := split line comma
  match recordKey ret with
  | none => .error .outOfRange
  | some key =>
      let buffer := encode ret
      let s := server.set s (cStr key) (cStr buffer)
      let _reply := server.get s (cStr key)
      let out : Bytes := []
      .ok (s, decodeField mem out CafeKey.customerId.index)

/-- The Redis program stores the record of the line and computes the customer, as the RocksDB program
does. -/
def RedisKeepsRecord (server : KeyValueStore) (mem : Nat → UInt8) (s : server.State)
    (db : KeyValueStore) (dbMem : Nat → UInt8) (d : db.State) (line : Bytes) : Prop :=
  ∃ s' d' key value, recordKey (split line comma) = some key ∧
    redisLine server mem s line = .ok (s', value) ∧
    server.get s' key = some (encode (split line comma)) ∧
    (split line comma)[CafeKey.customerId.index]? = some value ∧
    rocksdbLine db dbMem d line = .ok (d', value)

/-- What is stored under the key of a line without zero bytes is its record, cut at the first zero
byte. -/
theorem get_redisLine (server : KeyValueStore) (mem : Nat → UInt8) (s : server.State)
    {line key : Bytes} (hline : 0 ∉ line) (hkey : recordKey (split line comma) = some key) :
    ∃ s', redisLine server mem s line = .ok (s', decodeField mem [] CafeKey.customerId.index) ∧
      server.get s' key = some (cStr (encode (split line comma))) := by
  have hcstr : cStr key = key := cStr_of_zero_not_mem (zero_not_mem_recordKey hline hkey)
  refine ⟨server.set s key (cStr (encode (split line comma))), ?_, server.get_set _ _ _⟩
  simp only [redisLine, hkey, hcstr]

/-- For no line without zero bytes does the server hold its record afterwards. -/
theorem redis_never_keeps_record (server : KeyValueStore) (mem : Nat → UInt8) (s : server.State)
    (db : KeyValueStore) (dbMem : Nat → UInt8) (d : db.State) {line : Bytes} (hline : 0 ∉ line) :
    ¬ RedisKeepsRecord server mem s db dbMem d line := by
  rintro ⟨s', d', key, value, hkey, hredis, hstored, -, -⟩
  rcases get_redisLine server mem s hline hkey with ⟨s₁, hrun, hget⟩
  rw [hrun] at hredis
  cases hredis
  rw [hget] at hstored
  exact ne_encode_of_zero_not_mem (zero_not_mem_cStr _) (split_ne_nil_of_recordKey hkey)
    (Option.some.inj hstored)

/-- The line `d,t,r,c`. -/
def fourFields : Bytes := [100, 44, 116, 44, 114, 44, 99]

theorem split_fourFields : split fourFields comma = [[100], [116], [114], [99]] := by
  rw [split, Tokens.tokens_eq_splitOn]
  decide

theorem recordKey_fourFields :
    recordKey (split fourFields comma) = some [99, 58, 99, 58, 100, 95, 116, 95, 114] := by
  rw [split_fourFields]
  rfl

/-- A store that is a map. -/
def mapStore : KeyValueStore where
  State := Bytes → Option Bytes
  set s key value := Function.update s key (some value)
  get s key := s key
  get_set s key value := Function.update_self key (some value) s

/-- The hypothesis holds of the line `d,t,r,c`. -/
theorem redis_never_keeps_record_four_fields :
    0 ∉ fourFields ∧
      ¬ RedisKeepsRecord mapStore (fun _ => 0) (fun _ => none) mapStore (fun _ => 0)
        (fun _ => none) fourFields :=
  ⟨by decide, redis_never_keeps_record _ _ _ _ _ _ (by decide)⟩

/-- For the line `d,t,r,c` the server holds one byte, the low byte of the count, and the value read
from the empty `out` is empty when zeros lie behind it; the customer is `c`. -/
theorem redis_stores_one_byte :
    ∃ s', redisLine mapStore (fun _ => 0) (fun _ => none) fourFields = .ok (s', []) ∧
      mapStore.get s' [99, 58, 99, 58, 100, 95, 116, 95, 114] = some [4] ∧
      (split fourFields comma)[CafeKey.customerId.index]? = some [99] ∧
      ¬ RedisKeepsRecord mapStore (fun _ => 0) (fun _ => none) mapStore (fun _ => 0)
        (fun _ => none) fourFields := by
  rcases get_redisLine mapStore (fun _ => 0) (fun _ => none) (by decide) recordKey_fourFields with
    ⟨s', hrun, hget⟩
  rw [split_fourFields] at hget
  refine ⟨s', hrun, hget, by rw [split_fourFields]; rfl, ?_⟩
  rintro ⟨s₁, d₁, key, value, hkey, hrun', hstored, -, -⟩
  rw [hrun] at hrun'
  cases hrun'
  rw [recordKey_fourFields] at hkey
  cases hkey
  rw [hget, split_fourFields] at hstored
  exact absurd hstored (by decide)

/-! ## Aerospike -/

/-- The bins of a record: names and values. -/
abbrev Bins := List (Bytes × Bytes)

/-- `AS_BIN_NAME_MAX_LEN`. -/
def asBinNameMaxLen : Nat := 15

/-- `as_record_inita(&rec, 2)`: room for two bins, none in use. -/
def recordCapacity : Nat := 2

/-- The calls of the Aerospike client.  A bin is refused when its name is too long or when it would
be one more than the record has room for; a put merges the bins of the record into what is stored. -/
structure AsClient where
  /-- `as_record_set_str` on the bins of a record of a given capacity. -/
  setStr : Nat → Bins → Bytes → Bytes → Bool × Bins
  /-- What `aerospike_key_put` leaves under the key. -/
  keyPut : Bins → Bins → Bins
  set_stored : ∀ capacity bins name value, name.length ≤ asBinNameMaxLen →
    ((bins.lookup name).isSome = true ∨ bins.length < capacity) →
      (setStr capacity bins name value).1 = true ∧
        (setStr capacity bins name value).2.length =
          (if (bins.lookup name).isSome then bins.length else bins.length + 1) ∧
        ∀ n, (setStr capacity bins name value).2.lookup n =
          if n = name then some value else bins.lookup n
  set_refused : ∀ capacity bins name value,
    ¬ (name.length ≤ asBinNameMaxLen ∧
        ((bins.lookup name).isSome = true ∨ bins.length < capacity)) →
      setStr capacity bins name value = (false, bins)
  put_merged : ∀ stored bins n,
    (keyPut stored bins).lookup n = (bins.lookup n).or (stored.lookup n)

/-- One line, with the outcomes of the calls for it and the memory behind `out`. -/
structure AsCall where
  line : Bytes
  keyPut : Bool
  keyGet : Bool
  mem : Nat → UInt8

/-- The bins of `rec`, which lives as long as the program, and the bins stored under `g_key`. -/
structure AsState where
  bins : Bins
  stored : Bins

/-- After `remove_test_record` and `as_record_inita`. -/
def AsState.start : AsState :=
  { bins := [], stored := [] }

/-- The per-line lambda of `aerospike_rw_speed_test.cpp`, when the read behind the empty `out` does
not fault. -/
def aerospikeLine (client : AsClient) (s : AsState) (c : AsCall) : Except Halt AsState :=
  let ret := split c.line comma
  match recordKey ret with
  | none => .error .outOfRange
  | some key =>
      let buffer := encode ret
      -- whether the bin was stored is not looked at
      let bins := (client.setStr recordCapacity s.bins (cStr key) (cStr buffer)).2
      if c.keyPut then
        let stored := client.keyPut s.stored bins
        if c.keyGet then
          -- `out` is never assigned
          let _value := decodeField c.mem [] CafeKey.customerId.index
          .ok { bins := bins, stored := stored }
        else
          .error .exit
      else
        .error .exit

/-- For each line there is an entry named by its key that holds its whole record. -/
def LinesStored (s : AsState) (lines : List Bytes) : Prop :=
  ∀ line ∈ lines, ∃ key, recordKey (split line comma) = some key ∧
    s.stored.lookup key = some (encode (split line comma))

/-- Every value in the record and in the database is a C string. -/
def OnlyCStrings (s : AsState) : Prop :=
  (∀ n v, s.bins.lookup n = some v → 0 ∉ v) ∧ ∀ n v, s.stored.lookup n = some v → 0 ∉ v

theorem lookup_setStr (client : AsClient) (capacity : Nat) (bins : Bins) (name value : Bytes)
    {n v : Bytes} (h : (client.setStr capacity bins name value).2.lookup n = some v) :
    v = value ∨ bins.lookup n = some v := by
  by_cases hroom : name.length ≤ asBinNameMaxLen ∧
      ((bins.lookup name).isSome = true ∨ bins.length < capacity)
  · rw [(client.set_stored capacity bins name value hroom.1 hroom.2).2.2 n] at h
    by_cases hn : n = name
    · rw [if_pos hn] at h
      exact Or.inl (Option.some.inj h).symm
    · rw [if_neg hn] at h
      exact Or.inr h
  · -- a refused bin leaves the record as it was
    rw [client.set_refused capacity bins name value hroom] at h
    exact Or.inr h

/-- A line that comes to its end adds nothing but C strings. -/
theorem OnlyCStrings.step {client : AsClient} {s : AsState} (h : OnlyCStrings s) {c : AsCall}
    (hfour : 4 ≤ (split c.line comma).length) (hok : c.keyPut = true ∧ c.keyGet = true) :
    ∃ s', aerospikeLine client s c = .ok s' ∧ OnlyCStrings s' := by
  rcases recordKey_isSome hfour with ⟨key, hkey⟩
  refine ⟨{ bins := (client.setStr recordCapacity s.bins (cStr key)
        (cStr (encode (split c.line comma)))).2
            stored := client.keyPut s.stored (client.setStr recordCapacity s.bins (cStr key)
        (cStr (encode (split c.line comma)))).2 },
    by simp only [aerospikeLine, hkey, hok.1, hok.2, if_true], ?_⟩
  have hbins : ∀ n v, (client.setStr recordCapacity s.bins (cStr key)
      (cStr (encode (split c.line comma)))).2.lookup n = some v → 0 ∉ v := by
    intro n v hlookup
    rcases lookup_setStr client _ _ _ _ hlookup with rfl | hold
    · exact zero_not_mem_cStr _
    · exact h.1 n v hold
  refine ⟨hbins, ?_⟩
  intro n v hlookup
  rw [client.put_merged, Option.or_eq_some_iff] at hlookup
  rcases hlookup with hnew | ⟨-, hold⟩
  · exact hbins n v hnew
  · exact h.2 n v hold

/-- When no read behind `out` faults, the program comes to the end of every file whose lines have four
fields, and it has then stored the record of every line exactly when the file is empty. -/
theorem aerospike_keeps_lines_iff (client : AsClient) (content : Bytes)
    (hfour : ∀ line ∈ readFileLine content, 4 ≤ (split line comma).length)
    (calls : List AsCall) (hlines : calls.map AsCall.line = readFileLine content)
    (hok : ∀ c ∈ calls, c.keyPut = true ∧ c.keyGet = true) :
    ∃ s, run (aerospikeLine client) AsState.start calls = .ok s ∧
      (LinesStored s (readFileLine content) ↔ content = []) := by
  have hrun := run_total (aerospikeLine client)
    (Q := fun cs => ∀ c ∈ cs, 4 ≤ (split c.line comma).length ∧ c.keyPut = true ∧ c.keyGet = true)
    (P := fun _ s => OnlyCStrings s) (s := AsState.start)
    (fun cs c hQ d hd => hQ d (List.mem_append_left [c] hd))
    ⟨by simp [AsState.start], by simp [AsState.start]⟩ ?_ calls ?_
  · rcases hrun with ⟨s, hs, hclean⟩
    refine ⟨s, hs, ?_⟩
    rw [← readFileLine_eq_nil]
    constructor
    · intro hstored
      -- the record of a first line would be a C string
      cases hfirst : readFileLine content with
      | nil => rfl
      | cons line lines =>
          exfalso
          rcases hstored line (by simp [hfirst]) with ⟨key, hkey, hlookup⟩
          exact ne_encode_of_zero_not_mem (hclean.2 key _ hlookup) (split_ne_nil_of_recordKey hkey)
            rfl
    · intro hnil
      simp [LinesStored, hnil]
  · intro cs c s hQ hP
    have hc := hQ c (by simp)
    exact hP.step hc.1 hc.2
  · intro c hc
    have hmem : c.line ∈ readFileLine content := by
      rw [← hlines]
      exact List.mem_map_of_mem hc
    exact ⟨hfour c.line hmem, hok c hc⟩

/-- The bins with the value of one name replaced. -/
def replaceBin (name value : Bytes) (bins : Bins) : Bins :=
  bins.map (fun bin => if bin.1 = name then (name, value) else bin)

theorem lookup_cons_if (m v : Bytes) (bins : Bins) (n : Bytes) :
    List.lookup n ((m, v) :: bins) = if n = m then some v else bins.lookup n := by
  by_cases hn : n = m
  · simp [hn]
  · rw [if_neg hn, List.lookup_cons, beq_eq_false_iff_ne.2 hn]

theorem lookup_replaceBin (name value : Bytes) (bins : Bins) (n : Bytes) :
    (replaceBin name value bins).lookup n =
      if n = name then (bins.lookup name).map (fun _ => value) else bins.lookup n := by
  induction bins with
  | nil => simp [replaceBin]
  | cons bin bins ih =>
      obtain ⟨m, v⟩ := bin
      simp only [replaceBin] at ih
      by_cases hm : m = name
      · simp only [replaceBin, List.map_cons, hm, if_true, lookup_cons_if, ih, Option.map_some]
        by_cases hn : n = name
        · simp [hn]
        · simp [hn]
      · have hne : name ≠ m := fun heq => hm heq.symm
        simp only [replaceBin, List.map_cons, hm, if_false, lookup_cons_if, ih, hne]
        by_cases hn : n = name
        · simp [hn, hne]
        · simp [hn]

/-- A client that keeps the bins in a list. -/
def listClient : AsClient where
  setStr capacity bins name value :=
    if name.length ≤ asBinNameMaxLen ∧ ((bins.lookup name).isSome = true ∨ bins.length < capacity)
    then (true, if (bins.lookup name).isSome then replaceBin name value bins
      else (name, value) :: bins)
    else (false, bins)
  keyPut stored bins := bins ++ stored
  set_stored capacity bins name value hname hroom := by
    rw [if_pos ⟨hname, hroom⟩]
    cases hlookup : bins.lookup name with
    | none =>
        refine ⟨rfl, by simp, ?_⟩
        intro n
        exact lookup_cons_if name value bins n
    | some old =>
        refine ⟨rfl, by simp [replaceBin], ?_⟩
        intro n
        simp [lookup_replaceBin, hlookup]
  set_refused capacity bins name value hroom := if_neg hroom
  put_merged stored bins n := by
    simp [List.lookup_append]

/-- A file of the one line `d,t,r,c`. -/
def fourFieldsFile : Bytes := fourFields ++ [newline]

/-- The call for that line, with nothing failing. -/
def fourFieldsCalls : List AsCall :=
  [{ line := fourFields, keyPut := true, keyGet := true, mem := fun _ => 0 }]

theorem readFileLine_fourFieldsFile : readFileLine fourFieldsFile = [fourFields] := by
  simp [readFileLine, getline, Tokens.cutAt, newline, fourFieldsFile, fourFields]

/-- The file without lines is kept, the file of one line is not. -/
theorem aerospike_keeps_only_empty_file :
    (∃ s, run (aerospikeLine listClient) AsState.start [] = .ok s ∧
        LinesStored s (readFileLine [])) ∧
      ∃ s, run (aerospikeLine listClient) AsState.start fourFieldsCalls = .ok s ∧
        ¬ LinesStored s (readFileLine fourFieldsFile) := by
  have hlines : readFileLine [] = [] := readFileLine_eq_nil.2 rfl
  constructor
  · rcases aerospike_keeps_lines_iff listClient [] (by simp [hlines]) [] hlines.symm
      (by simp) with ⟨s, hrun, hiff⟩
    exact ⟨s, hrun, hiff.2 rfl⟩
  · have hfour : ∀ line ∈ readFileLine fourFieldsFile, 4 ≤ (split line comma).length := by
      simp [readFileLine_fourFieldsFile, split_fourFields]
    rcases aerospike_keeps_lines_iff listClient fourFieldsFile hfour fourFieldsCalls
      readFileLine_fourFieldsFile.symm (by simp [fourFieldsCalls]) with ⟨s, hrun, hiff⟩
    exact ⟨s, hrun, fun hstored => absurd (hiff.1 hstored) (by decide)⟩

/-- After the file of the line `d,t,r,c` the entry named by its key holds the low byte of the
count. -/
theorem aerospike_loses_one_line :
    ∃ s, run (aerospikeLine listClient) AsState.start fourFieldsCalls = .ok s ∧
      s.stored.lookup [99, 58, 99, 58, 100, 95, 116, 95, 114] = some [4] ∧
      ¬ LinesStored s (readFileLine fourFieldsFile) := by
  have hstep : run (aerospikeLine listClient) AsState.start fourFieldsCalls =
      .ok { bins := [([99, 58, 99, 58, 100, 95, 116, 95, 114], [4])]
            stored := [([99, 58, 99, 58, 100, 95, 116, 95, 114], [4])] } := by
    have hone := run_concat_of_ok (aerospikeLine listClient) (run_nil _ AsState.start)
      { line := fourFields, keyPut := true, keyGet := true, mem := fun _ => 0 }
    refine hone.trans ?_
    simp only [aerospikeLine, split_fourFields]
    rfl
  refine ⟨_, hstep, rfl, ?_⟩
  intro hstored
  rcases hstored fourFields (by simp [readFileLine_fourFieldsFile]) with ⟨key, hkey, hlookup⟩
  rw [recordKey_fourFields] at hkey
  cases hkey
  rw [split_fourFields] at hlookup
  exact absurd hlookup (by decide)

end Records
end DBTest
