import Mathlib.Algebra.GroupWithZero.Nat
import Mathlib.Algebra.Order.BigOperators.Group.List
import DBTest.Library.ByteLayout

/-!
# Format — the record the speed tests store for a line

`rocksdb_rw_speed_test.cpp`, `redis_rw_speed_test.cpp` and `aerospike_rw_speed_test.cpp` build the
same buffer from the fields of a line: the number of fields in eight bytes, a table with an offset
and a size for each field, then the fields themselves.  Table entries are two `uint16_t`s, and the
running offset adds the size as it was stored.

The reader looks at the bytes behind a pointer and checks nothing, so it is modelled on a memory:
the string it was given, the terminator, and whatever lies behind that.
-/

namespace DBTest
namespace Records

open ByteLayout

abbrev Bytes := List UInt8

/-! ## The encoder -/

/-- `struct block_t`. -/
structure Block where
  off : UInt16
  size : UInt16
  deriving DecidableEq, Repr

def blockLayout : Layout Block where
  width := 4
  width_pos := by decide
  encode b := leBytes 2 b.off.toNat ++ leBytes 2 b.size.toNat
  decode bs :=
    { off := UInt16.ofNat (leNat (bs.take 2)), size := UInt16.ofNat (leNat ((bs.drop 2).take 2)) }
  length_encode b := by simp
  decode_encode b := by
    have hoff : (leBytes 2 b.off.toNat ++ leBytes 2 b.size.toNat).take 2 = leBytes 2 b.off.toNat :=
      List.take_left' (length_leBytes 2 _)
    have hsize : ((leBytes 2 b.off.toNat ++ leBytes 2 b.size.toNat).drop 2).take 2 =
        leBytes 2 b.size.toNat := by
      rw [List.drop_left' (length_leBytes 2 _)]
      exact List.take_of_length_le (length_leBytes 2 _).le
    rw [hoff, hsize, leNat_leBytes_of_lt b.off.toNat_lt, leNat_leBytes_of_lt b.size.toNat_lt]
    simp

/-- The first loop of the encoder: one entry for each field.  `boff` is a `size_t`; the size that is
added to it is the one that was stored. -/
def blockTable (boff : UInt64) : List Bytes → List Block
  | [] => []
  | field :: fields =>
      let block : Block := { off := boff.toUInt16, size := UInt16.ofNat field.length }
      block :: blockTable (boff + block.size.toUInt64) fields

/-- The contents of `buffer` for the fields `ret`. -/
def encode (ret : List Bytes) : Bytes :=
  leBytes 8 ret.length ++ (blockLayout.encodeAll (blockTable 0 ret) ++ ret.flatten)

/-! ## The reader -/

/-- The memory from `out.c_str()` on; `mem` is what lies behind the string and its terminator. -/
def cStrMem (mem : Nat → UInt8) (out : Bytes) (p : Nat) : UInt8 :=
  if p < out.length then out.getD p 0 else if p = out.length then 0 else mem p

/-- The `n` bytes from `p` on. -/
def load (m : Nat → UInt8) (p n : Nat) : Bytes :=
  (List.range n).map (fun j => m (p + j))

/-- `count` as the reader takes it from the first eight bytes. -/
def readCount (mem : Nat → UInt8) (out : Bytes) : UInt64 :=
  UInt64.ofNat (leNat (load (cStrMem mem out) 0 8))

/-- `blocks[i]`. -/
def readBlock (mem : Nat → UInt8) (out : Bytes) (i : Nat) : Block :=
  blockLayout.decode (load (cStrMem mem out) (8 + 4 * i) 4)

/-- The reader's `value` for field `i`; the program reads field `customer_id`. -/
def decodeField (mem : Nat → UInt8) (out : Bytes) (i : Nat) : Bytes :=
  let count := readCount mem out
  let blk := readBlock mem out i
  let pvalue : UInt64 := 8 + 4 * count + blk.off.toUInt64
  load (cStrMem mem out) pvalue.toNat blk.size.toNat

/-! ## The block table -/

@[simp] theorem length_blockTable (boff : UInt64) (ret : List Bytes) :
    (blockTable boff ret).length = ret.length := by
  induction ret generalizing boff with
  | nil => rfl
  | cons field fields ih => simp [blockTable, ih]

theorem length_tableBytes (ret : List Bytes) :
    (blockLayout.encodeAll (blockTable 0 ret)).length = 4 * ret.length := by
  rw [blockLayout.length_encodeAll, length_blockTable]
  rfl

/-- The values of `boff` at the start of the iterations of the first loop. -/
def boffs (boff : UInt64) : List Bytes → List UInt64
  | [] => []
  | field :: fields => boff :: boffs (boff + (UInt16.ofNat field.length).toUInt64) fields

/-- Each entry is built from the value of `boff` and the field of its iteration. -/
theorem blockTable_eq_zipWith (boff : UInt64) (ret : List Bytes) :
    blockTable boff ret =
      List.zipWith (fun b (field : Bytes) =>
        { off := b.toUInt16, size := UInt16.ofNat field.length }) (boffs boff ret) ret := by
  induction ret generalizing boff with
  | nil => rfl
  | cons field fields ih => simp [blockTable, boffs, ih]

/-- In iteration `i`, `boff` is the sum of the sizes that were stored before, modulo `2 ^ 64`. -/
theorem getElem?_boffs (boff : UInt64) {ret : List Bytes} {i : Nat} (hi : i < ret.length) :
    (boffs boff ret)[i]? = some (UInt64.ofNat
      (boff.toNat + ((ret.take i).map (fun field => field.length % 2 ^ 16)).sum)) := by
  induction ret generalizing boff i with
  | nil => simp at hi
  | cons field fields ih =>
      cases i with
      | zero => simp [boffs]
      | succ i =>
          have hnext : (boff + (UInt16.ofNat field.length).toUInt64).toNat =
              (boff.toNat + field.length % 2 ^ 16) % 2 ^ 64 := by
            rw [UInt64.toNat_add]
            simp
          have hwrap : ∀ x s : Nat, UInt64.ofNat (x % 2 ^ 64 + s) = UInt64.ofNat (x + s) := by
            intro x s
            apply UInt64.toNat_inj.1
            simp only [UInt64.toNat_ofNat']
            omega
          rw [boffs, List.getElem?_cons_succ, ih _ (by simpa using hi), hnext, hwrap,
            Nat.add_assoc, List.take_succ_cons, List.map_cons, List.sum_cons]

/-- Entry `i` holds, modulo `2 ^ 16`, the size of field `i` and the sum of the sizes that were stored
before it. -/
theorem getElem?_blockTable (boff : UInt64) {ret : List Bytes} {i : Nat} (hi : i < ret.length) :
    (blockTable boff ret)[i]? = some
      { off := UInt16.ofNat
          (boff.toNat + ((ret.take i).map (fun field => field.length % 2 ^ 16)).sum)
        size := UInt16.ofNat ret[i].length } := by
  -- `boff` wraps at `2 ^ 64`, which `2 ^ 16` divides
  have hoff : ∀ x : Nat, (UInt64.ofNat x).toUInt16 = UInt16.ofNat x := by
    intro x
    apply UInt16.toNat_inj.1
    simp only [UInt64.toNat_toUInt16, UInt64.toNat_ofNat', UInt16.toNat_ofNat']
    omega
  rw [blockTable_eq_zipWith, List.getElem?_zipWith, getElem?_boffs boff hi,
    List.getElem?_eq_getElem hi]
  simp only [hoff]

/-- A field whose offset and size fit has an exact entry, whatever comes after it. -/
theorem getElem?_blockTable_of_lt {ret : List Bytes} {i : Nat} (hi : i < ret.length)
    (hbefore : ((ret.take i).map List.length).sum < 2 ^ 16) :
    (blockTable 0 ret)[i]? = some
      { off := UInt16.ofNat ((ret.take i).map List.length).sum
        size := UInt16.ofNat ret[i].length } := by
  have hsizes : (ret.take i).map (fun field => field.length % 2 ^ 16) =
      (ret.take i).map List.length := by
    refine List.map_congr_left ?_
    intro field hfield
    have hle : field.length ≤ ((ret.take i).map List.length).sum :=
      List.le_sum_of_mem (List.mem_map_of_mem hfield)
    exact Nat.mod_eq_of_lt (by omega)
  rw [getElem?_blockTable 0 hi, hsizes]
  simp

/-! ## What the reader finds in an encoded record -/

@[simp] theorem length_load (m : Nat → UInt8) (p n : Nat) : (load m p n).length = n := by
  simp [load]

/-- Inside the string the reader sees the string. -/
theorem load_cStrMem (mem : Nat → UInt8) {out : Bytes} {p n : Nat} (h : p + n ≤ out.length) :
    load (cStrMem mem out) p n = (out.drop p).take n := by
  apply List.ext_getElem
  · simp only [length_load, List.length_take, List.length_drop]
    omega
  · intro j hj hj'
    have hlt : p + j < out.length := by
      rw [length_load] at hj
      omega
    simp [load, cStrMem, hlt]

theorem length_encode (ret : List Bytes) :
    (encode ret).length = 8 + 4 * ret.length + (ret.map List.length).sum := by
  simp only [encode, List.length_append, length_leBytes, length_tableBytes, List.length_flatten]
  omega

theorem readCount_encode (mem : Nat → UInt8) (ret : List Bytes) :
    readCount mem (encode ret) = UInt64.ofNat ret.length := by
  have hroom : 0 + 8 ≤ (encode ret).length := by
    rw [length_encode]
    omega
  have hhead : (encode ret).take 8 = leBytes 8 ret.length := List.take_left' (length_leBytes 8 _)
  rw [readCount, load_cStrMem mem hroom, List.drop_zero, hhead, leNat_leBytes]
  apply UInt64.toNat_inj.1
  simp

theorem drop_encode (ret : List Bytes) (p : Nat) :
    (encode ret).drop (8 + p) = (blockLayout.encodeAll (blockTable 0 ret) ++ ret.flatten).drop p := by
  rw [← List.drop_drop, encode, List.drop_left' (length_leBytes 8 _)]

theorem readBlock_encode (mem : Nat → UInt8) {ret : List Bytes} {i : Nat} {b : Block}
    (h : (blockTable 0 ret)[i]? = some b) : readBlock mem (encode ret) i = b := by
  rcases List.getElem?_eq_some_iff.1 h with ⟨hi, rfl⟩
  have hlen : i < ret.length := by simpa using hi
  have htable := length_tableBytes ret
  have hroom : 8 + 4 * i + 4 ≤ (encode ret).length := by
    rw [length_encode]
    omega
  -- the four bytes lie inside the table
  have hentry : ((blockLayout.encodeAll (blockTable 0 ret) ++ ret.flatten).drop (4 * i)).take 4 =
      blockLayout.encode (blockTable 0 ret)[i] := by
    rw [List.drop_append_of_le_length (by omega), List.take_append_of_le_length]
    · exact blockLayout.take_drop_encodeAll hi
    · rw [List.length_drop]
      omega
  rw [readBlock, load_cStrMem mem hroom, drop_encode, hentry, blockLayout.decode_encode]

/-- A slice of the fields, by its place behind the table. -/
theorem load_payload (mem : Nat → UInt8) {ret : List Bytes} {off size : Nat}
    (h : off + size ≤ (ret.map List.length).sum) :
    load (cStrMem mem (encode ret)) (8 + 4 * ret.length + off) size =
      (ret.flatten.drop off).take size := by
  have hroom : 8 + 4 * ret.length + off + size ≤ (encode ret).length := by
    rw [length_encode]
    omega
  rw [load_cStrMem mem hroom, Nat.add_assoc, drop_encode, ← List.drop_drop,
    List.drop_left' (length_tableBytes ret)]

/-! ## The round trip -/

/-- The fields of a line, as they stand in memory: the vector, its strings and the record built from
them have sizes in `size_t`. -/
structure Fields where
  ret : List Bytes
  fits : 8 + 4 * ret.length + (ret.map List.length).sum < 2 ^ 64

theorem sum_take_add_le {ret : List Bytes} {i : Nat} (hi : i < ret.length) :
    ((ret.take i).map List.length).sum + ret[i].length ≤ (ret.map List.length).sum := by
  have hsplit : ret = ret.take i ++ ret[i] :: ret.drop (i + 1) := by
    rw [← List.drop_eq_getElem_cons hi, List.take_append_drop]
  calc
    ((ret.take i).map List.length).sum + ret[i].length
        ≤ ((ret.take i).map List.length).sum +
            (ret[i].length + ((ret.drop (i + 1)).map List.length).sum) := by omega
    _ = ((ret.take i ++ ret[i] :: ret.drop (i + 1)).map List.length).sum := by
          rw [List.map_append, List.sum_append, List.map_cons, List.sum_cons]
    _ = (ret.map List.length).sum := by rw [← hsplit]

/-- Field `i` is read back from the encoded record whenever its offset and its size fit into a table
entry, however large the fields behind it are. -/
theorem decodeField_encode (fields : Fields) {i : Nat} (hi : i < fields.ret.length)
    (hbefore : ((fields.ret.take i).map List.length).sum < 2 ^ 16)
    (hsize : fields.ret[i].length < 2 ^ 16) (mem : Nat → UInt8) :
    decodeField mem (encode fields.ret) i = fields.ret[i] := by
  have hfits := fields.fits
  have hle := sum_take_add_le hi
  have hcount := readCount_encode mem fields.ret
  have hblock := readBlock_encode mem (getElem?_blockTable_of_lt hi hbefore)
  -- neither the pointer nor the entry has wrapped
  have hpvalue : (8 + 4 * UInt64.ofNat fields.ret.length +
      (UInt16.ofNat ((fields.ret.take i).map List.length).sum).toUInt64).toNat =
        8 + 4 * fields.ret.length + ((fields.ret.take i).map List.length).sum := by
    simp only [UInt64.toNat_add, UInt64.toNat_mul, UInt64.toNat_ofNat', UInt16.toNat_toUInt64,
      UInt16.toNat_ofNat', UInt64.reduceToNat]
    omega
  have hlength : (UInt16.ofNat fields.ret[i].length).toNat = fields.ret[i].length := by
    simpa using Nat.mod_eq_of_lt hsize
  -- the slice between two partial sums of the sizes is the field
  have hslice : (fields.ret.flatten.drop ((fields.ret.take i).map List.length).sum).take
      fields.ret[i].length = fields.ret[i] := by
    have hdrop := List.drop_sum_flatten fields.ret i
    rw [← List.map_take] at hdrop
    rw [hdrop, List.drop_eq_getElem_cons hi, List.flatten_cons, List.take_left]
  simp only [decodeField, hcount, hblock, hpvalue, hlength]
  rw [load_payload mem hle, hslice]

/-- The record gives back every field whose entry fits, and takes eight bytes, four for each field
and the fields themselves. -/
theorem record_round_trip (fields : Fields) {i : Nat} (hi : i < fields.ret.length)
    (hbefore : ((fields.ret.take i).map List.length).sum < 2 ^ 16)
    (hsize : fields.ret[i].length < 2 ^ 16) (mem : Nat → UInt8) :
    decodeField mem (encode fields.ret) i = fields.ret[i] ∧
      (encode fields.ret).length =
        8 + 4 * fields.ret.length + (fields.ret.map List.length).sum :=
  ⟨decodeField_encode fields hi hbefore hsize mem, length_encode fields.ret⟩

/-- Two fields of one and two bytes: the second one starts at offset `1`. -/
theorem record_round_trip_two_fields :
    decodeField (fun _ => 255) (encode [[65], [66, 67]]) 1 = [66, 67] ∧
      (encode [[65], [66, 67]]).length = 19 :=
  record_round_trip { ret := [[65], [66, 67]], fits := by decide } (i := 1) (by decide)
    (by decide) (by decide) (fun _ => 255)

end Records
end DBTest
