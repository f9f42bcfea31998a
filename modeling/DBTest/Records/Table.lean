import DBTest.Records.Lines

/-!
# Table — what the block table says about fields of any length

Offsets and sizes are stored as `uint16_t`, nothing limits the length of a line, and the running
offset adds up sizes that were narrowed already.

* The table describes a line exactly when all but its last field stay below `2 ^ 16` bytes together
  and the last one does by itself (`table_exact_iff`).
* A table that does not describe its line still points into the record: a narrowed number never
  grows, so the reader stays in range (`reader_in_range`).
-/

namespace DBTest
namespace Records

open ByteLayout
open Tokens

/-! ## Exact tables -/

/-- For every field the entry holds its size and its offset, and `boff` is that offset when the entry
is built. -/
def TableExact (ret : List Bytes) : Prop :=
  ∀ i, (hi : i < ret.length) → ∃ block boff,
    (blockTable 0 ret)[i]? = some block ∧ (boffs 0 ret)[i]? = some boff ∧
      block.size.toNat = ret[i].length ∧
      block.off.toNat = ((ret.take i).map List.length).sum ∧
      boff.toNat = ((ret.take i).map List.length).sum

theorem sum_take_le_of_le (ret : List Bytes) {i j : Nat} (h : i ≤ j) :
    ((ret.take i).map List.length).sum ≤ ((ret.take j).map List.length).sum := by
  have hsub : ((ret.take i).map List.length).Sublist ((ret.take j).map List.length) :=
    (List.take_sublist_take_left h).map List.length
  exact hsub.sum_le_sum (fun _ _ => Nat.zero_le _)

/-- Sizes that fit are added up as they are. -/
theorem map_narrow_of_lt {fields : List Bytes} (h : ∀ field ∈ fields, field.length < 2 ^ 16) :
    fields.map (fun field => field.length % 2 ^ 16) = fields.map List.length := by
  refine List.map_congr_left ?_
  intro field hfield
  exact Nat.mod_eq_of_lt (h field hfield)

/-- The table is exact when no size and not the last offset needs more than sixteen bits. -/
theorem tableExact_iff {ret : List Bytes} (hne : ret ≠ []) :
    TableExact ret ↔ (ret.dropLast.map List.length).sum < 2 ^ 16 ∧
      ∀ field ∈ ret, field.length < 2 ^ 16 := by
  have hpos : 0 < ret.length := List.length_pos_iff.2 hne
  constructor
  · intro h
    refine ⟨?_, ?_⟩
    · -- the offset of the last field is a `uint16_t`
      rcases h (ret.length - 1) (by omega) with ⟨block, boff, -, -, -, hoff, -⟩
      rw [List.dropLast_eq_take, ← hoff]
      exact block.off.toNat_lt
    · intro field hfield
      rcases List.getElem_of_mem hfield with ⟨i, hi, rfl⟩
      rcases h i hi with ⟨block, boff, -, -, hsize, -, -⟩
      rw [← hsize]
      exact block.size.toNat_lt
  · rintro ⟨hoffs, hsizes⟩ i hi
    have hbefore : ((ret.take i).map List.length).sum < 2 ^ 16 := by
      rw [List.dropLast_eq_take] at hoffs
      exact Nat.lt_of_le_of_lt (sum_take_le_of_le ret (by omega)) hoffs
    have hnarrow := map_narrow_of_lt (fun field hfield =>
      hsizes field (List.mem_of_mem_take (i := i) hfield))
    have hboff := getElem?_boffs 0 hi
    rw [hnarrow] at hboff
    refine ⟨_, _, getElem?_blockTable_of_lt hi hbefore, hboff, ?_, ?_, ?_⟩
    · simpa using Nat.mod_eq_of_lt (hsizes _ (List.getElem_mem hi))
    · simpa using Nat.mod_eq_of_lt hbefore
    · have hlt : ((ret.take i).map List.length).sum < 2 ^ 64 := by omega
      simpa using Nat.mod_eq_of_lt hlt

theorem split_ne_nil (line : Bytes) : split line comma ≠ [] := by
  intro h
  have hlen := length_split line
  rw [h] at hlen
  cases hlen

/-- The table describes a line exactly when its fields before the last have fewer than `2 ^ 16` bytes
together and no field has more by itself. -/
theorem table_exact_iff (line : Bytes) :
    TableExact (split line comma) ↔
      ((split line comma).dropLast.map List.length).sum < 2 ^ 16 ∧
        ∀ field ∈ split line comma, field.length < 2 ^ 16 :=
  tableExact_iff (split_ne_nil line)

/-- A field of `2 ^ 16` bytes. -/
def longField : Bytes := List.replicate (2 ^ 16) 100

theorem length_longField : longField.length = 2 ^ 16 := List.length_replicate

/-- A line of four fields, the first one too long. -/
def longLine : Bytes := longField ++ [44, 116, 44, 114, 44, 99]

theorem split_longLine : split longLine comma = [longField, [116], [114], [99]] := by
  have hlast : dropLastSep comma longLine = longLine := by
    rw [dropLastSep_eq_self_iff, longLine, List.getLast?_append]
    decide
  have hnot : comma ∉ longField := by
    intro h
    exact absurd (List.eq_of_mem_replicate h) (by decide)
  have hrest : List.splitOn comma [116, 44, 114, 44, 99] = [[116], [114], [99]] := by decide
  rw [split, tokens_eq_splitOn, hlast, longLine]
  exact (List.splitOn_append_cons_self_of_not_mem hnot _).trans
    (congrArg (longField :: ·) hrest)

/-- The long first field is entered with size zero, and the second field, which starts at `2 ^ 16`,
with offset zero. -/
theorem table_misdescribes_long_field :
    (blockTable 0 (split longLine comma))[0]? = some { off := 0, size := 0 } ∧
      (blockTable 0 (split longLine comma))[1]? = some { off := 0, size := 1 } ∧
      ¬ TableExact (split longLine comma) := by
  have hzero : UInt16.ofNat longField.length = 0 := by
    rw [length_longField]
    rfl
  rw [split_longLine]
  refine ⟨?_, ?_, ?_⟩
  · simp only [blockTable, hzero]
    rfl
  · simp only [blockTable, hzero]
    rfl
  · rw [tableExact_iff (List.cons_ne_nil _ _)]
    rintro ⟨-, hsizes⟩
    have hlt := hsizes longField List.mem_cons_self
    rw [length_longField] at hlt
    omega

/-! ## The reader stays in range -/

/-- Narrowed sizes add up to no more than the sizes. -/
theorem sum_narrow_le (fields : List Bytes) :
    (fields.map (fun field => field.length % 2 ^ 16)).sum ≤ (fields.map List.length).sum := by
  refine List.sum_le_sum ?_
  intro field _
  exact Nat.mod_le _ _

/-- Entry `i`, narrowed or not, ends no later than field `i`. -/
theorem block_end_le {ret : List Bytes} {i : Nat} (hi : i < ret.length) {block : Block}
    (h : (blockTable 0 ret)[i]? = some block) :
    block.off.toNat + block.size.toNat ≤ (ret.map List.length).sum := by
  rw [getElem?_blockTable 0 hi] at h
  cases h
  have hbefore := sum_narrow_le (ret.take i)
  have hend := sum_take_add_le hi
  have hoff := Nat.mod_le ((ret.take i).map (fun field => field.length % 2 ^ 16)).sum (2 ^ 16)
  have hsize := Nat.mod_le ret[i].length (2 ^ 16)
  simp only [UInt64.toNat_zero, Nat.zero_add, UInt16.toNat_ofNat']
  omega

/-- Whatever the lengths of the fields are, the reader finds their number, reads the entry of field
`i` inside the table and takes its slice inside the record; the slice has as many bytes as the size
of the field leaves modulo `2 ^ 16`. -/
theorem reader_in_range (fields : Fields) {i : Nat} (hi : i < fields.ret.length)
    (mem : Nat → UInt8) :
    (readCount mem (encode fields.ret)).toNat = fields.ret.length ∧
      8 + 4 * i + 4 ≤ 8 + 4 * (readCount mem (encode fields.ret)).toNat ∧
      8 + 4 * i + 4 ≤ (encode fields.ret).length ∧
      8 + 4 * (readCount mem (encode fields.ret)).toNat +
          (readBlock mem (encode fields.ret) i).off.toNat +
          (readBlock mem (encode fields.ret) i).size.toNat ≤ (encode fields.ret).length ∧
      decodeField mem (encode fields.ret) i =
        ((encode fields.ret).drop (8 + 4 * (readCount mem (encode fields.ret)).toNat +
          (readBlock mem (encode fields.ret) i).off.toNat)).take
            (readBlock mem (encode fields.ret) i).size.toNat ∧
      (decodeField mem (encode fields.ret) i).length = fields.ret[i].length % 2 ^ 16 := by
  have hcount := count_encode mem fields
  have hlen := length_encode fields.ret
  have hfits := fields.fits
  have hentry := getElem?_blockTable 0 hi
  have hblock := readBlock_encode mem hentry
  have hend : (readBlock mem (encode fields.ret) i).off.toNat +
      (readBlock mem (encode fields.ret) i).size.toNat ≤ (fields.ret.map List.length).sum := by
    rw [hblock]
    exact block_end_le hi hentry
  -- the pointer does not wrap
  have hpvalue : (8 + 4 * readCount mem (encode fields.ret) +
      (readBlock mem (encode fields.ret) i).off.toUInt64).toNat =
        8 + 4 * (readCount mem (encode fields.ret)).toNat +
          (readBlock mem (encode fields.ret) i).off.toNat := by
    simp only [UInt64.toNat_add, UInt64.toNat_mul, UInt16.toNat_toUInt64, UInt64.reduceToNat,
      hcount]
    omega
  have hroom : 8 + 4 * (readCount mem (encode fields.ret)).toNat +
      (readBlock mem (encode fields.ret) i).off.toNat +
      (readBlock mem (encode fields.ret) i).size.toNat ≤ (encode fields.ret).length := by
    omega
  refine ⟨hcount, by omega, by omega, hroom, ?_, ?_⟩
  · simp only [decodeField, hpvalue]
    exact load_cStrMem mem hroom
  · simp only [decodeField, length_load, hblock]
    simp

/-- The last field of the record of a line whose first field is too long. -/
theorem reader_in_range_long_field :
    (decodeField (fun _ => 0) (encode [longField, [116], [114], [99]]) 3).length = 1 := by
  have hfits : 8 + 4 * [longField, [116], [114], [99]].length +
      ([longField, [116], [114], [99]].map List.length).sum < 2 ^ 64 := by
    simp only [List.map_cons, List.map_nil, List.sum_cons, List.sum_nil, length_longField]
    decide
  exact (reader_in_range { ret := [longField, [116], [114], [99]], fits := hfits }
    (i := 3) (show 3 < 4 by decide) (fun _ => 0)).2.2.2.2.2

end Records
end DBTest
