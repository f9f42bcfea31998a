import DBTest.Records.Stores

/-!
# Rows — which lines have a key, and which rows share one

The key of a line is built from its first four fields, which are taken from the vector without a
check; the reader later takes the fourth entry of the table in the same way.

* A line is handled inside the vector and the table exactly when it has four commas, or three and
  something behind the last one (`line_in_range_iff`).
* Rows without the separators of the key have the same key only if they agree in all four fields
  (`keys_identify_rows`).
-/

namespace DBTest
namespace Records

open ByteLayout
open Tokens

/-! ## Enough fields -/

/-- The contents of a file; its size is an `off_t`. -/
structure InputFile where
  content : Bytes
  size_lt : content.length < 2 ^ 63

theorem length_le_of_getline {text line rest : Bytes} (h : getline text = some (line, rest)) :
    line.length ≤ text.length := by
  cases text with
  | nil => cases h
  | cons b bs =>
      simp only [getline] at h
      cases hcut : cutAt newline (b :: bs) with
      | none =>
          simp only [hcut] at h
          cases h
          exact le_rfl
      | some p =>
          simp only [hcut] at h
          cases h
          have htext := congrArg List.length (eq_of_cutAt hcut).1
          rw [List.length_append] at htext
          omega

/-- A line is part of its file. -/
theorem length_le_of_mem_readFileLine {content line : Bytes} (h : line ∈ readFileLine content) :
    line.length ≤ content.length := by
  -- induction on the calls of `getline`
  induction content using readFileLine.induct with
  | case1 content first rest hline ih =>
      rw [readFileLine, hline] at h
      rcases List.mem_cons.1 h with rfl | hrest
      · exact length_le_of_getline hline
      · have hlt := length_rest_lt hline
        have hle := ih hrest
        omega
  | case2 content hline =>
      rw [readFileLine, hline] at h
      cases h

/-- A comma at the very end does not make a field. -/
theorem four_le_length_split_iff (line : Bytes) :
    4 ≤ (split line comma).length ↔
      4 ≤ line.count comma ∨ (line.count comma = 3 ∧ line.getLast? ≠ some comma) := by
  rw [length_split]
  by_cases hlast : line.getLast? = some comma
  · rcases List.getLast?_eq_some_iff.1 hlast with ⟨front, rfl⟩
    rw [dropLastSep_concat, List.count_append, List.count_singleton_self]
    simp only [hlast, ne_eq, not_true_eq_false, and_false, or_false]
  · rw [count_dropLastSep_eq_iff.2 hlast]
    simp only [ne_eq, hlast, not_false_eq_true, and_true]
    omega

/-- The indices that build the key are below the number of fields, and the index of the entry that is
read back is below the stored count. -/
def LineInRange (mem : Nat → UInt8) (line : Bytes) : Prop :=
  (∀ k : CafeKey, k.index < (split line comma).length) ∧
    CafeKey.customerId.index < (readCount mem (encode (split line comma))).toNat

theorem lineInRange_iff_four_le (file : InputFile) (mem : Nat → UInt8) {line : Bytes}
    (hline : line ∈ readFileLine file.content) :
    LineInRange mem line ↔ 4 ≤ (split line comma).length := by
  constructor
  · intro h
    exact h.1 CafeKey.customerId
  · intro hfour
    refine ⟨?_, ?_⟩
    · intro k
      exact Nat.lt_of_lt_of_le k.index_lt_four hfour
    · -- the count does not wrap, since the line is in a file
      have hsize := file.size_lt
      have hle := length_le_of_mem_readFileLine hline
      have hcommas : (dropLastSep comma line).count comma ≤ line.length :=
        Nat.le_trans List.count_le_length (dropLastSep_sublist comma line).length_le
      have hlen := length_split line
      have hlt : (split line comma).length < 2 ^ 64 := by omega
      rw [readCount_encode, UInt64.toNat_ofNat_of_lt' hlt]
      exact hfour

/-- A line of a file is handled in range exactly when it has four commas, or three and does not end
with the last of them. -/
theorem line_in_range_iff (file : InputFile) (mem : Nat → UInt8) {line : Bytes}
    (hline : line ∈ readFileLine file.content) :
    LineInRange mem line ↔
      4 ≤ line.count comma ∨ (line.count comma = 3 ∧ line.getLast? ≠ some comma) := by
  rw [← four_le_length_split_iff]
  exact lineInRange_iff_four_le file mem hline

/-- The file of the line `d,t,r,c`. -/
theorem line_in_range_four_fields : LineInRange (fun _ => 0) fourFields :=
  (line_in_range_iff { content := fourFieldsFile, size_lt := by decide } (fun _ => 0)
    (by simp [readFileLine_fourFieldsFile])).2 (Or.inr ⟨by decide, by decide⟩)

/-- The line `d,t,r,`: the empty fourth field is not reported. -/
def threeFields : Bytes := [100, 44, 116, 44, 114, 44]

/-- In a file of that line the index of the customer is out of range: the program reads past the end
of the vector. -/
theorem line_out_of_range_empty_field :
    readFileLine (threeFields ++ [newline]) = [threeFields] ∧
      split threeFields comma = [[100], [116], [114]] ∧
      ¬ LineInRange (fun _ => 0) threeFields ∧
      rocksdbLine mapStore (fun _ => 0) (fun _ => none) threeFields = .error .outOfRange := by
  have hsplit : split threeFields comma = [[100], [116], [114]] := by
    rw [split, tokens_eq_splitOn]
    decide
  refine ⟨?_, hsplit, ?_, ?_⟩
  · simp [readFileLine, getline, cutAt, newline, threeFields]
  · rintro ⟨hfields, -⟩
    have hlt := hfields CafeKey.customerId
    rw [hsplit] at hlt
    exact absurd hlt (by decide)
  · simp only [rocksdbLine, hsplit]
    rfl

/-! ## Keys -/

/-- The separators of a key. -/
def colon : UInt8 := 58

def underscore : UInt8 := 95

/-- A row of at least four fields, the first four of them without the separators. -/
structure CafeRow where
  fields : List Bytes
  four : 4 ≤ fields.length
  clean : ∀ (k : CafeKey) field, fields[k.index]? = some field → colon ∉ field ∧ underscore ∉ field

def CafeRow.field (row : CafeRow) (k : CafeKey) : Bytes :=
  row.fields.getD k.index []

theorem CafeRow.getElem?_field (row : CafeRow) (k : CafeKey) :
    row.fields[k.index]? = some (row.field k) :=
  getElem?_index_of_four_le row.four k

/-- The key of a row. -/
def CafeRow.key (row : CafeRow) : Bytes :=
  row.field .customerId ++ colon :: (row.field .customerId ++ colon :: (row.field .transDate ++
    underscore :: (row.field .transTime ++ underscore :: row.field .refNbr)))

theorem CafeRow.recordKey_eq (row : CafeRow) : recordKey row.fields = some row.key := by
  simp only [recordKey, row.getElem?_field, CafeRow.key]
  simp [colon, underscore]

/-- Each separator is the first of its kind behind the parts that are already read, so the parts are
determined one after the other. -/
theorem CafeRow.key_eq_iff (a b : CafeRow) : a.key = b.key ↔ ∀ k, a.field k = b.field k := by
  have hcolon : ∀ (row : CafeRow) (k : CafeKey), colon ∉ row.field k :=
    fun row k => (row.clean k _ (row.getElem?_field k)).1
  have hunder : ∀ (row : CafeRow) (k : CafeKey), underscore ∉ row.field k :=
    fun row k => (row.clean k _ (row.getElem?_field k)).2
  rw [CafeRow.key, CafeRow.key, append_cons_inj (hcolon a _) (hcolon b _),
    append_cons_inj (hcolon a _) (hcolon b _), append_cons_inj (hunder a _) (hunder b _),
    append_cons_inj (hunder a _) (hunder b _)]
  constructor
  · rintro ⟨hcustomer, -, hdate, htime, hnbr⟩ k
    cases k with
    | transDate => exact hdate
    | transTime => exact htime
    | refNbr => exact hnbr
    | customerId => exact hcustomer
  · intro h
    exact ⟨h _, h _, h _, h _, h _⟩

/-- A store in which a `Put` leaves the other keys alone. -/
structure SeparateStore extends KeyValueStore where
  get_set_of_ne : ∀ s key key' value, key' ≠ key → get (set s key value) key' = get s key'

/-- Two rows have the same key exactly when they agree in all four fields, so a `Put` of a row leaves
what is stored under the key of a row that differs in one of them. -/
theorem keys_identify_rows (a b : CafeRow) (db : SeparateStore) (s : db.State) :
    ∃ keyA keyB, recordKey a.fields = some keyA ∧ recordKey b.fields = some keyB ∧
      (keyA = keyB ↔ ∀ k, a.field k = b.field k) ∧
      ((∃ k, a.field k ≠ b.field k) →
        db.get (db.set s keyB (encode b.fields)) keyA = db.get s keyA) := by
  refine ⟨a.key, b.key, a.recordKey_eq, b.recordKey_eq, a.key_eq_iff b, ?_⟩
  rintro ⟨k, hk⟩
  have hne : a.key ≠ b.key := by
    intro heq
    exact hk ((a.key_eq_iff b).1 heq k)
  exact db.get_set_of_ne s b.key a.key (encode b.fields) hne

/-- A map keeps its other keys. -/
def separateMap : SeparateStore where
  toKeyValueStore := mapStore
  get_set_of_ne s _ _ _ hne := Function.update_of_ne hne _ s

/-- The rows `1,2,3,4` and `12,,3,4`: the same digits, cut in different places. -/
def digitRow (transDate transTime : Bytes)
    (hclean : ∀ field ∈ [transDate, transTime], colon ∉ field ∧ underscore ∉ field) : CafeRow where
  fields := [transDate, transTime, [51], [52]]
  four := le_rfl
  clean k field hfield := by
    cases k with
    | transDate =>
        cases hfield
        exact hclean _ (by simp)
    | transTime =>
        cases hfield
        exact hclean _ (by simp)
    | refNbr =>
        cases hfield
        decide
    | customerId =>
        cases hfield
        decide

/-- The second row does not overwrite the first. -/
theorem keys_identify_two_rows :
    ∃ keyA keyB, recordKey [[49], [50], [51], [52]] = some keyA ∧
      recordKey [[49, 50], [], [51], [52]] = some keyB ∧ keyA ≠ keyB ∧
      ∀ s, separateMap.get (separateMap.set s keyB (encode [[49, 50], [], [51], [52]])) keyA =
        separateMap.get s keyA := by
  have h := keys_identify_rows (digitRow [49] [50] (by decide)) (digitRow [49, 50] [] (by decide))
    separateMap
  rcases h (fun _ => none) with ⟨keyA, keyB, hA, hB, hiff, -⟩
  have hdiff : ∃ k, (digitRow [49] [50] (by decide)).field k ≠
      (digitRow [49, 50] [] (by decide)).field k := ⟨.transDate, by decide⟩
  refine ⟨keyA, keyB, hA, hB, ?_, ?_⟩
  · intro heq
    rcases hdiff with ⟨k, hk⟩
    exact hk (hiff.1 heq k)
  · intro s
    rcases h s with ⟨keyA', keyB', hA', hB', -, hkept⟩
    rw [hA] at hA'
    rw [hB] at hB'
    cases hA'
    cases hB'
    exact hkept hdiff

end Records
end DBTest
