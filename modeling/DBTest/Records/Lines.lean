import DBTest.Library.Tokens
import DBTest.Records.Format

/-!
# Lines — from a file to lines, fields and keys

`read_file_line` and `split` are the same text in the three speed tests.  `split` walks a
`std::sregex_token_iterator` over the text between the matches of the delimiter; the callers pass a
comma, so a match is one character.

The token iterator does not report an empty text behind the last match.  A line is therefore
recovered from its record exactly when it does not end with a comma (`line_kept_iff`).
-/

namespace DBTest
namespace Records

open ByteLayout
open Tokens

/-! ## Lines and fields -/

def comma : UInt8 := 44

def newline : UInt8 := 10

/-- `split(line, delimiter)` for a delimiter of one ordinary character. -/
def split (line : Bytes) (delimiter : UInt8) : List Bytes :=
  tokens delimiter line

theorem length_split (line : Bytes) :
    (split line comma).length = (dropLastSep comma line).count comma + 1 :=
  length_tokens comma line

/-- `getline(in, line)`: the next line and what is left of the file; `none` when there is nothing
left to read. -/
def getline (text : Bytes) : Option (Bytes × Bytes) :=
  match text with
  | [] => none
  | _ :: _ =>
      match cutAt newline text with
      | some (line, rest) => some (line, rest)
      -- the last line may lack its newline
      | none => some (text, [])

theorem length_rest_lt {text line rest : Bytes} (h : getline text = some (line, rest)) :
    rest.length < text.length := by
  cases text with
  | nil => cases h
  | cons b bs =>
      simp only [getline] at h
      cases hcut : cutAt newline (b :: bs) with
      | none =>
          simp only [hcut] at h
          cases h
          simp
      | some p =>
          simp only [hcut] at h
          cases h
          exact length_after_lt hcut

/-- The lines `read_file_line` hands to its callback. -/
def readFileLine (content : Bytes) : List Bytes :=
  match _h : getline content with
  | some (line, rest) => line :: readFileLine rest
  | none => []
termination_by content.length
decreasing_by exact length_rest_lt _h

theorem readFileLine_eq_nil {content : Bytes} : readFileLine content = [] ↔ content = [] := by
  constructor
  · intro h
    cases content with
    | nil => rfl
    | cons b bs =>
        exfalso
        have hsome : (getline (b :: bs)).isSome = true := by
          simp only [getline]
          cases cutAt newline (b :: bs) with
          | none => rfl
          | some p => rfl
        rcases Option.isSome_iff_exists.1 hsome with ⟨⟨line, rest⟩, hline⟩
        rw [readFileLine, hline] at h
        cases h
  · rintro rfl
    simp [readFileLine, getline]

/-! ## Keys -/

/-- `enum cafe_key_e`. -/
inductive CafeKey
  | transDate
  | transTime
  | refNbr
  | customerId
  deriving DecidableEq, Repr

def CafeKey.index : CafeKey → Nat
  | .transDate => 0
  | .transTime => 1
  | .refNbr => 2
  | .customerId => 3

theorem CafeKey.index_lt_four (k : CafeKey) : k.index < 4 := by
  cases k with
  | transDate => decide
  | transTime => decide
  | refNbr => decide
  | customerId => decide

/-- With four fields none of those that build the key is missing. -/
theorem getElem?_index_of_four_le {ret : List Bytes} (h : 4 ≤ ret.length) (k : CafeKey) :
    ret[k.index]? = some (ret.getD k.index []) := by
  have hlt : k.index < ret.length := Nat.lt_of_lt_of_le k.index_lt_four h
  simp [hlt]

/-- The key of a line; `none` when one of the four fields is missing, where the source reads past the
end of the vector. -/
def recordKey (ret : List Bytes) : Option Bytes := do
  let transDate ← ret[CafeKey.transDate.index]?
  let transTime ← ret[CafeKey.transTime.index]?
  let refNbr ← ret[CafeKey.refNbr.index]?
  let customerId ← ret[CafeKey.customerId.index]?
  some (customerId ++ [58] ++ customerId ++ [58] ++ transDate ++ [95] ++ transTime ++ [95] ++ refNbr)

theorem recordKey_isSome {ret : List Bytes} (h : 4 ≤ ret.length) :
    ∃ key, recordKey ret = some key := by
  simp only [recordKey, getElem?_index_of_four_le h]
  exact ⟨_, rfl⟩

/-! ## All fields of a record -/

/-- Every field of a record, as many as its count says. -/
def decodeAll (mem : Nat → UInt8) (out : Bytes) : List Bytes :=
  (List.range (readCount mem out).toNat).map (decodeField mem out)

theorem count_encode (mem : Nat → UInt8) (fields : Fields) :
    (readCount mem (encode fields.ret)).toNat = fields.ret.length := by
  have hfits := fields.fits
  have hlt : fields.ret.length < 2 ^ 64 := by omega
  rw [readCount_encode]
  exact UInt64.toNat_ofNat_of_lt' hlt

/-- A record of less than `2 ^ 16` bytes of fields gives back all of them. -/
theorem decodeAll_encode (mem : Nat → UInt8) (fields : Fields)
    (htotal : (fields.ret.map List.length).sum < 2 ^ 16) :
    decodeAll mem (encode fields.ret) = fields.ret := by
  rw [decodeAll, count_encode]
  apply List.ext_getElem
  · simp
  · intro i hi hi'
    have hle := sum_take_add_le hi'
    simpa using decodeField_encode fields hi' (by omega) (by omega) mem

theorem sum_length_split_le (line : Bytes) :
    ((split line comma).map List.length).sum ≤ line.length := by
  have hle := (flatten_tokens_sublist comma line).length_le
  rwa [List.length_flatten] at hle

/-- The fields of a line that is not too long. -/
def lineFields (line : Bytes) (hlen : line.length < 2 ^ 16) : Fields where
  ret := split line comma
  fits := by
    have htotal := sum_length_split_le line
    have hcount := length_split line
    have hle : (dropLastSep comma line).count comma ≤ line.length :=
      Nat.le_trans List.count_le_length (dropLastSep_sublist comma line).length_le
    omega

/-! ## What of a line is in its record -/

/-- The fields that are read back, joined with commas, give the line again exactly when it does not
end with a comma, and exactly then the stored count is one more than the number of commas. -/
theorem line_kept_iff (line : Bytes) (hlen : line.length < 2 ^ 16) (mem : Nat → UInt8) :
    ([comma].intercalate (decodeAll mem (encode (split line comma))) = line ↔
        line.getLast? ≠ some comma) ∧
      ((readCount mem (encode (split line comma))).toNat = line.count comma + 1 ↔
        line.getLast? ≠ some comma) := by
  have htotal : ((split line comma).map List.length).sum < 2 ^ 16 :=
    Nat.lt_of_le_of_lt (sum_length_split_le line) hlen
  have hall : decodeAll mem (encode (split line comma)) = split line comma :=
    decodeAll_encode mem (lineFields line hlen) htotal
  have hcount : (readCount mem (encode (split line comma))).toNat = (split line comma).length :=
    count_encode mem (lineFields line hlen)
  constructor
  · rw [hall, split, intercalate_tokens]
    exact dropLastSep_eq_self_iff
  · rw [hcount, split, length_tokens, Nat.add_right_cancel_iff]
    exact count_dropLastSep_eq_iff

/-- The line `a,,c,d`: four fields, the second one empty. -/
theorem line_kept_empty_field :
    [comma].intercalate (decodeAll (fun _ => 0) (encode (split [97, 44, 44, 99, 44, 100] comma))) =
        [97, 44, 44, 99, 44, 100] ∧
      (readCount (fun _ => 0) (encode (split [97, 44, 44, 99, 44, 100] comma))).toNat = 4 := by
  have h := line_kept_iff [97, 44, 44, 99, 44, 100] (by decide) (fun _ => 0)
  exact ⟨h.1.2 (by decide), h.2.2 (by decide)⟩

/-- The line `a,b,c,d,`: its fifth field is empty and is lost. -/
theorem line_lost_last_field :
    split [97, 44, 98, 44, 99, 44, 100, 44] comma = [[97], [98], [99], [100]] ∧
      [comma].intercalate
          (decodeAll (fun _ => 0) (encode (split [97, 44, 98, 44, 99, 44, 100, 44] comma))) ≠
        [97, 44, 98, 44, 99, 44, 100, 44] ∧
      (readCount (fun _ => 0) (encode (split [97, 44, 98, 44, 99, 44, 100, 44] comma))).toNat ≠
        [97, 44, 98, 44, 99, 44, 100, 44].count comma + 1 := by
  have hsplit : split [97, 44, 98, 44, 99, 44, 100, 44] comma = [[97], [98], [99], [100]] := by
    rw [split, tokens_eq_splitOn]
    decide
  rw [hsplit]
  exact ⟨rfl, by decide, by decide⟩

end Records
end DBTest
