import DBTest.Library.Decimal
import DBTest.Records.Programs

/-!
# Generator — the file of `create_cafe_data.sh`, and what the stores make of it

The script writes one line, adds one to three of its four numbers and repeats that 200001 times.  The
numbers are texts.  The first `trans_time` comes from `date` and may begin with a zero; the shell then
reads it as an octal number.

* With a digit eight or nine behind the zero the addition is an error, which ends the loop: the file
  has all of its lines only when the script is started at other times of the day
  (`create_cafe_data_complete_iff`).
* All rows of the file have keys of their own.  RocksDB ends with every row; the Redis server has a
  single byte for each when its program comes to its end, and Aerospike has nothing
  (`cafe_data_in_three_stores`).
-/

namespace DBTest
namespace Records

open ByteLayout
open Decimal
open FallibleRun

/-! ## Arithmetic of the shell -/

/-- A number of digits in an arithmetic expansion; `none` is the error `value too great for base`. -/
def shellConstant (ds : Bytes) : Option Nat :=
  if ds.head? = some (digit 0) then
    if ds.all (fun c => digitValue c < 8) then
      some (ds.foldl (fun x c => 8 * x + digitValue c) 0)
    else
      none
  else
    some (value ds)

/-- `$(($x+1))`. -/
def increment (x : Bytes) : Option Bytes :=
  (shellConstant x).map (fun v => text (v + 1))

/-- What the shell has written itself it reads as a decimal number. -/
theorem shellConstant_text (n : Nat) : shellConstant (text n) = some n := by
  by_cases hn : n = 0
  · subst hn
    decide
  · rw [shellConstant, if_neg (head?_text_ne hn), value_text]

theorem increment_text (n : Nat) : increment (text n) = some (text (n + 1)) := by
  rw [increment, shellConstant_text, Option.map_some]

/-! ## The script -/

/-- The variables of the script. -/
structure Vars where
  transDate : Bytes
  transTime : Bytes
  refNbr : Bytes
  customerId : Bytes
  deriving DecidableEq, Repr

/-- `$trans_date,$trans_time,$ref_nbr,$customer_id`. -/
def Vars.line (v : Vars) : Bytes :=
  v.transDate ++ comma :: (v.transTime ++ comma :: (v.refNbr ++ comma :: v.customerId))

/-- The three additions; `none` when one of them is an error. -/
def Vars.next (v : Vars) : Option Vars := do
  let transTime ← increment v.transTime
  let refNbr ← increment v.refNbr
  let customerId ← increment v.customerId
  some { v with transTime := transTime, refNbr := refNbr, customerId := customerId }

/-- The `for` loop with the given number of rounds left, and `cafe.data` as it grows. -/
def cafeLoop : Nat → Vars → Bytes → Bytes
  | 0, _, file => file
  | n + 1, v, file =>
      let file := file ++ (v.line ++ [newline])
      match v.next with
      | some v => cafeLoop n v file
      -- an error in an expansion discards the rest of the loop
      | none => file

/-- What `date` reads. -/
structure Clock where
  year : Nat
  month : Nat
  day : Nat
  hour : Nat
  minute : Nat
  second : Nat
  year_lt : year < 2 ^ 32
  month_le : month ≤ 12
  day_le : day ≤ 31
  hour_lt : hour < 24
  minute_lt : minute < 60
  second_le : second ≤ 60

def twoDigits (n : Nat) : Bytes :=
  [digit (n / 10), digit (n % 10)]

/-- `date "+%Y%m%d"`. -/
def Clock.transDate (clock : Clock) : Bytes :=
  text clock.year ++ (twoDigits clock.month ++ twoDigits clock.day)

/-- `date "+%H%M%S"`. -/
def Clock.transTime (clock : Clock) : Bytes :=
  twoDigits clock.hour ++ (twoDigits clock.minute ++ twoDigits clock.second)

def firstRefNbr : Nat := 1234567890

def firstCustomerId : Nat := 333555777999

/-- The variables before the loop. -/
def Clock.vars (clock : Clock) : Vars where
  transDate := clock.transDate
  transTime := clock.transTime
  refNbr := text firstRefNbr
  customerId := text firstCustomerId

/-- The words of `seq 0 200000`. -/
def cafeRounds : Nat := 200001

/-- `cafe.data` after the script. -/
def createCafeData (clock : Clock) : Bytes :=
  cafeLoop cafeRounds clock.vars []

/-! ## The rows -/

/-- Row `i` of the file. -/
def Clock.row (clock : Clock) (i : Nat) : Vars where
  transDate := clock.transDate
  transTime := if i = 0 then clock.transTime
    else text ((shellConstant clock.transTime).getD 0 + i)
  refNbr := text (firstRefNbr + i)
  customerId := text (firstCustomerId + i)

/-- The shell can add to the first time. -/
def Clock.Counts (clock : Clock) : Prop :=
  (shellConstant clock.transTime).isSome = true

instance (clock : Clock) : Decidable clock.Counts :=
  inferInstanceAs (Decidable (_ = true))

/-- The number of lines of the file. -/
def Clock.rows (clock : Clock) : Nat :=
  if clock.Counts then cafeRounds else 1

theorem Clock.row_zero (clock : Clock) : clock.row 0 = clock.vars := by
  simp [Clock.row, Clock.vars]

/-- One round takes a row to the next one. -/
theorem Clock.next_row (clock : Clock) (h : clock.Counts) (i : Nat) :
    (clock.row i).next = some (clock.row (i + 1)) := by
  rcases Option.isSome_iff_exists.1 h with ⟨t, ht⟩
  have htime : increment (clock.row i).transTime = some (clock.row (i + 1)).transTime := by
    -- the first time is the one of `date`, the others are written by the shell
    cases i with
    | zero => simp [Clock.row, increment, ht]
    | succ i =>
        simp only [Clock.row, ht, Option.getD_some, Nat.succ_ne_zero, if_false]
        exact increment_text _
  have hnbr : increment (clock.row i).refNbr = some (clock.row (i + 1)).refNbr := increment_text _
  have hcustomer : increment (clock.row i).customerId = some (clock.row (i + 1)).customerId :=
    increment_text _
  simp only [Vars.next, htime, hnbr, hcustomer, Option.bind_eq_bind, Option.bind_some]
  rfl

/-- The lines of a file that was written line by line. -/
def fileOf (lines : List Bytes) : Bytes :=
  lines.flatMap (fun line => line ++ [newline])

theorem cafeLoop_row (clock : Clock) (h : clock.Counts) (n i : Nat) (file : Bytes) :
    cafeLoop n (clock.row i) file =
      file ++ fileOf ((List.range' i n).map (fun j => (clock.row j).line)) := by
  -- `i` rounds are over and `n` are left
  induction n generalizing i file with
  | zero => simp [cafeLoop, fileOf]
  | succ n ih =>
      rw [cafeLoop, clock.next_row h]
      simp only [ih]
      simp [fileOf, List.range'_succ]

theorem createCafeData_eq (clock : Clock) :
    createCafeData clock = fileOf ((List.range clock.rows).map (fun i => (clock.row i).line)) := by
  by_cases h : clock.Counts
  · rw [createCafeData, ← clock.row_zero, cafeLoop_row clock h, Clock.rows, if_pos h,
      List.nil_append, List.range_eq_range']
  · -- the first addition is the error
    have hnone : shellConstant clock.transTime = none := by
      simpa [Clock.Counts] using h
    have hnext : clock.vars.next = none := by
      simp [Vars.next, Clock.vars, increment, hnone]
    rw [createCafeData, cafeRounds, cafeLoop, hnext, Clock.rows, if_neg h, ← clock.row_zero]
    simp [fileOf]

theorem getline_append_cons {line : Bytes} (h : newline ∉ line) (rest : Bytes) :
    getline (line ++ newline :: rest) = some (line, rest) := by
  have hcut := Tokens.cutAt_append_cons h rest
  cases line with
  | nil => simp [getline, Tokens.cutAt]
  | cons b bs =>
      rw [List.cons_append] at hcut ⊢
      simp only [getline, hcut]

/-- What was written line by line is read line by line. -/
theorem readFileLine_fileOf {lines : List Bytes} (h : ∀ line ∈ lines, newline ∉ line) :
    readFileLine (fileOf lines) = lines := by
  induction lines with
  | nil => exact readFileLine_eq_nil.2 rfl
  | cons line lines ih =>
      have htext : fileOf (line :: lines) = line ++ newline :: fileOf lines := by
        simp [fileOf]
      rw [htext, readFileLine, getline_append_cons (h line List.mem_cons_self)]
      simp only
      rw [ih (fun l hl => h l (List.mem_cons_of_mem line hl))]

/-! ## Fields of digits -/

theorem isDigit_of_mem_twoDigits {n : Nat} (hn : n < 100) {c : UInt8} (h : c ∈ twoDigits n) :
    isDigit c = true := by
  simp only [twoDigits, List.mem_cons, List.not_mem_nil, or_false] at h
  rcases h with rfl | rfl
  · exact isDigit_digit (by omega)
  · exact isDigit_digit (by omega)

theorem Clock.isDigit_transDate (clock : Clock) {c : UInt8} (h : c ∈ clock.transDate) :
    isDigit c = true := by
  have hmonth := clock.month_le
  have hday := clock.day_le
  simp only [Clock.transDate, List.mem_append] at h
  rcases h with hyear | hmon | hd
  · exact isDigit_of_mem_text hyear
  · exact isDigit_of_mem_twoDigits (by omega) hmon
  · exact isDigit_of_mem_twoDigits (by omega) hd

theorem Clock.isDigit_transTime (clock : Clock) {c : UInt8} (h : c ∈ clock.transTime) :
    isDigit c = true := by
  have hhour := clock.hour_lt
  have hminute := clock.minute_lt
  have hsecond := clock.second_le
  simp only [Clock.transTime, List.mem_append] at h
  rcases h with hh | hm | hs
  · exact isDigit_of_mem_twoDigits (by omega) hh
  · exact isDigit_of_mem_twoDigits (by omega) hm
  · exact isDigit_of_mem_twoDigits (by omega) hs

/-- The fields of a row. -/
def Vars.fields (v : Vars) : List Bytes :=
  [v.transDate, v.transTime, v.refNbr, v.customerId]

theorem Clock.isDigit_row (clock : Clock) (i : Nat) {field : Bytes}
    (hfield : field ∈ (clock.row i).fields) {c : UInt8} (hc : c ∈ field) : isDigit c = true := by
  simp only [Vars.fields, List.mem_cons, List.not_mem_nil, or_false] at hfield
  rcases hfield with rfl | rfl | rfl | rfl
  · exact clock.isDigit_transDate hc
  · simp only [Clock.row] at hc
    split_ifs at hc
    · exact clock.isDigit_transTime hc
    · exact isDigit_of_mem_text hc
  · exact isDigit_of_mem_text hc
  · exact isDigit_of_mem_text hc

/-- No separator of lines, fields or keys is a digit. -/
theorem Clock.not_mem_row (clock : Clock) (i : Nat) {field : Bytes}
    (hfield : field ∈ (clock.row i).fields) {c : UInt8} (hc : isDigit c = false) : c ∉ field := by
  intro hmem
  rw [clock.isDigit_row i hfield hmem] at hc
  cases hc

theorem Vars.mem_line {v : Vars} {c : UInt8} (h : c ∈ v.line) :
    c = comma ∨ ∃ field ∈ v.fields, c ∈ field := by
  simp only [Vars.line, List.mem_append, List.mem_cons] at h
  simp only [Vars.fields, List.mem_cons, List.not_mem_nil, or_false, exists_eq_or_imp,
    exists_eq_left]
  tauto

theorem Clock.not_mem_line (clock : Clock) (i : Nat) {c : UInt8} (hc : isDigit c = false)
    (hne : c ≠ comma) : c ∉ (clock.row i).line := by
  intro hmem
  rcases Vars.mem_line hmem with rfl | ⟨field, hfield, hin⟩
  · exact hne rfl
  · exact clock.not_mem_row i hfield hc hin

/-- The fields of a line are those that it was made of, when the last one is not empty. -/
theorem Vars.split_line {v : Vars} (hcomma : ∀ field ∈ v.fields, comma ∉ field)
    (hlast : v.customerId ≠ []) : split v.line comma = v.fields := by
  have hdate : comma ∉ v.transDate := hcomma _ (by simp [Vars.fields])
  have htime : comma ∉ v.transTime := hcomma _ (by simp [Vars.fields])
  have hnbr : comma ∉ v.refNbr := hcomma _ (by simp [Vars.fields])
  have hcustomer : comma ∉ v.customerId := hcomma _ (by simp [Vars.fields])
  rw [split, Tokens.tokens_eq_splitOn, Vars.line, Tokens.dropLastSep_append_cons _ _ (by simp),
    Tokens.dropLastSep_append_cons _ _ (by simp), Tokens.dropLastSep_append_cons _ _ hlast,
    Tokens.dropLastSep_of_not_mem hcustomer, List.splitOn_append_cons_self_of_not_mem hdate,
    List.splitOn_append_cons_self_of_not_mem htime, List.splitOn_append_cons_self_of_not_mem hnbr,
    List.splitOn_eq_singleton hcustomer]
  rfl

theorem Clock.split_row (clock : Clock) (i : Nat) :
    split (clock.row i).line comma = (clock.row i).fields :=
  Vars.split_line (fun _ hfield => clock.not_mem_row i hfield (by decide)) (text_ne_nil _)

/-- The fields of a row, joined again. -/
theorem Clock.intercalate_row (clock : Clock) (i : Nat) :
    [comma].intercalate (split (clock.row i).line comma) = (clock.row i).line := by
  rw [clock.split_row]
  simp [Vars.fields, Vars.line, List.intercalate_cons_cons]

theorem readFileLine_createCafeData (clock : Clock) :
    readFileLine (createCafeData clock) =
      (List.range clock.rows).map (fun i => (clock.row i).line) := by
  rw [createCafeData_eq]
  refine readFileLine_fileOf ?_
  intro line hline
  rcases List.mem_map.1 hline with ⟨i, -, rfl⟩
  exact clock.not_mem_line i (by decide) (by decide)

theorem Clock.mem_lines_iff (clock : Clock) {line : Bytes} :
    line ∈ readFileLine (createCafeData clock) ↔
      ∃ i, i < clock.rows ∧ (clock.row i).line = line := by
  rw [readFileLine_createCafeData]
  simp [List.mem_map, List.mem_range]

/-! ## When the file is complete -/

theorem digitValue_lt_eight_iff {k : Nat} (h : k < 10) : digitValue (digit k) < 8 ↔ k ≤ 7 := by
  rw [digitValue_digit h]
  omega

/-- The time is read as an octal number before ten o'clock. -/
theorem Clock.counts_iff (clock : Clock) :
    clock.Counts ↔ 10 ≤ clock.hour ∨
      (clock.hour ≤ 7 ∧ clock.minute % 10 ≤ 7 ∧ clock.second % 10 ≤ 7) := by
  have hhour := clock.hour_lt
  have hminute := clock.minute_lt
  have hsecond := clock.second_le
  have hhead : clock.transTime.head? = some (digit 0) ↔ clock.hour < 10 := by
    have hzero : digit (clock.hour / 10) = digit 0 ↔ clock.hour / 10 = 0 := by
      constructor
      · intro heq
        have hval := congrArg digitValue heq
        rwa [digitValue_digit (by omega), digitValue_digit (by decide)] at hval
      · intro heq
        rw [heq]
    simp only [Clock.transTime, twoDigits, List.cons_append, List.head?_cons, Option.some.injEq,
      hzero]
    omega
  -- of the six digits only the units can be above seven
  have hall : clock.transTime.all (fun c => digitValue c < 8) = true ↔
      clock.hour / 10 ≤ 7 ∧ clock.hour % 10 ≤ 7 ∧ clock.minute / 10 ≤ 7 ∧ clock.minute % 10 ≤ 7 ∧
        clock.second / 10 ≤ 7 ∧ clock.second % 10 ≤ 7 := by
    simp only [Clock.transTime, twoDigits, List.cons_append, List.nil_append, List.all_cons,
      List.all_nil, Bool.and_true, Bool.and_eq_true, decide_eq_true_eq]
    rw [digitValue_lt_eight_iff (by omega), digitValue_lt_eight_iff (by omega),
      digitValue_lt_eight_iff (by omega), digitValue_lt_eight_iff (by omega),
      digitValue_lt_eight_iff (by omega), digitValue_lt_eight_iff (by omega)]
  rw [Clock.Counts, shellConstant]
  by_cases hten : clock.hour < 10
  · rw [if_pos (hhead.2 hten)]
    by_cases hdigits : clock.transTime.all (fun c => digitValue c < 8) = true
    · rw [if_pos hdigits]
      have hd := hall.1 hdigits
      simp only [Option.isSome_some, true_iff]
      omega
    · rw [if_neg hdigits]
      rw [hall] at hdigits
      simp only [Option.isSome_none, Bool.false_eq_true, false_iff]
      omega
  · rw [if_neg (fun hz => hten (hhead.1 hz))]
    simp only [Option.isSome_some, true_iff]
    omega

/-- The script writes all of its 200001 lines exactly when it is started from ten o'clock on, or at a
time without the digits eight and nine in the places where they can stand; at any other time the
file has only the first line. -/
theorem create_cafe_data_complete_iff (clock : Clock) :
    ((readFileLine (createCafeData clock)).length = 200001 ↔
        10 ≤ clock.hour ∨
          (clock.hour ≤ 7 ∧ clock.minute % 10 ≤ 7 ∧ clock.second % 10 ≤ 7)) ∧
      ((readFileLine (createCafeData clock)).length ≠ 200001 →
        readFileLine (createCafeData clock) = [clock.vars.line]) := by
  rw [← clock.counts_iff, readFileLine_createCafeData, List.length_map, List.length_range,
    Clock.rows]
  by_cases h : clock.Counts
  · simp [h, cafeRounds]
  · simp [h, clock.row_zero]

/-- The time at which the `cafe.data` that lies beside the script was written. -/
def cafeClock : Clock where
  year := 2020
  month := 2
  day := 4
  hour := 22
  minute := 52
  second := 43
  year_lt := by decide
  month_le := by decide
  day_le := by decide
  hour_lt := by decide
  minute_lt := by decide
  second_le := by decide

-- the last line of that file: the time counts on as a number
example : (cafeClock.row 200000).line =
    "20200204,425243,1234767890,333555977999".toUTF8.data.toList := by
  decide +kernel

/-! ## Keys of the rows -/

/-- A row of the file. -/
def Clock.cafeRow (clock : Clock) (i : Nat) : CafeRow where
  fields := (clock.row i).fields
  four := Nat.le_refl 4
  clean _ field hget :=
    have hfield : field ∈ (clock.row i).fields := List.mem_of_getElem? hget
    ⟨clock.not_mem_row i hfield (by decide), clock.not_mem_row i hfield (by decide)⟩

theorem Clock.recordKey_row (clock : Clock) (i : Nat) :
    recordKey (split (clock.row i).line comma) = some (clock.cafeRow i).key := by
  rw [clock.split_row]
  exact (clock.cafeRow i).recordKey_eq

/-- The reference number is not the same in any two rows. -/
theorem Clock.key_injective (clock : Clock) :
    Function.Injective (fun i => (clock.cafeRow i).key) := by
  intro i j hkey
  have hnbr : text (firstRefNbr + i) = text (firstRefNbr + j) :=
    ((clock.cafeRow i).key_eq_iff (clock.cafeRow j)).1 hkey .refNbr
  have hsum := text_injective hnbr
  omega

theorem Clock.nodup_keys (clock : Clock) :
    ((readFileLine (createCafeData clock)).map
      (fun line => recordKey (split line comma))).Nodup := by
  have hkeys : (fun line => recordKey (split line comma)) ∘ (fun i => (clock.row i).line) =
      some ∘ fun i => (clock.cafeRow i).key := by
    funext i
    exact clock.recordKey_row i
  rw [readFileLine_createCafeData, List.map_map, hkeys]
  exact List.nodup_range.map ((Option.some_injective _).comp clock.key_injective)

theorem Clock.fourFieldLines (clock : Clock) : FourFieldLines (createCafeData clock) := by
  intro line hline
  rcases clock.mem_lines_iff.1 hline with ⟨i, -, rfl⟩
  rw [← four_le_length_split_iff, clock.split_row]
  exact le_rfl

/-- The line of a key that no other line has is the last one with it. -/
theorem lastLine_of_nodup {lines : List Bytes} {line key : Bytes}
    (hnodup : (lines.map (fun line => recordKey (split line comma))).Nodup) (hline : line ∈ lines)
    (hkey : recordKey (split line comma) = some key) : lastLine id lines key = some line := by
  have hsome : (lastLine id lines key).isSome = true := by
    rw [lastLine, List.find?_isSome]
    exact ⟨line, List.mem_reverse.2 hline, by simp [hkey]⟩
  rcases Option.isSome_iff_exists.1 hsome with ⟨line', hlast⟩
  rcases of_lastLine_eq_some hlast with ⟨hline', hkey'⟩
  rw [Option.map_id_fun, id] at hkey'
  rw [hlast, List.inj_on_of_nodup_map hnodup hline' hline (hkey'.trans hkey.symm)]

/-- Octal or not, the number that is read is not above the decimal one. -/
theorem shellConstant_le (ds : Bytes) : (shellConstant ds).getD 0 ≤ value ds := by
  have hfold : ∀ (ds : Bytes) (x y : Nat), x ≤ y →
      ds.foldl (fun x c => 8 * x + digitValue c) x ≤
        ds.foldl (fun x c => 10 * x + digitValue c) y := by
    intro ds
    induction ds with
    | nil => exact fun _ _ h => h
    | cons c ds ih =>
        intro x y h
        exact ih _ _ (show 8 * x + digitValue c ≤ 10 * y + digitValue c by omega)
  unfold shellConstant
  split_ifs
  · exact hfold ds 0 0 le_rfl
  · exact Nat.zero_le _
  · exact le_rfl

theorem Clock.rows_le (clock : Clock) : clock.rows ≤ 200001 := by
  unfold Clock.rows
  split_ifs
  · exact le_rfl
  · decide

/-- No line comes near the `2 ^ 16` bytes that a record can address. -/
theorem Clock.length_line_lt (clock : Clock) {i : Nat} (hi : i < clock.rows) :
    (clock.row i).line.length < 2 ^ 16 := by
  have hrows := clock.rows_le
  have hyear : (text clock.year).length ≤ 10 :=
    length_text_le (by decide) (Nat.lt_trans clock.year_lt (by decide))
  have hdate : (clock.row i).transDate.length ≤ 14 := by
    simp only [Clock.row, Clock.transDate, twoDigits, List.length_append, List.length_cons,
      List.length_nil]
    omega
  have htime : (clock.row i).transTime.length ≤ 7 := by
    simp only [Clock.row]
    split_ifs
    · simp [Clock.transTime, twoDigits]
    · have hvalue : value clock.transTime < 10 ^ 6 := value_lt (fun c hc => clock.isDigit_transTime hc)
      have hle := shellConstant_le clock.transTime
      exact length_text_le (by decide) (by omega)
  have hnbr : (clock.row i).refNbr.length ≤ 10 :=
    length_text_le (by decide) (by unfold firstRefNbr; omega)
  have hcustomer : (clock.row i).customerId.length ≤ 12 :=
    length_text_le (by decide) (by unfold firstCustomerId; omega)
  simp only [Vars.line, List.length_append, List.length_cons]
  omega

/-- The customer alone takes twelve bytes, and it stands in the key twice. -/
theorem Clock.length_key (clock : Clock) (i : Nat) :
    asBinNameMaxLen < (clock.cafeRow i).key.length := by
  have hcustomer : 11 < ((clock.cafeRow i).field .customerId).length :=
    lt_length_text (by unfold firstCustomerId; omega)
  simp only [CafeRow.key, List.length_append, List.length_cons, asBinNameMaxLen]
  omega

theorem Clock.cStr_key (clock : Clock) (i : Nat) :
    cStr (clock.cafeRow i).key = (clock.cafeRow i).key :=
  cStr_of_zero_not_mem (zero_not_mem_recordKey (clock.not_mem_line i (by decide) (by decide))
    (clock.recordKey_row i))

/-! ## The three stores -/

theorem Clock.shortNames_eq_nil (clock : Clock) :
    shortNames (readFileLine (createCafeData clock)) = [] := by
  rw [shortNames, List.filter_eq_nil_iff]
  intro name hname
  rcases List.mem_filterMap.1 hname with ⟨line, hline, hkey⟩
  rcases clock.mem_lines_iff.1 hline with ⟨i, -, rfl⟩
  rw [clock.recordKey_row, Option.map_some, Option.some.injEq, clock.cStr_key] at hkey
  rw [← hkey]
  simpa using clock.length_key i

/-- A program that puts a record for each line has the record of every row in the end, if it names the
keys of the rows by themselves. -/
theorem Clock.get_of_run (clock : Clock) {db : SeparateStore}
    {lambda : (Nat → UInt8) → db.State → Bytes → Except Halt (db.State × Bytes)}
    {name : Bytes → Bytes} {record : List Bytes → Bytes}
    {value : (Nat → UInt8) → List Bytes → Bytes}
    (h : PutsRecord db.toKeyValueStore lambda name record value)
    (hname : ∀ i, name (clock.cafeRow i).key = (clock.cafeRow i).key)
    {mems : Nat → Nat → UInt8} {start : db.State} {s : FileState db.State}
    (hs : run (fileStep lambda) { store := start, values := [] }
      (fileCalls mems (createCafeData clock)) = .ok s) :
    ∀ i, i < clock.rows →
      db.get s.store (clock.cafeRow i).key = some (record (split (clock.row i).line comma)) := by
  have hget := (holds_of_run h hs).2
  rw [map_line_fileCalls] at hget
  intro i hi
  have hlast : lastLine name (readFileLine (createCafeData clock)) (clock.cafeRow i).key =
      some (clock.row i).line := by
    rw [@lastLine_congr name id (readFileLine (createCafeData clock)) ?_]
    · exact lastLine_of_nodup clock.nodup_keys (clock.mem_lines_iff.2 ⟨i, hi, rfl⟩)
        (clock.recordKey_row i)
    · intro line hline
      rcases clock.mem_lines_iff.1 hline with ⟨j, -, rfl⟩
      rw [clock.recordKey_row, Option.map_some, hname, Option.map_some, id]
  rw [hget, hlast]
  rfl

/-- What the programs make of the file of the script, whenever it was started.  All rows have keys of
their own.  The RocksDB program ends with every row under its key, from which the line can be put
together again.  When the Redis program comes to its end the server has one byte for each row, the
same for all, and when the Aerospike program does, the database has no row at all. -/
theorem cafe_data_in_three_stores (clock : Clock) (db server : SeparateStore) (client : AsClient)
    (dbMems serverMems : Nat → Nat → UInt8) (d : db.State) (r : server.State) :
    ((readFileLine (createCafeData clock)).map
        (fun line => recordKey (split line comma))).Nodup ∧
      (∃ s, rocksdbFile db.toKeyValueStore dbMems d (createCafeData clock) = .ok s ∧
        ∀ line ∈ readFileLine (createCafeData clock), ∃ key out,
          recordKey (split line comma) = some key ∧ db.get s.store key = some out ∧
          ∀ mem, [comma].intercalate (decodeAll mem out) = line) ∧
      (∀ s, redisFile server.toKeyValueStore serverMems r (createCafeData clock) = .ok s →
        ∀ line ∈ readFileLine (createCafeData clock), ∃ key,
          recordKey (split line comma) = some key ∧ server.get s.store key = some [4]) ∧
      ∀ calls s, calls.map AsCall.line = readFileLine (createCafeData clock) →
        run (aerospikeLine client) AsState.start calls = .ok s →
        ∀ n, s.stored.lookup n = none := by
  refine ⟨clock.nodup_keys, ?_, ?_, ?_⟩
  · have hputs := rocksdbLine_puts db.toKeyValueStore
    rcases run_holds hputs d (fileCalls dbMems (createCafeData clock))
      clock.fourFieldLines.four_le with ⟨s, hs, -⟩
    have hget := clock.get_of_run hputs (fun _ => rfl) hs
    refine ⟨s, hs, ?_⟩
    intro line hline
    rcases clock.mem_lines_iff.1 hline with ⟨i, hi, rfl⟩
    refine ⟨_, _, clock.recordKey_row i, hget i hi, ?_⟩
    intro mem
    rw [decodeAll_line (clock.length_line_lt hi), clock.intercalate_row]
  · intro s hs line hline
    have hget := clock.get_of_run (redisLine_puts server.toKeyValueStore) clock.cStr_key hs
    rcases clock.mem_lines_iff.1 hline with ⟨i, hi, rfl⟩
    refine ⟨_, clock.recordKey_row i, ?_⟩
    -- four fields: the count is one byte with zeros behind it
    have hcount : cStr (encode (split (clock.row i).line comma)) = [4] := by
      rw [clock.split_row, cStr_encode (by simp [Vars.fields])]
      simp only [Vars.fields, List.length_cons, List.length_nil]
      decide
    exact (hget i hi).trans (congrArg some hcount)
  · intro calls s hlines hs n
    have hkept := holdsKept_of_run hs
    -- every key is too long for a bin name
    have hnot : n ∉ keptNames (calls.map AsCall.line) := by
      rw [hlines, keptNames, clock.shortNames_eq_nil]
      simp
    exact Option.not_isSome_iff_eq_none.1 ((hkept.stored_iff n).not.2 hnot)

end Records
end DBTest
