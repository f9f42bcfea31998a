import Mathlib.Data.List.TakeWhile
import DBTest.Library.Decimal
import DBTest.Date.Civil

/-!
# Program — a day of the year, read and printed (`date_hinnant.cpp`)

The program reads a text with `parse("%Y%j", sysDays)` and prints the day with `format("%F", ..)`.
`from_stream` keeps a year and a day of the year apart while it reads and joins them afterwards:
month and day come from the serial day `j - 1` days after New Year, the year stays the one that was
read.  A day the year does not have is therefore not refused: it is printed as a day of the same
year (`printed_date_spec`).

Only the commands `%Y` and `%j`, without width or modifier, are modelled; the text is a list of bytes
of an `istringstream`.
-/

namespace DBTest
namespace Date

open Decimal
open Gregorian

/-! ## The stream -/

structure IStream where
  rest : List UInt8
  eof : Bool := false
  fail : Bool := false
  deriving DecidableEq, Repr

namespace IStream

def good (is : IStream) : Bool :=
  !is.eof && !is.fail

def setFail (is : IStream) : IStream :=
  { is with fail := true }

/-- `peek`: its sentry fails on a stream that is not good, and the end of the text sets `eofbit`. -/
def peek (is : IStream) : Option UInt8 × IStream :=
  if is.good then
    match is.rest with
    | [] => (none, { is with eof := true })
    | c :: _ => (some c, is)
  else
    (none, is.setFail)

/-- `(void)is.get()` behind a `peek` that found a character. -/
def get (is : IStream) : IStream :=
  { is with rest := is.rest.tail }

end IStream

/-- The loop of `read_unsigned`; `left` is `M - count`, which is positive at the start. -/
def readUnsignedLoop : Nat → IStream → UInt32 → Nat → UInt32 × Nat × IStream
  | 0, is, x, count => (x, count, is)
  | left + 1, is, x, count =>
      match is.peek with
      | (none, is) => (x, count, is)
      | (some c, is) =>
          if isDigit c then
            readUnsignedLoop left is.get (10 * x + UInt32.ofNat (digitValue c)) (count + 1)
          else
            (x, count, is)

def readUnsigned (is : IStream) (m M : Nat) : UInt32 × IStream :=
  match readUnsignedLoop M is 0 0 with
  | (x, count, is) => if count < m then (x, is.setFail) else (x, is)

def plus : UInt8 := 43

def minus : UInt8 := 45

def readSigned (is : IStream) (m M : Nat) : Int × IStream :=
  match is.peek with
  | (none, is) => (0, if 0 < m then is.setFail else is)
  | (some c, is) =>
      if isDigit c || c == minus || c == plus then
        -- the sign is taken from the stream and does not count as a digit
        let start := if c == minus || c == plus then is.get else is
        match readUnsigned start (max m 1) M with
        | (x, is) =>
            if is.fail then
              (0, if 0 < m then is.setFail else is)
            else
              (if c == minus then -x.toInt32.toInt else x.toInt32.toInt, is)
      else
        (0, if 0 < m then is.setFail else is)

/-! ## `from_stream` -/

def notAYear : Int := -2 ^ 31

def notADoy : Int := -1

/-- `checked_set`: a field that is read twice must have the same value. -/
def checkedSet (value : Int) (x : Int) (notAValue : Int) (is : IStream) : Int × IStream :=
  if is.fail then
    (value, is)
  else if value = notAValue then
    (x, is)
  else if value ≠ x then
    (value, is.setFail)
  else
    (value, is)

inductive Command
  | year
  | dayOfYear
  deriving DecidableEq, Repr

/-- The local variables of `from_stream` that the two commands set. -/
structure ParseState where
  Y : Int := notAYear
  j : Int := notADoy
  is : IStream

def ParseState.command (s : ParseState) (c : Command) : ParseState :=
  match c with
  | .year =>
      match readSigned s.is 1 4 with
      | (x, is) =>
          let tY := if is.fail then notAYear else x
          match checkedSet s.Y tY notAYear is with
          | (Y, is) => { s with Y := Y, is := is }
  | .dayOfYear =>
      match readUnsigned s.is 1 3 with
      | (x, is) =>
          let tj := if is.fail then notADoy else x.toInt32.toInt
          match checkedSet s.j tj notADoy is with
          | (j, is) => { s with j := j, is := is }

/-- The loop over the format, which ends early on a stream that has failed. -/
def ParseState.commands (s : ParseState) : List Command → ParseState
  | [] => s
  | c :: cs => if s.is.fail then s else (s.command c).commands cs

/-- `fds.ymd`, from the year and the day of the year. -/
def resolve (Y j : Int) : YearMonthDay :=
  -- a year that the type cannot hold counts as none
  let Y := if Y < -32767 ∨ Y > 32767 then notAYear else Y
  if j ≠ notADoy ∧ Y ≠ notAYear then
    let newYear : YearMonthDay := { y := Int16.ofInt Y, m := 1, d := 1 }
    let trial := YearMonthDay.fromDays (newYear.toDays + (j - 1))
    -- only the month and the day are taken from the trial
    { y := Int16.ofInt Y, m := trial.m, d := trial.d }
  else
    { y := Int16.ofInt Y, m := 0, d := 0 }

/-- `from_stream` for a `sys_days`: the new value, unless the stream has failed. -/
def fromStream (is : IStream) (fmt : List Command) (tp : Int) : Int :=
  let s := ParseState.commands { is := is } fmt
  if s.is.fail then
    tp
  else
    let ymd := resolve s.Y s.j
    if ymd.ok then ymd.toDays else tp

/-! ## `to_stream` -/

/-- `os << n` with a fill of zeros: they stand before a sign. -/
def putInt (w : Nat) (n : Int) : List UInt8 :=
  if n < 0 then
    pad w (minus :: text n.natAbs)
  else
    pad w (text n.natAbs)

/-- The text of `%F`. -/
def isoText (ymd : YearMonthDay) : List UInt8 :=
  putInt 4 ymd.y.toInt ++ [minus] ++ putInt 2 ymd.m.toNat ++ [minus] ++ putInt 2 ymd.d.toNat

/-- `format("%F", ..)`; `none` where the failed stream throws. -/
def formatF (ymd : YearMonthDay) : Option (List UInt8) :=
  if ymd.ok then some (isoText ymd) else none

/-- The days `main` parses from the text. -/
def sysDays (input : List UInt8) : Int :=
  fromStream { rest := input } [.year, .dayOfYear] 0

/-- The text `main` prints. -/
def main (input : List UInt8) : Option (List UInt8) :=
  formatF (YearMonthDay.fromDays (sysDays input))

/-! ## What is read -/

/-- The digits that a read of at most `M` of them takes. -/
def digitRun (M : Nat) (t : List UInt8) : List UInt8 :=
  (t.takeWhile isDigit).take M

theorem digitRun_cons {M : Nat} {c : UInt8} {t : List UInt8} (h : isDigit c = true) :
    digitRun (M + 1) (c :: t) = c :: digitRun M t := by
  simp [digitRun, h]

theorem digitRun_eq_nil {M : Nat} {t : List UInt8} (h : ∀ c ∈ t.head?, isDigit c = false) :
    digitRun M t = [] := by
  cases t with
  | nil => simp [digitRun]
  | cons c t => simp [digitRun, h c rfl]

theorem isDigit_of_mem_digitRun {M : Nat} {t : List UInt8} {c : UInt8} (h : c ∈ digitRun M t) :
    isDigit c = true :=
  List.mem_takeWhile_imp (List.mem_of_mem_take h)

theorem length_digitRun_le (M : Nat) (t : List UInt8) : (digitRun M t).length ≤ M :=
  List.length_take_le _ _

/-- The loop reads the run and stands behind it; it has seen the end only where it looked for one
more digit. -/
theorem readUnsignedLoop_spec (M : Nat) (t : List UInt8) (x : UInt32) (count : Nat) :
    ∃ x' : UInt32, readUnsignedLoop M { rest := t } x count =
        (x', count + (digitRun M t).length,
          { rest := t.drop (digitRun M t).length,
            eof := decide ((digitRun M t).length < M ∧ t.drop (digitRun M t).length = []) }) ∧
      x'.toNat = (10 ^ (digitRun M t).length * x.toNat + value (digitRun M t)) % 2 ^ 32 := by
  -- induction on the digits that may still be read
  induction M generalizing t x count with
  | zero =>
      refine ⟨x, ?_, ?_⟩
      · simp [readUnsignedLoop, digitRun]
      · simp [digitRun, value]
  | succ M ih =>
      cases t with
      | nil =>
          refine ⟨x, ?_, ?_⟩
          · simp [readUnsignedLoop, digitRun, IStream.peek, IStream.good]
          · simp [digitRun, value]
      | cons c t =>
          cases hc : isDigit c with
          | false =>
              have hrun : digitRun (M + 1) (c :: t) = [] :=
                digitRun_eq_nil (fun d hd => by cases hd; exact hc)
              refine ⟨x, ?_, ?_⟩
              · simp [readUnsignedLoop, hrun, IStream.peek, IStream.good, hc]
              · simp [hrun, value]
          | true =>
              rcases ih t (10 * x + UInt32.ofNat (digitValue c)) (count + 1) with ⟨x', hx', hval⟩
              refine ⟨x', ?_, ?_⟩
              · rw [readUnsignedLoop, digitRun_cons hc]
                have hcount : count + 1 + (digitRun M t).length = count + ((digitRun M t).length + 1) := by
                  omega
                simp [IStream.peek, IStream.good, IStream.get, hc, hx', hcount]
              · have hdigit := digitValue_lt hc
                have hcons : value (c :: digitRun M t) =
                    10 ^ (digitRun M t).length * digitValue c + value (digitRun M t) := by
                  rw [value, List.foldl_cons, foldl_digits]
                  simp
                have hstep : (10 * x + UInt32.ofNat (digitValue c)).toNat =
                    (10 * x.toNat + digitValue c) % 2 ^ 32 := by
                  simp [UInt32.toNat_add, UInt32.toNat_mul]
                rw [hval, hstep, digitRun_cons hc, hcons, List.length_cons]
                -- the accumulator may have wrapped before; the congruence goes through
                have hmod := (((Nat.mod_modEq (10 * x.toNat + digitValue c) (2 ^ 32)).mul_left
                  (10 ^ (digitRun M t).length)).add_right (value (digitRun M t)))
                rw [hmod]
                ring_nf

theorem digitRun_append_drop (M : Nat) (t : List UInt8) :
    digitRun M t ++ t.drop (digitRun M t).length = t := by
  have hprefix : digitRun M t <+: t := (List.take_prefix M _).trans (List.takeWhile_prefix _)
  exact List.prefix_iff_eq_append.1 hprefix

/-- A run that is shorter than it may be stops before a character that is no digit. -/
theorem digitRun_stop {M : Nat} {t : List UInt8} (h : (digitRun M t).length < M) :
    ∀ c ∈ (t.drop (digitRun M t).length).head?, isDigit c = false := by
  induction M generalizing t with
  | zero => cases h
  | succ M ih =>
      cases t with
      | nil => simp
      | cons c t =>
          cases hc : isDigit c with
          | true =>
              rw [digitRun_cons hc] at h ⊢
              exact ih (Nat.lt_of_succ_lt_succ h)
          | false =>
              have hrun : digitRun (M + 1) (c :: t) = [] :=
                digitRun_eq_nil (fun d hd => by cases hd; exact hc)
              rw [hrun]
              intro d hd
              cases hd
              exact hc

/-- A text of digits is the run when it is as long as it may be or a character follows that is no
digit. -/
theorem digitRun_append {M : Nat} {ds rest : List UInt8} (hds : ∀ c ∈ ds, isDigit c = true)
    (hle : ds.length ≤ M) (hstop : ds.length = M ∨ ∀ c ∈ rest.head?, isDigit c = false) :
    digitRun M (ds ++ rest) = ds := by
  induction ds generalizing M with
  | nil =>
      rcases hstop with hM | hstop
      · have hzero : M = 0 := hM.symm
        simp [digitRun, hzero]
      · exact digitRun_eq_nil hstop
  | cons c ds ih =>
      cases M with
      | zero => simp at hle
      | succ M =>
          have htail := ih (fun d hd => hds d (List.mem_cons_of_mem c hd)) (Nat.le_of_succ_le_succ hle)
            (hstop.imp_left (fun h => Nat.succ.inj h))
          rw [List.cons_append, digitRun_cons (hds c List.mem_cons_self), htail]

theorem readUnsigned_spec {M : Nat} (hM : M ≤ 9) (t : List UInt8) :
    ∃ x : UInt32, readUnsigned { rest := t } 1 M =
        (x, { rest := t.drop (digitRun M t).length,
              eof := decide ((digitRun M t).length < M ∧ t.drop (digitRun M t).length = []),
              fail := decide (digitRun M t = []) }) ∧
      x.toInt32.toInt = value (digitRun M t) := by
  rcases readUnsignedLoop_spec M t 0 0 with ⟨x, hloop, hx⟩
  refine ⟨x, ?_, ?_⟩
  · rw [readUnsigned, hloop]
    cases hrun : digitRun M t with
    | nil => simp [IStream.setFail]
    | cons c ds => simp
  · -- nine digits fit into an `int`
    have hlt := value_lt (fun c (hc : c ∈ digitRun M t) => isDigit_of_mem_digitRun hc)
    have hle : 10 ^ (digitRun M t).length ≤ 10 ^ 9 :=
      Nat.pow_le_pow_right (by decide) ((length_digitRun_le M t).trans hM)
    have hnat : x.toNat = value (digitRun M t) := by
      rw [hx, UInt32.toNat_zero, Nat.mul_zero, Nat.zero_add]
      exact Nat.mod_eq_of_lt (by omega)
    have hint : x.toInt32.toInt = x.toNat := by
      refine BitVec.toInt_eq_toNat_of_lt ?_
      change 2 * x.toNat < 2 ^ 32
      omega
    rw [hint, hnat]

/-- A stream that has seen the end of its text gives no further number. -/
theorem readUnsigned_eof {M : Nat} (t : List UInt8) (hM : 0 < M) :
    (readUnsigned { rest := t, eof := true } 1 M).2.fail = true := by
  cases M with
  | zero => cases hM
  | succ M => simp [readUnsigned, readUnsignedLoop, IStream.peek, IStream.good, IStream.setFail]

/-- The sign of a text, and what is left behind it. -/
def splitSign (t : List UInt8) : Bool × List UInt8 :=
  match t with
  | [] => (false, [])
  | c :: t => if c == minus then (true, t) else if c == plus then (false, t) else (false, c :: t)

def signed (neg : Bool) (n : Nat) : Int :=
  if neg then -(n : Int) else n

theorem readSigned_spec {M : Nat} (hpos : 0 < M) (hM : M ≤ 9) (input : List UInt8) :
    ∃ x : Int, readSigned { rest := input } 1 M =
        (x, { rest := (splitSign input).2.drop (digitRun M (splitSign input).2).length,
              eof := decide ((digitRun M (splitSign input).2).length < M ∧
                (splitSign input).2.drop (digitRun M (splitSign input).2).length = []),
              fail := decide (digitRun M (splitSign input).2 = []) }) ∧
      (digitRun M (splitSign input).2 ≠ [] →
        x = signed (splitSign input).1 (value (digitRun M (splitSign input).2))) := by
  cases input with
  | nil =>
      refine ⟨0, ?_, ?_⟩
      · simp [readSigned, IStream.peek, IStream.good, IStream.setFail, splitSign, digitRun, hpos]
      · simp [splitSign, digitRun]
  | cons c t =>
      have hpeek : (IStream.mk (c :: t) false false).peek = (some c, ⟨c :: t, false, false⟩) := by
        simp [IStream.peek, IStream.good]
      by_cases hsign : c == minus || c == plus
      · -- the sign is taken first
        rcases readUnsigned_spec hM t with ⟨x, hread, hx⟩
        have hsplit : splitSign (c :: t) = (c == minus, t) := by
          by_cases hminus : c == minus
          · simp [splitSign, hminus]
          · simp_all [splitSign]
        rw [hsplit]
        refine ⟨if digitRun M t = [] then 0 else signed (c == minus) (value (digitRun M t)), ?_, ?_⟩
        · rw [readSigned, hpeek]
          simp only [hsign, Bool.or_assoc, Bool.or_true, if_true, IStream.get, List.tail_cons]
          rw [show max 1 1 = 1 from rfl, hread]
          cases hrun : digitRun M t with
          | nil => simp [IStream.setFail]
          | cons d ds =>
              rw [hrun] at hx
              cases hminus : (c == minus) with
              | true => simp [signed, hx]
              | false => simp [signed, hx]
        · intro hne
          rw [if_neg hne]
      · have hplain : (c == minus) = false ∧ (c == plus) = false := by
          simpa using hsign
        have hsplit : splitSign (c :: t) = (false, c :: t) := by
          simp [splitSign, hplain.1, hplain.2]
        rw [hsplit]
        cases hc : isDigit c with
        | true =>
            rcases readUnsigned_spec hM (c :: t) with ⟨x, hread, hx⟩
            refine ⟨if digitRun M (c :: t) = [] then 0 else value (digitRun M (c :: t)), ?_, ?_⟩
            · rw [readSigned, hpeek]
              simp only [hc, hplain.1, hplain.2, Bool.true_or, Bool.or_self, if_true]
              rw [show max 1 1 = 1 from rfl]
              simp only [Bool.false_eq_true, if_false, hread]
              cases hrun : digitRun M (c :: t) with
              | nil => simp [IStream.setFail]
              | cons d ds =>
                  rw [hrun] at hx
                  simp [hx]
            · intro hne
              rw [if_neg hne]
              rfl
        | false =>
            have hrun : digitRun M (c :: t) = [] :=
              digitRun_eq_nil (fun d hd => by cases hd; exact hc)
            refine ⟨0, ?_, ?_⟩
            · rw [readSigned, hpeek]
              simp [hc, hplain.1, hplain.2, hrun, IStream.setFail]
            · intro hne
              exact absurd hrun hne

/-- The text starts with a year of four digits, maybe behind a sign, and a day of at most three, which
ends there or where a character follows that is no digit. -/
def Reads (input : List UInt8) (Y : Int) (j : Nat) : Prop :=
  ∃ sign ys js rest : List UInt8, input = sign ++ (ys ++ (js ++ rest)) ∧
    (sign = [] ∨ sign = [plus] ∨ sign = [minus]) ∧
    (ys.length = 4 ∧ ∀ c ∈ ys, isDigit c = true) ∧
    (js ≠ [] ∧ js.length ≤ 3 ∧ ∀ c ∈ js, isDigit c = true) ∧
    (js.length = 3 ∨ ∀ c ∈ rest.head?, isDigit c = false) ∧
    Y = signed (sign == [minus]) (value ys) ∧ j = value js

theorem splitSign_append {sign t : List UInt8} (hsign : sign = [] ∨ sign = [plus] ∨ sign = [minus])
    (ht : ∃ c ∈ t.head?, isDigit c = true) : splitSign (sign ++ t) = (sign == [minus], t) := by
  rcases hsign with rfl | rfl | rfl
  · cases t with
    | nil => simp at ht
    | cons c t =>
        rcases ht with ⟨d, hd, hdigit⟩
        cases hd
        have hminus : (c == minus) = false := by
          rw [beq_eq_false_iff_ne]
          rintro rfl
          exact absurd hdigit (by decide)
        have hplus : (c == plus) = false := by
          rw [beq_eq_false_iff_ne]
          rintro rfl
          exact absurd hdigit (by decide)
        simp [splitSign, hminus, hplus]
  · rfl
  · rfl

theorem exists_sign (input : List UInt8) :
    ∃ sign : List UInt8, (sign = [] ∨ sign = [plus] ∨ sign = [minus]) ∧
      input = sign ++ (splitSign input).2 ∧ (splitSign input).1 = (sign == [minus]) := by
  cases input with
  | nil => exact ⟨[], .inl rfl, rfl, rfl⟩
  | cons c t =>
      by_cases hminus : c = minus
      · subst hminus
        exact ⟨[minus], .inr (.inr rfl), rfl, rfl⟩
      · by_cases hplus : c = plus
        · subst hplus
          exact ⟨[plus], .inr (.inl rfl), rfl, rfl⟩
        · have hsplit : splitSign (c :: t) = (false, c :: t) := by
            simp [splitSign, hminus, hplus]
          rw [hsplit]
          exact ⟨[], .inl rfl, rfl, rfl⟩

/-- The state of `from_stream` behind the format of `main`. -/
def parsed (input : List UInt8) : ParseState :=
  ParseState.commands { is := { rest := input } } [.year, .dayOfYear]

theorem parsed_of_no_year {input : List UInt8} (h : digitRun 4 (splitSign input).2 = []) :
    (parsed input).is.fail = true := by
  rcases readSigned_spec (M := 4) (by decide) (by decide) input with ⟨x, hread, -⟩
  have hcommand : (ParseState.command { is := { rest := input } } .year).is.fail = true := by
    simp [ParseState.command, hread, h, checkedSet]
  simp [parsed, ParseState.commands, hcommand]

/-- The state behind the year. -/
theorem command_year {input : List UInt8} (h : digitRun 4 (splitSign input).2 ≠ []) :
    ParseState.command { is := { rest := input } } .year =
      { Y := signed (splitSign input).1 (value (digitRun 4 (splitSign input).2)),
        is := { rest := (splitSign input).2.drop (digitRun 4 (splitSign input).2).length,
                eof := decide ((digitRun 4 (splitSign input).2).length < 4 ∧
                  (splitSign input).2.drop (digitRun 4 (splitSign input).2).length = []) } } := by
  rcases readSigned_spec (M := 4) (by decide) (by decide) input with ⟨x, hread, hx⟩
  simp [ParseState.command, hread, h, checkedSet, hx h]

theorem parsed_of_short_year {input : List UInt8}
    (hne : digitRun 4 (splitSign input).2 ≠ []) (h : (digitRun 4 (splitSign input).2).length < 4) :
    (parsed input).is.fail = true := by
  have hstop := digitRun_stop h
  simp only [parsed, ParseState.commands, command_year hne]
  generalize (splitSign input).2.drop (digitRun 4 (splitSign input).2).length = rest at hstop
  -- a year of fewer than four digits stops at the end of the text or at a character that is no digit
  cases rest with
  | nil =>
      have heof := readUnsigned_eof (M := 3) [] (by decide)
      simp [ParseState.command, checkedSet, h, heof]
  | cons c rest =>
      rcases readUnsigned_spec (M := 3) (by decide) (c :: rest) with ⟨x, hread, -⟩
      have hrun := digitRun_eq_nil (M := 3) hstop
      simp [ParseState.command, checkedSet, hread, hrun]

theorem parsed_of_year {input : List UInt8} (h : (digitRun 4 (splitSign input).2).length = 4) :
    (parsed input).is.fail = decide (digitRun 3 ((splitSign input).2.drop 4) = []) ∧
      (parsed input).Y = signed (splitSign input).1 (value (digitRun 4 (splitSign input).2)) ∧
      (digitRun 3 ((splitSign input).2.drop 4) ≠ [] →
        (parsed input).j = value (digitRun 3 ((splitSign input).2.drop 4))) := by
  have hne : digitRun 4 (splitSign input).2 ≠ [] := by
    intro hnil
    rw [hnil] at h
    cases h
  rcases readUnsigned_spec (M := 3) (by decide) ((splitSign input).2.drop 4) with ⟨x, hread, hx⟩
  simp only [parsed, ParseState.commands, command_year hne, h]
  by_cases hrun : digitRun 3 ((splitSign input).2.drop 4) = []
  · simp [ParseState.command, checkedSet, hread, hrun]
  · simp [ParseState.command, checkedSet, hread, hrun, hx]

theorem reads_of_parsed {input : List UInt8} (hfail : (parsed input).is.fail = false) :
    ∃ j : Nat, (parsed input).j = j ∧ Reads input (parsed input).Y j := by
  have hne : digitRun 4 (splitSign input).2 ≠ [] := by
    intro hnil
    rw [parsed_of_no_year hnil] at hfail
    cases hfail
  have hfour : (digitRun 4 (splitSign input).2).length = 4 := by
    rcases Nat.lt_or_eq_of_le (length_digitRun_le 4 (splitSign input).2) with hlt | heq
    · rw [parsed_of_short_year hne hlt] at hfail
      cases hfail
    · exact heq
  rcases parsed_of_year hfour with ⟨hfail', hY, hj⟩
  have hrun : digitRun 3 ((splitSign input).2.drop 4) ≠ [] := by
    rw [hfail'] at hfail
    exact of_decide_eq_false hfail
  rcases exists_sign input with ⟨sign, hsign, hinput, hneg⟩
  have hys := digitRun_append_drop 4 (splitSign input).2
  have hjs := digitRun_append_drop 3 ((splitSign input).2.drop 4)
  rw [hfour] at hys
  refine ⟨value (digitRun 3 ((splitSign input).2.drop 4)), hj hrun, sign,
    digitRun 4 (splitSign input).2, digitRun 3 ((splitSign input).2.drop 4),
    ((splitSign input).2.drop 4).drop (digitRun 3 ((splitSign input).2.drop 4)).length, ?_, hsign,
    ⟨hfour, fun c hc => isDigit_of_mem_digitRun hc⟩,
    ⟨hrun, length_digitRun_le 3 _, fun c hc => isDigit_of_mem_digitRun hc⟩, ?_, ?_, rfl⟩
  · rw [hjs, hys]
    exact hinput
  · rcases Nat.lt_or_eq_of_le (length_digitRun_le 3 ((splitSign input).2.drop 4)) with hlt | heq
    · exact .inr (digitRun_stop hlt)
    · exact .inl heq
  · rw [hY, hneg]

theorem parsed_of_reads {input : List UInt8} {Y : Int} {j : Nat} (h : Reads input Y j) :
    (parsed input).is.fail = false ∧ (parsed input).Y = Y ∧ (parsed input).j = j := by
  rcases h with
    ⟨sign, ys, js, rest, rfl, hsign, ⟨hfour, hys⟩, ⟨hne, hle, hjs⟩, hstop, rfl, rfl⟩
  have hhead : ∃ c ∈ (ys ++ (js ++ rest)).head?, isDigit c = true := by
    cases ys with
    | nil => cases hfour
    | cons c ys => exact ⟨c, rfl, hys c List.mem_cons_self⟩
  have hrun : digitRun 4 (ys ++ (js ++ rest)) = ys :=
    digitRun_append hys (Nat.le_of_eq hfour) (.inl hfour)
  have hdrop : (ys ++ (js ++ rest)).drop 4 = js ++ rest := by
    rw [← hfour, List.drop_left]
  have hrun' : digitRun 3 (js ++ rest) = js := digitRun_append hjs hle hstop
  have hparsed := @parsed_of_year (sign ++ (ys ++ (js ++ rest)))
  rw [splitSign_append hsign hhead] at hparsed
  simp only [hrun, hdrop, hrun'] at hparsed
  rcases hparsed hfour with ⟨hfail, hY, hj⟩
  exact ⟨by rw [hfail]; exact decide_eq_false hne, hY, hj hne⟩

theorem Reads.bounds {input : List UInt8} {Y : Int} {j : Nat} (h : Reads input Y j) :
    -9999 ≤ Y ∧ Y ≤ 9999 ∧ j ≤ 999 := by
  rcases h with ⟨sign, ys, js, rest, -, -, ⟨hfour, hys⟩, ⟨-, hle, hjs⟩, -, rfl, rfl⟩
  have hY := value_lt hys
  have hj := value_lt hjs
  have hpow : 10 ^ js.length ≤ 10 ^ 3 := Nat.pow_le_pow_right (by decide) hle
  rw [hfour] at hY
  unfold signed
  split_ifs <;> omega

/-! ## What is printed -/

theorem toInt_ofInt {Y : Int} (h : -9999 ≤ Y ∧ Y ≤ 9999) : (Int16.ofInt Y).toInt = Y :=
  Int16.toInt_ofInt_of_le (by omega) (by omega)

/-- The date that `resolve` looks up: the one with the number of the day, in whichever year. -/
theorem date_resolve {Y : Int} {j : Nat} (hY : -9999 ≤ Y ∧ Y ≤ 9999) (hj : j ≤ 999)
    {e : Gregorian.Date} (he : e.Valid) (hnumber : dayNumber e = daysBeforeYear Y + j) :
    (resolve Y j).date = { e with year := Y } := by
  have hyear := toInt_ofInt hY
  have hnewYear : (YearMonthDay.mk (Int16.ofInt Y) 1 1).toDays = daysBeforeYear Y + 1 - 719163 := by
    rw [YearMonthDay.toDays_eq rfl]
    simp [YearMonthDay.date, dayNumber, daysBeforeMonth, hyear]
  have hrange : YearMonthDay.InRange (daysBeforeYear Y + 1 - 719163 + (j - 1)) := by
    unfold YearMonthDay.InRange daysBeforeYear
    omega
  rcases YearMonthDay.fromDays_spec hrange with ⟨hok, htrial⟩
  -- both dates are valid and have the same number
  have heq : (YearMonthDay.fromDays (daysBeforeYear Y + 1 - 719163 + (j - 1))).date = e := by
    refine dayNumber_inj ((YearMonthDay.ok_iff _).1 hok).2 he ?_
    rw [htrial, hnumber]
    omega
  have hsame : ¬ (Y < -32767 ∨ Y > 32767) := by omega
  have hset : (j : Int) ≠ notADoy ∧ Y ≠ notAYear := by
    unfold notADoy notAYear
    omega
  rw [resolve, if_neg hsame, if_pos hset]
  simp only [hnewYear]
  rw [← heq]
  simp only [YearMonthDay.date, hyear]

/-- 1970-01-01, which `sysDays` holds before the parse. -/
def epoch : YearMonthDay :=
  { y := 1970, m := 1, d := 1 }

theorem fromDays_zero : YearMonthDay.fromDays 0 = epoch := by
  decide

theorem sysDays_of_fail {input : List UInt8} (h : ¬ ∃ Y j, Reads input Y j) : sysDays input = 0 := by
  have hfail : (parsed input).is.fail = true := by
    cases hf : (parsed input).is.fail with
    | true => rfl
    | false =>
        rcases reads_of_parsed hf with ⟨j, -, hreads⟩
        exact absurd ⟨_, j, hreads⟩ h
  change (if (parsed input).is.fail then _ else _) = _
  rw [hfail]
  rfl

theorem sysDays_of_reads {input : List UInt8} {Y : Int} {j : Nat} (h : Reads input Y j) :
    sysDays input = if (resolve Y j).ok then (resolve Y j).toDays else 0 := by
  rcases parsed_of_reads h with ⟨hfail, hY, hj⟩
  change (if (parsed input).is.fail then _ else
    (if (resolve (parsed input).Y (parsed input).j).ok then
      (resolve (parsed input).Y (parsed input).j).toDays else 0)) = _
  rw [hfail, hY, hj]
  rfl

/-- A date that is in the year `Y` has the number of one of its days. -/
theorem year_eq_iff {Y : Int} {j : Nat} {e : Gregorian.Date} (he : e.Valid)
    (hnumber : dayNumber e = daysBeforeYear Y + j) :
    e.year = Y ↔ 1 ≤ j ∧ j ≤ yearLength Y := by
  have hsucc := daysBeforeYear_succ Y
  constructor
  · rintro rfl
    have hbounds := dayNumber_bounds he
    omega
  · intro h
    exact year_eq_of_dayNumber he (by omega) (by omega)

theorem ok_resolve_iff {Y : Int} {j : Nat} (hY : -9999 ≤ Y ∧ Y ≤ 9999) (hj : j ≤ 999)
    {e : Gregorian.Date} (he : e.Valid) (hnumber : dayNumber e = daysBeforeYear Y + j) :
    (resolve Y j).ok = true ↔ Gregorian.Date.Valid { e with year := Y } := by
  have hdate := date_resolve hY hj he hnumber
  -- `year::ok` refuses one value, which four digits cannot give
  have hmin : (resolve Y j).y ≠ Int16.minValue := by
    intro h
    have hyear : (resolve Y j).y.toInt = Y := congrArg Gregorian.Date.year hdate
    rw [h, Int16.toInt_minValue] at hyear
    omega
  rw [YearMonthDay.ok_iff, hdate]
  exact ⟨fun h => h.2, fun h => ⟨hmin, h⟩⟩

/-- The date that is printed. -/
def printed (input : List UInt8) : YearMonthDay :=
  YearMonthDay.fromDays (sysDays input)

theorem printed_of_reads {input : List UInt8} {Y : Int} {j : Nat} (h : Reads input Y j) :
    printed input = if (resolve Y j).ok then resolve Y j else epoch := by
  rw [printed, sysDays_of_reads h]
  split_ifs with hok
  · exact (YearMonthDay.fromDays_toDays hok).2
  · exact fromDays_zero

theorem ok_printed (input : List UInt8) : (printed input).ok = true := by
  by_cases hreads : ∃ Y j, Reads input Y j
  · rcases hreads with ⟨Y, j, hreads⟩
    rw [printed_of_reads hreads]
    split_ifs with hok
    · exact hok
    · decide
  · rw [printed, sysDays_of_fail hreads]
    decide

/-- `main` never throws and prints a date of the calendar.  When the text does not start with a year
and a day, it is the first of January 1970.  Otherwise let `e` be the `j`-th day, counted from New
Year of `Y` and on into the years around it: the month and the day of `e` are printed with the year
`Y`, or again the first of January 1970 when `Y` has no such day.  So it is the day that was meant
exactly when the year has that many days. -/
theorem printed_date_spec (input : List UInt8) :
    ∃ ymd : YearMonthDay, main input = some (isoText ymd) ∧ ymd.ok = true ∧
      ((¬ ∃ Y j, Reads input Y j) → ymd = epoch) ∧
      ∀ (Y : Int) (j : Nat) (e : Gregorian.Date), Reads input Y j → e.Valid →
        dayNumber e = daysBeforeYear Y + j →
        (Gregorian.Date.Valid { e with year := Y } → ymd.date = { e with year := Y }) ∧
        (¬ Gregorian.Date.Valid { e with year := Y } → ymd = epoch) ∧
        (ymd.date = e ↔ 1 ≤ j ∧ j ≤ yearLength Y) := by
  refine ⟨printed input, if_pos (ok_printed input), ok_printed input, ?_, ?_⟩
  · intro hreads
    rw [printed, sysDays_of_fail hreads, fromDays_zero]
  · intro Y j e hreads he hnumber
    rcases hreads.bounds with ⟨hlo, hhi, hj⟩
    have hdate := date_resolve ⟨hlo, hhi⟩ hj he hnumber
    have hok := ok_resolve_iff ⟨hlo, hhi⟩ hj he hnumber
    have hyear := year_eq_iff he hnumber
    rw [printed_of_reads hreads]
    by_cases hvalid : Gregorian.Date.Valid { e with year := Y }
    · rw [if_pos (hok.2 hvalid), hdate, ← hyear]
      refine ⟨fun _ => rfl, fun h => absurd hvalid h, ?_⟩
      constructor
      · intro h
        exact (congrArg Gregorian.Date.year h).symm
      · rintro rfl
        rfl
    · rw [if_neg (fun h => hvalid (hok.1 h)), ← hyear]
      refine ⟨fun h => absurd h hvalid, fun _ => rfl, ?_⟩
      constructor
      · -- the first of January is a day of every year
        rintro rfl
        exact absurd (Gregorian.Date.Valid.newYear Y) hvalid
      · rintro rfl
        exact absurd he hvalid

/-- The day 366 of a year with 365 days. -/
theorem printed_date_spec_2023366 :
    ∃ ymd : YearMonthDay, main [50, 48, 50, 51, 51, 54, 54] = some (isoText ymd) ∧
      ymd.date = { year := 2023, month := 1, day := 1 } := by
  rcases printed_date_spec [50, 48, 50, 51, 51, 54, 54] with ⟨ymd, hmain, -, -, hspec⟩
  have hreads : Reads [50, 48, 50, 51, 51, 54, 54] 2023 366 :=
    ⟨[], [50, 48, 50, 51], [51, 54, 54], [], rfl, .inl rfl, ⟨rfl, List.all_eq_true.1 rfl⟩,
      ⟨List.cons_ne_nil _ _, le_rfl, List.all_eq_true.1 rfl⟩, .inl rfl, rfl, rfl⟩
  have hnext : Gregorian.Date.Valid { year := 2024, month := 1, day := 1 } :=
    Gregorian.Date.Valid.newYear 2024
  have hday := hspec 2023 366 { year := 2024, month := 1, day := 1 } hreads hnext (by decide)
  exact ⟨ymd, hmain, hday.1 (Gregorian.Date.Valid.newYear 2023)⟩

end Date
end DBTest
