import Mathlib.Data.Nat.Digits.Lemmas

/-!
# Decimal — numbers as ASCII digits

`value` reads a text of digits from the left, as a scanner does; `text` writes a number, and
`pad` fills a text with zeros up to a width.  Reading back what was written gives the number
(`value_text`), and only the text of zero begins with a zero (`head?_text_ne`).
-/

namespace Decimal

def isDigit (c : UInt8) : Bool :=
  48 ≤ c && c ≤ 57

def digitValue (c : UInt8) : Nat :=
  c.toNat - 48

/-- The digit of a number below ten. -/
def digit (k : Nat) : UInt8 :=
  UInt8.ofNat (48 + k)

def value (ds : List UInt8) : Nat :=
  ds.foldl (fun x c => 10 * x + digitValue c) 0

def text (n : Nat) : List UInt8 :=
  if n = 0 then [digit 0] else (Nat.digits 10 n).reverse.map digit

def pad (w : Nat) (ds : List UInt8) : List UInt8 :=
  List.replicate (w - ds.length) (digit 0) ++ ds

theorem isDigit_iff (c : UInt8) : isDigit c = true ↔ 48 ≤ c.toNat ∧ c.toNat ≤ 57 := by
  simp [isDigit, UInt8.le_iff_toNat_le]

theorem toNat_digit {k : Nat} (h : k < 10) : (digit k).toNat = 48 + k :=
  UInt8.toNat_ofNat_of_lt' (show 48 + k < 256 by omega)

@[simp] theorem digitValue_digit {k : Nat} (h : k < 10) : digitValue (digit k) = k := by
  rw [digitValue, toNat_digit h]
  omega

theorem isDigit_digit {k : Nat} (h : k < 10) : isDigit (digit k) = true := by
  rw [isDigit_iff, toNat_digit h]
  omega

theorem digitValue_lt {c : UInt8} (h : isDigit c = true) : digitValue c < 10 := by
  have hc := (isDigit_iff c).1 h
  unfold digitValue
  omega

/-! ## Reading -/

theorem foldl_digits (ds : List UInt8) (x : Nat) :
    ds.foldl (fun x c => 10 * x + digitValue c) x = 10 ^ ds.length * x + value ds := by
  unfold value
  -- what was read before counts for as many digits as follow
  induction ds generalizing x with
  | nil => simp
  | cons c ds ih =>
      rw [List.foldl_cons, ih, List.foldl_cons, ih (10 * 0 + digitValue c), List.length_cons]
      ring

theorem value_append (xs ys : List UInt8) :
    value (xs ++ ys) = 10 ^ ys.length * value xs + value ys := by
  rw [value, List.foldl_append, foldl_digits]
  rfl

theorem value_lt {ds : List UInt8} (h : ∀ c ∈ ds, isDigit c = true) : value ds < 10 ^ ds.length := by
  induction ds with
  | nil => decide
  | cons c ds ih =>
      have hc := digitValue_lt (h c List.mem_cons_self)
      have hds := ih (fun d hd => h d (List.mem_cons_of_mem c hd))
      have hcons : value (c :: ds) = 10 ^ ds.length * digitValue c + value ds := by
        rw [value, List.foldl_cons, foldl_digits]
        simp
      calc
        value (c :: ds) = 10 ^ ds.length * digitValue c + value ds := hcons
        _ < 10 ^ ds.length * digitValue c + 10 ^ ds.length := by omega
        _ = 10 ^ ds.length * (digitValue c + 1) := by ring
        _ ≤ 10 ^ ds.length * 10 := Nat.mul_le_mul_left _ hc
        _ = 10 ^ (c :: ds).length := by rw [List.length_cons, pow_succ]

/-! ## Writing -/

theorem value_map_digit {ks : List Nat} (h : ∀ k ∈ ks, k < 10) :
    value (ks.reverse.map digit) = Nat.ofDigits 10 ks := by
  induction ks with
  | nil => rfl
  | cons k ks ih =>
      have hk := h k List.mem_cons_self
      have hks := ih (fun d hd => h d (List.mem_cons_of_mem k hd))
      have hone : value [digit k] = k := by
        simp [value, digitValue_digit hk]
      rw [List.reverse_cons, List.map_append, value_append, hks, List.map_cons, List.map_nil, hone,
        Nat.ofDigits_cons]
      simp
      ring

theorem value_text (n : Nat) : value (text n) = n := by
  unfold text
  split_ifs with h
  · subst h
    decide
  · rw [value_map_digit (fun k hk => Nat.digits_lt_base (by decide) hk), Nat.ofDigits_digits]

theorem text_injective : Function.Injective text :=
  Function.LeftInverse.injective value_text

theorem isDigit_of_mem_text {n : Nat} {c : UInt8} (h : c ∈ text n) : isDigit c = true := by
  unfold text at h
  split_ifs at h
  · rw [List.mem_singleton.1 h]
    decide
  · simp only [List.mem_map, List.mem_reverse] at h
    rcases h with ⟨k, hk, rfl⟩
    exact isDigit_digit (Nat.digits_lt_base (by decide) hk)

theorem text_ne_nil (n : Nat) : text n ≠ [] := by
  unfold text
  split_ifs with h
  · simp
  · simpa [Nat.digits_eq_nil_iff_eq_zero] using h

theorem length_text_le {n k : Nat} (hk : 0 < k) (h : n < 10 ^ k) : (text n).length ≤ k := by
  unfold text
  split_ifs
  · exact hk
  · rw [List.length_map, List.length_reverse]
    exact (Nat.digits_length_le_iff (by decide) n).2 h

theorem lt_length_text {n k : Nat} (h : 10 ^ k ≤ n) : k < (text n).length := by
  have hpos : n ≠ 0 := by
    rintro rfl
    exact absurd h (by simp)
  rw [text, if_neg hpos, List.length_map, List.length_reverse]
  exact (Nat.lt_digits_length_iff (by decide) n).2 h

theorem head?_text_ne {n : Nat} (h : n ≠ 0) : (text n).head? ≠ some (digit 0) := by
  have hne : Nat.digits 10 n ≠ [] := Nat.digits_ne_nil_iff_ne_zero.2 h
  have hlast := Nat.getLast_digit_ne_zero 10 h
  have hlt : (Nat.digits 10 n).getLast hne < 10 :=
    Nat.digits_lt_base (by decide) (List.getLast_mem hne)
  rw [text, if_neg h, List.head?_map, List.head?_reverse, List.getLast?_eq_some_getLast hne,
    Option.map_some]
  intro heq
  have hval := congrArg digitValue (Option.some.inj heq)
  rw [digitValue_digit hlt, digitValue_digit (by decide)] at hval
  exact hlast hval

end Decimal
