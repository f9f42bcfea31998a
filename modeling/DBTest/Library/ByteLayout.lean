import Mathlib.Data.List.GetD
import Mathlib.Algebra.Order.Group.Nat
import Mathlib.Data.List.Nodup
import Mathlib.Data.List.Perm.Subperm

/-!
# ByteLayout — typed cells over a memory of bytes

Little-endian numbers, and record types that occupy a fixed number of bytes.  A memory of records is
a function `Nat → α` from cell indices; `Layout` carries the encoding of one record with the proof
that it can be decoded again.  An array that begins somewhere in a memory of bytes is read by
`cellAt` and stored to by `writeCells`.  The operations that do not respect record boundaries (`memmove` with
a byte count, reading a byte string over existing cells) are defined on the bytes and read back as
cells, so a record cut in the middle is represented as what it is: a mixture of two records.
-/

namespace ByteLayout

/-! ## Little-endian numbers -/

/-- The `w` low bytes of `n`, least significant first. -/
def leBytes : Nat → Nat → List UInt8
  | 0, _ => []
  | w + 1, n => UInt8.ofNat n :: leBytes w (n / 256)

/-- The number whose bytes are given, least significant first. -/
def leNat : List UInt8 → Nat
  | [] => 0
  | b :: bs => b.toNat + 256 * leNat bs

@[simp] theorem length_leBytes (w n : Nat) : (leBytes w n).length = w := by
  induction w generalizing n with
  | zero => rfl
  | succ w ih => simp [leBytes, ih]

theorem leNat_leBytes (w n : Nat) : leNat (leBytes w n) = n % 256 ^ w := by
  induction w generalizing n with
  | zero =>
      simp [leBytes, leNat, Nat.mod_one]
  | succ w ih =>
      have hbyte : (UInt8.ofNat n).toNat = n % 256 := by simp
      rw [leBytes, leNat, ih, hbyte, Nat.pow_succ, Nat.mul_comm (256 ^ w) 256, Nat.mod_mul]

/-- A number that fits its width is read back. -/
theorem leNat_leBytes_of_lt {w n : Nat} (h : n < 256 ^ w) : leNat (leBytes w n) = n := by
  rw [leNat_leBytes, Nat.mod_eq_of_lt h]

theorem leNat_lt (bs : List UInt8) : leNat bs < 256 ^ bs.length := by
  induction bs with
  | nil => simp [leNat]
  | cons b bs ih =>
      have hlt : b.toNat < 256 := b.toNat_lt
      rw [leNat, List.length_cons, Nat.pow_succ]
      omega

/-- The bytes of a number are the bytes it was read from. -/
theorem leBytes_leNat (bs : List UInt8) : leBytes bs.length (leNat bs) = bs := by
  induction bs with
  | nil => rfl
  | cons b bs ih =>
      have hlt : b.toNat < 256 := b.toNat_lt
      have hlow : UInt8.ofNat (b.toNat + 256 * leNat bs) = b := by
        apply UInt8.toNat_inj.1
        simp
      have hrest : (b.toNat + 256 * leNat bs) / 256 = leNat bs := by omega
      rw [List.length_cons, leNat, leBytes, hlow, hrest, ih]

@[simp] theorem leBytes_zero (w : Nat) : leBytes w 0 = List.replicate w 0 := by
  induction w with
  | zero => rfl
  | succ w ih =>
      rw [leBytes, Nat.zero_div, ih, List.replicate_succ]
      rfl

/-- Zeros behind the bytes of a number do not change it. -/
theorem leNat_append_zeros (bs : List UInt8) (n : Nat) :
    leNat (bs ++ List.replicate n 0) = leNat bs := by
  induction bs with
  | nil =>
      rw [List.nil_append]
      induction n with
      | zero => rfl
      | succ n ih =>
          rw [List.replicate_succ]
          simp [leNat, ih]
  | cons b bs ih => rw [List.cons_append, leNat, ih, leNat]

/-! ## Memories of bytes -/

/-- `n` bytes from address `a` on. -/
def readBytes (f : Nat → UInt8) (a n : Nat) : List UInt8 :=
  (List.range n).map (fun j => f (a + j))

/-- The memory after the bytes `bs` have been stored from address `a` on. -/
def writeBytes (f : Nat → UInt8) (a : Nat) (bs : List UInt8) : Nat → UInt8 :=
  fun x => if a ≤ x ∧ x < a + bs.length then bs.getD (x - a) 0 else f x

@[simp] theorem length_readBytes (f : Nat → UInt8) (a n : Nat) : (readBytes f a n).length = n := by
  simp [readBytes]

theorem readBytes_congr {f g : Nat → UInt8} {a n : Nat} (h : ∀ j, j < n → f (a + j) = g (a + j)) :
    readBytes f a n = readBytes g a n := by
  refine List.map_congr_left ?_
  intro j hj
  exact h j (List.mem_range.1 hj)

/-- A part of the bytes that were read. -/
theorem drop_take_readBytes (f : Nat → UInt8) (a : Nat) {i n k : Nat} (h : i + n ≤ k) :
    ((readBytes f a k).drop i).take n = readBytes f (a + i) n := by
  apply List.ext_getElem
  · simp only [List.length_take, List.length_drop, length_readBytes]
    omega
  · intro j hj hj'
    simp [readBytes, Nat.add_assoc]

theorem writeBytes_of_outside {f : Nat → UInt8} {a x : Nat} {bs : List UInt8}
    (h : x < a ∨ a + bs.length ≤ x) : writeBytes f a bs x = f x := by
  rw [writeBytes, if_neg (by omega)]

/-- What was stored is read back. -/
theorem readBytes_writeBytes (f : Nat → UInt8) (a : Nat) (bs : List UInt8) :
    readBytes (writeBytes f a bs) a bs.length = bs := by
  apply List.ext_getElem
  · simp
  · intro j hj hj'
    simp [readBytes, writeBytes, hj']

/-! ## Records of fixed width -/

/-- A record type stored in `width` bytes. -/
structure Layout (α : Type*) where
  width : Nat
  width_pos : 0 < width
  encode : α → List UInt8
  decode : List UInt8 → α
  length_encode : ∀ a, (encode a).length = width
  decode_encode : ∀ a, decode (encode a) = a

namespace Layout

variable {α : Type*} (L : Layout α)

/-- The records of a list, one after the other. -/
def encodeAll (xs : List α) : List UInt8 :=
  xs.flatMap L.encode

/-- Byte `b` of a memory of cells. -/
def byteAt (m : Nat → α) (b : Nat) : UInt8 :=
  (L.encode (m (b / L.width))).getD (b % L.width) 0

/-- Cell `i` of a memory of bytes. -/
def cellAt (f : Nat → UInt8) (i : Nat) : α :=
  L.decode ((List.range L.width).map (fun j => f (L.width * i + j)))

/-- The cells after the bytes `bs` have been stored from the start of the memory. -/
def overlay (bs : List UInt8) (m : Nat → α) : Nat → α :=
  L.cellAt (fun b => if b < bs.length then bs.getD b 0 else L.byteAt m b)

/-- The cells after `n` bytes have been moved from byte `src` to byte `dst`. -/
def memmove (m : Nat → α) (dst src n : Nat) : Nat → α :=
  L.cellAt (fun b => if dst ≤ b ∧ b < dst + n then L.byteAt m (src + (b - dst)) else L.byteAt m b)

/-- The memory after the cells of `m` with the indices `is` have been stored as an array at address
`p`. -/
def writeCells (f : Nat → UInt8) (p : Nat) (m : Nat → α) (is : List Nat) : Nat → UInt8 :=
  fun x => if p ≤ x ∧ (x - p) / L.width ∈ is then L.byteAt m (x - p) else f x

/-- The first `r` bytes of `new` over the bytes of `old`. -/
def torn (r : Nat) (new old : α) : α :=
  L.decode ((L.encode new).take r ++ (L.encode old).drop r)

/-! ## Reading bytes back as cells -/

@[simp] theorem length_encodeAll (xs : List α) :
    (L.encodeAll xs).length = L.width * xs.length := by
  induction xs with
  | nil => simp [encodeAll]
  | cons a xs ih =>
      have h := L.length_encode a
      simp only [encodeAll] at ih
      simp only [encodeAll, List.flatMap_cons, List.length_append, List.length_cons, h, ih,
        Nat.mul_add, Nat.mul_one]
      omega

theorem byteAt_cell (m : Nat → α) (i j : Nat) (hj : j < L.width) :
    L.byteAt m (L.width * i + j) = (L.encode (m i)).getD j 0 := by
  have hdiv : (L.width * i + j) / L.width = i := by
    rw [Nat.mul_add_div L.width_pos, Nat.div_eq_of_lt hj, Nat.add_zero]
  have hmod : (L.width * i + j) % L.width = j := by
    rw [Nat.mul_add_mod, Nat.mod_eq_of_lt hj]
  rw [byteAt, hdiv, hmod]

/-- A cell whose bytes are the bytes `bs` decodes to what `bs` decodes to. -/
theorem cellAt_eq_decode {f : Nat → UInt8} {i : Nat} {bs : List UInt8}
    (hlen : bs.length = L.width)
    (h : ∀ j, j < L.width → f (L.width * i + j) = bs.getD j 0) :
    L.cellAt f i = L.decode bs := by
  have hbytes : (List.range L.width).map (fun j => f (L.width * i + j)) = bs := by
    apply List.ext_getElem
    · simp [hlen]
    · intro j hj hj'
      have hjw : j < L.width := by simpa using hj
      simp [h j hjw, hj']
  rw [cellAt, hbytes]

theorem cellAt_eq {f : Nat → UInt8} {i : Nat} {a : α}
    (h : ∀ j, j < L.width → f (L.width * i + j) = (L.encode a).getD j 0) :
    L.cellAt f i = a := by
  rw [L.cellAt_eq_decode (L.length_encode a) h, L.decode_encode]

theorem cellAt_congr {f g : Nat → UInt8} {i : Nat}
    (h : ∀ j, j < L.width → f (L.width * i + j) = g (L.width * i + j)) :
    L.cellAt f i = L.cellAt g i := by
  have hbytes : (List.range L.width).map (fun j => f (L.width * i + j)) =
      (List.range L.width).map (fun j => g (L.width * i + j)) := by
    refine List.map_congr_left ?_
    intro j hj
    exact h j (List.mem_range.1 hj)
  rw [cellAt, cellAt, hbytes]

/-- The array at `p` after a store of cells: the stored ones, and the others as they were. -/
theorem cellAt_writeCells (f : Nat → UInt8) (p : Nat) (m : Nat → α) (is : List Nat) (i : Nat) :
    L.cellAt (fun x => L.writeCells f p m is (p + x)) i =
      if i ∈ is then m i else L.cellAt (fun x => f (p + x)) i := by
  have hcell : ∀ j, j < L.width → (p + (L.width * i + j) - p) / L.width = i := by
    intro j hj
    rw [Nat.add_sub_cancel_left, Nat.mul_add_div L.width_pos, Nat.div_eq_of_lt hj, Nat.add_zero]
  by_cases hi : i ∈ is
  · rw [if_pos hi]
    refine L.cellAt_eq ?_
    intro j hj
    rw [writeCells, if_pos ⟨Nat.le_add_right _ _, by rwa [hcell j hj]⟩, Nat.add_sub_cancel_left]
    exact L.byteAt_cell m i j hj
  · rw [if_neg hi]
    refine L.cellAt_congr ?_
    intro j hj
    rw [writeCells, if_neg]
    rintro ⟨-, hmem⟩
    rw [hcell j hj] at hmem
    exact hi hmem

/-- A store of cells below index `n` leaves the bytes before and behind these `n` cells. -/
theorem writeCells_of_outside {f : Nat → UInt8} {p n x : Nat} {m : Nat → α} {is : List Nat}
    (his : ∀ i ∈ is, i < n) (h : x < p ∨ p + L.width * n ≤ x) : L.writeCells f p m is x = f x := by
  rw [writeCells, if_neg]
  rintro ⟨hle, hmem⟩
  have hlt := (Nat.div_lt_iff_lt_mul L.width_pos).1 (his _ hmem)
  rw [Nat.mul_comm] at hlt
  omega

theorem encodeAll_getD {xs : List α} {i j : Nat} (hi : i < xs.length) (hj : j < L.width) :
    (L.encodeAll xs).getD (L.width * i + j) 0 = (L.encode xs[i]).getD j 0 := by
  induction xs generalizing i with
  | nil =>
      simp at hi
  | cons a xs ih =>
      have hlen := L.length_encode a
      rw [encodeAll, List.flatMap_cons]
      cases i with
      | zero =>
          rw [List.getD_append _ _ _ _ (by simpa [hlen] using hj)]
          simp
      | succ i =>
          -- skip the first record and read on in the rest
          have hge : (L.encode a).length ≤ L.width * (i + 1) + j := by
            rw [hlen, Nat.mul_succ]
            omega
          have hsub : L.width * (i + 1) + j - (L.encode a).length = L.width * i + j := by
            rw [hlen, Nat.mul_succ]
            omega
          rw [List.getD_append_right _ _ _ _ hge, hsub]
          exact ih (by simpa using hi)

/-- Each record is found at its place in the bytes of the list. -/
theorem take_drop_encodeAll {xs : List α} {i : Nat} (hi : i < xs.length) :
    ((L.encodeAll xs).drop (L.width * i)).take L.width = L.encode xs[i] := by
  have hlen := L.length_encode xs[i]
  have hroom : L.width * i + L.width ≤ L.width * xs.length := by
    have := Nat.mul_le_mul_left L.width (Nat.succ_le_of_lt hi)
    rwa [Nat.mul_succ] at this
  apply List.ext_getElem
  · simp only [List.length_take, List.length_drop, length_encodeAll, hlen]
    omega
  · intro j hj hj'
    have hjw : j < L.width := by omega
    have hget := L.encodeAll_getD hi hjw
    have hlt : L.width * i + j < (L.encodeAll xs).length := by
      rw [length_encodeAll]
      omega
    rw [List.getD_eq_getElem _ _ hlt, List.getD_eq_getElem _ _ hj'] at hget
    simpa using hget

/-- The bytes of the first `m` values are a prefix. -/
theorem take_encodeAll (xs : List α) (m : Nat) :
    (L.encodeAll xs).take (L.width * m) = L.encodeAll (xs.take m) := by
  by_cases hm : m ≤ xs.length
  · have hsplit : L.encodeAll xs = L.encodeAll (xs.take m) ++ L.encodeAll (xs.drop m) := by
      rw [encodeAll, encodeAll, encodeAll, ← List.flatMap_append, List.take_append_drop]
    rw [hsplit]
    refine List.take_left' ?_
    rw [length_encodeAll, List.length_take, Nat.min_eq_left hm]
  · have hall : xs.length ≤ m := by omega
    rw [List.take_of_length_le hall]
    refine List.take_of_length_le ?_
    rw [length_encodeAll]
    exact Nat.mul_le_mul_left L.width hall

/-- Storing whole records over a memory sets the first cells and leaves the others. -/
theorem overlay_encodeAll (xs : List α) (m : Nat → α) (i : Nat) :
    L.overlay (L.encodeAll xs) m i = if h : i < xs.length then xs[i] else m i := by
  by_cases hi : i < xs.length
  · -- the cell lies inside the stored bytes
    rw [dif_pos hi]
    refine L.cellAt_eq ?_
    intro j hj
    have hlt : L.width * i + j < (L.encodeAll xs).length := by
      have := Nat.mul_le_mul_left L.width (Nat.succ_le_of_lt hi)
      rw [length_encodeAll]
      rw [Nat.mul_succ] at this
      omega
    rw [if_pos hlt]
    exact L.encodeAll_getD hi hj
  · -- the cell starts behind them
    rw [dif_neg hi]
    refine L.cellAt_eq ?_
    intro j hj
    have hge : ¬ L.width * i + j < (L.encodeAll xs).length := by
      have := Nat.mul_le_mul_left L.width (Nat.le_of_not_lt hi)
      rw [length_encodeAll]
      omega
    rw [if_neg hge]
    exact L.byteAt_cell m i j hj

/-! ## Moving bytes down by one cell -/

theorem torn_of_width_le {r : Nat} (h : L.width ≤ r) (new old : α) : L.torn r new old = new := by
  have hnew := L.length_encode new
  have hold := L.length_encode old
  rw [torn, List.take_of_length_le (by omega), List.drop_eq_nil_of_le (by omega),
    List.append_nil, L.decode_encode]

/-- When every byte string of the right length encodes a record, an overwritten record is the new one
exactly when the bytes that were not overwritten agree. -/
theorem torn_eq_iff (hinv : ∀ bs, bs.length = L.width → L.encode (L.decode bs) = bs) (r : Nat)
    (new old : α) :
    L.torn r new old = new ↔ (L.encode old).drop r = (L.encode new).drop r := by
  have hnew := L.length_encode new
  have hold := L.length_encode old
  have hlen : ((L.encode new).take r ++ (L.encode old).drop r).length = L.width := by
    simp only [List.length_append, List.length_take, List.length_drop]
    omega
  constructor
  · intro h
    have hbytes := hinv _ hlen
    rw [← torn, h] at hbytes
    -- both sides start with the same `r` bytes
    have hsplit : (L.encode new).take r ++ (L.encode new).drop r =
        (L.encode new).take r ++ (L.encode old).drop r := by
      simpa using hbytes
    exact (List.append_cancel_left hsplit).symm
  · intro h
    rw [torn, h, List.take_append_drop, L.decode_encode]

/-- When every byte string of the right length encodes a record, a list that is shorter than the
number of these byte strings misses a record. -/
theorem exists_notMem (hinv : ∀ bs, bs.length = L.width → L.encode (L.decode bs) = bs)
    {xs : List α} (h : xs.length < 256 ^ L.width) : ∃ a, a ∉ xs := by
  by_contra hall
  have hsub : (List.range (xs.length + 1)).map (fun i => L.decode (leBytes L.width i)) ⊆ xs := by
    intro a _
    exact not_not.1 (not_exists.1 hall a)
  have hnodup : ((List.range (xs.length + 1)).map
      (fun i => L.decode (leBytes L.width i))).Nodup := by
    refine List.Nodup.map_on ?_ List.nodup_range
    intro i hi j hj hij
    rw [List.mem_range] at hi hj
    -- a record gives its bytes back, and these give the number back
    have hbytes : leBytes L.width i = leBytes L.width j := by
      rw [← hinv _ (length_leBytes L.width i), hij, hinv _ (length_leBytes L.width j)]
    rw [← leNat_leBytes_of_lt (by omega : i < 256 ^ L.width), hbytes,
      leNat_leBytes_of_lt (by omega)]
  have hlen := (List.subperm_of_subset hnodup hsub).length_le
  rw [List.length_map, List.length_range] at hlen
  omega

@[simp] theorem torn_zero (new old : α) : L.torn 0 new old = old := by
  simp [torn, L.decode_encode]

/-- Moving `n` bytes from cell `d + 1` to cell `d`: cells below `d` stay, and cell `j ≥ d` receives
as many bytes of cell `j + 1` as the count still covers. -/
theorem memmove_down (m : Nat → α) (d n j : Nat) :
    L.memmove m (L.width * d) (L.width * (d + 1)) n j =
      if j < d then m j else L.torn (n - L.width * (j - d)) (m (j + 1)) (m j) := by
  by_cases hjd : j < d
  · -- the move starts at cell `d`, so lower cells keep their bytes
    rw [if_pos hjd]
    refine L.cellAt_eq ?_
    intro b hb
    have hlt : L.width * j + b < L.width * d := by
      have := Nat.mul_le_mul_left L.width (Nat.succ_le_of_lt hjd)
      rw [Nat.mul_succ] at this
      omega
    rw [if_neg (by omega)]
    exact L.byteAt_cell m j b hb
  · rw [if_neg hjd]
    obtain ⟨e, rfl⟩ := Nat.exists_eq_add_of_le (Nat.le_of_not_lt hjd)
    have hnew := L.length_encode (m (d + e + 1))
    have hold := L.length_encode (m (d + e))
    have hoff : d + e - d = e := by omega
    rw [hoff]
    refine L.cellAt_eq_decode (by simp [hnew, hold]; omega) ?_
    intro b hb
    have hexp : L.width * (d + e) = L.width * d + L.width * e := Nat.mul_add _ _ _
    by_cases hcov : b < n - L.width * e
    · -- a byte the count still covers comes from the next cell
      have hsrc : L.width * (d + 1) + (L.width * (d + e) + b - L.width * d) =
          L.width * (d + e + 1) + b := by
        rw [hexp, Nat.mul_succ, Nat.mul_succ, hexp]
        omega
      rw [if_pos (by omega), hsrc, L.byteAt_cell m (d + e + 1) b hb,
        List.getD_append _ _ _ _ (by simp [hnew]; omega)]
      simp [List.getD_eq_getElem?_getD, hcov]
    · have htake : ((L.encode (m (d + e + 1))).take (n - L.width * e)).length =
          n - L.width * e := by
        simp [hnew]
        omega
      rw [if_neg (by omega), L.byteAt_cell m (d + e) b hb,
        List.getD_append_right _ _ _ _ (by rw [htake]; omega), htake]
      have hadd : n - L.width * e + (b - (n - L.width * e)) = b := by omega
      simp [List.getD_eq_getElem?_getD, hadd]

end Layout

end ByteLayout
