import Mathlib.Data.Vector.Basic
import DBTest.Records.Stores

/-!
# Pack — structures as values

`rocksdb_arbitrary_store.cpp` stores the bytes of a structure and compares what it reads back.
`Pack` copies all bytes of the object, those of its padding too; `Unpack` checks the size and nothing
else, and its result is used without a check.

The program comes to its end exactly when the value that it reads has the size of the structure, and
it reports a match exactly when the first ten of the twenty bytes are equal
(`stored_structure_matches_iff`).
-/

namespace DBTest
namespace Records

open ByteLayout

/-! ## Pack and Unpack -/

section

variable {T : Type*} (L : Layout T)

/-- `Pack(data)`. -/
def pack (data : T) : Bytes :=
  L.encode data

/-- `Unpack(data)`; `none` is the null pointer. -/
def unpack (data : Bytes) : Option T :=
  if data.length ≠ L.width then none else some (L.decode data)

theorem unpack_pack (data : T) : unpack L (pack L data) = some data := by
  rw [unpack, pack, if_neg (fun hne => hne (L.length_encode data)), L.decode_encode]

theorem unpack_eq_none_iff (data : Bytes) : unpack L data = none ↔ data.length ≠ L.width := by
  rw [unpack]
  split_ifs with h
  · exact ⟨fun _ => h, fun _ => rfl⟩
  · simpa using h

end

/-! ## The structure -/

/-- An object of type `Bob`: the two bytes behind `c` are padding. -/
structure Bob where
  a : Int32
  b : Int32
  c : List.Vector UInt8 10
  padding : List.Vector UInt8 2
  deriving DecidableEq

/-- The `n` bytes from `p` on. -/
def bytesAt (data : Bytes) (p n : Nat) : List.Vector UInt8 n :=
  ⟨(List.range n).map (fun j => data.getD (p + j) 0), by simp⟩

/-- The bytes of the object. -/
def bobBytes (bob : Bob) : Bytes :=
  leBytes 4 bob.a.toUInt32.toNat ++ (leBytes 4 bob.b.toUInt32.toNat ++ (bob.c.toList ++ bob.padding.toList))

/-- The object whose bytes are `data`. -/
def bobOf (data : Bytes) : Bob where
  a := (UInt32.ofNat (leNat (data.take 4))).toInt32
  b := (UInt32.ofNat (leNat ((data.drop 4).take 4))).toInt32
  c := bytesAt data 8 10
  padding := bytesAt data 18 2

theorem bytesAt_of_drop {data : Bytes} {p n : Nat} {v : List.Vector UInt8 n} {rest : Bytes}
    (h : data.drop p = v.toList ++ rest) : bytesAt data p n = v := by
  apply List.Vector.toList_injective
  apply List.ext_getElem
  · simp [bytesAt]
  · intro j hj hj'
    have hget : data[p + j]? = (v.toList)[j]? := by
      rw [← List.getElem?_drop, h, List.getElem?_append_left hj']
    rw [List.getElem?_eq_getElem hj'] at hget
    simp [bytesAt, List.getD_eq_getElem?_getD, hget]

def bobLayout : Layout Bob where
  width := 20
  width_pos := by decide
  encode := bobBytes
  decode := bobOf
  length_encode bob := by simp [bobBytes]
  decode_encode bob := by
    have ha : (bobBytes bob).take 4 = leBytes 4 bob.a.toUInt32.toNat := List.take_left' (length_leBytes 4 _)
    have hdrop₄ : (bobBytes bob).drop 4 =
        leBytes 4 bob.b.toUInt32.toNat ++ (bob.c.toList ++ bob.padding.toList) :=
      List.drop_left' (length_leBytes 4 _)
    have hb : ((bobBytes bob).drop 4).take 4 = leBytes 4 bob.b.toUInt32.toNat := by
      rw [hdrop₄]
      exact List.take_left' (length_leBytes 4 _)
    have hdrop₈ : (bobBytes bob).drop 8 = bob.c.toList ++ bob.padding.toList := by
      rw [show 8 = 4 + 4 by rfl, ← List.drop_drop, hdrop₄]
      exact List.drop_left' (length_leBytes 4 _)
    have hdrop₁₈ : (bobBytes bob).drop 18 = bob.padding.toList ++ [] := by
      rw [show 18 = 8 + 10 by rfl, ← List.drop_drop, hdrop₈, List.append_nil]
      exact List.drop_left' bob.c.toList_length
    rw [bobOf, ha, hb, bytesAt_of_drop hdrop₈, bytesAt_of_drop hdrop₁₈,
      leNat_leBytes_of_lt bob.a.toUInt32.toNat_lt, leNat_leBytes_of_lt bob.b.toUInt32.toNat_lt]
    simp

theorem toList_bytesAt {data : Bytes} {p n : Nat} (h : p + n ≤ data.length) :
    (bytesAt data p n).toList = (data.drop p).take n := by
  apply List.ext_getElem
  · simp only [List.Vector.toList_length, List.length_take, List.length_drop]
    omega
  · intro j hj hj'
    have hlt : p + j < data.length := by
      rw [List.Vector.toList_length] at hj
      omega
    simp [bytesAt, hlt]

/-- Every value of the right size is the bytes of an object. -/
theorem bobBytes_bobOf {data : Bytes} (hlen : data.length = 20) : bobBytes (bobOf data) = data := by
  have ha : leBytes 4 (leNat (data.take 4)) = data.take 4 := by
    have hfour : (data.take 4).length = 4 := by simp [hlen]
    simpa [hfour] using leBytes_leNat (data.take 4)
  have hb : leBytes 4 (leNat ((data.drop 4).take 4)) = (data.drop 4).take 4 := by
    have hfour : ((data.drop 4).take 4).length = 4 := by simp [hlen]
    simpa [hfour] using leBytes_leNat ((data.drop 4).take 4)
  have hlt : ∀ bs : Bytes, (bs.take 4).length = 4 → leNat (bs.take 4) < 2 ^ 32 := by
    intro bs hfour
    have hbound := leNat_lt (bs.take 4)
    rw [hfour] at hbound
    exact hbound
  have hint : ∀ n < 2 ^ 32, (UInt32.ofNat n).toInt32.toUInt32.toNat = n := by
    intro n hn
    simpa using Nat.mod_eq_of_lt hn
  -- the four parts cover the twenty bytes
  have hsplit : data = data.take 4 ++ ((data.drop 4).take 4 ++
      ((data.drop 8).take 10 ++ (data.drop 18).take 2)) := by
    have hlast : (data.drop 18).take 2 = data.drop 18 := List.take_of_length_le (by simp [hlen])
    have hc : (data.drop 8).take 10 ++ data.drop 18 = data.drop 8 := by
      rw [show 18 = 8 + 10 by rfl, ← List.drop_drop, List.take_append_drop]
    have hb' : (data.drop 4).take 4 ++ data.drop 8 = data.drop 4 := by
      rw [show 8 = 4 + 4 by rfl, ← List.drop_drop, List.take_append_drop]
    rw [hlast, hc, hb', List.take_append_drop]
  simp only [bobBytes, bobOf]
  rw [hint _ (hlt data (by simp [hlen])), hint _ (hlt (data.drop 4) (by simp [hlen])), ha, hb,
    toList_bytesAt (by omega), toList_bytesAt (by omega), ← hsplit]

/-! ## The program -/

/-- `"key1"`. -/
def key1 : Bytes := [107, 101, 121, 49]

/-- The four comparisons. -/
def structureMatches (b pBob : Bob) : Bool :=
  b.a == pBob.a && b.b == pBob.b && b.c.get 0 == pBob.c.get 0 && b.c.get 1 == pBob.c.get 1

/-- The program used the null pointer. -/
inductive NullPointer
  | fault
  deriving DecidableEq, Repr

section

variable (db : KeyValueStore) (s : db.State) (putOk getOk : Bool) (b : Bob)

/-- The store after `Put`, which may fail. -/
def putBob : db.State :=
  if putOk then db.set s key1 (pack bobLayout b) else s

/-- `result` after `Get`; a failed call leaves it empty. -/
def getBob : Bytes :=
  if getOk then (db.get (putBob db s putOk b) key1).getD [] else []

/-- The part of `main` between the open and the flush, and whether it reports a match.  The status of
the two calls is not looked at. -/
def storeBob : Except NullPointer (db.State × Bool) :=
  match unpack bobLayout (getBob db s putOk getOk b) with
  | none => .error .fault
  | some pBob => .ok (putBob db s putOk b, structureMatches b pBob)

end

theorem take_ten_bobBytes (bob : Bob) :
    (bobBytes bob).take 10 =
      leBytes 4 bob.a.toUInt32.toNat ++ (leBytes 4 bob.b.toUInt32.toNat ++
        [bob.c.get 0, bob.c.get 1]) := by
  rcases bob with ⟨a, b, ⟨c, hc⟩, padding⟩
  rcases c with _ | ⟨c₀, _ | ⟨c₁, c⟩⟩
  · cases hc
  · cases hc
  · rfl

theorem leBytes_four_inj (x y : Int32) :
    leBytes 4 x.toUInt32.toNat = leBytes 4 y.toUInt32.toNat ↔ x = y := by
  constructor
  · intro h
    have hnat := congrArg leNat h
    rw [leNat_leBytes_of_lt x.toUInt32.toNat_lt, leNat_leBytes_of_lt y.toUInt32.toNat_lt] at hnat
    have hbits := congrArg UInt32.toInt32 (UInt32.toNat_inj.1 hnat)
    rwa [Int32.toInt32_toUInt32, Int32.toInt32_toUInt32] at hbits
  · rintro rfl
    rfl

/-- The comparisons see the first ten bytes. -/
theorem structureMatches_iff (b pBob : Bob) :
    structureMatches b pBob = true ↔ (bobBytes pBob).take 10 = (bobBytes b).take 10 := by
  simp only [structureMatches, Bool.and_eq_true, beq_iff_eq]
  rw [take_ten_bobBytes, take_ten_bobBytes]
  constructor
  · rintro ⟨⟨⟨ha, hb⟩, hc₀⟩, hc₁⟩
    rw [ha, hb, hc₀, hc₁]
  · intro h
    -- the parts have fixed lengths, so equal texts have equal parts
    rcases List.append_inj h (by simp) with ⟨ha, hrest⟩
    rcases List.append_inj hrest (by simp) with ⟨hb, hc⟩
    rw [leBytes_four_inj] at ha hb
    simp only [List.cons.injEq, and_true] at hc
    exact ⟨⟨⟨ha.symm, hb.symm⟩, hc.1.symm⟩, hc.2.symm⟩

/-- For every structure, store and outcome of the two calls: the program uses a null pointer exactly
when the value that it reads does not have twenty bytes, and reports a match exactly when that value
agrees with the structure in the first ten of them.  When both calls succeed the whole structure is
read back, padding included, and it is the only one with that value. -/
theorem stored_structure_matches_iff (db : KeyValueStore) (s : db.State) (putOk getOk : Bool)
    (b : Bob) :
    (storeBob db s putOk getOk b = .error .fault ↔ (getBob db s putOk getOk b).length ≠ 20) ∧
      (storeBob db s putOk getOk b = .ok (putBob db s putOk b, true) ↔
        (getBob db s putOk getOk b).length = 20 ∧
          (getBob db s putOk getOk b).take 10 = (pack bobLayout b).take 10) ∧
      (putOk = true → getOk = true →
        storeBob db s putOk getOk b = .ok (putBob db s putOk b, true) ∧
          ∀ b', pack bobLayout b' = getBob db s putOk getOk b ↔ b' = b) := by
  have hmatch : storeBob db s putOk getOk b = .ok (putBob db s putOk b, true) ↔
      (getBob db s putOk getOk b).length = 20 ∧
        (getBob db s putOk getOk b).take 10 = (pack bobLayout b).take 10 := by
    rw [storeBob]
    by_cases hlen : (getBob db s putOk getOk b).length = 20
    · -- any twenty bytes are an object, which is compared by its first ten
      have hsome : unpack bobLayout (getBob db s putOk getOk b) =
          some (bobOf (getBob db s putOk getOk b)) := if_neg (fun hne => hne hlen)
      have hfirst := structureMatches_iff b (bobOf (getBob db s putOk getOk b))
      rw [bobBytes_bobOf hlen] at hfirst
      simp only [hsome, Except.ok.injEq, Prod.mk.injEq, true_and, hlen]
      exact hfirst
    · simp [(unpack_eq_none_iff bobLayout _).2 hlen, hlen]
  refine ⟨?_, hmatch, ?_⟩
  · rw [storeBob, show (20 : Nat) = bobLayout.width by rfl, ← unpack_eq_none_iff]
    cases unpack bobLayout (getBob db s putOk getOk b) with
    | none => simp
    | some pBob => simp
  · rintro rfl rfl
    have hback : getBob db s true true b = pack bobLayout b := by
      rw [getBob, putBob, if_pos rfl, if_pos rfl, db.get_set, Option.getD_some]
    refine ⟨hmatch.2 ⟨?_, by rw [hback]⟩, ?_⟩
    · rw [hback]
      exact bobLayout.length_encode b
    · intro b'
      rw [hback]
      constructor
      · intro heq
        have hunpack := unpack_pack bobLayout b'
        rw [heq, unpack_pack] at hunpack
        exact (Option.some.inj hunpack).symm
      · rintro rfl
        rfl

/-- The failed `Put` of a structure of zeros over a value that has ones in its last ten bytes. -/
theorem stored_structure_matches_other :
    storeBob mapStore (fun _ => some (List.replicate 10 0 ++ List.replicate 10 1)) false true
        (bobOf (List.replicate 20 0)) =
      .ok (fun _ => some (List.replicate 10 0 ++ List.replicate 10 1), true) :=
  (stored_structure_matches_iff mapStore
    (fun _ => some (List.replicate 10 0 ++ List.replicate 10 1)) false true
    (bobOf (List.replicate 20 0))).2.1.2 ⟨by decide, by decide⟩

end Records
end DBTest
