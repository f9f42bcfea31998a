import Mathlib.Data.List.Basic
import Mathlib.Data.List.Pairwise
import Mathlib.Order.Lattice

/-!
# KeyedMerge — merging lists of keyed items, with ties going to the right

A list of items `α` with a key in a linear order `κ` is merged by comparing the two heads with the
strict order: the left head goes first only when its key is smaller.  On ascending lists this is a
merge in which, among equal keys, the right list comes first; on arbitrary lists it is still an
interleaving.

Three views of a list carry the development:

* `Ascending key xs` — the keys never decrease along `xs`;
* `withKey key k xs` — the items of key `k`, in list order;
* `firstMatch key k xs` — what a scan from the front finds for `k`.

An ascending list is determined by its `withKey` lists (`eq_of_withKey_eq`), so equalities between
sorted lists are proved one key at a time.
-/

namespace KeyedMerge

variable {α κ : Type*} [LinearOrder κ] (key : α → κ)

/-! ## Definitions -/

/-- Merge by head comparison; the left head goes first only when its key is strictly smaller. -/
def mergeRight (xs ys : List α) : List α :=
  xs.merge ys (fun a b => decide (key a < key b))

def Ascending (xs : List α) : Prop :=
  xs.Pairwise (fun a b => key a ≤ key b)

instance instDecidableAscending (xs : List α) : Decidable (Ascending key xs) :=
  inferInstanceAs (Decidable (xs.Pairwise (fun a b => key a ≤ key b)))

/-- The stable ascending sort by key. -/
def stableSort (xs : List α) : List α :=
  xs.mergeSort (fun a b => decide (key a ≤ key b))

/-- The items of key `k`, in list order. -/
def withKey (k : κ) (xs : List α) : List α :=
  xs.filter (fun a => decide (key a = k))

/-- The first item of key `k`. -/
def firstMatch (k : κ) (xs : List α) : Option α :=
  xs.find? (fun a => decide (key a = k))

/-- The last item of key `k`. -/
def lastMatch (k : κ) (xs : List α) : Option α :=
  firstMatch key k xs.reverse

/-- The items a scan for `k` passes over before its first match. -/
def before (k : κ) (xs : List α) : List α :=
  xs.takeWhile (fun a => decide (key a ≠ k))

/-! ## Small facts about the views -/

@[simp] theorem withKey_nil (k : κ) : withKey key k [] = [] := rfl

@[simp] theorem withKey_append (k : κ) (xs ys : List α) :
    withKey key k (xs ++ ys) = withKey key k xs ++ withKey key k ys := by
  simp [withKey]

@[simp] theorem withKey_reverse (k : κ) (xs : List α) :
    withKey key k xs.reverse = (withKey key k xs).reverse := by
  simp [withKey]

@[simp] theorem mem_withKey {k : κ} {xs : List α} {a : α} :
    a ∈ withKey key k xs ↔ a ∈ xs ∧ key a = k := by
  simp [withKey]

theorem withKey_cons_pos {k : κ} {a : α} (xs : List α) (h : key a = k) :
    withKey key k (a :: xs) = a :: withKey key k xs := by
  simp [withKey, h]

theorem withKey_cons_neg {k : κ} {a : α} (xs : List α) (h : key a ≠ k) :
    withKey key k (a :: xs) = withKey key k xs := by
  simp [withKey, h]

theorem withKey_eq_nil {k : κ} {xs : List α} :
    withKey key k xs = [] ↔ ∀ a ∈ xs, key a ≠ k := by
  simp [withKey, List.filter_eq_nil_iff]

theorem firstMatch_eq_head? (k : κ) (xs : List α) :
    firstMatch key k xs = (withKey key k xs).head? := by
  simp [firstMatch, withKey]

theorem firstMatch_eq_none {k : κ} {xs : List α} :
    firstMatch key k xs = none ↔ ∀ a ∈ xs, key a ≠ k := by
  simp [firstMatch]

theorem firstMatch_eq_none_iff_lastMatch {k : κ} {xs : List α} :
    firstMatch key k xs = none ↔ lastMatch key k xs = none := by
  rw [lastMatch, firstMatch_eq_none, firstMatch_eq_none]
  simp

theorem key_of_firstMatch {k : κ} {xs : List α} {a : α}
    (h : firstMatch key k xs = some a) : key a = k := by
  simpa using List.find?_some h

theorem mem_of_firstMatch {k : κ} {xs : List α} {a : α}
    (h : firstMatch key k xs = some a) : a ∈ xs :=
  List.mem_of_find?_eq_some h

@[simp] theorem firstMatch_append (k : κ) (xs ys : List α) :
    firstMatch key k (xs ++ ys) = (firstMatch key k xs).or (firstMatch key k ys) := by
  simp [firstMatch]

/-- Items of other keys at the end do not change the last match. -/
theorem lastMatch_append_of_ne {k : κ} (xs : List α) {ys : List α} (h : ∀ b ∈ ys, key b ≠ k) :
    lastMatch key k (xs ++ ys) = lastMatch key k xs := by
  have hnone : firstMatch key k ys.reverse = none := by
    rw [firstMatch_eq_none]
    intro b hb
    exact h b (List.mem_reverse.1 hb)
  rw [lastMatch, List.reverse_append, firstMatch_append, hnone]
  rfl

theorem firstMatch_cons_pos {k : κ} {a : α} (xs : List α) (h : key a = k) :
    firstMatch key k (a :: xs) = some a := by
  simp [firstMatch, h]

theorem firstMatch_cons_neg {k : κ} {a : α} (xs : List α) (h : key a ≠ k) :
    firstMatch key k (a :: xs) = firstMatch key k xs := by
  simp [firstMatch, h]

theorem before_cons_pos {k : κ} {a : α} (xs : List α) (h : key a = k) :
    before key k (a :: xs) = [] := by
  simp [before, h]

theorem before_cons_neg {k : κ} {a : α} (xs : List α) (h : key a ≠ k) :
    before key k (a :: xs) = a :: before key k xs := by
  simp [before, h]

theorem ascending_cons {a : α} {xs : List α} :
    Ascending key (a :: xs) ↔ (∀ b ∈ xs, key a ≤ key b) ∧ Ascending key xs :=
  List.pairwise_cons

theorem Ascending.sublist {key : α → κ} {xs ys : List α} (h : Ascending key ys)
    (hsub : List.Sublist xs ys) : Ascending key xs :=
  List.Pairwise.sublist hsub h

/-! ## The merge as an interleaving -/

theorem mergeRight_nil_left (ys : List α) : mergeRight key [] ys = ys := by
  simp [mergeRight]

theorem mergeRight_nil_right (xs : List α) : mergeRight key xs [] = xs := by
  simp [mergeRight]

theorem mergeRight_cons_left {a b : α} (xs ys : List α) (h : key a < key b) :
    mergeRight key (a :: xs) (b :: ys) = a :: mergeRight key xs (b :: ys) := by
  simp [mergeRight, h]

theorem mergeRight_cons_right {a b : α} (xs ys : List α) (h : ¬ key a < key b) :
    mergeRight key (a :: xs) (b :: ys) = b :: mergeRight key (a :: xs) ys := by
  simp only [mergeRight, List.cons_merge_cons, decide_eq_true_eq, h, if_false]

theorem mergeRight_perm (xs ys : List α) :
    (mergeRight key xs ys).Perm (xs ++ ys) :=
  List.merge_perm_append _

theorem mem_mergeRight {a : α} {xs ys : List α} :
    a ∈ mergeRight key xs ys ↔ a ∈ xs ∨ a ∈ ys := by
  simp [mergeRight, List.mem_merge]

@[simp] theorem length_mergeRight (xs ys : List α) :
    (mergeRight key xs ys).length = xs.length + ys.length := by
  simp [mergeRight]

/-- Induction along the choices of the merge: a list is empty, the left head is strictly smaller,
or the right head goes first. -/
theorem merge_induction {P : List α → List α → Prop}
    (nil_left : ∀ ys, P [] ys) (nil_right : ∀ a xs, P (a :: xs) [])
    (left : ∀ a xs b ys, key a < key b → P xs (b :: ys) → P (a :: xs) (b :: ys))
    (right : ∀ a xs b ys, ¬ key a < key b → P (a :: xs) ys → P (a :: xs) (b :: ys)) :
    ∀ xs ys, P xs ys := by
  intro xs
  induction xs with
  | nil =>
      exact nil_left
  | cons a xs ihx =>
      intro ys
      induction ys with
      | nil =>
          exact nil_right a xs
      | cons b ys ihy =>
          by_cases h : key a < key b
          · exact left a xs b ys h (ihx (b :: ys))
          · exact right a xs b ys h ihy

theorem sublist_mergeRight_left (xs ys : List α) :
    List.Sublist xs (mergeRight key xs ys) := by
  induction xs, ys using merge_induction key with
  | nil_left ys =>
      exact List.nil_sublist _
  | nil_right a xs =>
      rw [mergeRight_nil_right]
  | left a xs b ys h ih =>
      rw [mergeRight_cons_left key xs ys h]
      exact ih.cons_cons a
  | right a xs b ys h ih =>
      rw [mergeRight_cons_right key xs ys h]
      exact ih.cons b

theorem sublist_mergeRight_right (xs ys : List α) :
    List.Sublist ys (mergeRight key xs ys) := by
  induction xs, ys using merge_induction key with
  | nil_left ys =>
      rw [mergeRight_nil_left]
  | nil_right a xs =>
      exact List.nil_sublist _
  | left a xs b ys h ih =>
      rw [mergeRight_cons_left key xs ys h]
      exact ih.cons a
  | right a xs b ys h ih =>
      rw [mergeRight_cons_right key xs ys h]
      exact ih.cons_cons b

/-- The third list takes the items of the other two, each list in its own order. -/
inductive Interleaving : List α → List α → List α → Prop
  | nil : Interleaving [] [] []
  | left {a : α} {xs ys zs : List α} (h : Interleaving xs ys zs) :
      Interleaving (a :: xs) ys (a :: zs)
  | right {b : α} {xs ys zs : List α} (h : Interleaving xs ys zs) :
      Interleaving xs (b :: ys) (b :: zs)

theorem interleaving_nil_left (ys : List α) : Interleaving [] ys ys := by
  induction ys with
  | nil => exact Interleaving.nil
  | cons b ys ih => exact ih.right

theorem interleaving_nil_right (xs : List α) : Interleaving xs [] xs := by
  induction xs with
  | nil => exact Interleaving.nil
  | cons a xs ih => exact ih.left

/-- Sorted or not, the merge takes every item of both lists once. -/
theorem interleaving_mergeRight (xs ys : List α) :
    Interleaving xs ys (mergeRight key xs ys) := by
  induction xs, ys using merge_induction key with
  | nil_left ys =>
      rw [mergeRight_nil_left]
      exact interleaving_nil_left ys
  | nil_right a xs =>
      rw [mergeRight_nil_right]
      exact interleaving_nil_right (a :: xs)
  | left a xs b ys h ih =>
      rw [mergeRight_cons_left key xs ys h]
      exact ih.left
  | right a xs b ys h ih =>
      rw [mergeRight_cons_right key xs ys h]
      exact ih.right

/-! ## Merging ascending lists -/

theorem mergeRight_ascending {xs ys : List α} (hx : Ascending key xs) (hy : Ascending key ys) :
    Ascending key (mergeRight key xs ys) := by
  induction xs, ys using merge_induction key with
  | nil_left ys =>
      simpa [mergeRight_nil_left] using hy
  | nil_right a xs =>
      simpa [mergeRight_nil_right] using hx
  | left a xs b ys h ih =>
      rw [mergeRight_cons_left key xs ys h, ascending_cons]
      rw [ascending_cons] at hx
      -- `a` bounds the rest of its own list and, through `b`, the right list
      refine ⟨?_, ih hx.2 hy⟩
      intro c hc
      rcases (mem_mergeRight key).1 hc with hc | hc
      · exact hx.1 c hc
      · rcases List.mem_cons.1 hc with rfl | hc
        · exact h.le
        · exact h.le.trans (((ascending_cons key).1 hy).1 c hc)
  | right a xs b ys h ih =>
      rw [mergeRight_cons_right key xs ys h, ascending_cons]
      rw [ascending_cons] at hy
      have hba : key b ≤ key a := not_lt.1 h
      -- `b` bounds the rest of its own list and, through `a`, the left list
      refine ⟨?_, ih hx hy.2⟩
      intro c hc
      rcases (mem_mergeRight key).1 hc with hc | hc
      · rcases List.mem_cons.1 hc with rfl | hc
        · exact hba
        · exact hba.trans (((ascending_cons key).1 hx).1 c hc)
      · exact hy.1 c hc

/-- The merge is ascending only when both inputs are: each survives in it in its own order. -/
theorem mergeRight_ascending_iff {xs ys : List α} :
    Ascending key (mergeRight key xs ys) ↔ Ascending key xs ∧ Ascending key ys := by
  constructor
  · intro h
    exact ⟨h.sublist (sublist_mergeRight_left key xs ys),
      h.sublist (sublist_mergeRight_right key xs ys)⟩
  · rintro ⟨hx, hy⟩
    exact mergeRight_ascending key hx hy

/-- Among equal keys the right list comes first. -/
theorem withKey_mergeRight (k : κ) {xs ys : List α}
    (hx : Ascending key xs) (hy : Ascending key ys) :
    withKey key k (mergeRight key xs ys) = withKey key k ys ++ withKey key k xs := by
  induction xs, ys using merge_induction key with
  | nil_left ys =>
      simp [mergeRight_nil_left]
  | nil_right a xs =>
      simp [mergeRight_nil_right]
  | left a xs b ys h ih =>
      have hx' := (ascending_cons key).1 hx
      rw [mergeRight_cons_left key xs ys h]
      by_cases hk : key a = k
      · -- everything on the right is larger than `a`, so nothing there has key `k`
        have hnone : withKey key k (b :: ys) = [] := by
          rw [withKey_eq_nil]
          intro c hc hck
          have hbc : key b ≤ key c := by
            rcases List.mem_cons.1 hc with rfl | hc
            · exact le_rfl
            · exact ((ascending_cons key).1 hy).1 c hc
          exact absurd (hck.trans hk.symm) (h.trans_le hbc).ne'
        have ih' := ih hx'.2 hy
        rw [hnone, List.nil_append] at ih'
        rw [withKey_cons_pos key _ hk, withKey_cons_pos key _ hk, ih', hnone, List.nil_append]
      · rw [withKey_cons_neg key _ hk, withKey_cons_neg key xs hk, ih hx'.2 hy]
  | right a xs b ys h ih =>
      have hy' := (ascending_cons key).1 hy
      rw [mergeRight_cons_right key xs ys h]
      by_cases hk : key b = k
      · rw [withKey_cons_pos key _ hk, withKey_cons_pos key _ hk, ih hx hy'.2, List.cons_append]
      · rw [withKey_cons_neg key _ hk, withKey_cons_neg key ys hk, ih hx hy'.2]

/-- An ascending list is determined by its items of each key. -/
theorem eq_of_withKey_eq {xs ys : List α} (hx : Ascending key xs) (hy : Ascending key ys)
    (h : ∀ k, withKey key k xs = withKey key k ys) : xs = ys := by
  induction xs generalizing ys with
  | nil =>
      cases ys with
      | nil => rfl
      | cons b ys =>
          have hb := h (key b)
          rw [withKey_cons_pos key ys rfl] at hb
          cases hb
  | cons a xs ih =>
      cases ys with
      | nil =>
          have ha := h (key a)
          rw [withKey_cons_pos key xs rfl] at ha
          cases ha
      | cons b ys =>
          have hx' := (ascending_cons key).1 hx
          have hy' := (ascending_cons key).1 hy
          -- each head occurs in the other list, so the head keys bound each other
          have hba : key b ≤ key a := by
            have hmem : a ∈ withKey key (key a) (b :: ys) := by
              rw [← h (key a)]
              simp
            rcases List.mem_cons.1 ((mem_withKey key).1 hmem).1 with rfl | hmem
            · exact le_rfl
            · exact hy'.1 a hmem
          have hab : key a ≤ key b := by
            have hmem : b ∈ withKey key (key b) (a :: xs) := by
              rw [h (key b)]
              simp
            rcases List.mem_cons.1 ((mem_withKey key).1 hmem).1 with rfl | hmem
            · exact le_rfl
            · exact hx'.1 b hmem
          have hkey : key a = key b := le_antisymm hab hba
          have hhead := h (key a)
          rw [withKey_cons_pos key xs rfl, withKey_cons_pos key ys hkey.symm] at hhead
          obtain ⟨rfl, -⟩ := List.cons.inj hhead
          refine congrArg (a :: ·) (ih hx'.2 hy'.2 ?_)
          intro k
          have hk := h k
          by_cases hak : key a = k
          · rw [withKey_cons_pos key xs hak, withKey_cons_pos key ys hak] at hk
            exact (List.cons.inj hk).2
          · rwa [withKey_cons_neg key xs hak, withKey_cons_neg key ys hak] at hk

/-! ## The stable sort -/

theorem leKey_trans (a b c : α) (hab : decide (key a ≤ key b) = true)
    (hbc : decide (key b ≤ key c) = true) : decide (key a ≤ key c) = true := by
  simp only [decide_eq_true_eq] at hab hbc ⊢
  exact hab.trans hbc

theorem leKey_total (a b : α) :
    (decide (key a ≤ key b) || decide (key b ≤ key a)) = true := by
  simpa using le_total (key a) (key b)

theorem stableSort_perm (xs : List α) : (stableSort key xs).Perm xs :=
  List.mergeSort_perm xs _

@[simp] theorem length_stableSort (xs : List α) :
    (stableSort key xs).length = xs.length := by
  simp [stableSort]

theorem stableSort_ascending (xs : List α) : Ascending key (stableSort key xs) := by
  have h : (stableSort key xs).Pairwise (fun a b => decide (key a ≤ key b) = true) :=
    List.pairwise_mergeSort (leKey_trans key) (leKey_total key) xs
  exact h.imp (fun hab => by simpa using hab)

/-- Stability: the items of one key keep their order. -/
theorem withKey_stableSort (k : κ) (xs : List α) :
    withKey key k (stableSort key xs) = withKey key k xs := by
  -- items of one key are in order, so the sort keeps them as a sublist
  have hpair : (withKey key k xs).Pairwise (fun a b => decide (key a ≤ key b) = true) := by
    refine List.pairwise_of_forall_mem_list ?_
    intro a ha b hb
    have hab : key a = key b :=
      ((mem_withKey key).1 ha).2.trans ((mem_withKey key).1 hb).2.symm
    simpa using hab.le
  have hsub : List.Sublist (withKey key k xs) (stableSort key xs) :=
    List.sublist_mergeSort (leKey_trans key) (leKey_total key) hpair List.filter_sublist
  have hfilter : List.Sublist (withKey key k xs) (withKey key k (stableSort key xs)) := by
    have h := hsub.filter (fun a => decide (key a = k))
    simpa [withKey] using h
  -- and it has no more of them
  have hlen : (withKey key k (stableSort key xs)).length ≤ (withKey key k xs).length :=
    Nat.le_of_eq ((stableSort_perm key xs).filter _).length_eq
  exact (hfilter.eq_of_length_le hlen).symm

/-- Sorting the reverse of a concatenation merges the sorted reverses, later part on the right. -/
theorem stableSort_reverse_append (xs ys : List α) :
    stableSort key (xs ++ ys).reverse =
      mergeRight key (stableSort key xs.reverse) (stableSort key ys.reverse) := by
  have hx := stableSort_ascending key xs.reverse
  have hy := stableSort_ascending key ys.reverse
  -- both sides ascend, so they are compared one key at a time
  refine eq_of_withKey_eq key (stableSort_ascending key _) (mergeRight_ascending key hx hy) ?_
  intro k
  rw [withKey_mergeRight key k hx hy]
  simp [withKey_stableSort]

theorem firstMatch_stableSort (k : κ) (xs : List α) :
    firstMatch key k (stableSort key xs) = firstMatch key k xs := by
  rw [firstMatch_eq_head?, withKey_stableSort, ← firstMatch_eq_head?]

/-! ## First match in a merge -/

theorem firstMatch_mergeRight (k : κ) {xs ys : List α}
    (hx : Ascending key xs) (hy : Ascending key ys) :
    firstMatch key k (mergeRight key xs ys) =
      (firstMatch key k ys).or (firstMatch key k xs) := by
  rw [firstMatch_eq_head?, withKey_mergeRight key k hx hy, ← withKey_append,
    ← firstMatch_eq_head?, firstMatch_append]

theorem firstMatch_mergeRight_of_not_right (k : κ) {xs ys : List α}
    (hy : ∀ b ∈ ys, key b ≠ k) :
    firstMatch key k (mergeRight key xs ys) = firstMatch key k xs := by
  induction xs, ys using merge_induction key with
  | nil_left ys =>
      rw [mergeRight_nil_left, (firstMatch_eq_none key).2 hy]
      rfl
  | nil_right a xs =>
      rw [mergeRight_nil_right]
  | left a xs b ys h ih =>
      rw [mergeRight_cons_left key xs ys h]
      by_cases hk : key a = k
      · rw [firstMatch_cons_pos key _ hk, firstMatch_cons_pos key _ hk]
      · rw [firstMatch_cons_neg key _ hk, firstMatch_cons_neg key _ hk, ih hy]
  | right a xs b ys h ih =>
      rw [mergeRight_cons_right key xs ys h,
        firstMatch_cons_neg key _ (hy b List.mem_cons_self)]
      exact ih (fun c hc => hy c (List.mem_cons_of_mem b hc))

theorem firstMatch_mergeRight_of_not_left (k : κ) {xs ys : List α}
    (hx : ∀ a ∈ xs, key a ≠ k) :
    firstMatch key k (mergeRight key xs ys) = firstMatch key k ys := by
  induction xs, ys using merge_induction key with
  | nil_left ys =>
      rw [mergeRight_nil_left]
  | nil_right a xs =>
      rw [mergeRight_nil_right, (firstMatch_eq_none key).2 hx]
      rfl
  | left a xs b ys h ih =>
      rw [mergeRight_cons_left key xs ys h,
        firstMatch_cons_neg key _ (hx a List.mem_cons_self)]
      exact ih (fun c hc => hx c (List.mem_cons_of_mem a hc))
  | right a xs b ys h ih =>
      rw [mergeRight_cons_right key xs ys h]
      by_cases hk : key b = k
      · rw [firstMatch_cons_pos key _ hk, firstMatch_cons_pos key _ hk]
      · rw [firstMatch_cons_neg key _ hk, firstMatch_cons_neg key _ hk, ih hx]

/-- Every item the right list holds before its first `k` is bounded by `k` or by an item the left
list holds before its own first `k`: nothing delays the right list's `k` past the left one's. -/
def RightReaches (k : κ) (xs ys : List α) : Prop :=
  ∀ b ∈ before key k ys, key b ≤ k ∨ ∃ a ∈ before key k xs, key b ≤ key a

/-- The left list's first item has the key, and the right list waits behind it. -/
theorem not_rightReaches_of_lt {k : κ} {a b : α} (xs ys : List α) (hak : key a = k)
    (h : key a < key b) : ¬ RightReaches key k (a :: xs) (b :: ys) := by
  intro hreach
  have hbk : key b ≠ k := fun hbk => absurd (hak.trans hbk.symm) h.ne
  have hb := hreach b (by simp [before_cons_neg key ys hbk])
  rw [before_cons_pos key xs hak] at hb
  rcases hb with hb | ⟨c, hc, -⟩
  · exact absurd (hb.trans hak.ge) h.not_ge
  · cases hc

/-- An item that leaves the left list first bounds nothing that the right list's first item does not
need a larger bound for. -/
theorem rightReaches_cons_left_iff {k : κ} {a b : α} (xs ys : List α) (hak : key a ≠ k)
    (h : key a < key b) :
    RightReaches key k (a :: xs) (b :: ys) ↔ RightReaches key k xs (b :: ys) := by
  unfold RightReaches
  rw [before_cons_neg key xs hak]
  constructor
  · intro hreach c hc
    rcases hreach c hc with hck | ⟨d, hd, hcd⟩
    · exact Or.inl hck
    · rcases List.mem_cons.1 hd with rfl | hd
      · by_cases hbk : key b = k
        · rw [before_cons_pos key ys hbk] at hc
          cases hc
        · rcases hreach b (by simp [before_cons_neg key ys hbk]) with hb | ⟨e, he, hbe⟩
          · exact Or.inl (hcd.trans (h.le.trans hb))
          · rcases List.mem_cons.1 he with rfl | he
            · exact absurd hbe h.not_ge
            · exact Or.inr ⟨e, he, hcd.trans (h.le.trans hbe)⟩
      · exact Or.inr ⟨d, hd, hcd⟩
  · intro hreach c hc
    rcases hreach c hc with hck | ⟨d, hd, hcd⟩
    · exact Or.inl hck
    · exact Or.inr ⟨d, List.mem_cons_of_mem a hd, hcd⟩

/-- An item that leaves the right list first is bounded by the left list's first item. -/
theorem rightReaches_cons_right_iff {k : κ} {a b : α} (xs ys : List α) (hbk : key b ≠ k)
    (h : key b ≤ key a) :
    RightReaches key k (a :: xs) (b :: ys) ↔ RightReaches key k (a :: xs) ys := by
  have hb : key b ≤ k ∨ ∃ c ∈ before key k (a :: xs), key b ≤ key c := by
    by_cases hak : key a = k
    · exact Or.inl (h.trans hak.le)
    · exact Or.inr ⟨a, by simp [before_cons_neg key xs hak], h⟩
  unfold RightReaches
  rw [before_cons_neg key ys hbk]
  simp [hb]

/-- In an arbitrary merge the right list's first `k` is found exactly when it is not delayed. -/
theorem firstMatch_mergeRight_of_mem (k : κ) {xs ys : List α}
    (hx : ∃ a ∈ xs, key a = k) (hy : ∃ b ∈ ys, key b = k) :
    (RightReaches key k xs ys → firstMatch key k (mergeRight key xs ys) = firstMatch key k ys) ∧
      (¬ RightReaches key k xs ys →
        firstMatch key k (mergeRight key xs ys) = firstMatch key k xs) := by
  induction xs, ys using merge_induction key with
  | nil_left ys =>
      simp at hx
  | nil_right a xs =>
      simp at hy
  | left a xs b ys h ih =>
      rw [mergeRight_cons_left key xs ys h]
      by_cases hak : key a = k
      · -- the left `k` is out first
        have hdelay := not_rightReaches_of_lt key xs ys hak h
        refine ⟨fun hreach => absurd hreach hdelay, fun _ => ?_⟩
        rw [firstMatch_cons_pos key _ hak, firstMatch_cons_pos key _ hak]
      · have hx' : ∃ c ∈ xs, key c = k := by
          simpa [hak] using hx
        rw [firstMatch_cons_neg key _ hak, firstMatch_cons_neg key _ hak,
          rightReaches_cons_left_iff key xs ys hak h]
        exact ih hx' hy
  | right a xs b ys h ih =>
      rw [mergeRight_cons_right key xs ys h]
      by_cases hbk : key b = k
      · have hreach : RightReaches key k (a :: xs) (b :: ys) := by
          intro c hc
          rw [before_cons_pos key ys hbk] at hc
          cases hc
        refine ⟨fun _ => ?_, fun hdelay => absurd hreach hdelay⟩
        rw [firstMatch_cons_pos key _ hbk, firstMatch_cons_pos key _ hbk]
      · have hy' : ∃ c ∈ ys, key c = k := by
          simpa [hbk] using hy
        rw [firstMatch_cons_neg key _ hbk, firstMatch_cons_neg key ys hbk,
          rightReaches_cons_right_iff key xs ys hbk (not_lt.1 h)]
        exact ih hx hy'

/-! ## Replacing the first match -/

/-- The list with `a` in the place of its first item of key `k`. -/
def setFirst (k : κ) (a : α) : List α → List α
  | [] => []
  | x :: xs => if key x = k then a :: xs else x :: setFirst k a xs

@[simp] theorem length_setFirst (k : κ) (a : α) (xs : List α) :
    (setFirst key k a xs).length = xs.length := by
  induction xs with
  | nil => rfl
  | cons x xs ih =>
      by_cases hx : key x = k
      · simp [setFirst, hx]
      · simp [setFirst, hx, ih]

/-- A replacement of the same key leaves the sequence of keys as it is. -/
theorem map_key_setFirst {k : κ} {a : α} (ha : key a = k) (xs : List α) :
    (setFirst key k a xs).map key = xs.map key := by
  induction xs with
  | nil => rfl
  | cons x xs ih =>
      by_cases hx : key x = k
      · simp [setFirst, hx, ha]
      · simp [setFirst, hx, ih]

theorem firstMatch_setFirst_of_ne {k k' : κ} {a : α} (ha : key a = k) (hk : k' ≠ k)
    (xs : List α) : firstMatch key k' (setFirst key k a xs) = firstMatch key k' xs := by
  induction xs with
  | nil => rfl
  | cons x xs ih =>
      by_cases hx : key x = k
      · have hax : key a ≠ k' := fun h => hk (h.symm.trans ha)
        have hxx : key x ≠ k' := fun h => hk (h.symm.trans hx)
        simp only [setFirst, if_pos hx]
        rw [firstMatch_cons_neg key xs hax, firstMatch_cons_neg key xs hxx]
      · simp only [setFirst, if_neg hx]
        by_cases hxx : key x = k'
        · rw [firstMatch_cons_pos key _ hxx, firstMatch_cons_pos key _ hxx]
        · rw [firstMatch_cons_neg key _ hxx, firstMatch_cons_neg key _ hxx, ih]

/-- Among the items of key `k` the replacement takes the first place. -/
theorem withKey_setFirst {k : κ} {a : α} (ha : key a = k) {xs : List α}
    (hxs : ∃ x ∈ xs, key x = k) :
    withKey key k (setFirst key k a xs) = a :: (withKey key k xs).tail := by
  induction xs with
  | nil => simp at hxs
  | cons x xs ih =>
      by_cases hx : key x = k
      · simp only [setFirst, if_pos hx]
        rw [withKey_cons_pos key xs ha, withKey_cons_pos key xs hx, List.tail_cons]
      · have hxs' : ∃ y ∈ xs, key y = k := by
          simpa [hx] using hxs
        simp only [setFirst, if_neg hx]
        rw [withKey_cons_neg key _ hx, withKey_cons_neg key _ hx, ih hxs']

theorem firstMatch_setFirst {k : κ} {a : α} (ha : key a = k) {xs : List α}
    (hxs : ∃ x ∈ xs, key x = k) : firstMatch key k (setFirst key k a xs) = some a := by
  rw [firstMatch_eq_head?, withKey_setFirst key ha hxs, List.head?_cons]

theorem lastMatch_eq_getLast? (k : κ) (xs : List α) :
    lastMatch key k xs = (withKey key k xs).getLast? := by
  rw [lastMatch, firstMatch_eq_head?, withKey_reverse, List.head?_reverse]

/-- The replacement is also the last item of its key when there was only one; otherwise the last
item is the old one. -/
theorem lastMatch_setFirst_eq_iff {k : κ} {a : α} (ha : key a = k) {xs : List α}
    (hxs : ∃ x ∈ xs, key x = k) :
    lastMatch key k (setFirst key k a xs) = some a ↔
      (withKey key k xs).length = 1 ∨ lastMatch key k xs = some a := by
  rw [lastMatch_eq_getLast?, lastMatch_eq_getLast?, withKey_setFirst key ha hxs]
  cases hw : withKey key k xs with
  | nil =>
      rcases hxs with ⟨x, hx, hkey⟩
      exact absurd hkey ((withKey_eq_nil key).1 hw x hx)
  | cons x ys =>
      cases ys with
      | nil => simp
      | cons y ys => simp [List.getLast?_cons_cons]

end KeyedMerge
