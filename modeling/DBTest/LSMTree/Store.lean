import Mathlib.Algebra.Order.Group.Nat
import Mathlib.Data.List.Induction
import Mathlib.Data.Nat.Basic
import DBTest.Library.KeyedMerge

/-!
# Store — a buffered store with one run on disk

What an LSM tree of one level is for, without memory, bytes or machine integers: items are appended
to a bounded buffer, and a full buffer is merged into the run on disk before the next item is taken.
The model is generic in the items and their keys.

`puts_buffer` and `puts_disk` say exactly which items are where after any sequence of puts; what a
reader sees (`lookup`) and how the run is ordered are derived from them.
-/

namespace DBTest
namespace LSMTree

open KeyedMerge

/-- A buffer of at most `cap` items over a run on disk. -/
@[ext] structure Store (α : Type*) where
  cap : Nat
  cap_pos : 0 < cap
  sorted : Bool
  disk : List α
  buffer : List α
  buffer_le : buffer.length ≤ cap

namespace Store

section

variable {α κ : Type*} [LinearOrder κ] (key : α → κ)

/-! ## Operations -/

/-- The run on disk after a block of items has been flushed into it. -/
def flushInto (sorted : Bool) (disk block : List α) : List α :=
  mergeRight key disk (if sorted then stableSort key block.reverse else block)

def put (s : Store α) (a : α) : Store α :=
  if h : s.buffer.length = s.cap then
    { s with
      disk := flushInto key s.sorted s.disk s.buffer
      buffer := [a]
      buffer_le := s.cap_pos }
  else
    { s with
      buffer := s.buffer ++ [a]
      buffer_le := by
        have := s.buffer_le
        rw [List.length_append, List.length_singleton]
        omega }

def puts (s : Store α) (as : List α) : Store α :=
  as.foldl (put key) s

/-- What a reader finds for `k`: the first match in the buffer, else the first match on disk. -/
def lookup (s : Store α) (k : κ) : Option α :=
  (firstMatch key k s.buffer).or (firstMatch key k s.disk)

/-- A store over a given run, with nothing buffered. -/
def opened (cap : Nat) (hcap : 0 < cap) (sorted : Bool) (disk : List α) : Store α :=
  { cap := cap
    cap_pos := hcap
    sorted := sorted
    disk := disk
    buffer := []
    buffer_le := Nat.zero_le cap }

/-- The blocks that putting `as` into an empty buffer flushes: every full block but the last items,
which stay buffered until one more item arrives. -/
def blocks (cap : Nat) (as : List α) : List (List α) :=
  (List.range ((as.length - 1) / cap)).map (fun j => (as.drop (j * cap)).take cap)

/-! ## One put -/

@[simp] theorem put_cap (s : Store α) (a : α) : (s.put key a).cap = s.cap := by
  unfold put
  split <;> rfl

@[simp] theorem put_sorted (s : Store α) (a : α) : (s.put key a).sorted = s.sorted := by
  unfold put
  split <;> rfl

theorem put_of_full {s : Store α} (h : s.buffer.length = s.cap) (a : α) :
    (s.put key a).buffer = [a] ∧ (s.put key a).disk = flushInto key s.sorted s.disk s.buffer := by
  unfold put
  rw [dif_pos h]
  exact ⟨rfl, rfl⟩

theorem put_of_not_full {s : Store α} (h : s.buffer.length ≠ s.cap) (a : α) :
    (s.put key a).buffer = s.buffer ++ [a] ∧ (s.put key a).disk = s.disk := by
  unfold put
  rw [dif_neg h]
  exact ⟨rfl, rfl⟩

theorem flushInto_perm (sorted : Bool) (disk block : List α) :
    (flushInto key sorted disk block).Perm (disk ++ block) := by
  -- sorting only rearranges the block
  have hblock : (if sorted then stableSort key block.reverse else block).Perm block := by
    cases sorted with
    | false => exact List.Perm.refl block
    | true => exact (stableSort_perm key block.reverse).trans (List.reverse_perm block)
  exact (mergeRight_perm key disk _).trans (List.Perm.append_left disk hblock)

theorem length_flushInto (sorted : Bool) (disk block : List α) :
    (flushInto key sorted disk block).length = disk.length + block.length := by
  simpa using (flushInto_perm key sorted disk block).length_eq

/-- No item is lost or duplicated by a put. -/
theorem put_perm (s : Store α) (a : α) :
    ((s.put key a).disk ++ (s.put key a).buffer).Perm (s.disk ++ s.buffer ++ [a]) := by
  by_cases h : s.buffer.length = s.cap
  · rcases put_of_full key h a with ⟨hbuf, hdisk⟩
    rw [hbuf, hdisk]
    exact (flushInto_perm key s.sorted s.disk s.buffer).append_right [a]
  · rcases put_of_not_full key h a with ⟨hbuf, hdisk⟩
    rw [hbuf, hdisk, List.append_assoc]

/-! ## Sequences of puts -/

theorem puts_concat (s : Store α) (as : List α) (a : α) :
    s.puts key (as ++ [a]) = (s.puts key as).put key a := by
  simp [puts, List.foldl_append]

theorem puts_append (s : Store α) (as bs : List α) :
    s.puts key (as ++ bs) = (s.puts key as).puts key bs := by
  simp [puts, List.foldl_append]

@[simp] theorem puts_cap (s : Store α) (as : List α) : (s.puts key as).cap = s.cap := by
  induction as using List.reverseRecOn with
  | nil => rfl
  | append_singleton as a ih => rw [puts_concat, put_cap, ih]

@[simp] theorem puts_sorted (s : Store α) (as : List α) :
    (s.puts key as).sorted = s.sorted := by
  induction as using List.reverseRecOn with
  | nil => rfl
  | append_singleton as a ih => rw [puts_concat, put_sorted, ih]

/-- Of `n` items at most one block stays buffered. -/
theorem buffered_le_cap {cap : Nat} (hcap : 0 < cap) (n : Nat) :
    n - (n - 1) / cap * cap ≤ cap := by
  have hdiv := Nat.div_add_mod (n - 1) cap
  have hmod := Nat.mod_lt (n - 1) hcap
  rw [Nat.mul_comm] at hdiv
  omega

/-- A buffer that is not full after `n` items leaves the number of flushed blocks as it is. -/
theorem flushed_of_not_full {cap n : Nat} (hlt : n - (n - 1) / cap * cap < cap) :
    n / cap = (n - 1) / cap := by
  have hle : (n - 1) / cap * cap ≤ n - 1 := Nat.div_mul_le_self (n - 1) cap
  refine Nat.div_eq_of_lt_le ?_ ?_
  · omega
  · rw [Nat.succ_mul]
    omega

/-- A full buffer is one more block. -/
theorem flushed_of_full {cap n : Nat} (hcap : 0 < cap) (heq : n - (n - 1) / cap * cap = cap) :
    n / cap = (n - 1) / cap + 1 := by
  have hn : n = ((n - 1) / cap + 1) * cap := by
    rw [Nat.succ_mul]
    omega
  exact Nat.div_eq_of_eq_mul_left hcap hn

theorem div_mul_of_full {cap n : Nat} (hcap : 0 < cap) (heq : n - (n - 1) / cap * cap = cap) :
    n / cap * cap = n := by
  rw [flushed_of_full hcap heq, Nat.succ_mul]
  omega

theorem blocks_concat_of_not_full {cap : Nat} {as : List α} (a : α)
    (h : as.length / cap = (as.length - 1) / cap) :
    blocks cap (as ++ [a]) = blocks cap as := by
  have hlen : (as ++ [a]).length - 1 = as.length := by simp
  rw [blocks, blocks, hlen, h]
  refine List.map_congr_left ?_
  intro j hj
  have hle : (as.length - 1) / cap * cap ≤ as.length - 1 := Nat.div_mul_le_self _ cap
  have hmul : (j + 1) * cap ≤ (as.length - 1) / cap * cap :=
    Nat.mul_le_mul_right cap (List.mem_range.1 hj)
  rw [Nat.succ_mul] at hmul
  rw [List.drop_append_of_le_length (by omega), List.take_append_of_le_length]
  rw [List.length_drop]
  omega

theorem blocks_concat_of_full {cap : Nat} {as : List α} (a : α)
    (h : as.length / cap = (as.length - 1) / cap + 1) :
    blocks cap (as ++ [a]) = blocks cap as ++ [as.drop ((as.length - 1) / cap * cap)] := by
  have hlen : (as ++ [a]).length - 1 = as.length := by simp
  have hle : as.length / cap * cap ≤ as.length := Nat.div_mul_le_self _ cap
  rw [h, Nat.succ_mul] at hle
  -- every block, the new one included, lies inside `as`
  have hinside : ∀ j, j ≤ (as.length - 1) / cap →
      ((as ++ [a]).drop (j * cap)).take cap = (as.drop (j * cap)).take cap := by
    intro j hj
    have hmul : j * cap ≤ (as.length - 1) / cap * cap := Nat.mul_le_mul_right cap hj
    rw [List.drop_append_of_le_length (by omega), List.take_append_of_le_length]
    rw [List.length_drop]
    omega
  have hlast : (as.drop ((as.length - 1) / cap * cap)).take cap =
      as.drop ((as.length - 1) / cap * cap) := by
    refine List.take_of_length_le ?_
    have hcap : 0 < cap := Nat.pos_of_ne_zero (fun hc => by simp [hc] at h)
    simpa using buffered_le_cap hcap as.length
  rw [blocks, blocks, hlen, h, List.range_succ, List.map_append, List.map_singleton,
    hinside _ (Nat.le_refl _), hlast]
  congr 1
  refine List.map_congr_left ?_
  intro j hj
  exact hinside j (Nat.le_of_lt (List.mem_range.1 hj))

/-- Which items are still buffered after a sequence of puts into an empty buffer. -/
theorem puts_buffer {s : Store α} (hs : s.buffer = []) (as : List α) :
    (s.puts key as).buffer = as.drop ((as.length - 1) / s.cap * s.cap) := by
  induction as using List.reverseRecOn with
  | nil => simpa [puts] using hs
  | append_singleton as a ih =>
      have hlen : (as ++ [a]).length - 1 = as.length := by simp
      have hbuf : (s.puts key as).buffer.length =
          as.length - (as.length - 1) / s.cap * s.cap := by
        rw [ih, List.length_drop]
      have hle : as.length / s.cap * s.cap ≤ as.length := Nat.div_mul_le_self _ _
      rw [puts_concat, hlen]
      by_cases h : (s.puts key as).buffer.length = (s.puts key as).cap
      · -- the full buffer is flushed and only `a` is buffered
        have heq : as.length - (as.length - 1) / s.cap * s.cap = s.cap := by
          rw [← hbuf, h, puts_cap]
        rw [(put_of_full key h a).1, div_mul_of_full s.cap_pos heq]
        simp
      · have hlt : as.length - (as.length - 1) / s.cap * s.cap < s.cap := by
          rw [puts_cap] at h
          have := buffered_le_cap s.cap_pos as.length
          omega
        have hsame := flushed_of_not_full hlt
        -- nothing is flushed, so the same items are dropped as before
        rw [(put_of_not_full key h a).1, ih, hsame,
          List.drop_append_of_le_length (by rw [← hsame]; exact hle)]

/-- The run on disk after a sequence of puts into an empty buffer: the blocks, flushed in order. -/
theorem puts_disk {s : Store α} (hs : s.buffer = []) (as : List α) :
    (s.puts key as).disk = (blocks s.cap as).foldl (flushInto key s.sorted) s.disk := by
  induction as using List.reverseRecOn with
  | nil => simp [puts, blocks]
  | append_singleton as a ih =>
      have hbuffer := puts_buffer key hs as
      have hbuf : (s.puts key as).buffer.length =
          as.length - (as.length - 1) / s.cap * s.cap := by
        rw [hbuffer, List.length_drop]
      rw [puts_concat]
      by_cases h : (s.puts key as).buffer.length = (s.puts key as).cap
      · have hfull : as.length / s.cap = (as.length - 1) / s.cap + 1 := by
          -- the full buffer is the next block
          refine flushed_of_full s.cap_pos ?_
          rw [← hbuf, h, puts_cap]
        rw [(put_of_full key h a).2, blocks_concat_of_full a hfull, List.foldl_append, ← ih,
          ← hbuffer, puts_sorted]
        rfl
      · have hlt : as.length - (as.length - 1) / s.cap * s.cap < s.cap := by
          rw [puts_cap] at h
          have := buffered_le_cap s.cap_pos as.length
          omega
        rw [(put_of_not_full key h a).2, blocks_concat_of_not_full a (flushed_of_not_full hlt), ih]

/-- Every store is what a store without buffered items becomes by putting its buffer. -/
theorem opened_puts_buffer (s : Store α) :
    (opened s.cap s.cap_pos s.sorted s.disk).puts key s.buffer = s := by
  have hzero : (s.buffer.length - 1) / s.cap = 0 := by
    have hle := s.buffer_le
    have hpos := s.cap_pos
    exact Nat.div_eq_of_lt (by omega)
  have hbuffer : ((opened s.cap s.cap_pos s.sorted s.disk).puts key s.buffer).buffer = s.buffer := by
    rw [puts_buffer key rfl]
    simp [opened, hzero]
  have hdisk : ((opened s.cap s.cap_pos s.sorted s.disk).puts key s.buffer).disk = s.disk := by
    rw [puts_disk key rfl]
    simp [opened, blocks, hzero]
  ext1
  · exact puts_cap key _ _
  · exact puts_sorted key _ _
  · exact hdisk
  · exact hbuffer

/-- When the buffer is full, the next put has all items so far flushed. -/
theorem flushed_all_of_full {s : Store α} {as : List α}
    (h : (s.puts key as).buffer.length = s.cap) :
    (s.buffer.length + as.length) / s.cap * s.cap = s.buffer.length + as.length := by
  rw [← opened_puts_buffer key s, ← puts_append, puts_buffer key rfl, List.length_drop,
    puts_cap, List.length_append] at h
  exact div_mul_of_full s.cap_pos h

theorem puts_perm (s : Store α) (as : List α) :
    ((s.puts key as).disk ++ (s.puts key as).buffer).Perm (s.disk ++ s.buffer ++ as) := by
  induction as using List.reverseRecOn with
  | nil => simp [puts]
  | append_singleton as a ih =>
      rw [puts_concat, ← List.append_assoc]
      exact (put_perm key (s.puts key as) a).trans (ih.append_right [a])

/-- The flushed blocks, one after the other, are the items that are no longer buffered. -/
theorem flatten_blocks (cap : Nat) (as : List α) :
    (blocks cap as).flatten = as.take ((as.length - 1) / cap * cap) := by
  have hprefix : ∀ m, m * cap ≤ as.length →
      ((List.range m).map (fun j => (as.drop (j * cap)).take cap)).flatten =
        as.take (m * cap) := by
    intro m
    induction m with
    | zero => intro _; simp
    | succ m ih =>
        intro hle
        rw [Nat.succ_mul] at hle
        rw [List.range_succ, List.map_append, List.flatten_append, ih (by omega), Nat.succ_mul,
          List.take_add]
        simp
  have hle : (as.length - 1) / cap * cap ≤ as.length - 1 := Nat.div_mul_le_self _ _
  exact hprefix _ (by omega)

/-! ## The order of the run -/

/-- Flushed sorted, the run is the stable sort of the reverse of everything flushed. -/
theorem foldl_flushInto_sorted (flushed : List α) (bs : List (List α)) :
    bs.foldl (flushInto key true) (stableSort key flushed.reverse) =
      stableSort key (flushed ++ bs.flatten).reverse := by
  induction bs using List.reverseRecOn with
  | nil => simp
  | append_singleton bs b ih =>
      have hflush : flushInto key true (stableSort key (flushed ++ bs.flatten).reverse) b =
          stableSort key (flushed ++ bs.flatten ++ b).reverse := by
        rw [stableSort_reverse_append key (flushed ++ bs.flatten) b]
        rfl
      rw [List.foldl_append, ih]
      simpa using hflush

/-- One flush leaves an ascending run exactly when the run was ascending and the block is sorted
by the flush or ascending already. -/
theorem flushInto_ascending_iff (sorted : Bool) (disk block : List α) :
    Ascending key (flushInto key sorted disk block) ↔
      Ascending key disk ∧ (sorted = false → Ascending key block) := by
  rw [flushInto, mergeRight_ascending_iff]
  cases sorted with
  | false => simp
  | true => simp [stableSort_ascending]

theorem foldl_flushInto_ascending_iff (sorted : Bool) (disk : List α) (bs : List (List α)) :
    Ascending key (bs.foldl (flushInto key sorted) disk) ↔
      Ascending key disk ∧ (sorted = false → ∀ b ∈ bs, Ascending key b) := by
  induction bs using List.reverseRecOn with
  | nil => simp
  | append_singleton bs b ih =>
      rw [List.foldl_append]
      simp only [List.foldl_cons, List.foldl_nil, flushInto_ascending_iff, ih]
      constructor
      · rintro ⟨⟨hd, hbs⟩, hb⟩
        refine ⟨hd, ?_⟩
        intro hsorted c hc
        rcases List.mem_append.1 hc with hc | hc
        · exact hbs hsorted c hc
        · rw [List.mem_singleton.1 hc]
          exact hb hsorted
      · rintro ⟨hd, hall⟩
        refine ⟨⟨hd, ?_⟩, ?_⟩
        · intro hsorted c hc
          exact hall hsorted c (List.mem_append_left [b] hc)
        · intro hsorted
          exact hall hsorted b (by simp)

theorem put_ascending {s : Store α} (hs : s.sorted = true) (hd : Ascending key s.disk) (a : α) :
    Ascending key (s.put key a).disk := by
  by_cases h : s.buffer.length = s.cap
  · rw [(put_of_full key h a).2, flushInto_ascending_iff]
    refine ⟨hd, ?_⟩
    intro hfalse
    rw [hs] at hfalse
    cases hfalse
  · rw [(put_of_not_full key h a).2]
    exact hd

/-! ## What a reader sees -/

/-- After a sorted flush the newest item of the block is found first. -/
theorem firstMatch_flushInto_sorted {disk : List α} (hd : Ascending key disk) (block : List α)
    (k : κ) :
    firstMatch key k (flushInto key true disk block) =
      (lastMatch key k block).or (firstMatch key k disk) := by
  rw [flushInto, if_pos rfl, firstMatch_mergeRight key k hd (stableSort_ascending key _),
    firstMatch_stableSort, lastMatch]

/-- After an unsorted flush a reader finds for `k` what it found before exactly when `k` was only in
one of the two places, or the block's `k` is not delayed in the merge, or the two items are equal. -/
theorem firstMatch_flushInto_unsorted_iff (disk block : List α) (k : κ) :
    firstMatch key k (flushInto key false disk block) =
        (firstMatch key k block).or (firstMatch key k disk) ↔
      (∀ b ∈ block, key b ≠ k) ∨ (∀ a ∈ disk, key a ≠ k) ∨ RightReaches key k disk block ∨
        firstMatch key k block = firstMatch key k disk := by
  have hflush : flushInto key false disk block = mergeRight key disk block := rfl
  rw [hflush]
  by_cases hblock : ∀ b ∈ block, key b ≠ k
  · rw [firstMatch_mergeRight_of_not_right key k hblock, (firstMatch_eq_none key).2 hblock]
    exact ⟨fun _ => Or.inl hblock, fun _ => rfl⟩
  · by_cases hdisk : ∀ a ∈ disk, key a ≠ k
    · rw [firstMatch_mergeRight_of_not_left key k hdisk, (firstMatch_eq_none key).2 hdisk,
        Option.or_none]
      exact ⟨fun _ => Or.inr (Or.inl hdisk), fun _ => rfl⟩
    · -- both places hold the key: the merge decides
      have hdisk' : ∃ a ∈ disk, key a = k := by
        simpa using hdisk
      have hblock' : ∃ b ∈ block, key b = k := by
        simpa using hblock
      have hmerge := firstMatch_mergeRight_of_mem key k hdisk' hblock'
      have hor : (firstMatch key k block).or (firstMatch key k disk) = firstMatch key k block := by
        cases hb : firstMatch key k block with
        | none => exact absurd ((firstMatch_eq_none key).1 hb) hblock
        | some b => rfl
      rw [hor]
      by_cases hreach : RightReaches key k disk block
      · exact ⟨fun _ => Or.inr (Or.inr (Or.inl hreach)), fun _ => hmerge.1 hreach⟩
      · rw [hmerge.2 hreach]
        constructor
        · intro heq
          exact Or.inr (Or.inr (Or.inr heq.symm))
        · rintro (h | h | h | heq)
          · exact absurd h hblock
          · exact absurd h hdisk
          · exact absurd h hreach
          · exact heq.symm

/-- In sorted mode a put of another key is invisible for `k` exactly when it does not flush, or when
the oldest and the newest buffered item of `k` are the same. -/
theorem lookup_put_iff {s : Store α} (hs : s.sorted = true) (hd : Ascending key s.disk) {a : α}
    {k : κ} (hk : key a ≠ k) :
    lookup key (s.put key a) k = lookup key s k ↔
      s.buffer.length ≠ s.cap ∨ firstMatch key k s.buffer = lastMatch key k s.buffer := by
  have hnew : firstMatch key k [a] = none := by simp [firstMatch, hk]
  by_cases h : s.buffer.length = s.cap
  · rcases put_of_full key h a with ⟨hbuf, hdisk⟩
    have hafter : lookup key (s.put key a) k =
        (lastMatch key k s.buffer).or (firstMatch key k s.disk) := by
      rw [lookup, hbuf, hdisk, hnew, hs, firstMatch_flushInto_sorted key hd]
      rfl
    rw [hafter, lookup]
    constructor
    · intro heq
      refine Or.inr ?_
      cases hf : firstMatch key k s.buffer with
      | none =>
          exact ((firstMatch_eq_none_iff_lastMatch key).1 hf).symm
      | some b =>
          cases hl : lastMatch key k s.buffer with
          | none =>
              rw [(firstMatch_eq_none_iff_lastMatch key).2 hl] at hf
              cases hf
          | some c =>
              rw [hf, hl] at heq
              exact heq.symm
    · rintro (hne | heq)
      · exact absurd h hne
      · rw [heq]
  · rcases put_of_not_full key h a with ⟨hbuf, hdisk⟩
    have hsame : lookup key (s.put key a) k = lookup key s k := by
      rw [lookup, hbuf, hdisk, firstMatch_append, hnew, Option.or_none]
      rfl
    exact ⟨fun _ => Or.inl h, fun _ => hsame⟩

/-- Where the items are after puts of keys other than `k`: before the first flush the buffer has grown;
afterwards no item of key `k` is buffered, and the run shows the newest one that was. -/
theorem puts_of_ne {s : Store α} (hs : s.sorted = true) (hd : Ascending key s.disk) {k : κ}
    {as : List α} (hk : ∀ a ∈ as, key a ≠ k) :
    Ascending key (s.puts key as).disk ∧
      ((s.buffer.length + as.length ≤ s.cap ∧ (s.puts key as).buffer = s.buffer ++ as ∧
          (s.puts key as).disk = s.disk) ∨
        (s.cap < s.buffer.length + as.length ∧ firstMatch key k (s.puts key as).buffer = none ∧
          firstMatch key k (s.puts key as).disk =
            (lastMatch key k s.buffer).or (firstMatch key k s.disk))) := by
  induction as using List.reverseRecOn with
  | nil =>
      exact ⟨hd, Or.inl ⟨s.buffer_le, (List.append_nil _).symm, rfl⟩⟩
  | append_singleton as a ih =>
      have hka : key a ≠ k := hk a (by simp)
      have hnew : firstMatch key k [a] = none := by simp [firstMatch, hka]
      have hall : ∀ b ∈ as, key b ≠ k := fun b hb => hk b (List.mem_append_left [a] hb)
      have hsorted : (s.puts key as).sorted = true := by rw [puts_sorted, hs]
      rcases ih hall with ⟨hasc, hcase⟩
      rw [puts_concat, List.length_append, List.length_singleton]
      refine ⟨put_ascending key hsorted hasc a, ?_⟩
      by_cases h : (s.puts key as).buffer.length = (s.puts key as).cap
      · rcases put_of_full key h a with ⟨hbuf, hdisk⟩
        refine Or.inr ⟨?_, ?_, ?_⟩
        · rcases hcase with ⟨-, hbuf', -⟩ | ⟨hlt, -, -⟩
          · rw [hbuf', List.length_append, puts_cap] at h
            omega
          · omega
        · rw [hbuf, hnew]
        · rw [hdisk, hsorted, firstMatch_flushInto_sorted key hasc]
          rcases hcase with ⟨-, hbuf', hdisk'⟩ | ⟨-, hnone, hfirst⟩
          · rw [hbuf', hdisk', lastMatch_append_of_ne key s.buffer hall]
          · rw [(firstMatch_eq_none_iff_lastMatch key).1 hnone, hfirst]
            rfl
      · rcases put_of_not_full key h a with ⟨hbuf, hdisk⟩
        rcases hcase with ⟨hle, hbuf', hdisk'⟩ | ⟨hlt, hnone, hfirst⟩
        · refine Or.inl ⟨?_, ?_, ?_⟩
          · rw [hbuf', List.length_append, puts_cap] at h
            omega
          · rw [hbuf, hbuf', List.append_assoc]
          · rw [hdisk, hdisk']
        · refine Or.inr ⟨by omega, ?_, ?_⟩
          · rw [hbuf, firstMatch_append, hnone, hnew]
            rfl
          · rw [hdisk, hfirst]

/-- What a reader finds for `k` after puts of other keys: the same as before as long as nothing is
flushed, and from the first flush on the newest buffered item of `k`, if there is one. -/
theorem lookup_puts {s : Store α} (hs : s.sorted = true) (hd : Ascending key s.disk) {k : κ}
    {as : List α} (hk : ∀ a ∈ as, key a ≠ k) :
    lookup key (s.puts key as) k =
      if s.buffer.length + as.length ≤ s.cap then lookup key s k
      else (lastMatch key k s.buffer).or (firstMatch key k s.disk) := by
  rcases (puts_of_ne key hs hd hk).2 with ⟨hle, hbuf, hdisk⟩ | ⟨hlt, hnone, hfirst⟩
  · have hnone : firstMatch key k as = none := (firstMatch_eq_none key).2 hk
    rw [if_pos hle, lookup, hbuf, hdisk, firstMatch_append, hnone, Option.or_none]
    rfl
  · rw [if_neg (by omega), lookup, hnone, hfirst]
    rfl

end

end Store

end LSMTree
end DBTest
