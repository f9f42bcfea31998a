import Mathlib.Data.List.Basic

/-!
# Tokens — cutting a text at a separator

`cutAt c text` is the text before the first `c` and the text behind it.  `tokens c` repeats the cut
the way a token iterator over the text between matches does: what stands behind the last separator
is a token only when it is not empty, while a text without a separator is one token, empty or not.

The split of the standard library keeps the last token in either case.  The two differ exactly by a
separator at the very end of the text (`tokens_eq_splitOn`).
-/

namespace Tokens

variable {α : Type*} [DecidableEq α]

/-! ## The first separator -/

/-- The text before the first `c` and the text behind it. -/
def cutAt (c : α) : List α → Option (List α × List α)
  | [] => none
  | x :: xs => if x = c then some ([], xs) else (cutAt c xs).map (fun p => (x :: p.1, p.2))

theorem eq_of_cutAt {c : α} {text before after : List α} (h : cutAt c text = some (before, after)) :
    text = before ++ c :: after ∧ c ∉ before := by
  induction text generalizing before after with
  | nil => cases h
  | cons x xs ih =>
      by_cases hx : x = c
      · rw [cutAt, if_pos hx] at h
        cases h
        simp [hx]
      · rw [cutAt, if_neg hx] at h
        rcases Option.map_eq_some_iff.1 h with ⟨⟨b, a⟩, hcut, heq⟩
        cases heq
        rcases ih hcut with ⟨htext, hnot⟩
        have hne : c ≠ x := fun heq => hx heq.symm
        exact ⟨by simp [htext], by simp [hne, hnot]⟩

theorem cutAt_eq_none {c : α} {text : List α} : cutAt c text = none ↔ c ∉ text := by
  induction text with
  | nil => simp [cutAt]
  | cons x xs ih =>
      by_cases hx : x = c
      · simp [cutAt, hx]
      · have hne : c ≠ x := fun heq => hx heq.symm
        simp [cutAt, hx, ih, hne]

theorem length_after_lt {c : α} {text before after : List α}
    (h : cutAt c text = some (before, after)) : after.length < text.length := by
  have htext := (eq_of_cutAt h).1
  simp only [htext, List.length_append, List.length_cons]
  omega

theorem cutAt_append_cons {c : α} {before : List α} (h : c ∉ before) (after : List α) :
    cutAt c (before ++ c :: after) = some (before, after) := by
  induction before with
  | nil => simp [cutAt]
  | cons x xs ih =>
      have hx : x ≠ c := fun heq => h (heq ▸ List.mem_cons_self)
      have hxs : c ∉ xs := fun hmem => h (List.mem_cons_of_mem x hmem)
      rw [List.cons_append, cutAt, if_neg hx, ih hxs]
      rfl

/-- The part before the first separator and the part behind it are determined by the text. -/
theorem append_cons_inj {c : α} {xs xs' ys ys' : List α} (hx : c ∉ xs) (hx' : c ∉ xs') :
    xs ++ c :: ys = xs' ++ c :: ys' ↔ xs = xs' ∧ ys = ys' := by
  constructor
  · intro h
    have hcut := congrArg (cutAt c) h
    rw [cutAt_append_cons hx, cutAt_append_cons hx'] at hcut
    cases hcut
    exact ⟨rfl, rfl⟩
  · rintro ⟨rfl, rfl⟩
    rfl

/-! ## The tokens of a text -/

/-- The tokens behind a separator. -/
def tokensAfter (c : α) (text : List α) : List (List α) :=
  match _h : cutAt c text with
  | some (before, after) => before :: tokensAfter c after
  | none => if text = [] then [] else [text]
termination_by text.length
decreasing_by exact length_after_lt _h

/-- The tokens of a whole text. -/
def tokens (c : α) (text : List α) : List (List α) :=
  match cutAt c text with
  | some (before, after) => before :: tokensAfter c after
  | none => [text]

/-- The text without a separator at its end. -/
def dropLastSep (c : α) (text : List α) : List α :=
  if text.getLast? = some c then text.dropLast else text

/-- A separator at the end is the same one behind any cut that leaves something. -/
theorem dropLastSep_append_cons (c : α) (before : List α) {after : List α} (h : after ≠ []) :
    dropLastSep c (before ++ c :: after) = before ++ c :: dropLastSep c after := by
  have hlast : (before ++ c :: after).getLast? = after.getLast? := by
    simp [List.getLast?_append, List.getLast?_cons, List.getLast?_eq_some_getLast h]
  by_cases hc : after.getLast? = some c
  · simp [dropLastSep, hlast, hc, List.dropLast_append_of_ne_nil, List.dropLast_cons_of_ne_nil h]
  · simp [dropLastSep, hlast, hc]

theorem dropLastSep_concat (c : α) (text : List α) : dropLastSep c (text ++ [c]) = text := by
  simp [dropLastSep]

theorem dropLastSep_of_not_mem {c : α} {text : List α} (h : c ∉ text) :
    dropLastSep c text = text := by
  rw [dropLastSep, if_neg]
  intro hlast
  exact h (List.mem_of_getLast? hlast)

theorem tokensAfter_nil (c : α) : tokensAfter c ([] : List α) = [] := by
  simp [tokensAfter, cutAt]

/-- A token and what follows its separator, whichever of the two is called. -/
theorem cons_tokensAfter {c : α} {before : List α} (hnot : c ∉ before) (after : List α)
    (ih : after ≠ [] → tokensAfter c after = (dropLastSep c after).splitOn c) :
    before :: tokensAfter c after = (dropLastSep c (before ++ c :: after)).splitOn c := by
  by_cases hafter : after = []
  · subst hafter
    rw [dropLastSep_concat, tokensAfter_nil, List.splitOn_eq_singleton hnot]
  · rw [ih hafter, dropLastSep_append_cons c before hafter,
      List.splitOn_append_cons_self_of_not_mem hnot]

theorem tokensAfter_eq_splitOn {c : α} {text : List α} (h : text ≠ []) :
    tokensAfter c text = (dropLastSep c text).splitOn c := by
  -- induction on the cuts
  induction text using tokensAfter.induct c with
  | case1 text before after hcut ih =>
      rcases eq_of_cutAt hcut with ⟨rfl, hnot⟩
      rw [tokensAfter, hcut]
      exact cons_tokensAfter hnot after ih
  | case2 hcut => exact absurd rfl h
  | case3 text hcut hempty =>
      have hnot := cutAt_eq_none.1 hcut
      rw [tokensAfter, hcut, dropLastSep_of_not_mem hnot, List.splitOn_eq_singleton hnot]
      simp [hempty]

/-- The tokens are the parts between the separators, but a separator at the end does not count. -/
theorem tokens_eq_splitOn (c : α) (text : List α) :
    tokens c text = (dropLastSep c text).splitOn c := by
  cases hcut : cutAt c text with
  | none =>
      have hnot := cutAt_eq_none.1 hcut
      rw [tokens, hcut, dropLastSep_of_not_mem hnot, List.splitOn_eq_singleton hnot]
  | some p =>
      rcases eq_of_cutAt hcut with ⟨rfl, hnot⟩
      rw [tokens, hcut]
      exact cons_tokensAfter hnot p.2 tokensAfter_eq_splitOn

/-! ## Joining and counting -/

theorem length_splitOn (c : α) (text : List α) : (text.splitOn c).length = text.count c + 1 := by
  induction text with
  | nil => simp
  | cons x xs ih =>
      rw [List.splitOn_cons_eq_if_modifyHead]
      by_cases hx : x = c
      · simp [hx, ih]
      · simp [hx, ih]

/-- The tokens joined again give the text without the separator at its end. -/
theorem intercalate_tokens (c : α) (text : List α) :
    [c].intercalate (tokens c text) = dropLastSep c text := by
  rw [tokens_eq_splitOn, List.intercalate_splitOn]

theorem length_tokens (c : α) (text : List α) :
    (tokens c text).length = (dropLastSep c text).count c + 1 := by
  rw [tokens_eq_splitOn, length_splitOn]

theorem dropLastSep_eq_self_iff {c : α} {text : List α} :
    dropLastSep c text = text ↔ text.getLast? ≠ some c := by
  constructor
  · intro h hlast
    rw [dropLastSep, if_pos hlast] at h
    have hlen := congrArg List.length h
    have hpos : text ≠ [] := by
      rintro rfl
      cases hlast
    have hpos' := List.length_pos_iff.2 hpos
    rw [List.length_dropLast] at hlen
    omega
  · intro h
    rw [dropLastSep, if_neg h]

/-- The separator that is dropped is one of those that are counted. -/
theorem count_dropLastSep_eq_iff {c : α} {text : List α} :
    (dropLastSep c text).count c = text.count c ↔ text.getLast? ≠ some c := by
  constructor
  · intro h hlast
    rcases List.getLast?_eq_some_iff.1 hlast with ⟨front, rfl⟩
    rw [dropLastSep_concat, List.count_append, List.count_singleton_self] at h
    omega
  · intro h
    rw [dropLastSep, if_neg h]

omit [DecidableEq α] in
/-- Parts that are joined stand in the result one after the other. -/
theorem flatten_sublist_intercalate (sep : List α) (parts : List (List α)) :
    parts.flatten.Sublist (sep.intercalate parts) := by
  induction parts with
  | nil => simp
  | cons part parts ih =>
      cases parts with
      | nil => simp
      | cons next rest =>
          rw [List.intercalate_cons_cons, List.flatten_cons]
          exact ((List.sublist_append_left part sep).append ih)

theorem dropLastSep_sublist (c : α) (text : List α) : (dropLastSep c text).Sublist text := by
  rw [dropLastSep]
  split
  · exact List.dropLast_sublist text
  · exact List.Sublist.refl text

/-- The tokens stand in the text one after the other. -/
theorem flatten_tokens_sublist (c : α) (text : List α) : (tokens c text).flatten.Sublist text := by
  have hjoin := flatten_sublist_intercalate [c] (tokens c text)
  rw [intercalate_tokens] at hjoin
  exact hjoin.trans (dropLastSep_sublist c text)

end Tokens
