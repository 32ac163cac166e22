import ExtHttp.ArrayKey

/-!
# Ranges of a client's request

How `php_http_curle_option_set_range` puts the option `range` into words for `CURLOPT_RANGE`.
-/
namespace ExtHttp

/-- What the options of a handler keep of ranges: the string at `ranges.data`, if there is memory at
all, and whether ranges have been requested. -/
structure RangeOptions where
  ranges : Option Bytes
  rangeRequest : Bool
  deriving DecidableEq, Repr

/-- What is appended for a pair. -/
def appendRange (ranges : Bytes) (pair : ℤ × ℤ) : Bytes :=
  if 0 ≤ pair.1 then
    if 0 < pair.2 then ranges ++ (formatLong pair.1 ++ [hyphen] ++ formatLong pair.2 ++ [comma])
    else ranges ++ (formatLong pair.1 ++ [hyphen])
  else if 0 < pair.2 then ranges ++ ([hyphen] ++ formatLong pair.2)
  else ranges

/-- `php_http_curle_option_set_range`. `php_http_buffer_reset` leaves the string where it is, and
the last character is written over; what stands in the memory then goes to `CURLOPT_RANGE`. -/
def optionSetRange (options : RangeOptions) (val : Option (List (ℤ × ℤ))) : RangeOptions :=
  let ranges := (val.getD []).foldl appendRange []
  if ranges ≠ [] then ⟨some ranges.dropLast, true⟩ else options

/-- A pair as a range, if it is one. -/
def rangeText (pair : ℤ × ℤ) : Option Bytes :=
  if 0 ≤ pair.1 then
    if 0 < pair.2 then some (formatLong pair.1 ++ [hyphen] ++ formatLong pair.2)
    else some (formatLong pair.1 ++ [hyphen])
  else if 0 < pair.2 then some ([hyphen] ++ formatLong pair.2)
  else none

/-- The ranges of a list of pairs -/
def rangesText (pairs : List (ℤ × ℤ)) : Bytes := [comma].intercalate (pairs.filterMap rangeText)

/-- A pair with a beginning and an end, or with neither of them -/
def Paired (pair : ℤ × ℤ) : Prop := 0 ≤ pair.1 ↔ 0 < pair.2

instance : DecidablePred Paired := fun pair => inferInstanceAs (Decidable (0 ≤ pair.1 ↔ 0 < pair.2))

theorem appendRange_eq (ranges : Bytes) (pair : ℤ × ℤ) :
    appendRange ranges pair = ranges ++ appendRange [] pair := by
  unfold appendRange
  split_ifs <;> simp

theorem foldl_appendRange (ranges : Bytes) (pairs : List (ℤ × ℤ)) :
    pairs.foldl appendRange ranges = ranges ++ pairs.flatMap (appendRange []) := by
  induction pairs generalizing ranges with
  | nil => simp
  | cons pair pairs ih =>
    rw [List.foldl_cons, ih, appendRange_eq, List.flatMap_cons, List.append_assoc]

/-- For a pair that has both ends a range and a comma is written, and for any other no comma. -/
theorem appendRange_text (pair : ℤ × ℤ) : appendRange [] pair =
    (rangeText pair).elim [] fun text => text ++ if Paired pair then [comma] else [] := by
  unfold appendRange rangeText Paired
  split_ifs <;> simp_all

theorem intercalate_concat (sep : Bytes) {texts : List Bytes} (h : texts ≠ []) :
    texts.flatMap (fun text => text ++ sep) = sep.intercalate texts ++ sep := by
  induction texts with
  | nil => exact absurd rfl h
  | cons text texts ih =>
    cases texts with
    | nil => simp [List.intercalate]
    | cons next texts =>
      rw [List.flatMap_cons, ih (List.cons_ne_nil _ _)]
      simp [List.intercalate, List.intersperse]

theorem flatMap_paired {pairs : List (ℤ × ℤ)} (h : ∀ pair ∈ pairs, Paired pair) :
    pairs.flatMap (appendRange []) = (pairs.filterMap rangeText).flatMap fun text =>
      text ++ [comma] := by
  induction pairs with
  | nil => rfl
  | cons pair pairs ih =>
    rw [List.flatMap_cons, ih fun p hp => h p (List.mem_cons_of_mem _ hp), appendRange_text,
      if_pos (h pair List.mem_cons_self)]
    cases hrange : rangeText pair with
    | none => simp [hrange]
    | some text => simp [hrange]

theorem length_flatMap_le (pairs : List (ℤ × ℤ)) : (pairs.flatMap (appendRange [])).length ≤
    ((pairs.filterMap rangeText).flatMap fun text => text ++ [comma]).length := by
  induction pairs with
  | nil => exact Nat.le_refl _
  | cons pair pairs ih =>
    rw [List.flatMap_cons, List.length_append, appendRange_text]
    cases hrange : rangeText pair with
    | none => simpa [hrange] using ih
    | some text =>
      rw [List.filterMap_cons_some hrange, List.flatMap_cons, List.length_append]
      refine Nat.add_le_add ?_ ih
      rw [Option.elim_some]
      split_ifs <;> simp

/-- Where a pair has one end only, a comma is missing. -/
theorem length_flatMap_lt {pairs : List (ℤ × ℤ)} {pair : ℤ × ℤ} (hpair : pair ∈ pairs)
    (h : ¬ Paired pair) :
    (pairs.flatMap (appendRange [])).length <
      ((pairs.filterMap rangeText).flatMap fun text => text ++ [comma]).length := by
  obtain ⟨front, back, rfl⟩ := List.append_of_mem hpair
  obtain ⟨text, htext⟩ : ∃ text, rangeText pair = some text := by
    unfold Paired at h
    unfold rangeText
    split_ifs with hfirst hlast hlast
    · exact ⟨_, rfl⟩
    · exact ⟨_, rfl⟩
    · exact ⟨_, rfl⟩
    · exact absurd (iff_of_false hfirst hlast) h
  have hone : (appendRange [] pair).length < (text ++ [comma]).length := by
    rw [appendRange_text, htext, Option.elim_some, if_neg h]
    simp
  have hfront := length_flatMap_le front
  have hback := length_flatMap_le back
  simp only [List.flatMap_append, List.flatMap_cons, List.filterMap_append,
    List.filterMap_cons, htext, List.length_append] at hone hfront hback ⊢
  omega

theorem filterMap_eq_nil_iff {pairs : List (ℤ × ℤ)} : pairs.filterMap rangeText = [] ↔
    ∀ pair ∈ pairs, pair.1 < 0 ∧ pair.2 ≤ 0 := by
  rw [List.filterMap_eq_nil_iff]
  refine forall₂_congr fun pair _ => ?_
  unfold rangeText
  split_ifs with hfirst hlast hlast
  · exact iff_of_false (by simp) fun h => by omega
  · exact iff_of_false (by simp) fun h => by omega
  · exact iff_of_false (by simp) fun h => by omega
  · exact iff_of_true rfl ⟨not_le.mp hfirst, not_lt.mp hlast⟩

/-- All ranges come to `CURLOPT_RANGE` as they are exactly if each pair has both ends or neither of
them, and there is one that has both, or no string left from an earlier call. -/
theorem optionSetRange_iff (options : RangeOptions) (pairs : List (ℤ × ℤ)) :
    (optionSetRange options (some pairs)).ranges.getD [] = rangesText pairs ↔
      (∀ pair ∈ pairs, Paired pair) ∧
        ((∃ pair ∈ pairs, 0 ≤ pair.1 ∨ 0 < pair.2) ∨ options.ranges.getD [] = []) := by
  have hnone : (∃ pair ∈ pairs, 0 ≤ pair.1 ∨ 0 < pair.2) ↔ pairs.filterMap rangeText ≠ [] := by
    rw [ne_eq, filterMap_eq_nil_iff]
    simp only [not_forall, not_and_or, not_lt, not_le, exists_prop]
  have hlength := length_flatMap_le pairs
  rw [hnone]
  simp only [optionSetRange, Option.getD_some, foldl_appendRange, List.nil_append, rangesText]
  by_cases htexts : pairs.filterMap rangeText = []
  · have hempty : pairs.flatMap (appendRange []) = [] := by
      rw [htexts] at hlength
      exact List.length_eq_zero_iff.mp (Nat.le_zero.mp hlength)
    have hpaired : ∀ pair ∈ pairs, Paired pair := by
      intro pair hpair
      obtain ⟨hfirst, hlast⟩ := filterMap_eq_nil_iff.mp htexts pair hpair
      exact iff_of_false (not_le.mpr hfirst) (not_lt.mpr hlast)
    rw [hempty, if_neg fun h => h rfl, htexts]
    exact ⟨fun h => ⟨hpaired, .inr h⟩, fun h => h.2.resolve_left fun hne => hne rfl⟩
  · have hconcat := intercalate_concat [comma] htexts
    have hsome : pairs.flatMap (appendRange []) ≠ [] := by
      intro hempty
      refine htexts (List.filterMap_eq_nil_iff.mpr fun pair hpair => ?_)
      have hpiece := List.flatMap_eq_nil_iff.mp hempty pair hpair
      rw [appendRange_text] at hpiece
      cases hrange : rangeText pair with
      | none => rfl
      | some text =>
        rw [hrange, Option.elim_some, List.append_eq_nil_iff] at hpiece
        have hne : rangeText pair ≠ some [] := by
          unfold rangeText
          split_ifs <;> simp
        exact absurd (hpiece.1 ▸ hrange) hne
    rw [if_pos hsome]
    simp only [Option.getD_some, ne_eq, htexts, not_false_eq_true, true_or, and_true]
    constructor
    · intro h pair hpair
      by_contra hsingle
      have hless := length_flatMap_lt hpair hsingle
      have hlast := congrArg List.length h
      have hpos := List.length_pos_iff.mpr hsome
      rw [hconcat, List.length_append, List.length_singleton] at hless
      rw [List.length_dropLast] at hlast
      omega
    · intro h
      rw [flatMap_paired h, hconcat, List.dropLast_concat]

/-- A range without an end loses its hyphen. -/
theorem optionSetRange_open :
    (optionSetRange ⟨none, false⟩ (some [(100, 0)])).ranges.getD [] ≠ rangesText [(100, 0)] := by
  decide

end ExtHttp
